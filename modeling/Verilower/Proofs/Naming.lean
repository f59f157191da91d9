import Verilower.Proofs.Drafts

namespace Verilower
set_option autoImplicit true

namespace Spelling

def mark : List Char := ['a', 'r', 'r']

def clean (c : Char) : Char := if isIdentChar c then c else '_'

/-- The words of an item: its own word, and a mark for each dimension. -/
def words (x : List Char × Nat) : List (List Char) := x.1 :: List.replicate x.2 mark

/-- The words of items in a row, with dollar signs in between. -/
def spell (xs : List (List Char × Nat)) : List Char :=
  ['$'].intercalate (xs.flatMap words)

/-- An item whose word is no mark and has no dollar sign in it. -/
def Legible (x : List Char × Nat) : Prop := '$' ∉ x.1 ∧ x.1 ≠ mark

theorem words_ne_nil : words x ≠ [] := List.cons_ne_nil _ _

theorem replicate_append_inj {a : α} (hl : l.head? ≠ some a) (hl' : l'.head? ≠ some a)
    (h : List.replicate m a ++ l = List.replicate n a ++ l') : m = n ∧ l = l' := by
  induction m generalizing n with
  | zero =>
    cases n with
    | zero => exact ⟨rfl, h⟩
    | succ n =>
      subst h
      exact absurd rfl hl
  | succ m ih =>
    cases n with
    | zero =>
      subst h
      exact absurd rfl hl'
    | succ n =>
      obtain ⟨hm, hl⟩ := ih (List.cons.inj h).2
      exact ⟨congrArg (· + 1) hm, hl⟩

theorem head?_ne_mark {xs : List (List Char × Nat)} (hx : ∀ x ∈ xs, Legible x) :
    (xs.flatMap words).head? ≠ some mark := by
  cases xs with
  | nil => exact nofun
  | cons x xs => exact fun h => (hx x List.mem_cons_self).2 (Option.some.inj h)

theorem flatMap_words_inj {xs ys : List (List Char × Nat)} (hx : ∀ x ∈ xs, Legible x)
    (hy : ∀ y ∈ ys, Legible y) (h : xs.flatMap words = ys.flatMap words) : xs = ys := by
  induction xs generalizing ys with
  | nil =>
    cases ys with
    | nil => rfl
    | cons y ys => cases h
  | cons x xs ih =>
    cases ys with
    | nil => cases h
    | cons y ys =>
      have hxs : ∀ x ∈ xs, Legible x := fun z hz => hx z (List.mem_cons_of_mem _ hz)
      have hys : ∀ y ∈ ys, Legible y := fun z hz => hy z (List.mem_cons_of_mem _ hz)
      obtain ⟨hword, hrest⟩ := List.cons.inj h
      -- The marks of the first item end at the next word, which is no mark.
      obtain ⟨hdim, hrest⟩ := replicate_append_inj (head?_ne_mark hxs) (head?_ne_mark hys) hrest
      rw [Prod.ext hword hdim, ih hxs hys hrest]

theorem append_cons_inj {a : α} {l l' r r' : List α} (hr : a ∉ r) (hr' : a ∉ r')
    (h : l ++ a :: r = l' ++ a :: r') : l = l' ∧ r = r' := by
  rcases List.append_eq_append_iff.1 h with ⟨m, rfl, hm⟩ | ⟨m, rfl, hm⟩
  · cases m with
    | nil => exact ⟨(List.append_nil _).symm, (List.cons.inj hm).2⟩
    | cons b m =>
      rw [(List.cons.inj hm).2] at hr
      exact absurd (List.mem_append_right _ List.mem_cons_self) hr
  · cases m with
    | nil => exact ⟨List.append_nil _, (List.cons.inj hm).2.symm⟩
    | cons b m =>
      rw [(List.cons.inj hm).2] at hr'
      exact absurd (List.mem_append_right _ List.mem_cons_self) hr'

theorem dollar_notMem_words (hx : Legible x) : ∀ w ∈ words x, '$' ∉ w := by
  intro w hw
  rcases List.mem_cons.1 hw with rfl | hw
  · exact hx.1
  · rw [List.eq_of_mem_replicate hw]
    decide

/-- Items can be read back from how they are spelled. -/
theorem spell_inj (hx : ∀ x ∈ xs, Legible x) (hy : ∀ y ∈ ys, Legible y) (hnx : xs ≠ [])
    (hny : ys ≠ []) (h : spell xs = spell ys) : xs = ys := by
  have hsplit : ∀ {zs : List (List Char × Nat)}, (∀ z ∈ zs, Legible z) → zs ≠ [] →
      (spell zs).splitOn '$' = zs.flatMap words := by
    intro zs hz hne
    apply List.splitOn_intercalate
    · intro w hw
      obtain ⟨z, hmem, hw⟩ := List.mem_flatMap.1 hw
      exact dollar_notMem_words (hz z hmem) w hw
    · obtain ⟨z, zs, rfl⟩ := List.exists_cons_of_ne_nil hne
      exact List.cons_ne_nil _ _
  apply flatMap_words_inj hx hy
  rw [← hsplit hx hnx, h, hsplit hy hny]

theorem intercalate_append {sep : List α} {ls rs : List (List α)} (hl : ls ≠ []) (hr : rs ≠ []) :
    sep.intercalate (ls ++ rs) = sep.intercalate ls ++ sep ++ sep.intercalate rs := by
  induction ls with
  | nil => exact absurd rfl hl
  | cons l ls ih =>
    cases ls with
    | nil => simp [List.intercalate_cons_of_ne_nil hr]
    | cons l' ls =>
      have htail := ih (List.cons_ne_nil l' ls)
      rw [List.cons_append] at htail ⊢
      rw [List.cons_append, List.intercalate_cons_cons, htail, List.intercalate_cons_cons]
      simp only [List.append_assoc]

theorem map_intercalate {sep : List α} {ls : List (List α)} {f : α → β} :
    (sep.intercalate ls).map f = (sep.map f).intercalate (ls.map (List.map f)) := by
  induction ls with
  | nil => rfl
  | cons l ls ih =>
    cases ls with
    | nil => simp
    | cons l' ls =>
      rw [List.intercalate_cons_cons, List.map_append, List.map_append, ih]
      simp only [List.map_cons, List.intercalate_cons_cons]

theorem spell_cons (h : xs ≠ []) : spell (x :: xs) = spell [x] ++ ['$'] ++ spell xs := by
  have hrest : xs.flatMap words ≠ [] := by
    obtain ⟨y, xs, rfl⟩ := List.exists_cons_of_ne_nil h
    exact List.cons_ne_nil _ _
  unfold spell
  rw [List.flatMap_cons, intercalate_append words_ne_nil hrest, List.flatMap_singleton]

theorem intercalate_spell {xs : List (List Char × Nat)} :
    ['$'].intercalate (xs.map fun x => spell [x]) = spell xs := by
  induction xs with
  | nil => rfl
  | cons x xs ih =>
    by_cases h : xs = []
    · subst h
      simp
    · rw [List.map_cons, List.intercalate_cons_of_ne_nil (by simpa using h), ih, spell_cons h]

theorem spell_succ : spell [(w, n + 1)] = spell [(w, n)] ++ ['$'] ++ mark := by
  have hwords : words (w, n + 1) = words (w, n) ++ [mark] := by
    simp [words, List.replicate_succ']
  simp only [spell, List.flatMap_singleton, hwords,
    intercalate_append words_ne_nil (List.cons_ne_nil mark []), List.intercalate_singleton]

def cleaned (x : List Char × Nat) : List Char × Nat := (x.1.map clean, x.2)

theorem map_clean_spell : (spell xs).map clean = spell (xs.map cleaned) := by
  have hwords : ∀ x, (words x).map (List.map clean) = words (cleaned x) := by
    intro x
    have hmark : mark.map clean = mark := by decide
    simp [words, cleaned, hmark]
  have hsep : ['$'].map clean = ['$'] := by decide
  simp only [spell, map_intercalate, hsep, List.map_flatMap, hwords, List.flatMap_map]

theorem sanitize_toList : (sanitize w).toList = w.toList.map clean := String.toList_ofList

theorem sanitize_eq_of_clean (h : w.toList.map clean = w'.toList.map clean) :
    sanitize w = sanitize w' := congrArg String.ofList h

theorem clean_eq_iff (hd : isIdentChar d = true) (hd' : d ≠ '_') : clean c = d ↔ c = d := by
  unfold clean
  split
  · exact Iff.rfl
  · rename_i hc
    constructor
    · exact fun h => absurd h.symm hd'
    · rintro rfl
      exact absurd hd hc

theorem mem_map_clean {w : List Char} (hd : isIdentChar d = true) (hd' : d ≠ '_') :
    d ∈ w.map clean ↔ d ∈ w := by
  simp only [List.mem_map, clean_eq_iff hd hd', exists_eq_right]

end Spelling

theorem eq_of_getElem?_map {f : α → β} {l : List α} (hl : (l.map f).Nodup) {i k : Nat}
    (hi : l[i]? = some a) (hk : l[k]? = some b) (h : f a = f b) : i = k := by
  have hlt : i < (l.map f).length := by
    rw [List.length_map]
    exact (List.getElem?_eq_some_iff.1 hi).1
  apply (List.getElem?_inj hlt hl).1
  rw [List.getElem?_map, List.getElem?_map, hi, hk, Option.map_some, Option.map_some, h]

theorem toString_injective {k n : Nat} (h : toString k = toString n) : k = n := by
  have hd := congrArg (fun s => Nat.ofDigitChars 10 s.toList 0) h
  simpa [Nat.toString_eq_repr, Nat.toList_repr, Nat.ofDigitChars_ten_toDigits] using hd

theorem underscore_notMem_toDigits (n : Nat) : '_' ∉ Nat.toDigits 10 n := by
  intro h
  have hdigit := Nat.isDigit_of_mem_toDigits (by decide) (by decide) h
  exact absurd hdigit (by decide)

theorem labelName_inj (h : labelName m n = labelName m' n') : (m, n) = (m', n') := by
  have hchars : Nat.toDigits 10 m ++ '_' :: Nat.toDigits 10 n =
      Nat.toDigits 10 m' ++ '_' :: Nat.toDigits 10 n' := by
    have hlist := congrArg String.toList h
    simpa [labelName, Nat.toString_eq_repr, Nat.toList_repr] using hlist
  obtain ⟨hm, -, hn⟩ := (List.append_cons_inj_of_notMem (underscore_notMem_toDigits m)
    (underscore_notMem_toDigits n)).1 hchars
  have hread : ∀ {k k' : Nat}, Nat.toDigits 10 k = Nat.toDigits 10 k' → k = k' := fun hk =>
    toString_injective (by simp only [Nat.toString_eq_ofList_toDigits, hk])
  rw [hread hm, hread hn]

/-- The type of the elements under all dimensions. -/
def Ty.core : Ty → Ty
  | .array elem => elem.core
  | ty => ty

theorem Ty.core_ne_array {ty : Ty} : ty.core ≠ .array elem := by
  induction ty with
  | array elem ih => exact ih
  | _ => exact nofun

theorem Ty.eq_of_core {ty ty' : Ty} (hc : ty.core = ty'.core)
    (hd : ty.dimensions = ty'.dimensions) : ty = ty' := by
  induction ty generalizing ty' with
  | array elem ih =>
    cases ty' with
    | array elem' =>
      have hcore : elem.core = elem'.core := hc
      rw [ih hcore (Nat.add_right_cancel hd)]
    | _ => cases hd
  | _ =>
    cases ty' with
    | array elem' => cases hd
    | _ => exact hc

open Spelling

namespace Program

def keywords : List (Ty × String) :=
  [(.bool, "boolean"), (.byte, "byte"), (.char, "char"), (.short, "short"), (.int, "int"),
    (.long, "long"), (.float, "float"), (.double, "double"), (.void, "void"), (.null, "null_type")]

def Word (w : String) : Prop := '$' ∉ w.toList ∧ w ≠ "arr"

instance : DecidablePred Word := fun _ => inferInstanceAs (Decidable (_ ∧ _))

/-- Names that stay distinct when they are put together. -/
structure Plain (p : Program) : Prop where
  classes : ∀ c ∈ p.classes, Word (sanitize c.name)
  types : ∀ c ∈ p.classes, ∀ k ∈ keywords, sanitize c.name ≠ k.2
  methods : ∀ m ∈ p.methods, Word (sanitize m.name)
  fields : ∀ f ∈ p.fields, '.' ∉ f.name.toList
  class_inj : ∀ c ∈ p.classes, ∀ c' ∈ p.classes, sanitize c.name = sanitize c'.name →
    c.name = c'.name
  method_inj : ∀ m ∈ p.methods, ∀ m' ∈ p.methods, sanitize m.name = sanitize m'.name →
    m.name = m'.name
  field_inj : ∀ f ∈ p.fields, ∀ f' ∈ p.fields, sanitize f.name = sanitize f'.name →
    f.name = f'.name

def Item (p : Program) (ty : Ty) (x : List Char × Nat) : Prop :=
  ∃ w, p.typeName ty.core = .ok w ∧ x = (w.toList, ty.dimensions)

variable {p : Program}

theorem fragment_item {w : String} (h : p.fragment ty = .ok w) :
    ∃ x, p.Item ty x ∧ w.toList = spell [x] := by
  induction ty generalizing w with
  | array elem ih =>
    obtain ⟨w', hw, h₁⟩ := except_bind_eq_ok.1 h
    cases h₁
    obtain ⟨x, ⟨c, hc, rfl⟩, hx⟩ := ih hw
    refine ⟨_, ⟨c, hc, rfl⟩, ?_⟩
    have hmark : "$arr".toList = ['$'] ++ mark := by decide
    rw [String.toList_append, hx, hmark, Ty.dimensions, spell_succ, List.append_assoc]
  | _ => exact ⟨_, ⟨w, h, rfl⟩, by simp [spell, words, Ty.dimensions]⟩

theorem mapM_fragment_items {ws : List String} (h : tys.mapM p.fragment = .ok ws) :
    ∃ xs, List.Forall₂ p.Item tys xs ∧ ws.map String.toList = xs.map fun x => spell [x] := by
  induction tys generalizing ws with
  | nil =>
    cases h
    exact ⟨[], .nil, rfl⟩
  | cons ty tys ih =>
    rw [List.mapM_cons] at h
    obtain ⟨w, hw, h₁⟩ := except_bind_eq_ok.1 h
    obtain ⟨ws', hws, h₂⟩ := except_bind_eq_ok.1 h₁
    cases h₂
    obtain ⟨x, hx, hwx⟩ := fragment_item hw
    obtain ⟨xs, hxs, hwxs⟩ := ih hws
    exact ⟨x :: xs, .cons hx hxs, by rw [List.map_cons, List.map_cons, hwx, hwxs]⟩

theorem tag_spelled (h : p.tag ty = .ok x) :
    ∃ y, p.Item ty y ∧ x.name.toList = "$type_".toList ++ spell [cleaned y] := by
  obtain ⟨n, hn, h₁⟩ := except_bind_eq_ok.1 h
  obtain ⟨w, hw, h₂⟩ := except_bind_eq_ok.1 hn
  cases h₁
  cases h₂
  obtain ⟨y, hy, hwy⟩ := fragment_item hw
  exact ⟨y, hy, by rw [String.toList_append, sanitize_toList, hwy, map_clean_spell]; rfl⟩

/-- A procedure is spelled by its class, its result, its name and its parameters. -/
theorem procedureName_spelled (h : p.procedureName m = .ok n) :
    ∃ r xs, p.Item m.returns r ∧ List.Forall₂ p.Item m.params xs ∧
      n.toList = spell ((((p.className m.owner).toList, 0) :: r :: (m.name.toList, 0) :: xs).map
        cleaned) := by
  obtain ⟨result, hr, h₁⟩ := except_bind_eq_ok.1 h
  obtain ⟨params, hps, h₂⟩ := except_bind_eq_ok.1 h₁
  cases h₂
  obtain ⟨r, hr, hwr⟩ := fragment_item hr
  obtain ⟨xs, hxs, hwxs⟩ := mapM_fragment_items hps
  refine ⟨r, xs, hr, hxs, ?_⟩
  have hsep : "$".toList = ['$'] := by decide
  have hword : ∀ w : String, w.toList = spell [(w.toList, 0)] := fun w => by
    simp [spell, words]
  rw [← map_clean_spell, sanitize_toList, String.toList_intercalate, hsep, ← intercalate_spell]
  simp only [List.map_cons, hwr, hwxs, ← hword]

/-- A field is spelled by its class and its name, with a dot in between. -/
theorem fieldIdentName_spelled : (p.fieldIdentName f).toList =
    (p.className f.owner).toList.map clean ++ '.' :: f.name.toList.map clean := by
  have hsep : ".".toList = ['.'] := by decide
  have hclean : clean '.' = '.' := by decide
  rw [fieldIdentName, sanitize_toList, fieldName, String.toList_append, String.toList_append,
    hsep, List.map_append, List.map_append, List.map_singleton, hclean, List.append_assoc]
  rfl

theorem typeName_core {ty : Ty} (h : p.typeName ty.core = .ok w) :
    (ty.core, w) ∈ keywords ∨ ∃ i c, ty.core = .cls i ∧ p.classes[i]? = some c ∧ w = c.name := by
  have hne : ∀ elem, ty.core ≠ .array elem := fun _ => Ty.core_ne_array
  generalize ty.core = t at h hne
  cases t with
  | array elem => exact absurd rfl (hne elem)
  | cls i =>
    obtain ⟨c, hc, h₁⟩ := except_bind_eq_ok.1 h
    cases h₁
    exact .inr ⟨i, c, rfl, entry_eq_ok.1 hc, rfl⟩
  | _ =>
    cases h
    exact .inl (by decide)

namespace Plain

theorem legible (h : Word (sanitize w)) : Legible (cleaned (w.toList, n)) := by
  constructor
  · rw [cleaned, ← sanitize_toList]
    exact h.1
  · intro hw
    have harr : sanitize w = "arr" := congrArg String.ofList hw
    exact h.2 harr

theorem sanitize_keyword (h : (ty, w) ∈ keywords) : sanitize w = w := by
  have hclean : ∀ k ∈ keywords, sanitize k.2 = k.2 := by decide
  exact hclean (ty, w) h

theorem word_keyword (h : (ty, w) ∈ keywords) : Word w := by
  have hword : ∀ k ∈ keywords, Word k.2 := by decide
  exact hword (ty, w) h

theorem keyword_inj (h : (ty, w) ∈ keywords) (h' : (ty', w) ∈ keywords) : ty = ty' := by
  have hinj : ∀ k ∈ keywords, ∀ k' ∈ keywords, k.2 = k'.2 → k.1 = k'.1 := by decide
  exact hinj (ty, w) h (ty', w) h' rfl

theorem legible_item (hp : p.Plain) (h : p.Item ty x) : Legible (cleaned x) := by
  obtain ⟨w, hw, rfl⟩ := h
  have hword : Word (sanitize w) := by
    rcases typeName_core hw with hk | ⟨i, c, -, hc, rfl⟩
    · rw [sanitize_keyword hk]
      exact word_keyword hk
    · exact hp.classes c (List.mem_of_getElem? hc)
  exact legible hword

theorem legible_items (hp : p.Plain) (h : List.Forall₂ p.Item tys xs) :
    ∀ x ∈ xs, Legible (cleaned x) := by
  induction h with
  | nil => exact nofun
  | cons hx _ ih =>
    intro y hy
    rcases List.mem_cons.1 hy with rfl | hy
    · exact hp.legible_item hx
    · exact ih y hy

theorem cls_inj (hp : p.Plain) (hd : p.toDraft.Tidy) {i j : ClassId} (hi : p.classes[i]? = some c)
    (hj : p.classes[j]? = some c') (h : sanitize c.name = sanitize c'.name) : i = j := by
  have hname := hp.class_inj c (List.mem_of_getElem? hi) c' (List.mem_of_getElem? hj) h
  exact eq_of_getElem?_map hd.names hi hj hname

theorem item_inj (hp : p.Plain) (hd : p.toDraft.Tidy) (hx : p.Item ty x) (hy : p.Item ty' y)
    (h : cleaned x = cleaned y) : ty = ty' := by
  obtain ⟨w, hw, rfl⟩ := hx
  obtain ⟨w', hw', rfl⟩ := hy
  obtain ⟨hword, hdim⟩ := Prod.mk.inj h
  have hsame : sanitize w = sanitize w' := sanitize_eq_of_clean hword
  refine Ty.eq_of_core ?_ hdim
  rcases typeName_core hw with hk | ⟨i, c, hi, hc, rfl⟩
  · rw [sanitize_keyword hk] at hsame
    rcases typeName_core hw' with hk' | ⟨i', c', hi', hc', rfl⟩
    · rw [sanitize_keyword hk'] at hsame
      subst hsame
      exact keyword_inj hk hk'
    · exact absurd hsame.symm (hp.types c' (List.mem_of_getElem? hc') (ty.core, w) hk)
  · rcases typeName_core hw' with hk' | ⟨i', c', hi', hc', rfl⟩
    · rw [sanitize_keyword hk'] at hsame
      exact absurd hsame (hp.types c (List.mem_of_getElem? hc) (ty'.core, w') hk')
    · rw [hi, hi', hp.cls_inj hd hc hc' hsame]

theorem items_inj (hp : p.Plain) (hd : p.toDraft.Tidy) (hxs : List.Forall₂ p.Item tys xs)
    (hys : List.Forall₂ p.Item tys' ys) (h : xs.map cleaned = ys.map cleaned) : tys = tys' := by
  induction hxs generalizing tys' ys with
  | nil =>
    cases hys with
    | nil => rfl
    | cons => cases h
  | cons hx _ ih =>
    cases hys with
    | nil => cases h
    | cons hy hys =>
      obtain ⟨hhead, htail⟩ := List.cons.inj h
      rw [hp.item_inj hd hx hy hhead, ih hys htail]

theorem tag_inj (hp : p.Plain) (hd : p.toDraft.Tidy) (hx : p.tag ty = .ok x)
    (hy : p.tag ty' = .ok y) (h : x.name = y.name) : ty = ty' := by
  obtain ⟨a, ha, hxa⟩ := tag_spelled hx
  obtain ⟨b, hb, hyb⟩ := tag_spelled hy
  rw [h, hyb] at hxa
  have hspell := List.append_cancel_left hxa
  have hitems : [cleaned b] = [cleaned a] := by
    apply spell_inj _ _ (List.cons_ne_nil _ _) (List.cons_ne_nil _ _) hspell
    · simpa using hp.legible_item hb
    · simpa using hp.legible_item ha
  exact hp.item_inj hd ha hb (List.cons.inj hitems).1.symm

theorem className_inj (hp : p.Plain) (hd : p.toDraft.Tidy) (hi : i < p.classes.length)
    (hj : j < p.classes.length) (h : sanitize (p.className i) = sanitize (p.className j)) :
    i = j := by
  have hname : ∀ {k} (hk : k < p.classes.length), p.className k = p.classes[k].name := by
    intro k hk
    rw [className, List.getElem?_eq_getElem hk]
  rw [hname hi, hname hj] at h
  exact hp.cls_inj hd (List.getElem?_eq_getElem hi) (List.getElem?_eq_getElem hj) h

theorem word_className (hp : p.Plain) (hi : i < p.classes.length) :
    Word (sanitize (p.className i)) := by
  rw [className, List.getElem?_eq_getElem hi]
  exact hp.classes _ (List.getElem_mem hi)

/-- A method can be read back from the name of its procedure. -/
theorem procedureName_inj (hp : p.Plain) (hd : p.toDraft.Tidy) (hm : m ∈ p.methods)
    (hm' : m' ∈ p.methods) (hn : p.procedureName m = .ok n) (hn' : p.procedureName m' = .ok n) :
    m.owner = m'.owner ∧ m.name = m'.name ∧ m.params = m'.params ∧ m.returns = m'.returns := by
  have hlegible : ∀ {m r xs}, m ∈ p.methods → p.Item m.returns r →
      List.Forall₂ p.Item m.params xs →
      ∀ x ∈ (((p.className m.owner).toList, 0) :: r :: (m.name.toList, 0) :: xs).map cleaned,
        Legible x := by
    intro m r xs hm hr hxs x hx
    obtain ⟨y, hy, rfl⟩ := List.mem_map.1 hx
    simp only [List.mem_cons] at hy
    rcases hy with rfl | rfl | rfl | hy
    · exact legible (hp.word_className (hd.methods m hm))
    · exact hp.legible_item hr
    · exact legible (hp.methods m hm)
    · exact hp.legible_items hxs y hy
  obtain ⟨r, xs, hr, hxs, hspell⟩ := procedureName_spelled hn
  obtain ⟨r', xs', hr', hxs', hspell'⟩ := procedureName_spelled hn'
  have hitems := spell_inj (hlegible hm hr hxs) (hlegible hm' hr' hxs') (List.cons_ne_nil _ _)
    (List.cons_ne_nil _ _) (hspell.symm.trans hspell')
  simp only [List.map_cons, List.cons.injEq] at hitems
  obtain ⟨hclass, hresult, hname, hparams⟩ := hitems
  have hown := sanitize_eq_of_clean (Prod.mk.inj hclass).1
  have hsame := sanitize_eq_of_clean (Prod.mk.inj hname).1
  exact ⟨hp.className_inj hd (hd.methods m hm) (hd.methods m' hm') hown,
    hp.method_inj m hm m' hm' hsame, hp.items_inj hd hxs hxs' hparams,
    hp.item_inj hd hr hr' hresult⟩

/-- A field can be read back from its name, which the last dot divides. -/
theorem fieldIdentName_inj (hp : p.Plain) (hd : p.toDraft.Tidy) (hf : f ∈ p.fields)
    (hf' : f' ∈ p.fields) (h : p.fieldIdentName f = p.fieldIdentName f') :
    f.owner = f'.owner ∧ f.name = f'.name := by
  have hdot : ∀ f ∈ p.fields, '.' ∉ f.name.toList.map clean := fun f hf hmem =>
    hp.fields f hf ((mem_map_clean (by decide) (by decide)).1 hmem)
  have heq := congrArg String.toList h
  rw [fieldIdentName_spelled, fieldIdentName_spelled] at heq
  obtain ⟨hclass, hname⟩ := append_cons_inj (hdot f hf) (hdot f' hf') heq
  exact ⟨hp.className_inj hd (hd.fields f hf) (hd.fields f' hf') (sanitize_eq_of_clean hclass),
    hp.field_inj f hf f' hf' (sanitize_eq_of_clean hname)⟩

theorem fieldIdentName_ne_tag (hp : p.Plain) (hd : p.toDraft.Tidy) (hf : f ∈ p.fields)
    (hx : p.tag ty = .ok x) : p.fieldIdentName f ≠ x.name := by
  obtain ⟨y, -, hy⟩ := tag_spelled hx
  have hdollar : "$type_".toList = ['$', 't', 'y', 'p', 'e', '_'] := by decide
  have hclass : '$' ∉ (p.className f.owner).toList.map clean := by
    rw [← sanitize_toList]
    exact (hp.word_className (hd.fields f hf)).1
  intro h
  have heq := congrArg String.toList h
  rw [fieldIdentName_spelled, hy, hdollar] at heq
  generalize (p.className f.owner).toList.map clean = w at heq hclass
  cases w with
  | nil => exact absurd (List.cons.inj heq).1 (by decide)
  | cons c w => exact hclass ((List.cons.inj heq).1 ▸ List.mem_cons_self)

end Plain

end Program

end Verilower
