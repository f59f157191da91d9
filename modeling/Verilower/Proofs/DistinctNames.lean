import Mathlib.Data.List.Pairwise
import Verilower.Proofs.Closedness
import Verilower.Proofs.Lowering.Hygiene
import Verilower.Proofs.Naming

namespace Verilower
set_option autoImplicit true

open Ivl (Ident Decl Implementation Procedure)

def Ivl.Decl.procedureName? : Decl → Option String
  | .procedure p => some p.name
  | _ => none

/-- The name of a constant or a variable that is declared. -/
def Ivl.Decl.globalName? : Decl → Option String
  | .const x _ _ | .var x => some x.name
  | _ => none

/-- No two procedures share a name, and no two constants or variables do. -/
structure Ivl.Program.NamesDistinct (p : Ivl.Program) : Prop where
  procedures : (p.procedures.map Procedure.name).Nodup
  globals : (p.decls.filterMap Decl.globalName?).Nodup

theorem Ivl.Program.map_name_procedures {p : Ivl.Program} :
    p.procedures.map Procedure.name = p.decls.filterMap Decl.procedureName? := by
  rw [procedures, List.map_filterMap]
  congr 1
  funext d
  cases d <;> rfl

/-- Methods differ in class, name, parameters or result, and fields in class or name. -/
structure Program.MembersDistinct (p : Program) : Prop where
  methods : (p.methods.map fun m => (m.owner, m.name, m.params, m.returns)).Nodup
  fields : (p.fields.map fun f => (f.owner, f.name)).Nodup

namespace Session

/-- No two entries of the tables stand for the same name. -/
structure NamesApart (s : Session) : Prop where
  signatures : ∀ a ∈ s.registry.signatures, ∀ b ∈ s.registry.signatures, a.fromPrelude = false →
    b.fromPrelude = false → a.name = b.name → a.method = b.method
  tags : ∀ ty ∈ s.registry.tags, ∀ ty' ∈ s.registry.tags, ∀ x y, s.program.tag ty = .ok x →
    s.program.tag ty' = .ok y → x.name = y.name → ty = ty'
  fields : ∀ i ∈ s.registry.fields, ∀ k ∈ s.registry.fields, ∀ x y, s.program.fieldIdent i = .ok x →
    s.program.fieldIdent k = .ok y → x.name = y.name → i = k
  tags_fields : ∀ ty ∈ s.registry.tags, ∀ i ∈ s.registry.fields, ∀ x y, s.program.tag ty = .ok x →
    s.program.fieldIdent i = .ok y → x.name ≠ y.name

end Session

/-- A list without repetitions stays one if what is kept of its entries tells them apart. -/
theorem nodup_filterMap_iff {f : α → Option β} {l : List α} (hl : l.Nodup) :
    (l.filterMap f).Nodup ↔ ∀ a ∈ l, ∀ a' ∈ l, ∀ b, f a = some b → f a' = some b → a = a' := by
  have : Std.Symm fun a a' => ∀ b, f a = some b → ∀ b', f a' = some b' → b ≠ b' :=
    ⟨fun a a' h b hb b' hb' hbb => h b' hb' b hb hbb.symm⟩
  unfold List.Nodup
  rw [List.pairwise_filterMap]
  constructor
  · intro h a ha a' ha' b hb hb'
    by_contra hne
    exact h.forall ha ha' hne b hb b hb' rfl
  · intro h
    refine hl.imp_of_mem fun {a a'} ha ha' hne b hb b' hb' hbb => ?_
    subst hbb
    exact hne (h a ha a' ha' b hb hb')

theorem nodup_names_iff {l : List (α × Ident)} (hl : (l.map Prod.fst).Nodup) :
    (l.map (·.2.name)).Nodup ↔ ∀ a ∈ l, ∀ b ∈ l, a.2.name = b.2.name → a.1 = b.1 := by
  rw [List.nodup_map_iff_inj_on hl.of_map]
  constructor
  · exact fun h a ha b hb hab => congrArg Prod.fst (h a ha b hb hab)
  · exact fun h a ha b hb hab => List.inj_on_of_nodup_map hl ha hb (h a ha b hb hab)

namespace Prelude

/-- The names of the constants and variables of the prelude. -/
def names : List String := bare.declarations.filterMap Decl.globalName?

theorem names_nodup : names.Nodup := by decide

theorem declarations_eq : declarations q = bare.declarations ++ q.procedures.map .procedure := by
  simp [declarations, bare]

theorem procedureNames_declarations :
    (declarations q).filterMap Decl.procedureName? = q.procedures.map Procedure.name := by
  have hbare : bare.declarations.filterMap Decl.procedureName? = [] := rfl
  rw [declarations_eq, List.filterMap_append, hbare, List.filterMap_map, List.nil_append]
  exact congrFun List.filterMap_eq_map' _

theorem globalNames_declarations :
    (declarations q).filterMap Decl.globalName? = names := by
  rw [declarations_eq, List.filterMap_append, List.filterMap_map]
  simp [names, Function.comp_def, Decl.globalName?]

end Prelude

namespace Session

variable {s : Session} {is : List Implementation}

def tagNames (s : Session) : List String := s.tags.map (·.2.name)

def fieldNames (s : Session) : List String := s.fields.map (·.2.name)

/-- The names of the procedures that the prelude does not declare. -/
def ownNames (s : Session) : List String :=
  s.registry.sortedSignatures.filterMap fun sig =>
    if sig.fromPrelude = false then some sig.name else none

theorem procedureNames_assemble : (s.assemble is).procedures.map Procedure.name =
    s.prelude.procedures.map Procedure.name ++ s.ownNames := by
  have htags : s.tagDecls.filterMap Decl.procedureName? = [] := by
    simp [tagDecls, Decl.procedureName?]
  have hfields : s.fieldDecls.filterMap Decl.procedureName? = [] := by
    apply List.filterMap_eq_nil_iff.2
    intro d hd
    obtain ⟨i, x, f, -, -, -, rfl⟩ := mem_fieldDecls.1 hd
    unfold fieldDecl
    split <;> rfl
  have hown : s.procedureDecls.filterMap Decl.procedureName? = s.ownNames := by
    simp only [procedureDecls, ownNames, List.filterMap_map, List.filterMap_filter]
    congr 1
    funext sig
    cases sig.fromPrelude <;> rfl
  simp only [Ivl.Program.map_name_procedures, assemble, ownDecls, List.filterMap_append,
    Prelude.procedureNames_declarations, htags, hfields, hown, List.filterMap_map]
  simp [Function.comp_def, Decl.procedureName?]

theorem globalNames_assemble : (s.assemble is).decls.filterMap Decl.globalName? =
    Prelude.names ++ s.tagNames ++ s.fieldNames ++ s.registry.globals.map Ident.name := by
  have htags : s.tagDecls.filterMap Decl.globalName? = s.tagNames := by
    rw [tagDecls, List.filterMap_map]
    exact congrFun List.filterMap_eq_map' _
  have hfields : s.fieldDecls.filterMap Decl.globalName? = s.fieldNames := by
    rw [fieldDecls, List.filterMap_map, fieldNames, ← List.filterMap_eq_map']
    congr 1
    funext entry
    obtain ⟨i, x⟩ := entry
    simp only [Function.comp_apply]
    cases s.program.fields[i]? with
    | none => rfl
    | some f =>
      dsimp only
      split <;> rfl
  have hown : s.procedureDecls.filterMap Decl.globalName? = [] := by
    simp [procedureDecls, Decl.globalName?]
  simp only [assemble, ownDecls, List.filterMap_append, Prelude.globalNames_declarations, htags,
    hfields, hown, List.filterMap_map]
  simp [Function.comp_def, Decl.globalName?]

theorem mem_tagNames : n ∈ s.tagNames ↔
    ∃ ty ∈ s.registry.tags, ∃ x, s.program.tag ty = .ok x ∧ x.name = n := by
  simp only [tagNames, tags, Registry.sortedTags, List.mem_map, List.mem_mergeSort, Prod.exists,
    s.coherent.mem_tagTable, and_assoc, exists_and_left]

theorem mem_fieldNames : n ∈ s.fieldNames ↔
    ∃ i ∈ s.registry.fields, ∃ x, s.program.fieldIdent i = .ok x ∧ x.name = n := by
  simp only [fieldNames, fields, Registry.sortedFields, List.mem_map, List.mem_mergeSort,
    Prod.exists, s.coherent.mem_fieldTable, and_assoc, exists_and_left]

theorem mem_ownNames : n ∈ s.ownNames ↔
    ∃ sig ∈ s.registry.signatures, sig.fromPrelude = false ∧ sig.name = n := by
  have hperm : s.registry.sortedSignatures.Perm s.registry.signatures :=
    (List.mergeSort_perm _ _).map _
  simp [ownNames, hperm.mem_iff]

section Tables

variable (h : s.registry.Distinct)
include h

theorem tagNames_nodup : s.tagNames.Nodup ↔ ∀ ty ∈ s.registry.tags, ∀ ty' ∈ s.registry.tags,
    ∀ x y, s.program.tag ty = .ok x → s.program.tag ty' = .ok y → x.name = y.name → ty = ty' := by
  have hsorted : (s.tags.map Prod.fst).Nodup :=
    ((List.mergeSort_perm _ _).map _).nodup_iff.2 h.tags
  rw [tagNames, nodup_names_iff hsorted]
  simp only [tags, Registry.sortedTags, List.mem_mergeSort, Prod.forall, s.coherent.mem_tagTable]
  constructor
  · intro hinj ty hty ty' hty' x y hx hy
    exact hinj ty x ⟨hty, hx⟩ ty' y ⟨hty', hy⟩
  · intro hinj ty x hmem ty' y hmem'
    exact hinj ty hmem.1 ty' hmem'.1 x y hmem.2 hmem'.2

theorem fieldNames_nodup : s.fieldNames.Nodup ↔ ∀ i ∈ s.registry.fields, ∀ k ∈ s.registry.fields,
    ∀ x y, s.program.fieldIdent i = .ok x → s.program.fieldIdent k = .ok y → x.name = y.name →
      i = k := by
  have hsorted : (s.fields.map Prod.fst).Nodup :=
    ((List.mergeSort_perm _ _).map _).nodup_iff.2 h.fields
  rw [fieldNames, nodup_names_iff hsorted]
  simp only [fields, Registry.sortedFields, List.mem_mergeSort, Prod.forall,
    s.coherent.mem_fieldTable]
  constructor
  · intro hinj i hi k hk x y hx hy
    exact hinj i x ⟨hi, hx⟩ k y ⟨hk, hy⟩
  · intro hinj i x hmem k y hmem'
    exact hinj i hmem.1 k hmem'.1 x y hmem.2 hmem'.2

theorem ownNames_nodup : s.ownNames.Nodup ↔
    ∀ a ∈ s.registry.signatures, ∀ b ∈ s.registry.signatures, a.fromPrelude = false →
      b.fromPrelude = false → a.name = b.name → a.method = b.method := by
  have hmethods : (s.registry.signatures.map Signature.method).Nodup :=
    s.coherent.map_method ▸ h.signatures
  have hperm : s.registry.sortedSignatures.Perm s.registry.signatures :=
    (List.mergeSort_perm _ _).map _
  unfold ownNames
  rw [nodup_filterMap_iff (hperm.nodup_iff.2 hmethods.of_map)]
  simp only [hperm.mem_iff, Option.ite_none_right_eq_some, Option.some.injEq]
  constructor
  · intro hinj a ha b hb hown hown' hab
    exact congrArg Signature.method (hinj a ha b hb a.name ⟨hown, rfl⟩ ⟨hown', hab.symm⟩)
  · rintro hinj a ha b hb _ ⟨hown, rfl⟩ ⟨hown', hab⟩
    exact List.inj_on_of_nodup_map hmethods ha hb (hinj a ha b hb hown hown' hab.symm)

end Tables

theorem prelude_notMem_ownNames (hf : f ∈ s.prelude.procedures) : f.name ∉ s.ownNames := by
  intro hmem
  obtain ⟨sig, hsig, hown, hname⟩ := mem_ownNames.1 hmem
  obtain ⟨j, hb⟩ := Signature.built_of_result (s.coherent.sound hsig)
  obtain ⟨m, -, -, hnone⟩ := hb.named hown
  have hne := List.find?_eq_none.1 hnone f hf
  simp [hname] at hne

def tagPrefix : List Char := ['$', 't', 'y', 'p', 'e', '_']

theorem tagPrefix_of_mem (h : n ∈ s.tagNames) : tagPrefix <+: n.toList := by
  obtain ⟨ty, -, x, hx, rfl⟩ := mem_tagNames.1 h
  obtain ⟨y, -, hy⟩ := Program.tag_spelled hx
  have hp : "$type_".toList = tagPrefix := by decide
  rw [hy, hp]
  exact List.prefix_append _ _

theorem dot_of_mem (h : n ∈ s.fieldNames) : '.' ∈ n.toList := by
  obtain ⟨i, -, x, hx, rfl⟩ := mem_fieldNames.1 h
  exact Program.dot_mem_fieldIdent hx

theorem numbered_of_mem (hs : s.registry.Numbered) (h : n ∈ s.registry.globals.map Ident.name) :
    ∃ i, n.toList = globalPrefix ++ Nat.toDigits 10 i := by
  rw [hs] at h
  obtain ⟨i, -, rfl⟩ := List.mem_map.1 h
  exact ⟨i, globalIdent_toList⟩

theorem globals_nodup (hs : s.registry.Numbered) : (s.registry.globals.map Ident.name).Nodup := by
  rw [hs]
  refine List.Nodup.map (fun i k hik => ?_) List.nodup_range
  have hindex : ∀ i, globalIndex? (globalIdent i .ref) = some i := fun _ =>
    globalIndex?_eq_some.2 rfl
  have heq : globalIdent i .ref = globalIdent k .ref := congrArg (Ident.mk · .ref) hik
  exact Option.some.inj ((hindex i).symm.trans ((congrArg globalIndex? heq).trans (hindex k)))

theorem disjoint_prelude (hs : s.registry.Numbered) :
    Prelude.names.Disjoint s.tagNames ∧ Prelude.names.Disjoint s.fieldNames ∧
      Prelude.names.Disjoint (s.registry.globals.map Ident.name) := by
  have hnames : ∀ n ∈ Prelude.names,
      ¬ tagPrefix <+: n.toList ∧ '.' ∉ n.toList ∧ ¬ globalPrefix <+: n.toList := by decide
  refine ⟨fun n hn ht => ?_, fun n hn hf => ?_, fun n hn hg => ?_⟩
  · exact (hnames n hn).1 (tagPrefix_of_mem ht)
  · exact (hnames n hn).2.1 (dot_of_mem hf)
  · obtain ⟨i, hi⟩ := numbered_of_mem hs hg
    exact (hnames n hn).2.2 (hi ▸ List.prefix_append _ _)

theorem disjoint_globals (hs : s.registry.Numbered) :
    s.tagNames.Disjoint (s.registry.globals.map Ident.name) ∧
      s.fieldNames.Disjoint (s.registry.globals.map Ident.name) := by
  refine ⟨fun n ht hg => ?_, fun n hf hg => ?_⟩
  · obtain ⟨i, hi⟩ := numbered_of_mem hs hg
    obtain ⟨rest, hrest⟩ := tagPrefix_of_mem ht
    rw [hi] at hrest
    exact absurd (congrArg (·[1]?) hrest) (by simp [tagPrefix, globalPrefix])
  · obtain ⟨i, hi⟩ := numbered_of_mem hs hg
    have hdot := dot_of_mem hf
    rw [hi] at hdot
    rcases List.mem_append.1 hdot with hdot | hdot
    · exact absurd hdot (by decide)
    · exact absurd (Nat.isDigit_of_mem_toDigits (by decide) (by decide) hdot) (by decide)

/-- Names of the prelude and of made-up variables are nowhere else, so that the names of constants
and variables are distinct if those of tags and fields are. -/
theorem globalNames_nodup (hs : s.registry.Numbered) :
    ((s.assemble is).decls.filterMap Decl.globalName?).Nodup ↔
      s.tagNames.Nodup ∧ s.fieldNames.Nodup ∧ s.tagNames.Disjoint s.fieldNames := by
  obtain ⟨hpt, hpf, hpg⟩ := disjoint_prelude hs
  obtain ⟨htg, hfg⟩ := disjoint_globals hs
  rw [globalNames_assemble]
  simp only [List.nodup_append', List.disjoint_append_left, Prelude.names_nodup,
    globals_nodup hs, hpt, hpf, hpg, htg, hfg, and_true, true_and]

theorem procedureNames_nodup (hq : (s.prelude.procedures.map Procedure.name).Nodup) :
    ((s.assemble is).procedures.map Procedure.name).Nodup ↔ s.ownNames.Nodup := by
  rw [procedureNames_assemble, List.nodup_append']
  constructor
  · exact fun h => h.2.1
  · refine fun h => ⟨hq, h, fun n hn hown => ?_⟩
    obtain ⟨f, hf, rfl⟩ := List.mem_map.1 hn
    exact prelude_notMem_ownNames hf hown

theorem namesDistinct_iff (h : Reachable p .standard o s) (hg : s.generate = (.ok prog, t)) :
    prog.NamesDistinct ↔ t.NamesApart := by
  have ht := h.generated hg
  obtain ⟨is, rfl, -⟩ := h.generate hg
  obtain ⟨-, hq, -⟩ := ht.setting
  have hprelude : (t.prelude.procedures.map Procedure.name).Nodup := by
    rw [hq]
    decide
  have hprocedures : ((t.assemble is).procedures.map Procedure.name).Nodup ↔ _ :=
    (procedureNames_nodup hprelude).trans (ownNames_nodup ht.distinct)
  have hglobals : ((t.assemble is).decls.filterMap Decl.globalName?).Nodup ↔ _ :=
    globalNames_nodup ht.numbered
  rw [tagNames_nodup ht.distinct, fieldNames_nodup ht.distinct] at hglobals
  constructor
  · intro hd
    obtain ⟨htags, hfields, hdisjoint⟩ := hglobals.1 hd.globals
    refine ⟨hprocedures.1 hd.procedures, htags, hfields, ?_⟩
    intro ty hty i hi x y hx hy hxy
    exact hdisjoint (mem_tagNames.2 ⟨ty, hty, x, hx, rfl⟩)
      (mem_fieldNames.2 ⟨i, hi, y, hy, hxy.symm⟩)
  · intro ha
    refine ⟨hprocedures.2 ha.signatures, hglobals.2 ⟨ha.tags, ha.fields, ?_⟩⟩
    intro n hn hf
    obtain ⟨ty, hty, x, hx, rfl⟩ := mem_tagNames.1 hn
    obtain ⟨i, hi, y, hy, hxy⟩ := mem_fieldNames.1 hf
    exact ha.tags_fields ty hty i hi x y hx hy hxy.symm

theorem Reachable.namesApart (h : Reachable p q o s) (hb : p.toDraft.Built) (hp : p.Plain)
    (hm : p.MembersDistinct) : s.NamesApart := by
  obtain ⟨rfl, rfl, -⟩ := h.setting
  have hd := hb.tidy
  constructor
  case signatures =>
    intro a ha b hb hown hown' hab
    obtain ⟨_, hbuilt⟩ := Signature.built_of_result (s.coherent.sound ha)
    obtain ⟨_, hbuilt'⟩ := Signature.built_of_result (s.coherent.sound hb)
    obtain ⟨m, hi, hn, -⟩ := hbuilt.named hown
    obtain ⟨m', hi', hn', -⟩ := hbuilt'.named hown'
    rw [← hab] at hn'
    obtain ⟨howner, hname, hparams, hreturns⟩ :=
      hp.procedureName_inj hd (List.mem_of_getElem? hi) (List.mem_of_getElem? hi') hn hn'
    apply eq_of_getElem?_map hm.methods hi hi'
    rw [howner, hname, hparams, hreturns]
  case tags => exact fun ty _ ty' _ x y hx hy hxy => hp.tag_inj hd hx hy hxy
  case fields =>
    intro i _ k _ x y hx hy hxy
    obtain ⟨f, t, hi, -, rfl⟩ := Program.fieldIdent_eq_ok.1 hx
    obtain ⟨f', t', hk, -, rfl⟩ := Program.fieldIdent_eq_ok.1 hy
    obtain ⟨howner, hname⟩ :=
      hp.fieldIdentName_inj hd (List.mem_of_getElem? hi) (List.mem_of_getElem? hk) hxy
    apply eq_of_getElem?_map hm.fields hi hk
    rw [howner, hname]
  case tags_fields =>
    intro ty _ i _ x y hx hy hxy
    obtain ⟨f, t, hi, -, rfl⟩ := Program.fieldIdent_eq_ok.1 hy
    exact hp.fieldIdentName_ne_tag hd (List.mem_of_getElem? hi) hx hxy.symm

/-- The names of a generated program are distinct if and only if no two entries of the tables share
one. They are distinct for every program that was put together step by step, whose members are
distinct and whose names are plain. -/
theorem generate_namesDistinct (h : Reachable p .standard o s)
    (hg : s.generate = (.ok prog, t)) :
    (prog.NamesDistinct ↔ t.NamesApart) ∧
      (p.toDraft.Built → p.Plain → p.MembersDistinct → prog.NamesDistinct) := by
  have hiff := namesDistinct_iff h hg
  refine ⟨hiff, fun hb hp hm => hiff.2 ?_⟩
  exact (h.generated hg).namesApart hb hp hm

end Session

theorem shelf_plain : shelf.Plain := by
  constructor <;> decide +kernel

theorem shelf_members : shelf.MembersDistinct := by
  constructor <;> decide +kernel

theorem generate_namesDistinct_shelf :
    ∃ prog t, shelfSession.generate = (.ok prog, t) ∧ prog.NamesDistinct ∧ t.NamesApart := by
  obtain ⟨prog, t, hg⟩ := exists_pair_of_isOk (r := shelfSession.generate) (by decide +kernel)
  obtain ⟨hiff, hplain⟩ := Session.generate_namesDistinct shelfSession_reachable hg
  have hd := hplain Program.declaring_built shelf_plain shelf_members
  exact ⟨prog, t, hg, hd, hiff.1 hd⟩

/-- A class with a method that takes a number and one that has the type of a number in its name. -/
def crossing : Program := .declaring [
  .addClass "A",
  .addMethod 3 { name := "f", params := [.int], isStatic := true },
  .addMethod 3 { name := "f$int", isStatic := true }] (by decide +kernel)

def crossingSession : Session := .start { program := crossing } .standard {}

/-- The two methods differ, and their procedures have one name. -/
theorem crossing_names_shared : crossing.toDraft.Built ∧ crossing.MembersDistinct ∧
    ∃ prog t, crossingSession.generate = (.ok prog, t) ∧ ¬ prog.NamesDistinct := by
  refine ⟨Program.declaring_built, ⟨by decide +kernel, by decide +kernel⟩, ?_⟩
  obtain ⟨prog, t, hg⟩ := exists_pair_of_isOk (r := crossingSession.generate) (by decide +kernel)
  refine ⟨prog, t, hg, fun hd => ?_⟩
  have hreach : crossingSession.Reachable crossing .standard {} := .start rfl
  have hapart := (Session.namesDistinct_iff hreach hg).1 hd
  have hentries : crossingSession.generate.2.registry.signatures.map
      (fun sig => (sig.method, sig.name, sig.fromPrelude)) =
      [(0, "A$void$f$int", false), (1, "A$void$f$int", false)] := by decide +kernel
  rw [hg] at hentries
  have hentry : ∀ e ∈ [(0, "A$void$f$int", false), (1, "A$void$f$int", false)],
      ∃ sig ∈ t.registry.signatures, (sig.method, sig.name, sig.fromPrelude) = e := fun e he =>
    List.mem_map.1 (hentries ▸ he)
  obtain ⟨a, ha, hae⟩ := hentry _ List.mem_cons_self
  obtain ⟨b, hb, hbe⟩ := hentry _ (List.mem_cons_of_mem _ List.mem_cons_self)
  simp only [Prod.mk.injEq] at hae hbe
  obtain ⟨hai, han, hap⟩ := hae
  obtain ⟨hbi, hbn, hbp⟩ := hbe
  have hsame := hapart.signatures a ha b hb hap hbp (han.trans hbn.symm)
  rw [hai, hbi] at hsame
  cases hsame

end Verilower
