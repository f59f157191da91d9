import Verilower.Proofs.Closedness
import Verilower.Proofs.Hierarchy

namespace Verilower
set_option autoImplicit true

open Ivl (Ident Decl Implementation)
open Relation (ReflTransGen)
open Verilower.Digraph (Reach)

namespace Ivl.Program

/-- A constant of the first name is declared with the second name directly above it. -/
def Extends (prog : Ivl.Program) (a b : String) : Prop :=
  ∃ x unique parents, .const x unique parents ∈ prog.decls ∧ x.name = a ∧ b ∈ parents

/-- Zero or more steps up lead from the one name to the other. -/
def Reaches (prog : Ivl.Program) : String → String → Prop := ReflTransGen prog.Extends

end Ivl.Program

namespace Program

variable {p : Program}

theorem lt_of_tag_cls (h : p.tag (.cls i) = .ok x) : i < p.classes.length := by
  obtain ⟨c, hc, -⟩ := tag_cls.1 h
  exact (List.getElem?_eq_some_iff.1 hc).1

theorem exists_tag_cls (h : i < p.classes.length) : ∃ x, p.tag (.cls i) = .ok x :=
  ⟨_, tag_cls.2 ⟨_, List.getElem?_eq_getElem h, rfl⟩⟩

theorem tagName_eq_ok : p.tagName ty = .ok n ↔ ∃ x, p.tag ty = .ok x ∧ x.name = n := by
  simp only [tag, except_bind_eq_ok]
  constructor
  · exact fun h => ⟨⟨n, .tag⟩, ⟨n, h, rfl⟩, rfl⟩
  · rintro ⟨_, ⟨m, hm, ⟨⟩⟩, rfl⟩
    exact hm

end Program

namespace Session

variable {t : Session} {is : List Implementation}

def TagsApart (t : Session) : Prop := ∀ a ∈ t.tags, ∀ b ∈ t.tags, a.2.name = b.2.name → a.1 = b.1

theorem mem_tags : (ty, x) ∈ t.tags ↔ ty ∈ t.registry.tags ∧ t.program.tag ty = .ok x := by
  rw [tags, Registry.sortedTags, List.mem_mergeSort, t.coherent.mem_tagTable]

theorem const_of_mem_tags (hx : (ty, x) ∈ t.tags) :
    .const x true (parents t.program ty) ∈ (t.assemble is).decls :=
  mem_assemble.2 (.inr (.inl (List.mem_map.2 ⟨(ty, x), hx, rfl⟩)))

/-- What is declared directly above a tag. Other constants of its name have nothing above them. -/
theorem TagsApart.extends_iff (ha : t.TagsApart) (hx : (ty, x) ∈ t.tags) :
    (t.assemble is).Extends x.name n ↔ n ∈ parents t.program ty := by
  constructor
  · rintro ⟨y, unique, names, hdecl, hname, hn⟩
    rcases const_cases hdecl with ⟨-, rfl⟩ | ⟨ty', hty', hy, rfl⟩ | ⟨_, _, -, -, -, rfl⟩
    · cases hn
    · have hmem : (ty', y) ∈ t.tags := List.mem_mergeSort.2 hty'
      have hsame : ty' = ty := ha (ty', y) hmem (ty, x) hx hname
      exact hsame ▸ hn
    · cases hn
  · exact fun hn => ⟨x, true, _, const_of_mem_tags hx, rfl, hn⟩

section Complete

variable (hs : Complete p q o t is)
include hs

theorem Complete.exists_cls_mem_tags (hc : c < p.classes.length) : ∃ x, (.cls c, x) ∈ t.tags := by
  obtain ⟨x, hx⟩ := Program.exists_tag_cls hc
  exact ⟨x, List.mem_mergeSort.2 (hs.classes c x hc hx)⟩

theorem Complete.lt_of_cls_mem_tags (hx : (.cls c, x) ∈ t.tags) : c < p.classes.length := by
  rw [← hs.program]
  exact Program.lt_of_tag_cls (mem_tags.1 hx).2

/-- One step up from the tag of a class leads to the tag of a class that it names. -/
theorem TagsApart.extends_cls_iff (ha : t.TagsApart) (hx : (.cls c, x) ∈ t.tags) :
    (t.assemble is).Extends x.name n ↔
      ∃ d y, (.cls d, y) ∈ t.tags ∧ y.name = n ∧ d ∈ p.declaredSupertypes c := by
  have hc := hs.lt_of_cls_mem_tags hx
  rw [ha.extends_iff hx, hs.program]
  simp only [parents, List.mem_filterMap, toOption_eq_some, Program.tagName_eq_ok,
    Program.mem_directSupertypes_iff hc]
  constructor
  · rintro ⟨d, hd, y, hy, rfl⟩
    have hclass := Program.lt_of_tag_cls hy
    exact ⟨d, y, List.mem_mergeSort.2 (hs.classes d y hclass hy), rfl, hd⟩
  · rintro ⟨d, y, hy, rfl, hd⟩
    exact ⟨d, hd, y, hs.program ▸ (mem_tags.1 hy).2, rfl⟩

/-- The ways up from the tag of a class are those of the hierarchy. -/
theorem TagsApart.reaches_cls_iff (ha : t.TagsApart) (hx : (.cls c, x) ∈ t.tags) :
    (t.assemble is).Reaches x.name n ↔
      ∃ d y, (.cls d, y) ∈ t.tags ∧ y.name = n ∧ Reach p.declaredSupertypes c d := by
  constructor
  · intro h
    induction h with
    | refl => exact ⟨c, x, hx, rfl, .refl⟩
    | tail _ hstep ih =>
      obtain ⟨d, y, hy, rfl, hd⟩ := ih
      obtain ⟨e, z, hz, rfl, he⟩ := (ha.extends_cls_iff hs hy).1 hstep
      exact ⟨e, z, hz, rfl, hd.tail he⟩
  · rintro ⟨d, y, hy, rfl, hd⟩
    induction hd generalizing y with
    | refl =>
      obtain rfl : x = y := Except.ok.inj ((mem_tags.1 hx).2.symm.trans (mem_tags.1 hy).2)
      exact .refl
    | @tail e d hreach hstep ih =>
      have he : e < p.classes.length :=
        Reach.lt hreach Program.within_declaredSupertypes (hs.lt_of_cls_mem_tags hx)
      obtain ⟨z, hz⟩ := hs.exists_cls_mem_tags he
      exact (ih z hz).tail ((ha.extends_cls_iff hs hz).2 ⟨d, y, hy, rfl, hstep⟩)

theorem TagsApart.reaches_iff_isSubtype (ha : t.TagsApart) (hx : (.cls c, x) ∈ t.tags)
    (hy : (.cls d, y) ∈ t.tags) :
    (t.assemble is).Reaches x.name y.name ↔ p.isSubtype c d = true := by
  have hc := hs.lt_of_cls_mem_tags hx
  have hd := hs.lt_of_cls_mem_tags hy
  rw [ha.reaches_cls_iff hs hx, Program.isSubtype_iff hc hd]
  constructor
  · rintro ⟨e, z, hz, hname, he⟩
    cases ha (.cls e, z) hz (.cls d, y) hy hname
    exact he
  · exact fun h => ⟨d, y, hy, rfl, h⟩

end Complete

/-- The tag of an array has the tag of the object class and nothing else directly above it. -/
theorem TagsApart.reaches_array_iff (ha : t.TagsApart) (hx : (.array elem, x) ∈ t.tags)
    (ho : (.cls ClassId.object, object) ∈ t.tags) :
    (t.assemble is).Reaches x.name n ↔
      n = x.name ∨ (t.assemble is).Reaches object.name n := by
  have hobject : t.program.tagName (.cls ClassId.object) = .ok object.name :=
    Program.tagName_eq_ok.2 ⟨object, (mem_tags.1 ho).2, rfl⟩
  have hstep : ∀ m, (t.assemble is).Extends x.name m ↔ m = object.name := by
    intro m
    rw [ha.extends_iff hx, parents, hobject]
    exact List.mem_singleton
  refine ReflTransGen.cases_head_iff.trans (or_congr eq_comm ?_)
  simp only [hstep, exists_eq_left]
  rfl

/-- In a generated program whose types have tags of their own, every tag is declared and every class
has one. The tag of one class leads up to the tag of another if and only if the one is a subtype of
the other or the class itself, and the tag of an array leads to itself and to what the tag of the
object class leads to. -/
theorem generate_tagOrder (h : Reachable p q o s) (hg : s.generate = (.ok prog, t))
    (ha : t.TagsApart) :
    (∀ a ∈ t.tags, ∃ names, .const a.2 true names ∈ prog.decls) ∧
    (∀ c < p.classes.length, ∀ d < p.classes.length, ∃ x y, (.cls c, x) ∈ t.tags ∧
      (.cls d, y) ∈ t.tags ∧ (prog.Reaches x.name y.name ↔ p.isSubtype c d = true)) ∧
    ∀ elem x object, (.array elem, x) ∈ t.tags → (.cls ClassId.object, object) ∈ t.tags →
      ∀ n, prog.Reaches x.name n ↔ n = x.name ∨ prog.Reaches object.name n := by
  obtain ⟨is, rfl, hs⟩ := h.generate hg
  refine ⟨fun a hmem => ⟨_, const_of_mem_tags hmem⟩, fun c hc d hd => ?_,
    fun elem x object hx ho n => ha.reaches_array_iff hx ho⟩
  obtain ⟨x, hx⟩ := hs.exists_cls_mem_tags hc
  obtain ⟨y, hy⟩ := hs.exists_cls_mem_tags hd
  exact ⟨x, y, hx, hy, ha.reaches_iff_isSubtype hs hx hy⟩

end Session

/-- Two ways lead from a class, which is declared before its super class, up to one interface. -/
def fleet : Program := .declaring [
  .addClass "Tug" (some 4) [5],
  .addClass "Boat" none [6],
  .addInterface "Towing" [6],
  .addInterface "Vessel",
  .addMethod 3 { name := "muster", isStatic := true }] (by decide +kernel)

def musterBody : Body where
  method := 0
  slots := [⟨"tugs", .array (.cls 3)⟩]
  nodes := [
    { instr := .assign (.slot 0) (.newArray (.cls 3) (.constant (.int 2))) },
    { instr := .retVoid }]
  sound := by decide

def fleetSession : Session := .start { program := fleet, bodies := [musterBody] } .standard {}

theorem generate_tagOrder_fleet :
    ∃ prog t, fleetSession.generate = (.ok prog, t) ∧ t.TagsApart ∧
      prog.Reaches "$type_Tug" "$type_Vessel" ∧ ¬ prog.Reaches "$type_Boat" "$type_Towing" ∧
      ∀ n, prog.Reaches "$type_Tug$arr" n ↔
        n = "$type_Tug$arr" ∨ prog.Reaches "$type_java.lang.Object" n := by
  obtain ⟨prog, t, hg⟩ := exists_pair_of_isOk (r := fleetSession.generate) (by decide +kernel)
  have hreach : fleetSession.Reachable fleet .standard {} := .start rfl
  have hprogram : t.program = fleet := (hreach.generated hg).setting.1
  have htags : t.registry.tags =
      [.cls 0, .cls 1, .cls 2, .cls 3, .cls 4, .cls 5, .cls 6, .array (.cls 3)] := by
    have hkept : fleetSession.generate.2.registry.tags =
        [.cls 0, .cls 1, .cls 2, .cls 3, .cls 4, .cls 5, .cls 6, .array (.cls 3)] := by
      decide +kernel
    rwa [hg] at hkept
  have hname : ∀ {ty x}, (ty, x) ∈ t.tags → fleet.tagName ty = .ok x.name := fun h =>
    Program.tagName_eq_ok.2 ⟨_, hprogram ▸ (Session.mem_tags.1 h).2, rfl⟩
  have hmem : ∀ {ty n}, ty ∈ t.registry.tags → fleet.tagName ty = .ok n →
      (ty, ⟨n, .tag⟩) ∈ t.tags := fun hty hn =>
    Session.mem_tags.2 ⟨hty, by rw [hprogram, Program.tag, hn]; rfl⟩
  have hapart : t.TagsApart := by
    have hinj : ∀ ty ∈ t.registry.tags, ∀ ty' ∈ t.registry.tags,
        (fleet.tagName ty).toOption = (fleet.tagName ty').toOption → ty = ty' := by
      rw [htags]
      decide +kernel
    intro a ha b hb hab
    refine hinj a.1 (Session.mem_tags.1 ha).1 b.1 (Session.mem_tags.1 hb).1 ?_
    rw [hname ha, hname hb, hab]
  obtain ⟨-, hclasses, harrays⟩ := Session.generate_tagOrder hreach hg hapart
  have hclass : ∀ c < 7, ∀ d < 7, ∀ m n, fleet.tagName (.cls c) = .ok m →
      fleet.tagName (.cls d) = .ok n → (prog.Reaches m n ↔ fleet.isSubtype c d = true) := by
    intro c hc d hd m n hm hn
    obtain ⟨x, y, hx, hy, hiff⟩ := hclasses c hc d hd
    rw [Except.ok.inj (hm.symm.trans (hname hx)), Except.ok.inj (hn.symm.trans (hname hy))]
    exact hiff
  refine ⟨prog, t, hg, hapart, ?_, ?_, ?_⟩
  · exact (hclass 3 (by decide) 6 (by decide) _ _ rfl rfl).2 (by decide +kernel)
  · intro h
    have hsub := (hclass 4 (by decide) 5 (by decide) _ _ rfl rfl).1 h
    exact absurd hsub (by decide +kernel)
  · refine harrays (.cls 3) _ _ (hmem ?_ rfl) (hmem ?_ rfl)
    all_goals
      rw [htags]
      decide

end Verilower
