import Mathlib.Order.Defs.Unbundled
import Verilower.Proofs.Drafts
import Verilower.Proofs.Hierarchy

namespace Verilower
set_option autoImplicit true

open Relation (ReflTransGen TransGen)
open Verilower.Digraph (Within Acyclic Reach)

/-- The super class and the interfaces that a class names. -/
def ClassDecl.parents (c : ClassDecl) : List ClassId := c.superClass.toList ++ c.interfaces

namespace Draft

/-- The class `a` names `b` as its super class or as one of its interfaces. -/
def Below (d : Draft) (a b : ClassId) : Prop := ∃ c, d.classes[a]? = some c ∧ b ∈ c.parents

/-- Every class that is named as a supertype exists. -/
def Resolved (d : Draft) : Prop := ∀ c ∈ d.classes, ∀ b ∈ c.parents, b < d.classes.length

instance (d : Draft) : Decidable d.Resolved :=
  inferInstanceAs (Decidable (∀ c ∈ d.classes, ∀ b ∈ c.parents, b < d.classes.length))

theorem Below.left_lt (h : Below d a b) : a < d.classes.length := by
  obtain ⟨c, hc, -⟩ := h
  exact (List.getElem?_eq_some_iff.1 hc).1

theorem Below.right_lt (h : Below d a b) (hd : d.Resolved) : b < d.classes.length := by
  obtain ⟨c, hc, hb⟩ := h
  exact hd c (List.mem_of_getElem? hc) b hb

section Numbered

variable {d : Draft} (hn : d.classes.length < 0x100000000) (hd : d.Resolved)

include hn hd

theorem mem_declaredSupertypes : b ∈ d.declaredSupertypes a ↔ d.Below a b := by
  unfold declaredSupertypes Below
  cases hc : d.classes[a]? with
  | none => simp
  | some c =>
    have hnode : ∀ i ∈ c.parents, ClassId.node i = i := fun i hi =>
      Nat.mod_eq_of_lt (Nat.lt_trans (hd c (List.mem_of_getElem? hc) i hi) hn)
    have hmap : c.parents.map ClassId.node = c.parents :=
      (List.map_congr_left hnode).trans (List.map_id' _)
    simp only [Option.some.injEq, exists_eq_left']
    exact (congrArg (b ∈ ·) hmap).to_iff

theorem reach_declaredSupertypes : Reach d.declaredSupertypes = ReflTransGen d.Below := by
  have hstep : (fun a b => b ∈ d.declaredSupertypes a) = d.Below := by
    funext a b
    exact propext (mem_declaredSupertypes hn hd)
  rw [Reach, hstep]

theorem isLinked_of_resolved : d.isLinked = true := by
  simp only [isLinked, List.all_eq_true, List.mem_range, decide_eq_true_eq]
  intro a _ b hb
  exact ((mem_declaredSupertypes hn hd).1 hb).right_lt hd

theorem isCyclic_eq_false : d.isCyclic = false ↔ ∀ a, ¬ TransGen d.Below a a := by
  have hwithin : Within d.classes.length d.declaredSupertypes := fun a _ b hb =>
    ((mem_declaredSupertypes hn hd).1 hb).right_lt hd
  rw [isCyclic, Digraph.hasCycle_eq_false hwithin, Acyclic, reach_declaredSupertypes hn hd]
  constructor
  · intro h a hcycle
    obtain ⟨b, hstep, hback⟩ := TransGen.head'_iff.1 hcycle
    exact h a hstep.left_lt b ((mem_declaredSupertypes hn hd).2 hstep) hback
  · intro h a _ b hb hback
    exact h a (TransGen.head' ((mem_declaredSupertypes hn hd).1 hb) hback)

end Numbered

end Draft

namespace Program

variable {p : Program} {a b : ClassId}

theorem toDraft_of_ofDraft (h : ofDraft d = .ok p) : p.toDraft = d := by
  unfold ofDraft at h
  split at h
  · split at h
    · cases h
      rfl
    · cases h
  · cases h

theorem exists_ofDraft : (∃ p, ofDraft d = .ok p) ↔
    d.classes.length < 0x100000000 ∧ d.isLinked = true ∧ d.isCyclic = false := by
  constructor
  · rintro ⟨p, hp⟩
    obtain rfl := toDraft_of_ofDraft hp
    exact ⟨p.numbered, p.linked, p.acyclic⟩
  · rintro ⟨hn, hl, hc⟩
    exact ⟨⟨d, hn, hl, hc⟩, by simp [ofDraft, hn, hl, hc]⟩

/-- What subtyping is between the classes of a program. -/
structure Ordered (p : Program) : Prop where
  /-- The test has an answer, which is the reflexive and transitive closure of what classes name. -/
  subtype : ∀ a < p.classes.length, ∀ b < p.classes.length,
    p.testSubtype a b = .ok (p.isSubtype a b) ∧
      (p.isSubtype a b = true ↔ ReflTransGen p.Below a b)
  order : IsPartialOrder (Fin p.classes.length) fun a b => p.isSubtype a b = true
  /-- Proper subtypes are the irreflexive part of the order and the transitive closure. -/
  strict : ∀ a < p.classes.length, ∀ b < p.classes.length,
    p.testStrictSubtype a b = .ok (p.isStrictSubtype a b) ∧
      (p.isStrictSubtype a b = true ↔ p.isSubtype a b = true ∧ a ≠ b) ∧
      (p.isStrictSubtype a b = true ↔ TransGen p.Below a b)
  direct : ∀ a < p.classes.length, ∀ b, b ∈ p.directSupertypes a ↔ p.Below a b
  converse : ∀ a < p.classes.length, ∀ b < p.classes.length,
    a ∈ p.directSubtypes b ↔ b ∈ p.directSupertypes a
  /-- Both lists name classes of the program, in increasing order and thus each once. -/
  sorted : ∀ a, (p.directSubtypes a).Pairwise (· < ·) ∧ (p.directSupertypes a).Pairwise (· < ·)
  known : ∀ a, ∀ b ∈ p.directSubtypes a ++ p.directSupertypes a, b < p.classes.length

section Resolved

variable (hd : p.toDraft.Resolved)

include hd

theorem isSubtype_iff_reflTransGen (ha : a < p.classes.length) (hb : b < p.classes.length) :
    p.isSubtype a b = true ↔ ReflTransGen p.Below a b := by
  rw [isSubtype_iff ha hb, Draft.reach_declaredSupertypes p.numbered hd]

theorem not_transGen_below : ¬ TransGen p.Below a a :=
  (Draft.isCyclic_eq_false p.numbered hd).1 p.acyclic a

/-- Two classes that are below each other are one, as there would be a cycle otherwise. -/
theorem isSubtype_antisymm (ha : a < p.classes.length) (hb : b < p.classes.length)
    (hab : p.isSubtype a b = true) (hba : p.isSubtype b a = true) : a = b := by
  rw [isSubtype_iff_reflTransGen hd ha hb] at hab
  rw [isSubtype_iff_reflTransGen hd hb ha] at hba
  obtain rfl | hcycle := Relation.reflTransGen_iff_eq_or_transGen.1 hab
  · rfl
  · exact (not_transGen_below hd (hcycle.trans_left hba)).elim

theorem isSubtype_partialOrder :
    IsPartialOrder (Fin p.classes.length) fun a b => p.isSubtype a b = true where
  refl a := (isSubtype_iff_reflTransGen hd a.2 a.2).2 .refl
  trans a b c hab hbc := by
    rw [isSubtype_iff_reflTransGen hd a.2 b.2] at hab
    rw [isSubtype_iff_reflTransGen hd b.2 c.2] at hbc
    exact (isSubtype_iff_reflTransGen hd a.2 c.2).2 (hab.trans hbc)
  antisymm a b hab hba := Fin.ext (isSubtype_antisymm hd a.2 b.2 hab hba)

theorem isStrictSubtype_iff_transGen (ha : a < p.classes.length) (hb : b < p.classes.length) :
    p.isStrictSubtype a b = true ↔ TransGen p.Below a b := by
  have hstrict : p.isStrictSubtype a b = true ↔ a ≠ b ∧ p.isSubtype a b = true := by
    simp [Draft.isStrictSubtype]
  rw [hstrict, isSubtype_iff_reflTransGen hd ha hb, Relation.reflTransGen_iff_eq_or_transGen]
  constructor
  · rintro ⟨hne, heq | h⟩
    · exact (hne heq.symm).elim
    · exact h
  · intro h
    refine ⟨?_, .inr h⟩
    rintro rfl
    exact not_transGen_below hd h

theorem mem_directSupertypes (ha : a < p.classes.length) :
    b ∈ p.directSupertypes a ↔ p.Below a b := by
  rw [mem_directSupertypes_iff ha, Draft.mem_declaredSupertypes p.numbered hd]

theorem mem_directSubtypes_iff_below (hb : b < p.classes.length) :
    a ∈ p.directSubtypes b ↔ p.Below a b := by
  rw [mem_directSubtypes hb, Draft.mem_declaredSupertypes p.numbered hd]
  exact ⟨And.right, fun h => ⟨h.left_lt, h⟩⟩

theorem ordered_of_resolved : p.Ordered where
  subtype a ha b hb := by
    refine ⟨?_, isSubtype_iff_reflTransGen hd ha hb⟩
    simp [Draft.testSubtype, node_of_lt ha, ha]
  order := isSubtype_partialOrder hd
  strict a ha b hb := by
    refine ⟨?_, by simp [Draft.isStrictSubtype, and_comm], isStrictSubtype_iff_transGen hd ha hb⟩
    by_cases hab : a = b
    · simp [Draft.testStrictSubtype, Draft.isStrictSubtype, hab]
    · simp [Draft.testStrictSubtype, Draft.isStrictSubtype, Draft.testSubtype, node_of_lt ha, ha,
        hab]
  direct a ha b := mem_directSupertypes hd ha
  converse a ha b hb := by
    rw [mem_directSubtypes_iff_below hd hb, mem_directSupertypes hd ha]
  sorted a := ⟨directSubtypes_sorted, List.pairwise_lt_range.filter _⟩
  known a b hb := by
    obtain h | h := List.mem_append.1 hb
    all_goals exact List.mem_range.1 (List.mem_filter.1 h).1

end Resolved

/-- A draft becomes a program if and only if no class is above itself, and the classes of a program
are ordered by what they name. -/
theorem ofDraft_ordered (d : Draft) (hd : d.Resolved) :
    ((∃ p, ofDraft d = .ok p) ↔
      d.classes.length < 0x100000000 ∧ ∀ a, ¬ TransGen d.Below a a) ∧
    ∀ p, ofDraft d = .ok p → p.toDraft = d ∧ p.Ordered := by
  constructor
  · rw [exists_ofDraft]
    constructor
    · rintro ⟨hn, -, hc⟩
      exact ⟨hn, (Draft.isCyclic_eq_false hn hd).1 hc⟩
    · rintro ⟨hn, hc⟩
      exact ⟨hn, Draft.isLinked_of_resolved hn hd, (Draft.isCyclic_eq_false hn hd).2 hc⟩
  · intro p hp
    have hdraft := toDraft_of_ofDraft hp
    exact ⟨hdraft, ordered_of_resolved (hdraft ▸ hd)⟩

/-- A class that is declared before its super class and names an interface twice; two ways lead from
it up to one interface. -/
def square : Draft := Draft.empty.after [
  .addClass "Square" (some 4) [5, 5],
  .addClass "Rhombus" none [6],
  .addInterface "Rectangle" [6],
  .addInterface "Figure"]

def chicken : Draft := Draft.empty.after [.addClass "Hen" (some 4), .addClass "Egg" (some 3)]

theorem ofDraft_ordered_square : square.Resolved ∧ chicken.Resolved ∧
    (∃ p, ofDraft square = .ok p ∧ p.toDraft = square ∧ p.Ordered) ∧
    ¬ ∃ p, ofDraft chicken = .ok p := by
  have hsquare : square.Resolved := by decide +kernel
  have hchicken : chicken.Resolved := by decide +kernel
  refine ⟨hsquare, hchicken, ?_, ?_⟩
  · obtain ⟨p, hp⟩ := exists_ofDraft.2 (by decide +kernel : square.classes.length < 0x100000000 ∧
      square.isLinked = true ∧ square.isCyclic = false)
    exact ⟨p, hp, (ofDraft_ordered square hsquare).2 p hp⟩
  · intro hex
    have hegg : chicken.Below 3 4 := ⟨_, rfl, List.mem_cons_self⟩
    have hhen : chicken.Below 4 3 := ⟨_, rfl, List.mem_cons_self⟩
    exact ((ofDraft_ordered chicken hchicken).1.1 hex).2 3 (.tail (.single hegg) hhen)

end Program

end Verilower
