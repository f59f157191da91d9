import Verilower.Dispatch
import Verilower.Proofs.Digraph

namespace Verilower
set_option autoImplicit true

open Verilower.Digraph (Within Acyclic Reach Walks)

namespace Program

variable {p : Program} {a b : ClassId} {m : Method}

theorem node_of_lt (h : a < p.classes.length) : ClassId.node a = a :=
  Nat.mod_eq_of_lt (Nat.lt_trans h p.numbered)

theorem within_declaredSupertypes : Within p.classes.length p.declaredSupertypes := by
  have h := p.linked
  simp only [Draft.isLinked, List.all_eq_true, List.mem_range, decide_eq_true_eq] at h
  exact h

theorem within_directSubtypes : Within p.classes.length p.directSubtypes := by
  intro a _ b hb
  exact List.mem_range.1 (List.mem_filter.1 hb).1

theorem mem_directSupertypes_iff (ha : a < p.classes.length) :
    b ∈ p.directSupertypes a ↔ b ∈ p.declaredSupertypes a := by
  simp only [Draft.directSupertypes, List.mem_filter, List.mem_range, List.contains_iff_mem,
    node_of_lt ha]
  exact ⟨And.right, fun hb => ⟨within_declaredSupertypes a ha b hb, hb⟩⟩

theorem mem_directSubtypes (ha : a < p.classes.length) :
    b ∈ p.directSubtypes a ↔ b < p.classes.length ∧ a ∈ p.declaredSupertypes b := by
  simp [Draft.directSubtypes, node_of_lt ha]

theorem directSubtypes_sorted : (p.directSubtypes a).Pairwise (· < ·) :=
  List.pairwise_lt_range.filter _

theorem acyclic_declaredSupertypes : Acyclic p.classes.length p.declaredSupertypes :=
  (Digraph.hasCycle_eq_false within_declaredSupertypes).1 p.acyclic

theorem acyclic_directSubtypes : Acyclic p.classes.length p.directSubtypes :=
  acyclic_declaredSupertypes.reverse within_directSubtypes fun _ ha _ hb =>
    ((mem_directSubtypes ha).1 hb).2

theorem reach_iff (ha : a < p.classes.length) (hb : b < p.classes.length) :
    Reach p.directSubtypes b a ↔ Reach p.declaredSupertypes a b := by
  constructor
  · intro h
    apply h.reverse within_directSubtypes hb
    intro c hc d hd
    exact ((mem_directSubtypes hc).1 hd).2
  · intro h
    apply h.reverse within_declaredSupertypes ha
    intro c hc d hd
    exact (mem_directSubtypes (within_declaredSupertypes c hc d hd)).2 ⟨hc, hd⟩

theorem isSubtype_iff (ha : a < p.classes.length) (hb : b < p.classes.length) :
    p.isSubtype a b = true ↔ Reach p.declaredSupertypes a b := by
  have hmem := Digraph.mem_preorder within_declaredSupertypes ha (m := b)
  simp only [Draft.isSubtype, Draft.supertypes, node_of_lt ha, node_of_lt hb, Bool.or_eq_true,
    beq_iff_eq, List.contains_iff_mem, hmem]
  constructor
  · intro h
    obtain rfl | h := h
    · exact .refl
    · exact h
  · exact .inr

/-- A walk down from a class finds what is at or below it. -/
theorem mem_subtypes (hb : b < p.classes.length) :
    a ∈ p.subtypes b ↔ a < p.classes.length ∧ p.isSubtype a b = true := by
  have hwalk : a ∈ p.subtypes b ↔ Reach p.directSubtypes b a :=
    Digraph.mem_preorder within_directSubtypes hb
  constructor
  · intro h
    have hr := hwalk.1 h
    have ha := hr.lt within_directSubtypes hb
    exact ⟨ha, (isSubtype_iff ha hb).2 ((reach_iff ha hb).1 hr)⟩
  · intro h
    obtain ⟨ha, hs⟩ := h
    exact hwalk.2 ((reach_iff ha hb).2 ((isSubtype_iff ha hb).1 hs))

theorem subtypes_nodup (hb : b < p.classes.length) : (p.subtypes b).Nodup :=
  Digraph.preorder_nodup within_directSubtypes hb

theorem subtypes_eq (hb : b < p.classes.length) :
    ∃ visits, Walks p.directSubtypes [b] visits ∧ p.subtypes b = visits.eraseDups :=
  Digraph.preorder_eq within_directSubtypes acyclic_directSubtypes hb

/-- `c` is no interface, and the first method with the name and the parameters of `m` that it itself
declares is the concrete instance method `t`. -/
def Overrides (p : Program) (m : Method) (c : ClassId) (t : MethodId) : Prop :=
  ∃ decl found, p.classes[c]? = some decl ∧ decl.isInterface = false ∧
    p.declaredMethod? decl m.name m.params = some t ∧ p.methods[t]? = some found ∧
    found.isAbstract = false ∧ found.isStatic = false

theorem override?_eq_some : p.override? c m = some t ↔ p.Overrides m c t := by
  unfold override? Overrides
  simp [Option.bind_eq_some_iff, guard, Method.isConcreteInstance]

theorem Overrides.lt (h : p.Overrides m c t) : c < p.classes.length := by
  obtain ⟨_, _, hc, -⟩ := h
  exact (List.getElem?_eq_some_iff.1 hc).1

/-- The targets of a call: the overrides of `m` at or below `receiver`, each once, in the order in
which a pre-order walk down the hierarchy first comes to their classes. -/
structure Resolution (p : Program) (receiver : ClassId) (m : Method) (ts : List Target) : Prop where
  nodup : ts.Nodup
  mem_iff : ∀ c t, ⟨c, t⟩ ∈ ts ↔ p.isSubtype c receiver = true ∧ p.Overrides m c t
  order : ∃ visits, Walks p.directSubtypes [receiver] visits ∧
    (ts.map Target.owner).Sublist visits.eraseDups

theorem owners_sublist : ((p.overrides b m).map Target.owner).Sublist (p.subtypes b) := by
  unfold overrides
  generalize p.subtypes b = ids
  induction ids with
  | nil => exact .slnil
  | cons id ids ih =>
    rw [List.filterMap_cons]
    cases p.override? id m with
    | none => exact ih.cons _
    | some t => exact ih.cons_cons _

theorem mem_overrides (hb : b < p.classes.length) :
    ⟨c, t⟩ ∈ p.overrides b m ↔ p.isSubtype c b = true ∧ p.Overrides m c t := by
  have hmem : ⟨c, t⟩ ∈ p.overrides b m ↔ c ∈ p.subtypes b ∧ p.override? c m = some t := by
    simp [overrides]
  rw [hmem, override?_eq_some, mem_subtypes hb]
  constructor
  · intro h
    exact ⟨h.1.2, h.2⟩
  · intro h
    exact ⟨⟨h.2.lt, h.1⟩, h.2⟩

theorem dispatch_resolution (hb : b < p.classes.length) (m : Method) :
    ∃ ts, p.dispatch b m = .ok ts ∧ p.Resolution b m ts := by
  have hdispatch : p.dispatch b m = .ok (p.overrides b m) := by
    simp [dispatch, class?, entry, List.getElem?_eq_getElem hb, bind, Except.bind, pure, Except.pure]
  obtain ⟨visits, hwalk, hvisits⟩ := p.subtypes_eq hb
  refine ⟨_, hdispatch, ?_, fun c t => mem_overrides hb, visits, hwalk, hvisits ▸ owners_sublist⟩
  exact (owners_sublist.nodup (subtypes_nodup hb)).of_map _

end Program

end Verilower
