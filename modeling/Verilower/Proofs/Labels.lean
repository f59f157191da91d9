import Mathlib.Logic.Relation
import Verilower.Proofs.Naming
import Verilower.Proofs.Registry

namespace Verilower
set_option autoImplicit true

theorem find?_of_unique [DecidableEq β] {f : α → β} {xs : List α} (hx : x ∈ xs)
    (hunique : ∀ y ∈ xs, f y = f x → y = x) : xs.find? (fun y => f y = f x) = some x := by
  cases hfind : xs.find? (fun y => f y = f x) with
  | none => simpa using List.find?_eq_none.1 hfind x hx
  | some y =>
    have hy : f y = f x := by simpa using List.find?_some hfind
    rw [hunique y (List.mem_of_find?_eq_some hfind) hy]

namespace LabelMap

/-- The map after the label of a node has been asked for. -/
def request (m : LabelMap) (i : MethodId) (n : Nat) : LabelMap :=
  match m.labelOf? (i, n) with
  | some _ => m
  | none => m.insert (i, n) (labelName i n)

theorem Named.eq_of_label (h : Named m) (hx : (x, l) ∈ m.pairs) (hy : (y, l) ∈ m.pairs) :
    x = y := labelName_inj ((h _ _ l hx).symm.trans (h _ _ l hy))

theorem labelOf?_eq_some (h : Named m) : m.labelOf? x = some l ↔ (x, l) ∈ m.pairs := by
  constructor
  · intro hl
    obtain ⟨⟨y, l'⟩, hfind, rfl⟩ := Option.map_eq_some_iff.1 hl
    obtain rfl : y = x := by simpa using List.find?_some hfind
    exact List.mem_of_find?_eq_some hfind
  · intro hmem
    rw [labelOf?, find?_of_unique (f := Prod.fst) hmem, Option.map_some]
    rintro ⟨y, l'⟩ hy rfl
    rw [h _ _ l' hy, h _ _ l hmem]

theorem nodeOf?_eq_some (h : Named m) : m.nodeOf? l = some x ↔ (x, l) ∈ m.pairs := by
  constructor
  · intro hx
    obtain ⟨⟨y, l'⟩, hfind, rfl⟩ := Option.map_eq_some_iff.1 hx
    obtain rfl : l' = l := by simpa using List.find?_some hfind
    exact List.mem_of_find?_eq_some hfind
  · intro hmem
    rw [nodeOf?, find?_of_unique (f := Prod.snd) hmem, Option.map_some]
    rintro ⟨y, l'⟩ hy rfl
    rw [h.eq_of_label hy hmem]

/-- A pair that is added for a new node shares neither side with an old one. -/
theorem insert_eq (h : Named m) (hnew : m.labelOf? (i, n) = none) :
    (m.insert (i, n) (labelName i n)).pairs = m.pairs ++ [((i, n), labelName i n)] := by
  have hkeep : ∀ pair ∈ m.pairs, (pair.1 ≠ (i, n) && pair.2 ≠ labelName i n) = true := by
    rintro ⟨⟨k, j⟩, l⟩ hmem
    have hnode : (k, j) ≠ (i, n) := by
      intro heq
      rw [← heq, (labelOf?_eq_some h).2 hmem] at hnew
      cases hnew
    have hlabel : l ≠ labelName i n := by
      rw [h k j l hmem]
      exact fun heq => hnode (labelName_inj heq)
    simp [hnode, hlabel]
  rw [insert, List.filter_eq_self.2 hkeep]

/-- A request leaves the map as it is, or adds the pair of its node. -/
theorem request_cases (h : Named m) (i : MethodId) (n : Nat) :
    (m.request i n).pairs = m.pairs ∧ ((i, n), labelName i n) ∈ m.pairs ∨
      (m.request i n).pairs = m.pairs ++ [((i, n), labelName i n)] := by
  cases hl : m.labelOf? (i, n) with
  | some l =>
    have hmem := (labelOf?_eq_some h).1 hl
    rw [h i n l hmem] at hmem
    exact .inl ⟨by simp [request, hl], hmem⟩
  | none =>
    refine .inr ?_
    rw [← insert_eq h hl]
    simp [request, hl]

/-- The map after the labels of nodes have been asked for, one after the other. -/
def requestAll (m : LabelMap) (nodes : List (MethodId × Nat)) : LabelMap :=
  nodes.foldl (fun m node => m.request node.1 node.2) m

theorem Named.request (h : Named m) : Named (m.request i n) := by
  intro k j l hmem
  obtain ⟨heq, -⟩ | heq := request_cases h i n
  · exact h k j l (heq ▸ hmem)
  · rw [heq, List.mem_append, List.mem_singleton] at hmem
    obtain hmem | hmem := hmem
    · exact h k j l hmem
    · cases hmem
      rfl

theorem Named.prefix_request (h : Named m) : m.pairs <+: (m.request i n).pairs := by
  obtain ⟨heq, -⟩ | heq := request_cases h i n
  · exact heq ▸ List.prefix_refl _
  · exact heq ▸ List.prefix_append _ _

theorem Named.mem_request (h : Named m) : ((i, n), labelName i n) ∈ (m.request i n).pairs := by
  obtain ⟨heq, hmem⟩ | heq := request_cases h i n
  · exact heq ▸ hmem
  · rw [heq]
    exact List.mem_append_right _ List.mem_cons_self

theorem Named.requestAll (h : Named m) (nodes : List (MethodId × Nat)) :
    Named (m.requestAll nodes) ∧ m.pairs <+: (m.requestAll nodes).pairs ∧
    ∀ i n, (i, n) ∈ nodes → ((i, n), labelName i n) ∈ (m.requestAll nodes).pairs := by
  induction nodes generalizing m with
  | nil => exact ⟨h, List.prefix_refl _, nofun⟩
  | cons node nodes ih =>
    obtain ⟨hnamed, hprefix, hmem⟩ := ih (h.request (i := node.1) (n := node.2))
    refine ⟨hnamed, h.prefix_request.trans hprefix, ?_⟩
    intro i n hin
    obtain rfl | hin := List.mem_cons.1 hin
    · exact hprefix.subset h.mem_request
    · exact hmem i n hin

end LabelMap

def Event.node? : Event → Option (MethodId × Nat)
  | .label m n => some (m, n)
  | _ => none

namespace Registry

theorem label_labels : (label r m n).2.labels = r.labels.request m n := by
  unfold label LabelMap.request
  cases r.labels.labelOf? (m, n) <;> rfl

theorem recordBasic_labels :
    (recordBasic p r e).labels = r.labels.requestAll e.node?.toList := by
  cases e with
  | label m n => exact label_labels
  | tag | field | signature | global | diagnostic | log => rfl

theorem foldl_recordBasic_labels {j : List Event} (h : ∀ e ∈ j, e.node? = none) :
    (j.foldl (recordBasic p) r).labels = r.labels := by
  induction j generalizing r with
  | nil => rfl
  | cons e j ih =>
    rw [List.foldl_cons, ih fun e he => h e (List.mem_cons_of_mem _ he), recordBasic_labels,
      h e List.mem_cons_self]
    rfl

theorem record_labels {r : Registry} (h : r.Coherent p q) :
    (record p q r e).labels = r.labels.requestAll e.node?.toList := by
  cases e with
  | signature i =>
    have hbuild : ((Signature.build p q i).journal.foldl (recordBasic p) r).labels = r.labels :=
      foldl_recordBasic_labels (Signature.build_records (fun _ => rfl) fun _ => rfl)
    rw [record, signature_snd h]
    split
    · rfl
    · dsimp only
      split <;> exact hbuild
  | tag | field | label | global | diagnostic | log => exact recordBasic_labels

theorem replay_labels {r : Registry} (h : r.Coherent p q) :
    (replay p q r j).labels = r.labels.requestAll (j.filterMap Event.node?) := by
  induction j generalizing r with
  | nil => rfl
  | cons e j ih =>
    have hcons : (e :: j).filterMap Event.node? = e.node?.toList ++ j.filterMap Event.node? := by
      cases he : e.node? <;> simp [he]
    rw [hcons, LabelMap.requestAll, List.foldl_append]
    exact (ih (h.record e)).trans (congrArg (LabelMap.requestAll · _) (record_labels h))

end Registry

namespace Session

/-- Any requests lie between the two sessions. -/
def Later : Session → Session → Prop := Relation.ReflTransGen Step

theorem Later.journal (h : Later s t) : ∃ j, t = s.after j := by
  induction h with
  | refl => exact ⟨[], rfl⟩
  | tail _ hs ih =>
    obtain ⟨j, rfl⟩ := ih
    obtain ⟨k, rfl⟩ := hs.extends.journal
    exact ⟨j ++ k, after_append.symm⟩

theorem label_labels (s : Session) (m : MethodId) (n : Nat) :
    (s.label m n).2.registry.labels = s.registry.labels.request m n := Registry.label_labels

/-- The label that is looked up is the one that would be made. -/
theorem label_result (s : Session) (m : MethodId) (n : Nat) :
    (s.label m n).1 = .ok (labelName m n) := congrArg Prod.fst label_eq_run

/-- Whatever the events are, the map keeps its pairs, and has those asked for. -/
theorem after_labels (s : Session) (j : List Event) :
    s.registry.labels.pairs <+: (s.after j).registry.labels.pairs ∧
    ∀ m n, Event.label m n ∈ j → ((m, n), labelName m n) ∈ (s.after j).registry.labels.pairs := by
  have hlabels : (s.after j).registry.labels =
      s.registry.labels.requestAll (j.filterMap Event.node?) := Registry.replay_labels s.coherent
  obtain ⟨-, hkept, hmem⟩ := s.coherent.labels.requestAll (j.filterMap Event.node?)
  rw [hlabels]
  refine ⟨hkept, fun m n hj => ?_⟩
  exact hmem m n (List.mem_filterMap.2 ⟨_, hj, rfl⟩)

theorem nodeOf?_later {s : Session} (hmem : (x, l) ∈ s.registry.labels.pairs) (hl : Later s t) :
    t.registry.labels.nodeOf? l = some x := by
  obtain ⟨j, rfl⟩ := hl.journal
  rw [LabelMap.nodeOf?_eq_some (s.after j).coherent.labels]
  exact (after_labels s j).1.subset hmem

/-- What holds of the labels of a session in relation to an earlier one. -/
structure LabelsKept (s t : Session) : Prop where
  /-- Every node has a label, and it is the same in both sessions. -/
  same : ∀ m n, ∃ l, (s.label m n).1 = .ok l ∧ (t.label m n).1 = .ok l
  /-- No other node gets that label. -/
  apart : ∀ m n m' n', (s.label m n).1 = (t.label m' n').1 → (m, n) = (m', n')
  /-- The two directions of the map belong together. -/
  inverse : ∀ node l, t.registry.labels.labelOf? node = some l ↔
    t.registry.labels.nodeOf? l = some node
  /-- The pairs of the earlier session are all there, before the newer ones. -/
  kept : s.registry.labels.pairs <+: t.registry.labels.pairs
  /-- A request for a new label makes an insertion that drops no pair. -/
  inserted : ∀ m n, t.registry.labels.labelOf? (m, n) = none →
    ∃ l, (t.label m n).1 = .ok l ∧
      (t.label m n).2.registry.labels = t.registry.labels.insert (m, n) l ∧
      (t.registry.labels.insert (m, n) l).pairs = t.registry.labels.pairs ++ [((m, n), l)]

theorem Later.labelsKept (hl : Later s t) : s.LabelsKept t := by
  have ht := t.coherent.labels
  constructor
  case same => exact fun m n => ⟨_, label_result s m n, label_result t m n⟩
  case apart =>
    intro m n m' n' heq
    rw [label_result, label_result] at heq
    exact labelName_inj (Except.ok.inj heq)
  case inverse =>
    intro node l
    rw [LabelMap.labelOf?_eq_some ht, LabelMap.nodeOf?_eq_some ht]
  case kept =>
    obtain ⟨j, rfl⟩ := hl.journal
    exact (after_labels s j).1
  case inserted =>
    intro m n hnew
    refine ⟨_, label_result t m n, ?_, LabelMap.insert_eq ht hnew⟩
    rw [label_labels, LabelMap.request, hnew]

/-- Labels and nodes correspond one to one over any history. A node keeps its label, and the label
leads back to it once it has been asked for, by itself or among the events of another request. No
event drops a pair. -/
theorem labels_bijective (s : Session) :
    (∀ t, Later s t → s.LabelsKept t) ∧
    (∀ m n l t, (s.label m n).1 = .ok l → Later (s.label m n).2 t →
      t.registry.labels.nodeOf? l = some (m, n)) ∧
    (∀ m n j t, Event.label m n ∈ j → Later (s.after j) t →
      ∃ l, (t.label m n).1 = .ok l ∧ t.registry.labels.nodeOf? l = some (m, n)) ∧
    ∀ j e, (s.after j).registry.labels.pairs <+: ((s.after j).after [e]).registry.labels.pairs := by
  refine ⟨fun t => Later.labelsKept, ?_, ?_, ?_⟩
  · intro m n l t heq hl
    rw [label_result] at heq
    obtain rfl : labelName m n = l := Except.ok.inj heq
    apply nodeOf?_later _ hl
    rw [label_labels]
    exact s.coherent.labels.mem_request
  · intro m n j t hj hl
    exact ⟨labelName m n, label_result t m n, nodeOf?_later ((after_labels s j).2 m n hj) hl⟩
  · intro j e
    exact (after_labels (s.after j) [e]).1

end Session

def blankSession : Session := .start (.ofProgram .empty) .standard {}

/-- The labels of two nodes whose numbers have the same digits in a row. -/
theorem labels_bijective_blank :
    let s := (blankSession.label 1 23).2
    let t := (s.label 12 3).2
    blankSession.LabelsKept t ∧ t.registry.labels.nodeOf? "block_1_23" = some (1, 23) ∧
      t.registry.labels.nodeOf? "block_12_3" = some (12, 3) := by
  have hfirst : blankSession.Later (blankSession.label 1 23).2 := .single .label
  have hsecond : (blankSession.label 1 23).2.Later ((blankSession.label 1 23).2.label 12 3).2 :=
    .single .label
  refine ⟨?_, ?_, ?_⟩
  · exact (Session.labels_bijective _).1 _ (hfirst.trans hsecond)
  · exact (Session.labels_bijective _).2.1 1 23 _ _ rfl hsecond
  · exact (Session.labels_bijective _).2.1 12 3 _ _ rfl .refl

end Verilower
