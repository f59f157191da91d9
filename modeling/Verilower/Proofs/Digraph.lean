import Mathlib.Data.List.Nodup
import Mathlib.Logic.Relation
import Mathlib.Tactic.Common
import Verilower.Digraph

namespace Verilower.Digraph
set_option autoImplicit true

variable {next : Nat → List Nat} {size fuel n m : Nat} {ns seen : List Nat}

/-- A path leads from the one node to the other. -/
def Reach (next : Nat → List Nat) : Nat → Nat → Prop :=
  Relation.ReflTransGen fun a b => b ∈ next a

/-- The nodes below `size` name no successor outside. -/
def Within (size : Nat) (next : Nat → List Nat) : Prop := ∀ a < size, ∀ b ∈ next a, b < size

/-- The walks that start at `roots`, when `seen` has been visited, end with `all` visited. -/
structure Explored (next : Nat → List Nat) (seen roots all : List Nat) : Prop where
  seen_append : seen <+: all
  roots_subset : roots ⊆ all
  /-- A node is left only after its successors. -/
  closed : ∀ a ∈ all, a ∉ seen → next a ⊆ all
  reached : ∀ b ∈ all, b ∉ seen → ∃ a ∈ roots, Reach next a b

namespace Explored

theorem nil : Explored next seen [] seen where
  seen_append := List.prefix_rfl
  roots_subset := List.nil_subset _
  closed _ ha hn := (hn ha).elim
  reached _ hb hn := (hn hb).elim

theorem visited (h : n ∈ seen) : Explored next seen [n] seen where
  seen_append := List.prefix_rfl
  roots_subset := List.cons_subset.2 ⟨h, List.nil_subset _⟩
  closed _ ha hn := (hn ha).elim
  reached _ hb hn := (hn hb).elim

/-- A node that is new is visited before its successors. -/
theorem node (h : Explored next (seen ++ [n]) (next n) all) : Explored next seen [n] all where
  seen_append := (List.prefix_append seen [n]).trans h.seen_append
  roots_subset := List.cons_subset.2
    ⟨h.seen_append.subset (List.mem_append_right _ (List.mem_singleton_self n)), List.nil_subset _⟩
  closed a ha hn := by
    by_cases he : a = n
    · exact he ▸ h.roots_subset
    · exact h.closed a ha (by simp [hn, he])
  reached b hb hn := by
    by_cases he : b = n
    · exact ⟨n, List.mem_singleton_self n, he ▸ .refl⟩
    · obtain ⟨a, ha, hr⟩ := h.reached b hb (by simp [hn, he])
      exact ⟨n, List.mem_singleton_self n, .head ha hr⟩

theorem cons (h : Explored next seen [n] part) (hs : Explored next part ns all) :
    Explored next seen (n :: ns) all where
  seen_append := h.seen_append.trans hs.seen_append
  roots_subset := List.cons_subset.2
    ⟨hs.seen_append.subset (h.roots_subset (List.mem_singleton_self n)), hs.roots_subset⟩
  closed a ha hn := by
    by_cases hmem : a ∈ part
    · exact List.Subset.trans (h.closed a hmem hn) hs.seen_append.subset
    · exact hs.closed a ha hmem
  reached b hb hn := by
    by_cases hmem : b ∈ part
    · obtain ⟨a, ha, hr⟩ := h.reached b hmem hn
      exact ⟨a, List.mem_cons.2 (.inl (List.mem_singleton.1 ha)), hr⟩
    · obtain ⟨a, ha, hr⟩ := hs.reached b hb hmem
      exact ⟨a, List.mem_cons_of_mem _ ha, hr⟩

/-- With nothing seen before, the nodes visited are those that can be reached. -/
theorem mem_iff (h : Explored next [] [n] all) : m ∈ all ↔ Reach next n m := by
  constructor
  · intro hm
    obtain ⟨a, ha, hr⟩ := h.reached m hm List.not_mem_nil
    exact List.mem_singleton.1 ha ▸ hr
  · intro hr
    induction hr with
    | refl => exact h.roots_subset (List.mem_singleton_self n)
    | tail _ hstep ih => exact h.closed _ ih List.not_mem_nil hstep

end Explored

/-- The fuel is enough for a walk through `size` nodes that have not been seen. -/
structure Fuelled (size fuel : Nat) (seen : List Nat) : Prop where
  nodup : seen.Nodup
  lt : ∀ a ∈ seen, a < size
  enough : size < fuel + seen.length

namespace Fuelled

theorem start (size : Nat) : Fuelled size (size + 1) [] where
  nodup := List.nodup_nil
  lt := by simp
  enough := by simp

theorem ne_zero (h : Fuelled size fuel seen) : fuel ≠ 0 := by
  intro hz
  have hsub : seen ⊆ List.range size := fun a ha => List.mem_range.2 (h.lt a ha)
  have hle := h.nodup.length_le_of_subset hsub
  have henough := h.enough
  rw [List.length_range] at hle
  omega

theorem push (h : Fuelled size (fuel + 1) seen) (hn : n < size) (hnew : n ∉ seen) :
    Fuelled size fuel (seen ++ [n]) where
  nodup := by
    apply List.nodup_append.2
    refine ⟨h.nodup, List.nodup_singleton n, ?_⟩
    intro a ha b hb he
    exact hnew (List.mem_singleton.1 hb ▸ he ▸ ha)
  lt a ha := by
    obtain ha | ha := List.mem_append.1 ha
    · exact h.lt a ha
    · exact List.mem_singleton.1 ha ▸ hn
  enough := by
    have henough := h.enough
    rw [List.length_append, List.length_singleton]
    omega

end Fuelled

theorem visit_of_notMem (hmem : n ∉ seen) :
    visit next (fuel + 1) seen n = (next n).foldl (visit next fuel) (seen ++ [n]) := by
  simp [visit, hmem]

theorem visit_of_mem (hmem : n ∈ seen) : visit next (fuel + 1) seen n = seen := by
  simp [visit, hmem]

/-- Walks with enough fuel explore the graph, and leave enough fuel for the next ones. -/
theorem foldl_visit (hnext : Within size next) (hf : Fuelled size fuel seen)
    (hns : ∀ a ∈ ns, a < size) :
    Explored next seen ns (ns.foldl (visit next fuel) seen) ∧
      Fuelled size fuel (ns.foldl (visit next fuel) seen) := by
  -- the induction is on the fuel, and on the roots within
  induction fuel generalizing seen ns with
  | zero => exact (hf.ne_zero rfl).elim
  | succ fuel ih =>
    induction ns generalizing seen with
    | nil => exact ⟨.nil, hf⟩
    | cons a ns ihns =>
      obtain ⟨ha, hns⟩ := List.forall_mem_cons.1 hns
      by_cases hmem : a ∈ seen
      · have hrest := ihns hf hns
        rw [List.foldl_cons, visit_of_mem hmem]
        exact ⟨.cons (.visited hmem) hrest.1, hrest.2⟩
      · obtain ⟨hex, hleft⟩ := ih (hf.push ha hmem) (hnext a ha)
        rw [← visit_of_notMem hmem] at hex hleft
        have hleft : Fuelled size (fuel + 1) (visit next (fuel + 1) seen a) :=
          ⟨hleft.nodup, hleft.lt, Nat.lt_of_lt_of_le hleft.enough (by omega)⟩
        have hrest := ihns hleft hns
        exact ⟨.cons hex.node hrest.1, hrest.2⟩

theorem visit_explored (hnext : Within size next) (hf : Fuelled size fuel seen) (hn : n < size) :
    Explored next seen [n] (visit next fuel seen n) ∧ Fuelled size fuel (visit next fuel seen n) := by
  have hroots : ∀ a ∈ [n], a < size := by simpa using hn
  exact foldl_visit hnext hf hroots

theorem mem_preorder (hnext : Within size next) (hn : n < size) :
    m ∈ preorder size next n ↔ Reach next n m :=
  (visit_explored hnext (.start size) hn).1.mem_iff

theorem preorder_nodup (hnext : Within size next) (hn : n < size) :
    (preorder size next n).Nodup :=
  (visit_explored hnext (.start size) hn).2.nodup

/-- No path leads from a node below `size` back to it. -/
def Acyclic (size : Nat) (next : Nat → List Nat) : Prop :=
  ∀ a < size, ∀ b ∈ next a, ¬ Reach next b a

theorem hasCycle_eq_false (hnext : Within size next) :
    hasCycle size next = false ↔ Acyclic size next := by
  have hpre {a b : Nat} (ha : a < size) (hb : b ∈ next a) :
      (preorder size next b).contains a = false ↔ ¬ Reach next b a := by
    rw [← mem_preorder hnext (hnext a ha b hb), ← List.contains_iff_mem, Bool.not_eq_true]
  simp only [hasCycle, List.any_eq_false, List.mem_range, Bool.not_eq_true]
  constructor
  · intro h a ha b hb
    exact (hpre ha hb).1 (h a ha b hb)
  · intro h a ha b hb
    exact (hpre ha hb).2 (h a ha b hb)

theorem Reach.lt (h : Reach next a b) (hnext : Within size next) (ha : a < size) : b < size := by
  induction h with
  | refl => exact ha
  | tail _ hstep ih => exact hnext _ ih _ hstep

/-- A path can be walked back where every edge can. -/
theorem Reach.reverse (h : Reach next a b) (hnext : Within size next) (ha : a < size)
    (hback : ∀ a < size, ∀ b ∈ next a, a ∈ back b) : Reach back b a := by
  induction h with
  | refl => exact .refl
  | tail hpath hstep ih => exact .head (hback _ (Reach.lt hpath hnext ha) _ hstep) ih

theorem Acyclic.reverse (h : Acyclic size back) (hnext : Within size next)
    (hback : ∀ a < size, ∀ b ∈ next a, a ∈ back b) : Acyclic size next := by
  intro a ha b hb hr
  have hlt := hnext a ha b hb
  exact h b hlt a (hback a ha b hb) (hr.reverse hnext hlt hback)

/-- The nodes in the order of pre-order walks from `roots`, one after the other, in which a node
occurs as often as it is come to. -/
inductive Walks (next : Nat → List Nat) : (roots visits : List Nat) → Prop where
  | nil : Walks next [] []
  | cons {n : Nat} {ns : List Nat} (below : Walks next (next n) l) (rest : Walks next ns l') :
    Walks next (n :: ns) (n :: (l ++ l'))

theorem Walks.mem_iff (h : Walks next ns l) : m ∈ l ↔ ∃ a ∈ ns, Reach next a m := by
  induction h with
  | nil => simp
  | @cons l l' n ns _ _ ihb ihr =>
    have hroot : Reach next n m ↔ m = n ∨ ∃ a ∈ next n, Reach next a m := by
      rw [Reach, Relation.ReflTransGen.cases_head_iff]
      exact or_congr eq_comm Iff.rfl
    rw [List.exists_mem_cons_iff, hroot, List.mem_cons, List.mem_append, ihb, ihr, or_assoc]

theorem length_preorder_lt (hnext : Within size next) (hac : Acyclic size next) (hn : n < size)
    (hm : m ∈ next n) : (preorder size next m).length < (preorder size next n).length := by
  have hlt := hnext n hn m hm
  have hback : n ∉ preorder size next m := by
    rw [mem_preorder hnext hlt]
    exact hac n hn m hm
  have hnodup := List.nodup_cons.2 ⟨hback, preorder_nodup hnext hlt⟩
  apply hnodup.length_le_of_subset
  intro a ha
  rw [mem_preorder hnext hn]
  obtain rfl | ha := List.mem_cons.1 ha
  · exact .refl
  · exact .head hm ((mem_preorder hnext hlt).1 ha)

/-- Walks without a record come to an end if there is no cycle. -/
theorem exists_walks (hnext : Within size next) (hac : Acyclic size next) (hns : ∀ a ∈ ns, a < size)
    (hk : ∀ a ∈ ns, (preorder size next a).length < k) : ∃ l, Walks next ns l := by
  induction k generalizing ns with
  | zero =>
    cases ns with
    | nil => exact ⟨[], .nil⟩
    | cons a ns => exact (Nat.not_lt_zero _ (hk a List.mem_cons_self)).elim
  | succ k ih =>
    induction ns with
    | nil => exact ⟨[], .nil⟩
    | cons a ns ihns =>
      obtain ⟨ha, hns⟩ := List.forall_mem_cons.1 hns
      obtain ⟨hka, hkns⟩ := List.forall_mem_cons.1 hk
      obtain ⟨l, hl⟩ := ih (hnext a ha) fun b hb =>
        Nat.lt_of_lt_of_le (length_preorder_lt hnext hac ha hb) (Nat.lt_succ_iff.1 hka)
      obtain ⟨l', hl'⟩ := ihns hns hkns
      exact ⟨_, .cons hl hl'⟩

theorem nodup_eraseDups (l : List Nat) : l.eraseDups.Nodup := by
  induction h : l.length using Nat.strongRecOn generalizing l with
  | _ k ih =>
    cases l with
    | nil => exact List.nodup_nil
    | cons a l =>
      rw [List.eraseDups_cons, List.nodup_cons, List.mem_eraseDups]
      subst h
      exact ⟨by simp, ih _ (Nat.lt_succ_of_le (List.length_filter_le ..)) _ rfl⟩

theorem eraseDups_of_nodup {l : List Nat} (h : l.Nodup) : l.eraseDups = l := by
  induction l with
  | nil => rfl
  | cons a l ih =>
    obtain ⟨ha, hl⟩ := List.nodup_cons.1 h
    have hfilter : (l.filter fun b => !b == a) = l := by
      apply List.filter_eq_self.2
      intro b hb
      have hne : b ≠ a := fun he => ha (he ▸ hb)
      simpa using hne
    rw [List.eraseDups_cons, hfilter, ih hl]

theorem eraseDups_append_of_subset {l l' : List Nat} (h : l.Nodup) (hsub : l' ⊆ l) :
    (l ++ l').eraseDups = l := by
  have hnone : l'.removeAll l = [] := by
    apply List.filter_eq_nil_iff.2
    intro a ha
    simpa using hsub ha
  rw [List.eraseDups_append, eraseDups_of_nodup h, hnone]
  exact List.append_nil l

theorem eraseDups_eraseDups_append (l l' : List Nat) :
    (l.eraseDups ++ l').eraseDups = (l ++ l').eraseDups := by
  have hsame : l'.removeAll l.eraseDups = l'.removeAll l := by
    apply List.filter_congr
    intro a _
    simp [List.mem_eraseDups]
  rw [List.eraseDups_append, List.eraseDups_append, eraseDups_of_nodup (nodup_eraseDups l), hsame]

/-- Walks that keep a record visit the nodes in the order in which those that keep none come to them
first, provided that a node on the record has all that it leads to there as well. -/
theorem foldl_visit_eq (hnext : Within size next) (hac : Acyclic size next) (h : Walks next ns l)
    (hf : Fuelled size fuel seen) (hns : ∀ a ∈ ns, a < size)
    (hdone : ∀ a ∈ l, a ∈ seen → ∀ b, Reach next a b → b ∈ seen) :
    ns.foldl (visit next fuel) seen = (seen ++ l).eraseDups := by
  induction h generalizing fuel seen with
  | nil => rw [List.append_nil, eraseDups_of_nodup hf.nodup, List.foldl_nil]
  | @cons l l' n ns hbelow hrest ihb ihr =>
    obtain ⟨hn, hns⟩ := List.forall_mem_cons.1 hns
    have hwalk {b : Nat} : b ∈ n :: l ↔ Reach next n b := by
      simpa using (Walks.cons hbelow .nil).mem_iff
    have hfirst : visit next fuel seen n = (seen ++ n :: l).eraseDups := by
      obtain ⟨fuel, rfl⟩ := Nat.exists_eq_succ_of_ne_zero hf.ne_zero
      by_cases hmem : n ∈ seen
      · rw [visit_of_mem hmem, eraseDups_append_of_subset hf.nodup]
        intro b hb
        exact hdone n List.mem_cons_self hmem b (hwalk.1 hb)
      · rw [visit_of_notMem hmem, ihb (hf.push hn hmem) (hnext n hn) ?_, List.append_assoc,
          List.singleton_append]
        intro a ha hseen b hb
        have hne : a ≠ n := by
          intro he
          obtain ⟨c, hc, hr⟩ := hbelow.mem_iff.1 (he ▸ ha)
          exact hac n hn c hc hr
        have hold : a ∈ seen := by simpa [hne] using hseen
        exact List.mem_append_left _ (hdone a (by simp [ha]) hold b hb)
    have hleft := (visit_explored hnext hf hn).2
    have hall : ∀ a ∈ l', a ∈ visit next fuel seen n → ∀ b, Reach next a b →
        b ∈ visit next fuel seen n := by
      intro a ha hseen b hb
      rw [hfirst, List.mem_eraseDups, List.mem_append] at hseen ⊢
      obtain hseen | hnew := hseen
      · exact .inl (hdone a (by simp [ha]) hseen b hb)
      · exact .inr (hwalk.2 ((hwalk.1 hnew).trans hb))
    rw [List.foldl_cons, ihr hleft hns hall, hfirst, eraseDups_eraseDups_append,
      List.append_assoc, List.cons_append]

/-- The depth-first walk from a node is the pre-order walk with only the first visits kept. -/
theorem preorder_eq (hnext : Within size next) (hac : Acyclic size next) (hn : n < size) :
    ∃ visits, Walks next [n] visits ∧ preorder size next n = visits.eraseDups := by
  have hns : ∀ a ∈ [n], a < size := by simpa using hn
  have hk : ∀ a ∈ [n], (preorder size next a).length < (preorder size next n).length + 1 := by simp
  obtain ⟨l, hl⟩ := exists_walks hnext hac hns hk
  exact ⟨l, hl, foldl_visit_eq hnext hac hl (.start size) hns (by simp)⟩

end Verilower.Digraph
