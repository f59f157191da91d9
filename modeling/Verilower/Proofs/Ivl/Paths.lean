import Mathlib.Tactic.Common
import Verilower.Proofs.Ivl.Preorder

namespace Verilower.Ivl
set_option autoImplicit true

/-- Whether a statement contains no other. -/
def Stmt.isFlat : Stmt → Bool
  | .ite .. => false
  | _ => true

theorem Stmt.nested_ite : (Stmt.ite c a b).nested =
    .ite c a b :: (a.flatMap Stmt.nested ++ b.flatMap Stmt.nested) := by
  have hnested : Stmt.nested = Stmt.preorder := funext Stmt.nested_eq_preorder
  rw [hnested, Stmt.preorder, Stmt.preorderAll_eq, Stmt.preorderAll_eq]

theorem Stmt.nested_flat {s : Stmt} (hs : s.isFlat = true) : s.nested = [s] := by
  rw [Stmt.nested_eq_preorder]
  cases s with
  | ite => simp [Stmt.isFlat] at hs
  | _ => rfl

def Stmt.ownLabels : Stmt → List String
  | .label name => [name]
  | _ => []

def Stmt.ownJumps : Stmt → List String
  | .goto labels => labels
  | _ => []

def labels (ss : List Stmt) : List String := (ss.flatMap Stmt.nested).flatMap Stmt.ownLabels

def jumps (ss : List Stmt) : List String := (ss.flatMap Stmt.nested).flatMap Stmt.ownJumps

@[simp] theorem labels_nil : labels [] = [] := rfl

@[simp] theorem jumps_nil : jumps [] = [] := rfl

@[simp] theorem labels_append : labels (as ++ bs) = labels as ++ labels bs := by simp [labels]

@[simp] theorem jumps_append : jumps (as ++ bs) = jumps as ++ jumps bs := by simp [jumps]

theorem jumps_flatMap {xs : List α} {f : α → List Stmt} :
    jumps (xs.flatMap f) = xs.flatMap fun x => jumps (f x) := by
  simp [jumps, List.flatMap_assoc]

theorem labels_flat {s : Stmt} (hs : s.isFlat = true) :
    labels (s :: ss) = s.ownLabels ++ labels ss := by
  simp [labels, Stmt.nested_flat hs]

theorem jumps_flat {s : Stmt} (hs : s.isFlat = true) :
    jumps (s :: ss) = s.ownJumps ++ jumps ss := by
  simp [jumps, Stmt.nested_flat hs]

@[simp] theorem labels_ite : labels (.ite c a b :: ss) = labels a ++ labels b ++ labels ss := by
  simp [labels, Stmt.nested_ite, Stmt.ownLabels]

@[simp] theorem jumps_ite : jumps (.ite c a b :: ss) = jumps a ++ jumps b ++ jumps ss := by
  simp [jumps, Stmt.nested_ite, Stmt.ownJumps]

/-- A statement that neither nests, nor puts down a label, nor moves control. -/
def Stmt.isSimple : Stmt → Bool
  | .assign .. | .assert _ | .assume _ | .havoc _ | .call .. => true
  | _ => false

theorem Stmt.isFlat_of_isSimple {s : Stmt} (hs : s.isSimple = true) :
    s.isFlat = true ∧ s.ownLabels = [] ∧ s.ownJumps = [] := by
  cases s <;> simp_all [Stmt.isSimple, Stmt.isFlat, Stmt.ownLabels, Stmt.ownJumps]

theorem labels_simple {s : Stmt} (hs : s.isSimple = true) : labels (s :: ss) = labels ss := by
  obtain ⟨hf, hl, -⟩ := Stmt.isFlat_of_isSimple hs
  rw [labels_flat hf, hl, List.nil_append]

theorem jumps_simple {s : Stmt} (hs : s.isSimple = true) : jumps (s :: ss) = jumps ss := by
  obtain ⟨hf, -, hj⟩ := Stmt.isFlat_of_isSimple hs
  rw [jumps_flat hf, hj, List.nil_append]

@[simp] theorem labels_assign : labels (.assign x e :: ss) = labels ss := labels_simple rfl

@[simp] theorem jumps_assign : jumps (.assign x e :: ss) = jumps ss := jumps_simple rfl

@[simp] theorem labels_assert : labels (.assert e :: ss) = labels ss := labels_simple rfl

@[simp] theorem jumps_assert : jumps (.assert e :: ss) = jumps ss := jumps_simple rfl

@[simp] theorem labels_assume : labels (.assume e :: ss) = labels ss := labels_simple rfl

@[simp] theorem jumps_assume : jumps (.assume e :: ss) = jumps ss := jumps_simple rfl

@[simp] theorem labels_havoc : labels (.havoc xs :: ss) = labels ss := labels_simple rfl

@[simp] theorem jumps_havoc : jumps (.havoc xs :: ss) = jumps ss := jumps_simple rfl

@[simp] theorem labels_call : labels (.call f es xs :: ss) = labels ss := labels_simple rfl

@[simp] theorem jumps_call : jumps (.call f es xs :: ss) = jumps ss := jumps_simple rfl

@[simp] theorem labels_label : labels (.label name :: ss) = name :: labels ss := labels_flat rfl

@[simp] theorem jumps_label : jumps (.label name :: ss) = jumps ss := jumps_flat rfl

@[simp] theorem labels_goto : labels (.goto ls :: ss) = labels ss := labels_flat rfl

@[simp] theorem jumps_goto : jumps (.goto ls :: ss) = ls ++ jumps ss := jumps_flat rfl

@[simp] theorem labels_ret : labels (.ret :: ss) = labels ss := labels_flat rfl

@[simp] theorem jumps_ret : jumps (.ret :: ss) = jumps ss := jumps_flat rfl

theorem straight_of_isSimple (h : ∀ s ∈ ss, Stmt.isSimple s = true) :
    labels ss = [] ∧ jumps ss = [] ∧ .ret ∉ ss.flatMap Stmt.nested := by
  induction ss with
  | nil => simp
  | cons s ss ih =>
    have hs := h s List.mem_cons_self
    obtain ⟨hl, hj, hr⟩ := ih fun s' hs' => h s' (List.mem_cons_of_mem _ hs')
    refine ⟨by rw [labels_simple hs, hl], by rw [jumps_simple hs, hj], ?_⟩
    rw [List.flatMap_cons, Stmt.nested_flat (Stmt.isFlat_of_isSimple hs).1, List.mem_append,
      List.mem_singleton]
    rintro (rfl | hr')
    · cases hs
    · exact hr hr'

/-- How a path leaves a list of statements. -/
inductive Exit where
  /-- Past the last statement. -/
  | fall
  | jump (label : String)
  | ret
deriving DecidableEq

/-- A path through the statements from the first one leaves them by the exit. -/
inductive Path : List Stmt → Exit → Prop
  | nil : Path [] .fall
  | simple (hs : s.isSimple = true) (h : Path rest e) : Path (s :: rest) e
  | label (h : Path rest e) : Path (.label name :: rest) e
  | goto (hl : l ∈ ls) : Path (.goto ls :: rest) (.jump l)
  | ret : Path (.ret :: rest) .ret
  | thenBranch (h : Path (a ++ rest) e) : Path (.ite c a b :: rest) e
  | elseBranch (h : Path (b ++ rest) e) : Path (.ite c a b :: rest) e

/-- A path that falls out of two lists in a row falls out of each of them. -/
theorem Path.fall_append (h : Path (as ++ bs) .fall) : Path as .fall ∧ Path bs .fall := by
  generalize hss : as ++ bs = ss, he : Exit.fall = e at h
  -- A path into a branch has the branch in front of the rest, so the first list grows on the way.
  induction h generalizing as with
  | nil =>
    obtain ⟨rfl, rfl⟩ := List.append_eq_nil_iff.1 hss
    exact ⟨.nil, .nil⟩
  | goto | ret => cases he
  | simple hs h ih =>
    subst he
    cases as with
    | nil =>
      obtain rfl : bs = _ := hss
      exact ⟨.nil, h.simple hs⟩
    | cons a as =>
      obtain ⟨rfl, hrest⟩ := List.cons.inj hss
      obtain ⟨ha, hb⟩ := ih hrest rfl
      exact ⟨ha.simple hs, hb⟩
  | label h ih =>
    subst he
    cases as with
    | nil =>
      obtain rfl : bs = _ := hss
      exact ⟨.nil, h.label⟩
    | cons a as =>
      obtain ⟨rfl, hrest⟩ := List.cons.inj hss
      obtain ⟨ha, hb⟩ := ih hrest rfl
      exact ⟨ha.label, hb⟩
  | thenBranch h ih =>
    subst he
    cases as with
    | nil =>
      obtain rfl : bs = _ := hss
      exact ⟨.nil, h.thenBranch⟩
    | cons a as =>
      obtain ⟨rfl, rfl⟩ := List.cons.inj hss
      obtain ⟨ha, hb⟩ := ih (List.append_assoc ..) rfl
      exact ⟨ha.thenBranch, hb⟩
  | elseBranch h ih =>
    subst he
    cases as with
    | nil =>
      obtain rfl : bs = _ := hss
      exact ⟨.nil, h.elseBranch⟩
    | cons a as =>
      obtain ⟨rfl, rfl⟩ := List.cons.inj hss
      obtain ⟨ha, hb⟩ := ih (List.append_assoc ..) rfl
      exact ⟨ha.elseBranch, hb⟩

/-- No path runs off the end. -/
def Closed (ss : List Stmt) : Prop := ¬ Path ss .fall

theorem Closed.append_right (h : Closed bs) : Closed (as ++ bs) := fun hp => h hp.fall_append.2

theorem closed_ret : Closed (.ret :: ss) := by
  rintro (_ | ⟨hs, _⟩)
  cases hs

theorem closed_goto : Closed (.goto ls :: ss) := by
  rintro (_ | ⟨hs, _⟩)
  cases hs

theorem closed_ite (ha : Closed a) (hb : Closed b) : Closed (.ite c a b :: ss) := by
  intro h
  cases h with
  | simple hs _ => cases hs
  | thenBranch h => exact ha h.fall_append.1
  | elseBranch h => exact hb h.fall_append.1

end Verilower.Ivl
