import Verilower.Ivl.Stmt

namespace Verilower.Ivl
set_option autoImplicit true

mutual

/-- A statement, then all of its first branch, then all of its second. -/
def Stmt.preorder : Stmt → List Stmt
  | .ite c a b => .ite c a b :: (Stmt.preorderAll a ++ Stmt.preorderAll b)
  | s => [s]

def Stmt.preorderAll : List Stmt → List Stmt
  | [] => []
  | s :: rest => s.preorder ++ Stmt.preorderAll rest

end

theorem Stmt.preorderAll_eq (ss : List Stmt) : Stmt.preorderAll ss = ss.flatMap Stmt.preorder := by
  induction ss with
  | nil => rfl
  | cons s ss ih => rw [Stmt.preorderAll, ih, List.flatMap_cons]

theorem Stmt.preorderAll_append (as bs : List Stmt) :
    Stmt.preorderAll (as ++ bs) = Stmt.preorderAll as ++ Stmt.preorderAll bs := by
  simp only [Stmt.preorderAll_eq, List.flatMap_append]

/-- What is left to visit, the top of the stack first. -/
def Cursor.pending (c : Cursor) : List Stmt := c.stack.toList.reverse

/-- A step gives the first statement of what is left and leaves the rest in order. -/
theorem Cursor.preorder_step (h : Cursor.next? c = some (s, c')) :
    Stmt.preorderAll c.pending = s :: Stmt.preorderAll c'.pending := by
  obtain ⟨stack, rfl, rfl⟩ := Cursor.next?_eq_some h
  simp only [Cursor.pending, Array.toList_push, List.reverse_append, List.reverse_singleton,
    List.singleton_append, Stmt.preorderAll]
  cases s with
  | ite c a b =>
    -- The second branch is pushed first, and each in reverse: from its top, the stack is in order.
    simp only [Stmt.pushInner, Array.toList_appendList, List.reverse_append, List.reverse_reverse,
      Stmt.preorderAll_append, Stmt.preorder, List.cons_append, List.append_assoc]
  | _ => rfl

theorem Cursor.pending_of_next?_eq_none (h : Cursor.next? c = none) : c.pending = [] := by
  obtain ⟨stack⟩ := c
  cases hback : stack.back? with
  | none => simp [Cursor.pending, Array.back?_eq_none_iff.1 hback]
  | some s => simp [Cursor.next?, hback] at h

/-- The walk from a position ends after it has given those statements. -/
inductive Cursor.Yields : Cursor → List Stmt → Prop
  | done (h : c.next? = none) : Yields c []
  | step (h : c.next? = some (s, c')) (rest : Yields c' l) : Yields c (s :: l)

theorem Cursor.yields_toList (c : Cursor) : c.Yields c.toList := by
  fun_induction Cursor.toList c with
  | case1 c h => exact .done h
  | case2 c s c' h ih => exact .step h ih

/-- A walk gives what is left on its stack, with everything inside it. -/
theorem Cursor.Yields.eq_preorder (h : Cursor.Yields c l) : l = Stmt.preorderAll c.pending := by
  induction h with
  | done h => rw [Cursor.pending_of_next?_eq_none h, Stmt.preorderAll]
  | step h _ ih => rw [Cursor.preorder_step h, ih]

theorem Stmt.pending_cursor (s : Stmt) : s.cursor.pending = [s] := rfl

theorem Stmt.yields_cursor {s : Stmt} : s.cursor.Yields l ↔ l = s.preorder := by
  have hs : Stmt.preorderAll s.cursor.pending = s.preorder := by
    rw [Stmt.pending_cursor, Stmt.preorderAll, Stmt.preorderAll, List.append_nil]
  constructor
  · exact fun h => h.eq_preorder.trans hs
  · rintro rfl
    rw [← hs, ← (Cursor.yields_toList s.cursor).eq_preorder]
    exact Cursor.yields_toList s.cursor

theorem Stmt.nested_eq_preorder (s : Stmt) : s.nested = s.preorder :=
  Stmt.yields_cursor.1 (Cursor.yields_toList s.cursor)

/-- A way down into a statement. Each turn says whether it goes into the second branch, and which
statement of the branch it takes. -/
abbrev Position := List (Bool × Nat)

/-- The first position ends, or takes the earlier turn, where the two part. -/
def Position.Before : Position → Position → Prop := List.Lex (Prod.Lex (· < ·) (· < ·))

theorem Position.Before.ne {q r : Position} (h : q.Before r) : q ≠ r := by
  induction h with
  | nil => nofun
  | cons _ ih => exact fun heq => ih (List.cons.inj heq).2
  | rel h =>
    intro heq
    obtain ⟨rfl, -⟩ := List.cons.inj heq
    cases h with
    | left _ _ h => exact absurd h (by simp)
    | right _ h => exact Nat.lt_irrefl _ h

def Stmt.branch : Stmt → Bool → List Stmt
  | .ite _ a _, false => a
  | .ite _ _ b, true => b
  | _, _ => []

def Stmt.at? (s : Stmt) : Position → Option Stmt
  | [] => some s
  | (second, i) :: q => (s.branch second)[i]?.bind fun t => t.at? q

mutual

def Stmt.positions : Stmt → List Position
  | .ite _ a b => [] :: (Stmt.positionsFrom false 0 a ++ Stmt.positionsFrom true 0 b)
  | _ => [[]]

/-- The positions in the statements of a branch from the one with number `i` on. -/
def Stmt.positionsFrom (second : Bool) (i : Nat) : List Stmt → List Position
  | [] => []
  | s :: rest => s.positions.map ((second, i) :: ·) ++ Stmt.positionsFrom second (i + 1) rest

end

theorem Stmt.mem_positionsFrom {ss : List Stmt} : q ∈ Stmt.positionsFrom second i ss ↔
    ∃ k t r, ss[k]? = some t ∧ r ∈ t.positions ∧ q = (second, i + k) :: r := by
  induction ss generalizing i with
  | nil => simp [Stmt.positionsFrom]
  | cons s ss ih =>
    rw [Stmt.positionsFrom, List.mem_append, List.mem_map, ih]
    constructor
    · rintro (⟨r, hr, rfl⟩ | ⟨k, t, r, hk, hr, rfl⟩)
      · exact ⟨0, s, r, rfl, hr, rfl⟩
      · exact ⟨k + 1, t, r, hk, hr, by rw [Nat.add_assoc, Nat.add_comm 1]⟩
    · rintro ⟨k, t, r, hk, hr, rfl⟩
      cases k with
      | zero =>
        obtain rfl := Option.some.inj hk
        exact .inl ⟨r, hr, rfl⟩
      | succ k => exact .inr ⟨k, t, r, hk, hr, by rw [Nat.add_assoc, Nat.add_comm 1]⟩

theorem Stmt.cons_mem_positionsFrom {ss : List Stmt} :
    (second', i) :: q ∈ Stmt.positionsFrom second 0 ss ↔
      second' = second ∧ ∃ t, ss[i]? = some t ∧ q ∈ t.positions := by
  rw [Stmt.mem_positionsFrom]
  constructor
  · rintro ⟨k, t, r, hk, hr, heq⟩
    obtain ⟨⟨rfl, rfl⟩, rfl⟩ := by simpa using heq
    exact ⟨rfl, t, hk, hr⟩
  · rintro ⟨rfl, t, ht, hq⟩
    exact ⟨i, t, q, ht, hq, by rw [Nat.zero_add]⟩

theorem Stmt.nil_mem_positions (s : Stmt) : [] ∈ s.positions := by
  cases s <;> simp [Stmt.positions]

theorem Stmt.cons_mem_positions {s : Stmt} : (second, i) :: q ∈ s.positions ↔
    ∃ t, (s.branch second)[i]? = some t ∧ q ∈ t.positions := by
  cases s with
  | ite c a b =>
    cases second <;> simp [Stmt.positions, Stmt.cons_mem_positionsFrom, Stmt.branch]
  | _ => simp [Stmt.positions, Stmt.branch]

theorem Stmt.mem_positions {s : Stmt} : q ∈ s.positions ↔ (s.at? q).isSome := by
  induction q generalizing s with
  | nil => simp [Stmt.nil_mem_positions, Stmt.at?]
  | cons turn q ih =>
    obtain ⟨second, i⟩ := turn
    rw [Stmt.cons_mem_positions, Stmt.at?]
    cases (s.branch second)[i]? with
    | none => simp
    | some t => simp [ih]

mutual

theorem Stmt.positions_sorted : ∀ s : Stmt, s.positions.Pairwise Position.Before
  | .ite _ a b => by
    rw [Stmt.positions, List.pairwise_cons, List.pairwise_append]
    refine ⟨?_, Stmt.positionsFrom_sorted false 0 a, Stmt.positionsFrom_sorted true 0 b, ?_⟩
    · intro q hq
      obtain hq | hq := List.mem_append.1 hq
      all_goals
        obtain ⟨k, t, q, -, -, rfl⟩ := Stmt.mem_positionsFrom.1 hq
        exact .nil
    · intro q hq r hr
      obtain ⟨k, t, q, -, -, rfl⟩ := Stmt.mem_positionsFrom.1 hq
      obtain ⟨k', t', r, -, -, rfl⟩ := Stmt.mem_positionsFrom.1 hr
      exact .rel (.left _ _ (by decide))
  | .assign .. | .assert _ | .assume _ | .havoc _ | .label _ | .goto _ | .call .. | .ret =>
    List.pairwise_singleton _ _

theorem Stmt.positionsFrom_sorted : ∀ (second : Bool) (i : Nat) (ss : List Stmt),
    (Stmt.positionsFrom second i ss).Pairwise Position.Before
  | _, _, [] => .nil
  | second, i, s :: rest => by
    rw [Stmt.positionsFrom, List.pairwise_append, List.pairwise_map]
    refine ⟨s.positions_sorted.imp .cons, Stmt.positionsFrom_sorted second (i + 1) rest, ?_⟩
    intro q hq r hr
    obtain ⟨q, -, rfl⟩ := List.mem_map.1 hq
    obtain ⟨k, t, r, -, -, rfl⟩ := Stmt.mem_positionsFrom.1 hr
    exact .rel (.right _ (by omega))

end

mutual

theorem Stmt.positions_at : ∀ s : Stmt, s.positions.map s.at? = s.preorder.map some
  | .ite c a b => by
    simp only [Stmt.positions, Stmt.preorder, List.map_cons, List.map_append, Stmt.at?]
    rw [Stmt.positionsFrom_at (.ite c a b) false 0 a rfl,
      Stmt.positionsFrom_at (.ite c a b) true 0 b rfl]
  | .assign .. | .assert _ | .assume _ | .havoc _ | .label _ | .goto _ | .call .. | .ret => rfl

theorem Stmt.positionsFrom_at (s : Stmt) (second : Bool) : ∀ (i : Nat) (ss : List Stmt),
    (s.branch second).drop i = ss →
      (Stmt.positionsFrom second i ss).map s.at? = (Stmt.preorderAll ss).map some
  | _, [], _ => rfl
  | i, t :: rest, h => by
    have ht : (s.branch second)[i]? = some t := by
      rw [← List.head?_drop, h, List.head?_cons]
    have hrest : (s.branch second).drop (i + 1) = rest := by
      rw [← List.tail_drop, h, List.tail_cons]
    have hfirst : (t.positions.map ((second, i) :: ·)).map s.at? = t.preorder.map some := by
      rw [List.map_map, ← t.positions_at]
      exact List.map_congr_left fun q _ => by simp [Stmt.at?, ht]
    rw [Stmt.positionsFrom, Stmt.preorderAll, List.map_append, List.map_append, hfirst,
      Stmt.positionsFrom_at s second (i + 1) rest hrest]

end

/-- The walk through a statement ends and gives its recursive listing. This has the statement of
each position once, in the order of positions. -/
theorem Stmt.walk_preorder (s : Stmt) :
    (∀ l, s.cursor.Yields l ↔ l = s.preorder) ∧ s.nested = s.preorder ∧
      ∃ positions : List Position, positions.map s.at? = s.preorder.map some ∧
        positions.Pairwise Position.Before ∧ positions.Nodup ∧
        ∀ q, q ∈ positions ↔ (s.at? q).isSome := by
  refine ⟨fun _ => Stmt.yields_cursor, s.nested_eq_preorder, s.positions, ?_, ?_, ?_, ?_⟩
  · exact s.positions_at
  · exact s.positions_sorted
  · exact s.positions_sorted.imp Position.Before.ne
  · exact fun _ => Stmt.mem_positions

end Verilower.Ivl
