import Verilower.Proofs.Lowering.Node

namespace Verilower
set_option autoImplicit true

open Ivl (Ident Expr Stmt)

/-- An obligation, or a statement that changes or restricts the state and does nothing else. -/
def Outline.isInline : Outline → Bool
  | .plain (.assign _ _) | .plain (.assume _) | .plain (.havoc _) | .oblige _ => true
  | _ => false

namespace Lower

/-- Code that is executed from its start to its end, unless an obligation is violated. -/
def Inline (code : List Outline) : Prop := code.all Outline.isInline = true

@[simp] theorem inline_nil : Inline [] := rfl

@[simp] theorem inline_append : Inline (as ++ bs) ↔ Inline as ∧ Inline bs := by simp [Inline]

@[simp] theorem inline_cons : Inline (o :: os) ↔ o.isInline = true ∧ Inline os := by simp [Inline]

theorem inline_obligations {es : List Expr} {f : Expr → Obligation} :
    Inline (es.map fun e => .oblige (f e)) := by
  simp [Inline, Outline.isInline]

theorem inline_assumptions {es : List Expr} :
    Inline (es.map fun e => .plain (.assume e)) := by
  simp [Inline, Outline.isInline]

@[simp] theorem inline_nullGuard : Inline (nullGuard s base e) := by
  unfold nullGuard
  split <;> rfl

@[simp] theorem inline_storeGuard : Inline (storeGuard f e) := by
  unfold storeGuard
  split <;> rfl

@[simp] theorem inline_newObject : Inline (newObject x τ) := rfl

theorem Operand.inline (h : Operand F s v r j) : Inline r.code := by
  induction h <;> simp_all [Outline.isInline, boundsGuard, castGuard]

theorem isInline_storeInto (h : storeInto location e = .ok st) :
    (Outline.plain st).isInline = true := by
  fun_induction storeInto location e with
  | case1 =>
    cases h
    rfl
  | case2 _ _ _ ih => exact ih h
  | case3 => cases h

theorem Stored.inline (h : Stored F s target e r j) : Inline r.code := by
  cases h with
  | slot => rfl
  | field _ hl _ _ _ hs => simp [hl.inline, isInline_storeInto hs]
  | element hl _ _ hs => simp [hl.inline, isInline_storeInto hs]

theorem inline_preconditionCode : Inline (preconditionCode sig actuals) := inline_obligations

theorem Assumed.inline (h : Assumed F callee result captured code j) : Inline code := by
  cases h with
  | annotated =>
    unfold resultFacts
    split <;> rfl
  | plain => rfl

theorem Arguments.inline (h : Arguments F s args r j) : Inline r.code := by
  induction h with
  | nil => rfl
  | cons ha _ _ _ ih => exact inline_append.2 ⟨ha.inline, ih⟩

theorem ReceiverOf.inline (h : ReceiverOf F s call r j) : Inline r.code := by
  cases h with
  | none => rfl
  | dynamic _ _ ho => exact inline_append.2 ⟨ho.inline, inline_nullGuard⟩
  | direct _ _ ho => exact ho.inline

theorem WrittenBack.inline (h : WrittenBack F s w r j) : Inline r.code := by
  cases h with
  | none => rfl
  | some hs => exact hs.inline

theorem Dropped.inline (h : Dropped F s vs r j) : Inline r.code := by
  induction h with
  | nil => rfl
  | cons ho _ ih => exact inline_append.2 ⟨ho.inline, ih⟩

theorem Bound.inline (h : Bound F s index v r) : Inline r.code := by cases h <;> rfl

end Lower

end Verilower
