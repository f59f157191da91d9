import Verilower.Proofs.Ivl.Scope
import Verilower.Proofs.Ivl.Semantics

namespace Verilower.Ivl

namespace Subst

/-- The state in which every identifier with an image has the value of that image in `σ`. -/
def update (m : Subst) (I : Interp) (σ : I.State) : I.State := fun x =>
  match m x with
  | some e => e.eval I σ
  | none => σ x

def Typed (m : Subst) : Prop := ∀ x e, m x = some e → e.ty = .ok x.ty

theorem typed_ofPairs {pairs : List (Ident × Expr)} (h : ∀ x e, (x, e) ∈ pairs → e.ty = .ok x.ty) :
    Typed (.ofPairs pairs) := fun x e hx => h x e (mem_of_ofPairs hx)

end Subst

section Meaning

variable {I : Interp} {σ : I.State} {m : Subst}

mutual

theorem Expr.eval_substitute : ∀ e : Expr,
    (e.substitute m).eval I σ = e.eval I (m.update I σ)
  | .ident x => by
    cases hx : m x <;> simp only [Expr.substitute, Expr.eval, Subst.update, hx, Option.getD]
  | .bool _ | .int _ | .real _ => rfl
  | .binary _ lhs rhs => by
    simp only [Expr.substitute, Expr.eval, Expr.eval_substitute lhs, Expr.eval_substitute rhs]
  | .unary _ arg => by simp only [Expr.substitute, Expr.eval, Expr.eval_substitute arg]
  | .select map indices => by
    simp only [Expr.substitute, Expr.eval, Expr.eval_substitute map,
      Expr.evalAll_substitute indices]
  | .store map indices value => by
    simp only [Expr.substitute, Expr.eval, Expr.eval_substitute map,
      Expr.evalAll_substitute indices, Expr.eval_substitute value]
  | .apply _ args _ => by simp only [Expr.substitute, Expr.eval, Expr.evalAll_substitute args]

theorem Expr.evalAll_substitute : ∀ es : List Expr,
    Expr.evalAll I σ (Expr.substituteAll m es) = Expr.evalAll I (m.update I σ) es
  | [] => rfl
  | e :: es => by
    simp only [Expr.substituteAll, Expr.evalAll, Expr.eval_substitute e, Expr.evalAll_substitute es]

end

end Meaning

mutual

/-- Types are read off outermost operators and leftmost operands, so only the types of images
matter; where an expression has no type, the one after the substitution fails alike. -/
theorem Expr.ty_substitute {m : Subst} (hm : m.Typed) : ∀ e : Expr, (e.substitute m).ty = e.ty
  | .ident x => by
    cases hx : m x with
    | none => simp only [Expr.substitute, hx, Option.getD]
    | some e => simpa only [Expr.substitute, hx, Option.getD, Expr.ty] using hm x e hx
  | .bool _ | .int _ | .real _ => rfl
  | .binary _ lhs _ => by simp only [Expr.substitute, Expr.ty, Expr.ty_substitute hm lhs]
  | .unary .not _ => rfl
  | .unary .neg arg => by simp only [Expr.substitute, Expr.ty, Expr.ty_substitute hm arg]
  | .select map indices => by
    simp only [Expr.substitute, Expr.ty, Expr.ty_substitute hm map,
      Expr.secondTy_substitute hm indices]
  | .store map _ _ => by simp only [Expr.substitute, Expr.ty, Expr.ty_substitute hm map]
  | .apply _ _ _ => rfl

theorem Expr.secondTy_substitute {m : Subst} (hm : m.Typed) : ∀ es : List Expr,
    Expr.secondTy (Expr.substituteAll m es) = Expr.secondTy es
  | [] | [_] => rfl
  | _ :: e :: _ => by simp only [Expr.substituteAll, Expr.secondTy, Expr.ty_substitute hm e]

end

/-- The value of an expression after a substitution is its value in the state in which every
identifier with an image has the value of that image, whatever the images mention. If every image
has the type of its identifier, then the expression has the same type, or no type for the same
reason. -/
theorem Expr.substitute_sound (e : Expr) (m : Subst) :
    (∀ (I : Interp) (σ : I.State), (e.substitute m).eval I σ = e.eval I (m.update I σ)) ∧
      (m.Typed → (e.substitute m).ty = e.ty) :=
  ⟨fun _ _ => Expr.eval_substitute e, fun hm => Expr.ty_substitute hm e⟩

/-- Two integers are exchanged, and the second one is increased on the way. -/
def exchange : Subst :=
  .ofPairs [(⟨"x", .int⟩, .ident ⟨"y", .int⟩),
    (⟨"y", .int⟩, .binary .add (.ident ⟨"x", .int⟩) (.int 1))]

theorem exchange_typed : exchange.Typed := by
  apply Subst.typed_ofPairs
  intro x e h
  simp only [List.mem_cons, Prod.mk.injEq, List.not_mem_nil, or_false] at h
  obtain ⟨rfl, rfl⟩ | ⟨rfl, rfl⟩ := h <;> rfl

/-- A read of a map at a reference and two integers, where the reference and the first integer share
their name. -/
def cellRead : Expr :=
  .select (.ident ⟨"cells", .map [.ref, .int, .int] .real⟩)
    [.ident ⟨"x", .ref⟩, .ident ⟨"x", .int⟩, .ident ⟨"y", .int⟩]

/-- The images mention the identifiers that are replaced, and the reference is not replaced. -/
theorem substitute_sound_exchange :
    (cellRead.substitute exchange).render = "cells[x, y, (x + 1)]" ∧ exchange.Typed ∧
      (∀ (I : Interp) (σ : I.State),
        (cellRead.substitute exchange).eval I σ = cellRead.eval I (exchange.update I σ) ∧
        exchange.update I σ ⟨"x", .int⟩ = σ ⟨"y", .int⟩ ∧
        exchange.update I σ ⟨"y", .int⟩ = I.binary .add (σ ⟨"x", .int⟩) (I.int 1) ∧
        exchange.update I σ ⟨"x", .ref⟩ = σ ⟨"x", .ref⟩) ∧
      (cellRead.substitute exchange).ty = .ok .real := by
  obtain ⟨heval, hty⟩ := Expr.substitute_sound cellRead exchange
  exact ⟨by decide +kernel, exchange_typed, fun I σ => ⟨heval I σ, rfl, rfl, rfl⟩, hty exchange_typed⟩

end Verilower.Ivl
