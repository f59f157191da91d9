import Mathlib.Tactic.Common
import Verilower.Encoding

namespace Verilower
set_option autoImplicit true

open Ivl (Expr Stmt)

/-- Lowered code whose obligations are still formulas. -/
inductive Outline where
  /-- A statement that holds no obligation. -/
  | plain (s : Stmt)
  | oblige (o : Obligation)
  /-- A one-armed conditional. -/
  | when (condition : Expr) (body : List Outline)
deriving Inhabited

namespace Encoding

mutual

def encode (enc : Encoding) : Outline → List Stmt
  | .plain s => [s]
  | .oblige o => enc.obligation o
  | .when condition body => [.when condition (enc.encodeAll body)]

def encodeAll (enc : Encoding) : List Outline → List Stmt
  | [] => []
  | o :: os => enc.encode o ++ enc.encodeAll os

end

mutual

/-- Whether the statements of an outline use the flag of exceptional returns. -/
def raises (enc : Encoding) : Outline → Bool
  | .plain _ => false
  | .oblige o => enc.flags o
  | .when _ body => enc.raisesAny body

def raisesAny (enc : Encoding) : List Outline → Bool
  | [] => false
  | o :: os => enc.raises o || enc.raisesAny os

end

@[simp] theorem encodeAll_nil {enc : Encoding} : enc.encodeAll [] = [] := rfl

@[simp] theorem encodeAll_cons {enc : Encoding} :
    enc.encodeAll (o :: os) = enc.encode o ++ enc.encodeAll os := rfl

@[simp] theorem encodeAll_append {enc : Encoding} :
    enc.encodeAll (os ++ ps) = enc.encodeAll os ++ enc.encodeAll ps := by
  induction os with
  | nil => rfl
  | cons o os ih => simp [ih]

theorem encodeAll_flatten {enc : Encoding} {oss : List (List Outline)} :
    enc.encodeAll oss.flatten = oss.flatMap enc.encodeAll := by
  induction oss with
  | nil => rfl
  | cons os oss ih => simp [ih]

@[simp] theorem encode_plain {enc : Encoding} : enc.encode (.plain s) = [s] := rfl

@[simp] theorem encode_oblige {enc : Encoding} : enc.encode (.oblige o) = enc.obligation o := rfl

@[simp] theorem encode_when {enc : Encoding} :
    enc.encode (.when c body) = [.when c (enc.encodeAll body)] := rfl

theorem encodeAll_plain {enc : Encoding} : enc.encodeAll [.plain s] = [s] := rfl

theorem encodeAll_oblige {enc : Encoding} : enc.encodeAll [.oblige o] = enc.obligation o :=
  List.append_nil _

theorem encodeAll_when {enc : Encoding} :
    enc.encodeAll [.when c body] = [.when c (enc.encodeAll body)] := rfl

@[simp] theorem raisesAny_append {enc : Encoding} :
    enc.raisesAny (os ++ ps) = (enc.raisesAny os || enc.raisesAny ps) := by
  induction os with
  | nil => rfl
  | cons o os ih => simp [raisesAny, ih, Bool.or_assoc]

theorem raisesAny_flatten {enc : Encoding} {oss : List (List Outline)} :
    enc.raisesAny oss.flatten = oss.any enc.raisesAny := by
  induction oss with
  | nil => rfl
  | cons os oss ih => simp [ih]

theorem raisesAny_oblige {enc : Encoding} : enc.raisesAny [.oblige o] = enc.flags o :=
  Bool.or_false _

theorem raisesAny_when {enc : Encoding} :
    enc.raisesAny [.when c body] = enc.raisesAny body := Bool.or_false _

/-- The four ways in which an obligation can be encoded, and the fifth to drop it. -/
theorem obligation_cases (enc : Encoding) (o : Obligation) :
    enc.obligation o = [] ∨
    (∃ g, o.guard = some g ∧ enc.obligation o = [.when (.not g) (enc.raise o.violation)]) ∨
    (o.guard = none ∧ enc.obligation o = enc.raise o.violation) ∨
    (∃ g, o.guard = some g ∧ enc.obligation o = [.assert g]) ∨
    (o.guard = none ∧ enc.obligation o = [.ret]) := by
  unfold obligation
  split
  · exact .inl rfl
  · split <;> simp_all

end Encoding

end Verilower
