import Verilower.Naming
import Verilower.Prelude

namespace Verilower

open Ivl (Ident Expr Procedure Clause)

/-- The procedure of a method together with the identifiers of its receiver, formals, result and
exception slot. -/
structure Signature where
  method : MethodId
  procedure : Procedure
  receiver : Option Ident
  /-- One per formal parameter. -/
  params : List Ident
  result : Option Ident
  exception : Ident
  fromPrelude : Bool
deriving Inhabited

namespace Signature

def name (s : Signature) : String := s.procedure.name

def isVoid (s : Signature) : Bool := s.result.isNone

def formals (s : Signature) : List Ident := s.receiver.toList ++ s.params

/-- The receiver and the formals among the parameters of a procedure. Those of an instance method
are cut behind the first one, which must exist. -/
def splitFormals (isStatic : Bool) (ins : List Ident) : Except Fault (Option Ident × List Ident) :=
  if isStatic then .ok (none, ins)
  else
    match ins with
    | [] => .error (.sliceStart 1 0)
    | this :: params => .ok (some this, params)

/-- The signature of a method whose procedure the prelude declares. -/
def ofPrelude (p : Program) (id : MethodId) (m : Method) (q : Procedure) :
    Except Failure Signature := do
  let (exception, results) ←
    match q.outs.reverse with
    | [] => throw (.refused (.noExceptionSlot q.name))
    | last :: others => pure (last, others)
  if exception.ty ≠ .ref || results.length > 1 then
    throw (.refused (.noExceptionSlot q.name))
  if q.ins.length ≠ (if m.isStatic then 0 else 1) + m.params.length then
    throw (.refused (.parameterMismatch q.name (p.methodName m)))
  if results.isEmpty ≠ m.returns.isVoid then
    throw (.refused (.resultMismatch q.name (p.methodName m)))
  let (receiver, params) ← (splitFormals m.isStatic q.ins).mapError .fault
  return {
    method := id
    procedure := q
    receiver
    params
    result := results.head?
    exception
    fromPrelude := true }

def param (index : Nat) (ty : Ty) : Except Refusal Ident := do
  return ⟨"$in_parameter__" ++ toString index, ← ty.lowered⟩

/-- The variable of the result; a void method has none. -/
def resultOf (m : Method) : Except Refusal (Option Ident) :=
  if m.returns.isVoid then .ok none else do return some ⟨"$return", ← m.returns.lowered⟩

/-- One precondition per reference parameter that is annotated as not null. -/
def requires (m : Method) (params : List Ident) : List Clause :=
  (m.params.zip params).zipIdx.filterMap fun ((ty, x), index) =>
    if ty.isReference && m.paramHasAnnotation index .nonNull then
      some { contract := .requires, formula := Prelude.isNonNull x.expr }
    else none

/-- The postcondition of a reference result that is annotated as not null. -/
def ensures (m : Method) (result : Option Ident) : List Clause :=
  if m.returns.isReference && m.returnsNonNull then
    result.toList.map fun x => { contract := .ensures, formula := Prelude.isNonNull x.expr }
  else []

end Signature

end Verilower
