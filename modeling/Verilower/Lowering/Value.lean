import Verilower.Lowering.Basic

namespace Verilower

open Ivl (Ident Expr Stmt)

namespace Lower

/-- Makes `target` a new object: not allocated before, then allocated, not null, and of the type. -/
def allocateInto (target : Ident) (ty : Ty) : Lower Unit := do
  let tag ← tag ty
  let r := target.expr
  emit (.havoc [target])
  emit (.assume (.not (Prelude.read r Prelude.alloc)))
  emit (Prelude.write r Prelude.alloc (.bool true))
  emit (.assume (Prelude.isNonNull r))
  emit (Prelude.write r Prelude.typeField tag)

/-- A new object in a new local variable. -/
def allocate (ty : Ty) : Lower Ident := do
  let x ← fresh .ref
  allocateInto x ty
  return x

/-- A constant; of a string only the length in UTF-16 units is kept. -/
def constant : Constant → Lower Expr
  | .int value | .long value => return .int value
  | .float value =>
    if value.isFinite then return .real value.literal else refuse (.nonFiniteConstant value)
  | .bool value => return .bool value
  | .null => return Prelude.null.expr
  | .string value => do
    let r ← allocate (.cls ClassId.string)
    let size := Expr.int (Text.units16 value)
    emit (.assign Prelude.stringSize (.store Prelude.stringSize.expr [r.expr] size))
    return r.expr

/-- Whether a value is known to be the receiver. -/
def isReceiver : Value → Lower Bool
  | .receiver => return true
  | .slot index => return (← receivers).contains index
  | _ => return false

/-- The expression of `base`, which is about to be dereferenced. -/
def guardNonNull (base : Value) (e : Expr) : Lower Expr := do
  if ← isReceiver base then return e
  oblige (.nonNull e)
  return e

def guardBounds (array index : Expr) : Lower Unit :=
  let size := Expr.select Prelude.arraySize.expr [array]
  oblige ⟨.arrayBounds, some (.and (.binary .le (.int 0) index) (.binary .lt index size))⟩

def elementHeap (array : Value) : Lower Ident := do
  let { program, body, .. } ← frame
  match (← promise (body.typeOf program array)).bind Ty.element? with
  | none => refuse (.unknownElementType array)
  | some elem =>
    let elem ← decision elem.lowered
    match Prelude.arrays? elem with
    | some heap => return heap
    | none => refuse (.noElementHeap elem)

/-- Both operands in a common type; the right one is converted if it can be. -/
def align (lhs rhs : Expr) : Lower (Expr × Expr) := do
  let left ← typeOf lhs
  let right ← typeOf rhs
  if left = right then return (lhs, rhs)
  match Prelude.convert right left rhs with
  | some rhs => return (lhs, rhs)
  | none =>
    match Prelude.convert left right lhs with
    | some lhs => return (lhs, rhs)
    | none => refuse (.incompatibleOperands left right)

def aligned (op : Ivl.BinOp) (lhs rhs : Expr) : Lower Expr := do
  let (lhs, rhs) ← align lhs rhs
  return .binary op lhs rhs

/-- A function of the prelude on operands of one type. -/
def converted (function : String) (operand result : Ivl.Ty) (lhs rhs : Expr) : Lower Expr := do
  let lhs ← coerce lhs operand
  let rhs ← coerce rhs operand
  return .apply function [lhs, rhs] result

def bothBool (lhs rhs : Expr) : Lower Bool := do
  if (← typeOf lhs) = .bool then return (← typeOf rhs) = .bool else return false

/-- A connective on truth values, and otherwise a function on integers. -/
def logical (op : Ivl.BinOp) (function : String) (lhs rhs : Expr) : Lower Expr := do
  if ← bothBool lhs rhs then return .binary op lhs rhs
  converted function .int .int lhs rhs

def binary (op : BinaryOp) (lhs rhs : Expr) : Lower Expr :=
  match op with
  | .add => aligned .add lhs rhs
  | .sub => aligned .sub lhs rhs
  | .mul => aligned .mul lhs rhs
  | .div => do
    let (lhs, rhs) ← align lhs rhs
    return .binary (if (← typeOf lhs) = .real then .realDiv else .div) lhs rhs
  | .rem => do
    let (lhs, rhs) ← align lhs rhs
    if (← typeOf lhs) = .real then return .apply "$remReal" [lhs, rhs] .real
    converted "$remInt" .int .int lhs rhs
  | .and => logical .and "$bitAnd" lhs rhs
  | .or => logical .or "$bitOr" lhs rhs
  | .xor => logical .neq "$bitXor" lhs rhs
  | .shl => converted "$shl" .int .int lhs rhs
  | .shr => converted "$shr" .int .int lhs rhs
  | .ushr => converted "$ushr" .int .int lhs rhs
  | .cmp => converted "$cmpInt" .int .int lhs rhs
  | .cmpl => converted "$cmplReal" .real .int lhs rhs
  | .cmpg => converted "$cmpgReal" .real .int lhs rhs
  | .eq => aligned .eq lhs rhs
  | .ne => aligned .neq lhs rhs
  | .lt => aligned .lt lhs rhs
  | .le => aligned .le lhs rhs
  | .gt => aligned .gt lhs rhs
  | .ge => aligned .ge lhs rhs

/-- A cast: numbers are converted, references must be null or of the type. -/
def cast (e : Expr) (ty : Ty) : Lower Expr := do
  if !ty.isReference then return ← coerce e (← decision ty.lowered)
  let tag ← tag ty
  oblige ⟨.classCast, some (.or (.eq e Prelude.null.expr) (.subtype (Prelude.typeOf e) tag))⟩
  return e

def instanceOf (e : Expr) (ty : Ty) : Lower Expr := do
  return .and (Prelude.isNonNull e) (.subtype (Prelude.typeOf e) (← tag ty))

def value : Value → Lower Expr
  | .slot index => return (← slot index).expr
  | .constant c => constant c
  | .param index => do
    match (← frame).signature.params[index]? with
    | some x => return x.expr
    | none => refuse (.missingParameter index)
  | .receiver => do
    match (← frame).signature.receiver with
    | some x => return x.expr
    | none => refuse .receiverInStatic
  | .caught => return (← frame).signature.exception.expr
  | .instanceField base id => do
    let base ← guardNonNull base (← value base)
    let field ← field id
    match field.ty with
    | .field _ => return Prelude.read base field
    | _ => refuse (.staticThroughInstance field.name)
  | .staticField id => do
    let field ← field id
    match field.ty with
    | .field _ => refuse (.instanceThroughClass field.name)
    | _ => return field.expr
  | .element base index => do
    let heap ← elementHeap base
    let array ← guardNonNull base (← value base)
    let index ← coerce (← value index) .int
    guardBounds array index
    return .select (.select heap.expr [array]) [index]
  | .length base => do
    let array ← guardNonNull base (← value base)
    return .select Prelude.arraySize.expr [array]
  | .binary op lhs rhs => do
    let lhs ← value lhs
    let rhs ← value rhs
    binary op lhs rhs
  | .neg arg => return .unary .neg (← value arg)
  | .cast arg ty => do cast (← value arg) ty
  | .instanceOf arg ty => do instanceOf (← value arg) ty
  | .new id => refuse (.notAnOperand (.new id))
  | .newArray elem size => refuse (.notAnOperand (.newArray elem size))
  | .newMultiArray ty sizes => refuse (.notAnOperand (.newMultiArray ty sizes))
  | .invoke kind method base args => refuse (.notAnOperand (.invoke kind method base args))

/-- The expression of an operand that is about to be dereferenced. -/
def dereference (base : Value) : Lower Expr := do guardNonNull base (← value base)

end Lower

/-- The assignment to a location: `a[i] := v` is `a := a[i := v]`, and so on inwards. -/
def storeInto : Expr → Expr → Except Refusal Stmt
  | .ident x, v => .ok (.assign x v)
  | .select map indices, v => storeInto map (.store map indices v)
  | target, _ => .error (.notALocation target)

namespace Lower

/-- Stores an expression in the location that a value denotes. -/
def assignTo (target : Value) (e : Expr) : Lower Unit :=
  match target with
  | .slot index => do
    let x ← slot index
    emit (.assign x (← coerce e x.ty))
  | .instanceField _ id | .staticField id => do
    let location ← value target
    let e ← coerce e (← typeOf location)
    if (← promise ((← frame).program.field? id)).isNonNull then oblige (.nonNull e)
    emit (← decision (storeInto location e))
  | .element .. => do
    let location ← value target
    let e ← coerce e (← typeOf location)
    emit (← decision (storeInto location e))
  | _ => refuse (.unsupportedTarget target)

end Lower

end Verilower
