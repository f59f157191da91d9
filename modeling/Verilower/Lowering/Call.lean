import Verilower.Dispatch
import Verilower.Lowering.Value

namespace Verilower

open Ivl (Ident Expr Stmt)

/-- Library methods whose calls have a fixed encoding. -/
inductive Intrinsic where
  /-- The end of the process ends the procedure. -/
  | exit
  /-- The length of a string is read from the map of lengths. -/
  | stringLength
deriving DecidableEq, Inhabited

/-- The intrinsic of a method, told by its whole signature. -/
def Program.intrinsic? (p : Program) (m : Method) : Option Intrinsic :=
  let owner := p.className m.owner
  if owner = "java.lang.System" && m.name = "exit" && m.isStatic && m.params = [.int] &&
      m.returns = .void then some .exit
  else if owner = "java.lang.String" && m.name = "length" && !m.isStatic && m.params = [] &&
      m.returns = .int then some .stringLength
  else none

def anyOf {α : Type} (test : α → Except Fault Bool) : List α → Except Fault Bool
  | [] => .ok false
  | a :: as => do if ← test a then return true else anyOf test as

namespace Program

/-- The first type with no proper subtype among `types`. -/
def mostSpecific? (p : Program) (types : List ClassId) :
    List ClassId → Except Fault (Option ClassId)
  | [] => .ok none
  | ty :: rest => do
    let others := types.filter (· ≠ ty)
    if ← anyOf (fun other => p.testSubtype other ty) others then p.mostSpecific? types rest
    else return some ty

/-- The types of `thrown` that no type of `caught` covers. -/
def escaping (p : Program) (thrown caught : List ClassId) : Except Fault (List ClassId) :=
  thrown.filterM fun ty => return !(← anyOf (fun c => p.testSubtype ty c) caught)

end Program

/-- Puts an id in its place among ids in increasing order, unless it is there. -/
def insertId (id : ClassId) : List ClassId → List ClassId
  | [] => [id]
  | other :: ids =>
    if id < other then id :: other :: ids
    else if id = other then other :: ids
    else other :: insertId id ids

def sortIds (ids : List ClassId) : List ClassId := ids.foldr insertId []

namespace Lower

/-- The exception in the slot is of the class or below it. -/
def catches (exception : Ident) (id : ClassId) : Lower Expr := do
  return .subtype (Prelude.typeOf exception.expr) (← tag (.cls id))

/-- What may be assumed of a result that is annotated. -/
def assumeResult (callee : Method) (result : Ident) : Lower Unit := do
  if callee.returns.isReference && callee.returnsNonNull then
    let tag ← tag callee.returns
    let type := Prelude.typeOf result.expr
    emit (.assume (Prelude.isNonNull result.expr))
    emit (.assume (.subtype type tag))
    if callee.returnsExact then emit (.assume (.eq type tag))

/-- The call of a method, after its preconditions and before what may be assumed of its result.
The result is `captured` if the source program stores it. -/
def directCall (id : MethodId) (callee : Method) (actuals : List Expr) (result : Option Ident)
    (captured : Bool) : Lower Unit := do
  let signature ← signature id
  if actuals.length ≠ signature.procedure.ins.length then
    refuse (.procedureArguments signature.name signature.procedure.ins.length actuals.length)
  let σ := Ivl.Subst.ofPairs (signature.formals.zip actuals)
  obligeAll (signature.procedure.preconditions.map fun e => .precondition (e.substitute σ))
  let outs := result.toList ++ [(← frame).signature.exception]
  if outs.length ≠ signature.procedure.outs.length then
    refuse (.procedureResults signature.name signature.procedure.outs.length outs.length)
  emit (.call signature.name actuals outs)
  if captured then
    match result with
    | some x => assumeResult callee x
    | none => return ()

def trapJumps (inFlight : Expr) : List Trap → Lower Unit
  | [] => return ()
  | trap :: traps => do
    let guard ← catches (← frame).signature.exception trap.exception
    let label ← label trap.handler
    emit (.when (.and inFlight guard) [.jump label])
    trapJumps inFlight traps

/-- The guarded exit of an exception that may escape; one that the method does not declare is
reported. -/
def escapeExit (node : Nat) (inFlight : Expr) (id : ClassId) : Lower Unit := do
  let { program, method, signature, .. } ← frame
  if !(← promise (anyOf (fun t => program.testSubtype id t) method.throws)) then
    let c ← promise (program.class? id)
    diagnose .warning node
      ("`" ++ c.name ++ "` may escape `" ++ (← methodName) ++ "` without being declared")
  let guard ← catches signature.exception id
  when leave (return .and inFlight guard)

/-- One exit per type: the most specific one is taken out until none is left. Each round takes one
type out, so their number is enough fuel. -/
def escapeExits (node : Nat) (inFlight : Expr) : (fuel : Nat) → List ClassId → Lower Unit
  | 0, _ => return ()
  | fuel + 1, types => do
    match ← promise ((← frame).program.mostSpecific? types types) with
    | none => return ()
    | some id =>
      escapeExit node inFlight id
      escapeExits node inFlight fuel (types.filter (· ≠ id))

/-- What happens after a call whose callee may throw the given types. -/
def exceptionContinuation (node : Nat) (thrown : List ClassId) : Lower Unit := do
  let { program, body, signature, .. } ← frame
  let inFlight := Prelude.isNonNull signature.exception.expr
  let traps := body.trapsAt node
  trapJumps inFlight traps
  let types ← promise (program.escaping thrown (traps.map Trap.exception))
  escapeExits node inFlight types.length types

/-- One guarded call per override; returns what the overrides may throw. -/
def guardedCalls (receiver : Expr) (actuals : List Expr) (result : Option Ident) (captured : Bool) :
    List Target → Lower (List ClassId)
  | [] => return []
  | target :: targets => do
    let callee ← promise ((← frame).program.method? target.method)
    when (directCall target.method callee actuals result captured) do
      return .eq (Prelude.typeOf receiver) (← tag (.cls target.owner))
    return callee.throws ++ (← guardedCalls receiver actuals result captured targets)

/-- The class at which the search for overrides starts. -/
def receiverClass (callee : Method) (base : Value) : Lower ClassId := do
  let { program, body, .. } ← frame
  match ← promise (body.typeOf program base) with
  | some (.cls id) => return id
  | _ => return callee.owner

/-- A call through a receiver; returns what may be thrown. -/
def dynamicCall (node : Nat) (id : MethodId) (callee : Method) (base : Value) (receiver : Expr)
    (actuals : List Expr) (result : Option Ident) (captured : Bool) : Lower (List ClassId) := do
  let { program, .. } ← frame
  let name := program.methodName callee
  let start ← receiverClass callee base
  match ← promise (program.dispatch start callee) with
  | [] =>
    diagnose .warning node
      ("no concrete override of `" ++ name ++ "` found, calling the declared method")
    directCall id callee actuals result captured
    return callee.throws
  | targets =>
    log .debug
      ("devirtualized `" ++ name ++ "` into " ++ toString targets.length ++ " targets")
    guardedCalls receiver actuals result captured targets

/-- Where the result of a call goes, and the target that it is stored into afterwards if that is no
local of the same type. -/
structure Destination where
  result : Option Ident
  writeBack : Option (Value × Ident) := none

/-- The destination of a call whose result is stored in `target`, if it is stored at all. -/
def destination (callee : Method) (target : Option Value) : Lower Destination := do
  let name := (← frame).program.methodName callee
  if callee.returns.isVoid then
    match target with
    | some v => refuse (.voidAssigned name v)
    | none => return { result := none }
  else
    let ty ← decision callee.returns.lowered
    match target with
    | none => return { result := some (← fresh ty) }
    | some (.slot index) =>
      let x ← slot index
      if x.ty = ty then return { result := some x }
      let stub ← fresh ty
      return { result := some stub, writeBack := some (.slot index, stub) }
    | some v =>
      let stub ← fresh ty
      return { result := some stub, writeBack := some (v, stub) }

/-- The arguments of a call, each converted to the type of its parameter. -/
def arguments : List (Value × Ty) → Lower (List Expr)
  | [] => return []
  | (arg, ty) :: rest => do
    let e ← value arg
    let e ← coerce e (← decision ty.lowered)
    return e :: (← arguments rest)

/-- The receiver of a call; a dynamic call dereferences it. -/
def receiverOf (call : Call) : Lower (Option Expr) :=
  match call.base with
  | none => return none
  | some base => do
    if call.kind.isDynamic then return some (← dereference base) else return some (← value base)

def intrinsic (which : Intrinsic) (call : Call) (target : Option Value) : Lower Unit := do
  match which with
  | .exit =>
    log .info ("call to process exit in `" ++ (← methodName) ++ "` ends the procedure")
    leave
  | .stringLength =>
    match call.base with
    | none => refuse .stringLengthReceiver
    | some base =>
      let base ← dereference base
      match target with
      | some v => assignTo v (.select Prelude.stringSize.expr [base])
      | none => return ()

/-- The call itself, through its receiver or direct; returns what may be thrown. -/
def perform (node : Nat) (call : Call) (callee : Method) (receiver : Option Expr)
    (actuals : List Expr) (result : Option Ident) (captured : Bool) : Lower (List ClassId) := do
  if call.kind.isDynamic then
    match call.base, receiver with
    | some base, some receiver =>
      dynamicCall node call.method callee base receiver actuals result captured
    | _, _ => refuse (.missingReceiver ((← frame).program.methodName callee))
  else
    directCall call.method callee actuals result captured
    return callee.throws

/-- A call at a node; `target` is the location that receives the result, if there is one. -/
def invoke (node : Nat) (call : Call) (target : Option Value) : Lower Unit := do
  let { program, .. } ← frame
  let callee ← promise (program.method? call.method)
  match program.intrinsic? callee with
  | some which => intrinsic which call target
  | none =>
    let name := program.methodName callee
    if callee.isStatic ≠ call.base.isNone then refuse (.receiverMismatch name)
    if call.args.length ≠ callee.params.length then
      refuse (.argumentCount name call.args.length callee.params.length)
    let receiver ← receiverOf call
    let args ← arguments (call.args.zip callee.params)
    let { result, writeBack } ← destination callee target
    let actuals := receiver.toList ++ args
    let thrown ← perform node call callee receiver actuals result target.isSome
    exceptionContinuation node (sortIds thrown)
    match writeBack with
    | some (v, stub) => assignTo v stub.expr
    | none => return ()

end Lower

end Verilower
