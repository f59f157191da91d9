import Verilower.Lowering.Call

namespace Verilower

open Ivl (Ident Expr Stmt)

/-- The value of a case of a table switch. The offset is cut to 32 bits, and the sum must be a
number of 32 bits. -/
def tableValue (low : Int32) (offset : Nat) : Except Fault Int :=
  let value := low.toInt + (Int32.ofNat offset).toInt
  if -2147483648 ≤ value ∧ value ≤ 2147483647 then .ok value else .error .addOverflow

def tableCases (low : Int32) (targets : List Nat) : Except Fault (List (Int × Nat)) :=
  targets.zipIdx.mapM fun (target, offset) => return (← tableValue low offset, target)

namespace Lower

def jumpTo (node : Nat) : Lower Stmt := return .jump (← label node)

/-- One conditional around the other for each case; the last case is tested first. -/
def cascade (key : Expr) : List (Int × Nat) → Stmt → Lower Stmt
  | [], inner => return inner
  | (value, target) :: cases, inner => do
    let jump ← jumpTo target
    cascade key cases (.ite (.eq key (.int value)) [jump] [inner])

def switch (node : Nat) (key : Value) (cases : List (Int × Nat)) (default : Nat) : Lower Unit := do
  let jump ← jumpTo default
  if cases.isEmpty then
    diagnose .note node
      ("switch without cases in `" ++ (← methodName) ++ "` reduced to its default branch")
    emit jump
  else
    let key ← coerce (← value key) .int
    emit (← cascade key cases jump)

/-- Guarded jumps to a handler, one per type that it catches. -/
def catchJumps (handler : Nat) : List ClassId → Lower Unit
  | [] => return ()
  | id :: ids => do
    let guard ← catches (← frame).signature.exception id
    let jump ← jumpTo handler
    emit (.when guard [jump])
    catchJumps handler ids

/-- Guarded jumps to each handler, which may catch several types. -/
def handlerJumps (traps : List Trap) : List Nat → Lower Unit
  | [] => return ()
  | handler :: handlers => do
    catchJumps handler ((traps.filter (·.handler = handler)).map Trap.exception)
    handlerJumps traps handlers

/-- Stores an exception and goes to its handler, or leaves if there is none. -/
def raise (node : Nat) (v : Value) : Lower Unit := do
  let { body, signature, .. } ← frame
  let thrown ← coerce (← value v) .ref
  emit (.assign signature.exception thrown)
  let handlers := body.handlersAt node
  let binds (handler : Nat) : Bool :=
    match body.nodes[handler]? with
    | some node => node.instr.bindsCaught
    | none => false
  match handlers.find? (!binds ·) with
  | some bad => refuse (.notAHandler bad)
  | none =>
    match handlers with
    | [] => leave
    | [handler] => emit (← jumpTo handler)
    | _ => do
      handlerJumps (body.trapsAt node) handlers
      emit .ret

/-- The sizes of a multi-dimensional array are evaluated and then dropped. -/
def dropSizes : List Value → Lower Unit
  | [] => return ()
  | size :: sizes => do
    let e ← value size
    log .debug ("dropping dimension size `" ++ e.render ++ "` of multi-array allocation")
    dropSizes sizes

def assign (node : Nat) (target : Value) : Value → Lower Unit
  | .invoke kind method base args => invoke node ⟨kind, method, base, args⟩ (some target)
  | .new id => do
    let x ← allocate (.cls id)
    assignTo target x.expr
  | .newArray elem size => do
    let size ← coerce (← value size) .int
    let x ← allocate (.array elem)
    emit (.assign Prelude.arraySize (.store Prelude.arraySize.expr [x.expr] size))
    assignTo target x.expr
  | .newMultiArray ty sizes => do
    dropSizes sizes
    let x ← freshGlobal .ref
    allocateInto x ty
    assignTo target x.expr
  | v => do assignTo target (← value v)

/-- Binds the receiver, a parameter or the caught exception to a local. -/
def identity (index : Nat) (v : Value) : Lower Unit := do
  let x ← slot index
  let { signature, .. } ← frame
  let bind : Lower Unit := do emit (.assign x (← coerce (← value v) x.ty))
  match v with
  | .receiver =>
    bindReceiver index
    bind
  | .param _ => bind
  | .caught =>
    emit (.assign x signature.exception.expr)
    emit (.assign signature.exception Prelude.null.expr)
  | _ => refuse (.unsupportedBinding v)

def instr (node : Nat) : Instr → Lower Unit
  | .assign target v => assign node target v
  | .identity index v => identity index v
  | .invoke call => invoke node call none
  | .goto target => do emit (← jumpTo target)
  | .branch condition target => do
    let condition ← coerce (← value condition) .bool
    let jump ← jumpTo target
    emit (.when condition [jump])
  | .lookupSwitch key cases default => switch node key cases default
  | .tableSwitch key low targets default => do
    switch node key (← promise (tableCases low targets)) default
  | .ret v => do
    match (← frame).signature.result with
    | none => refuse .valueFromVoid
    | some x =>
      emit (.assign x (← coerce (← value v) x.ty))
      leave
  | .retVoid => leave
  | .raise v => raise node v
  | .nop => log .debug ("skipping `Nop` at node " ++ toString node)
  | .breakpoint => log .debug ("skipping `Breakpoint` at node " ++ toString node)
  | .enterMonitor v | .exitMonitor v => do
    let _ ← dereference v
  | .retSubroutine _ => do
    diagnose .warning node
      ("deprecated subroutine return in `" ++ (← methodName) ++
        "` treated as an unexpected violation")
    oblige ⟨.unexpected, none⟩

/-- A node, with a label in front if it is the target of a branch. -/
def node (id : Nat) (n : Node) : Lower Unit := do
  if (← frame).body.isBranchTarget id then emit (.label (← label id))
  instr id n.instr

protected def nodes : List (Node × Nat) → Lower Unit
  | [] => return ()
  | (n, id) :: rest => do
    let name ← methodName
    let loc := (← frame).program.describe n.loc
    within (.atNode name id loc) (node id n)
    Lower.nodes rest

end Lower

end Verilower
