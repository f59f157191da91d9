import Verilower.Bytecode.Instr
import Verilower.Model.Program

namespace Verilower

structure Slot where
  name : String
  ty : Ty
deriving DecidableEq, Inhabited

structure Node where
  instr : Instr
  loc : Loc := none
deriving Inhabited

/-- Exceptions of a class raised at the nodes from `start` up to `stop` go to `handler`. -/
structure Trap where
  start : Nat
  stop : Nat
  exception : ClassId
  handler : Nat
deriving DecidableEq, Inhabited

def Trap.covers (t : Trap) (node : Nat) : Bool := t.start ≤ node && node < t.stop

def Trap.spell (t : Trap) : String :=
  s!"Trap \x7b begin: {t.start}, end: {t.stop}, exception: ClassId({t.exception}), " ++
    s!"handler: {t.handler} \x7d"

/-- Code of a method as it is written down. -/
structure Code where
  method : MethodId
  slots : List Slot := []
  nodes : List Node := []
  traps : List Trap := []
deriving Inhabited

/-- Replaces the instruction of a node and keeps its location. -/
def Code.patch (c : Code) (node : Nat) (instr : Instr) : Except Fault Code := do
  let old ← entry c.nodes node
  return { c with nodes := c.nodes.set node { old with instr } }

inductive Code.Defect where
  | missingTarget (node target : Nat)
  | missingSlot (node slot : Nat)
  | badTrap (trap : Trap)
deriving DecidableEq

def Code.Defect.message : Code.Defect → String
  | .missingTarget node target => s!"node {node} jumps to missing node {target}"
  | .missingSlot node slot => s!"node {node} refers to missing local {slot}"
  | .badTrap trap => "malformed trap " ++ trap.spell

def Code.nodeDefect? (c : Code) (id : Nat) (node : Node) : Option Code.Defect :=
  match node.instr.targets.find? (c.nodes.length ≤ ·) with
  | some target => some (.missingTarget id target)
  | none =>
    match node.instr.namedSlot? with
    | some slot => if c.slots.length ≤ slot then some (.missingSlot id slot) else none
    | none => none

def Code.trapDefect? (c : Code) (trap : Trap) : Option Code.Defect :=
  if trap.start > trap.stop || trap.stop > c.nodes.length || trap.handler ≥ c.nodes.length then
    some (.badTrap trap)
  else none

/-- The first defect: nodes in order, then traps in order. -/
def Code.defect? (c : Code) : Option Code.Defect :=
  (c.nodes.zipIdx.findSome? fun (node, id) => c.nodeDefect? id node).or
    (c.traps.findSome? c.trapDefect?)

/-- Code without a defect. -/
structure Body extends Code where
  sound : toCode.defect? = none

def Body.ofCode (c : Code) : Except Code.Defect Body :=
  match h : c.defect? with
  | none => .ok { toCode := c, sound := h }
  | some defect => .error defect

namespace Code

def node? (c : Code) (id : Nat) : Except Fault Node := entry c.nodes id

/-- Nodes that are the target of a jump, a switch or a handler. -/
def isBranchTarget (c : Code) (id : Nat) : Bool :=
  c.nodes.any (fun node => node.instr.targets.contains id) || c.traps.any (fun t => t.handler = id)

def branchTargets (c : Code) : List Nat := (List.range c.nodes.length).filter c.isBranchTarget

def trapsAt (c : Code) (id : Nat) : List Trap := c.traps.filter fun t => t.covers id

/-- The handlers of the traps that cover a node, each once, in table order. -/
def handlersAt (c : Code) (id : Nat) : List Nat := ((c.trapsAt id).map Trap.handler).eraseDups

/-- The nodes that can follow without an exception, each once. -/
def successors (c : Code) (id : Nat) (node : Node) : List Nat :=
  let next := if node.instr.fallsThrough && id + 1 < c.nodes.length then [id + 1] else []
  (node.instr.targets ++ next).eraseDups

/-- The location of a node; a node that does not exist has none. -/
def locOf (c : Code) (id : Nat) : Loc :=
  match c.nodes[id]? with
  | some node => node.loc
  | none => none

/-- The declared type of a value, where program and code determine it. -/
def typeOf (c : Code) (p : Program) : Value → Except Fault (Option Ty)
  | .slot index => .ok (c.slots[index]?.map Slot.ty)
  | .constant (.int _) => .ok (some .int)
  | .constant (.long _) => .ok (some .long)
  | .constant (.float _) => .ok (some .double)
  | .constant (.bool _) => .ok (some .bool)
  | .constant .null => .ok (some .null)
  | .constant (.string _) => .ok (some (.cls ClassId.string))
  | .param index => return (← p.method? c.method).params[index]?
  | .receiver => return some (.cls (← p.method? c.method).owner)
  | .caught => .ok (some (.cls ClassId.throwable))
  | .instanceField _ field | .staticField field => return some (← p.field? field).ty
  | .element base _ => return (← c.typeOf p base).bind Ty.element?
  | .length _ => .ok (some .int)
  | .binary op lhs _ =>
    if op.isComparison then .ok (some .bool)
    else if op = .cmp || op = .cmpl || op = .cmpg then .ok (some .int)
    else c.typeOf p lhs
  | .neg arg => c.typeOf p arg
  | .cast _ ty => .ok (some ty)
  | .instanceOf _ _ => .ok (some .bool)
  | .new id => .ok (some (.cls id))
  | .newArray elem _ => .ok (some (.array elem))
  | .newMultiArray ty _ => .ok (some ty)
  | .invoke _ method _ _ => return some (← p.method? method).returns

end Code

end Verilower
