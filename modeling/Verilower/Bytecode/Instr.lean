import Verilower.Bytecode.Value

namespace Verilower

inductive Instr where
  | assign (target value : Value)
  /-- Binds the receiver, a parameter or the caught exception to a local. -/
  | identity (slot : Nat) (value : Value)
  | invoke (call : Call)
  | goto (target : Nat)
  | branch (condition : Value) (target : Nat)
  | lookupSwitch (key : Value) (cases : List (Int × Nat)) (default : Nat)
  | tableSwitch (key : Value) (low : Int32) (targets : List Nat) (default : Nat)
  | ret (value : Value)
  | retVoid
  | raise (value : Value)
  | nop
  | breakpoint
  | enterMonitor (value : Value)
  | exitMonitor (value : Value)
  /-- Return from a subroutine of old-style code. -/
  | retSubroutine (slot : Nat)
deriving Inhabited

namespace Instr

/-- The nodes that the instruction names, in the order it names them. -/
def targets : Instr → List Nat
  | .goto target | .branch _ target => [target]
  | .lookupSwitch _ cases default => cases.map Prod.snd ++ [default]
  | .tableSwitch _ _ targets default => targets ++ [default]
  | _ => []

def fallsThrough : Instr → Bool
  | .goto _ | .lookupSwitch .. | .tableSwitch .. | .ret _ | .retVoid | .raise _
  | .retSubroutine _ => false
  | _ => true

def bindsCaught : Instr → Bool
  | .identity _ .caught => true
  | _ => false

/-- The local that the instruction names outside of its values. -/
def namedSlot? : Instr → Option Nat
  | .identity slot _ | .retSubroutine slot => some slot
  | _ => none

end Instr

end Verilower
