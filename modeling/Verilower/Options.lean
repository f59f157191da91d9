import Verilower.Violation

namespace Verilower

structure Options where
  errorModel : ErrorModel := .exception
  /-- Whether array accesses carry no index obligation. -/
  noArrayBoundsChecks : Bool := false
  /-- Only bodies of classes whose name starts with this text are lowered. -/
  scope : Option String := none
deriving DecidableEq, Inhabited

def Options.inScope (options : Options) (className : String) : Bool :=
  match options.scope with
  | some start => start.toList.isPrefixOf className.toList
  | none => true

end Verilower
