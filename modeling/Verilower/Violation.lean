import Verilower.Ivl.Expr

namespace Verilower

inductive Violation where
  | nullPointer
  | arrayBounds
  | classCast
  | precondition
  | postcondition
  /-- A violation with no condition to check. -/
  | unexpected
deriving DecidableEq, Inhabited

def Violation.all : List Violation :=
  [.nullPointer, .arrayBounds, .classCast, .precondition, .postcondition, .unexpected]

/-- A formula that has to hold lest the violation occurs; without one it always occurs. -/
structure Obligation where
  violation : Violation
  guard : Option Ivl.Expr
deriving DecidableEq

inductive ErrorModel where
  /-- A violation stores a witness in the exception slot and returns. -/
  | exception
  /-- A violation fails an assertion. -/
  | assertion
deriving DecidableEq, Inhabited

def ErrorModel.name : ErrorModel → String
  | .exception => "exception"
  | .assertion => "assertion"

end Verilower
