import Verilower.Ivl.Expr
import Verilower.Bytecode.Value

namespace Verilower

inductive Refusal where
  | voidValue
  | undeclaredSlot (slot : Nat)
  | noExceptionSlot (procedure : String)
  | parameterMismatch (procedure method : String)
  | resultMismatch (procedure method : String)
  | preludeOnly (method : String)
  | unsupportedBinding (value : Value)
  | unsupportedTarget (value : Value)
  | notAnOperand (value : Value)
  | missingParameter (index : Nat)
  | receiverInStatic
  | staticThroughInstance (field : String)
  | instanceThroughClass (field : String)
  | noConversion (source target : Ivl.Ty)
  | incompatibleOperands (lhs rhs : Ivl.Ty)
  | unknownElementType (array : Value)
  | noElementHeap (elem : Ivl.Ty)
  | nonFiniteConstant (value : Double)
  | notALocation (target : Ivl.Expr)
  | valueFromVoid
  | notAHandler (node : Nat)
  | receiverMismatch (method : String)
  | argumentCount (method : String) (given expected : Nat)
  | voidAssigned (method : String) (target : Value)
  | missingReceiver (method : String)
  | procedureArguments (procedure : String) (expected given : Nat)
  | procedureResults (procedure : String) (returned expected : Nat)
  | stringLengthReceiver
  /-- The locals of a method could not be declared. -/
  | inSlots (method : String) (cause : Refusal)
  /-- A node of a method could not be lowered. -/
  | atNode (method : String) (node : Nat) (loc : String) (cause : Refusal)

def Refusal.message : Refusal → String
  | .voidValue => "void has no value representation"
  | .undeclaredSlot slot => "reference to undeclared local " ++ toString slot
  | .noExceptionSlot procedure => "prelude procedure `" ++ procedure ++ "` has no exception slot"
  | .parameterMismatch procedure method =>
    "prelude procedure `" ++ procedure ++ "` does not match the parameters of `" ++ method ++ "`"
  | .resultMismatch procedure method =>
    "prelude procedure `" ++ procedure ++ "` does not match the result of `" ++ method ++ "`"
  | .preludeOnly method => "signature of `" ++ method ++ "` must be declared by the prelude"
  | .unsupportedBinding value => "unsupported identity binding `" ++ value.render ++ "`"
  | .unsupportedTarget value => "unsupported left-hand side `" ++ value.render ++ "`"
  | .notAnOperand value => "`" ++ value.render ++ "` cannot appear as an operand"
  | .missingParameter index => "reference to missing parameter " ++ toString index
  | .receiverInStatic => "`this` referenced in a static method"
  | .staticThroughInstance field => "static field `" ++ field ++ "` accessed through an instance"
  | .instanceThroughClass field => "instance field `" ++ field ++ "` accessed statically"
  | .noConversion source target =>
    "cannot convert a value of type `" ++ source.render ++ "` to `" ++ target.render ++ "`"
  | .incompatibleOperands lhs rhs =>
    "incompatible operand types `" ++ lhs.render ++ "` and `" ++ rhs.render ++ "`"
  | .unknownElementType array => "cannot determine the element type of `" ++ array.render ++ "`"
  | .noElementHeap elem => "no element heap for `" ++ elem.render ++ "`"
  | .nonFiniteConstant value => "non-finite float constant " ++ value.plain
  | .notALocation target => "cannot assign to `" ++ target.render ++ "`"
  | .valueFromVoid => "value returned from a void method"
  | .notAHandler node =>
    "exceptional successor " ++ toString node ++ " of throw is not an exception handler"
  | .receiverMismatch method =>
    "receiver of call to `" ++ method ++ "` does not match its static-ness"
  | .argumentCount method given expected =>
    "call to `" ++ method ++ "` passes " ++ toString given ++ " arguments, expected " ++
      toString expected
  | .voidAssigned method target =>
    "result of void method `" ++ method ++ "` assigned to `" ++ target.render ++ "`"
  | .missingReceiver method => "dynamic call to `" ++ method ++ "` without receiver"
  | .procedureArguments procedure expected given =>
    "procedure `" ++ procedure ++ "` expects " ++ toString expected ++ " arguments, got " ++
      toString given
  | .procedureResults procedure returned expected =>
    "procedure `" ++ procedure ++ "` returns " ++ toString returned ++
      " values, call site expects " ++ toString expected
  | .stringLengthReceiver => "string length without receiver"
  | .inSlots method cause => "in locals of `" ++ method ++ "`: " ++ cause.message
  | .atNode method node loc cause =>
    "while translating `" ++ method ++ "` at node " ++ toString node ++ " (" ++ loc ++ "): " ++
      cause.message

/-- How a step that does not succeed ends: the input is refused, or a promise about it is broken. -/
inductive Failure where
  | refused (cause : Refusal)
  | fault (cause : Fault)

def Failure.message : Failure → String
  | .refused cause => cause.message
  | .fault cause => cause.message

/-- A refusal set in its context; a fault stays as it is. -/
def Failure.within (context : Refusal → Refusal) : Failure → Failure
  | .refused cause => .refused (context cause)
  | .fault cause => .fault cause

end Verilower
