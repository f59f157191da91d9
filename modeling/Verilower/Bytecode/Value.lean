import Verilower.Decimal.Layout
import Verilower.Model.Ty
import Verilower.Text.Quoted

namespace Verilower

inductive Constant where
  | int (value : Int)
  | long (value : Int)
  | float (value : Double)
  | bool (value : Bool)
  | null
  | string (value : String)
deriving DecidableEq, Inhabited

inductive BinaryOp where
  | add | sub | mul | div | rem
  | and | or | xor | shl | shr | ushr
  /-- Three-way comparison of integers. -/
  | cmp
  /-- Three-way comparison of floats, minus one if they are not comparable. -/
  | cmpl
  /-- Three-way comparison of floats, one if they are not comparable. -/
  | cmpg
  | eq | ne | lt | le | gt | ge
deriving DecidableEq, Inhabited

def BinaryOp.isComparison : BinaryOp → Bool
  | .eq | .ne | .lt | .le | .gt | .ge => true
  | _ => false

def BinaryOp.spell : BinaryOp → String
  | .add => "Add"
  | .sub => "Sub"
  | .mul => "Mul"
  | .div => "Div"
  | .rem => "Rem"
  | .and => "And"
  | .or => "Or"
  | .xor => "Xor"
  | .shl => "Shl"
  | .shr => "Shr"
  | .ushr => "Ushr"
  | .cmp => "Cmp"
  | .cmpl => "Cmpl"
  | .cmpg => "Cmpg"
  | .eq => "Eq"
  | .ne => "Ne"
  | .lt => "Lt"
  | .le => "Le"
  | .gt => "Gt"
  | .ge => "Ge"

inductive InvokeKind where
  | static
  /-- Constructors, private methods and calls of the super class. -/
  | special
  | virtual
  | interface
deriving DecidableEq, Inhabited

/-- Whether the target depends on the class of the receiver. -/
def InvokeKind.isDynamic : InvokeKind → Bool
  | .virtual | .interface => true
  | .static | .special => false

def InvokeKind.spell : InvokeKind → String
  | .static => "Static"
  | .special => "Special"
  | .virtual => "Virtual"
  | .interface => "Interface"

inductive Value where
  | slot (index : Nat)
  | constant (c : Constant)
  | param (index : Nat)
  | receiver
  | caught
  | instanceField (base : Value) (field : FieldId)
  | staticField (field : FieldId)
  | element (base index : Value)
  | length (base : Value)
  | binary (op : BinaryOp) (lhs rhs : Value)
  | neg (arg : Value)
  | cast (arg : Value) (ty : Ty)
  | instanceOf (arg : Value) (ty : Ty)
  | new (id : ClassId)
  | newArray (elem : Ty) (size : Value)
  /-- `ty` is the whole array type, `sizes` has one entry per allocated dimension. -/
  | newMultiArray (ty : Ty) (sizes : List Value)
  | invoke (kind : InvokeKind) (method : MethodId) (base : Option Value) (args : List Value)
deriving Inhabited

/-- A call apart from the values that may contain it. -/
structure Call where
  kind : InvokeKind
  /-- The statically resolved target. -/
  method : MethodId
  base : Option Value
  args : List Value
deriving Inhabited

def Constant.render : Constant → String
  | .int value => toString value
  | .long value => toString value ++ "L"
  | .float value => value.shown
  | .bool value => if value then "true" else "false"
  | .null => "null"
  | .string value => Text.quoted value

mutual

def Value.render : Value → String
  | .slot index => "l" ++ toString index
  | .constant c => c.render
  | .param index => "@parameter" ++ toString index
  | .receiver => "@this"
  | .caught => "@caughtexception"
  | .instanceField base field => base.render ++ ".<f" ++ toString field ++ ">"
  | .staticField field => "<f" ++ toString field ++ ">"
  | .element base index => base.render ++ "[" ++ index.render ++ "]"
  | .length base => "lengthof " ++ base.render
  | .binary op lhs rhs => lhs.render ++ " " ++ op.spell ++ " " ++ rhs.render
  | .neg arg => "neg " ++ arg.render
  | .cast arg ty => "(" ++ ty.spell ++ ") " ++ arg.render
  | .instanceOf arg ty => arg.render ++ " instanceof " ++ ty.spell
  | .new id => "new c" ++ toString id
  | .newArray elem size => "newarray (" ++ elem.spell ++ ")[" ++ size.render ++ "]"
  | .newMultiArray ty sizes =>
    "newmultiarray (" ++ ty.spell ++ ")[" ++ "][".intercalate (Value.renderAll sizes) ++ "]"
  | .invoke kind method _ args =>
    kind.spell ++ "invoke m" ++ toString method ++ "(" ++
      ", ".intercalate (Value.renderAll args) ++ ")"

def Value.renderAll : List Value → List String
  | [] => []
  | v :: vs => v.render :: Value.renderAll vs

end

end Verilower
