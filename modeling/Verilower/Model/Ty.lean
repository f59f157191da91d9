namespace Verilower

abbrev ClassId := Nat

abbrev MethodId := Nat

abbrev FieldId := Nat

inductive Ty where
  | bool
  | byte
  | char
  | short
  | int
  | long
  | float
  | double
  | void
  /-- The type of the null literal. -/
  | null
  | cls (id : ClassId)
  | array (elem : Ty)
deriving DecidableEq, Inhabited

namespace Ty

def isVoid : Ty → Bool
  | .void => true
  | _ => false

def isReference : Ty → Bool
  | .cls _ | .array _ | .null => true
  | _ => false

def isIntegral : Ty → Bool
  | .byte | .char | .short | .int | .long => true
  | _ => false

def isFloating : Ty → Bool
  | .float | .double => true
  | _ => false

def element? : Ty → Option Ty
  | .array elem => some elem
  | _ => none

def dimensions : Ty → Nat
  | .array elem => elem.dimensions + 1
  | _ => 0

/-- The place of the outermost constructor in the order of types. -/
def rank : Ty → Nat
  | .bool => 0
  | .byte => 1
  | .char => 2
  | .short => 3
  | .int => 4
  | .long => 5
  | .float => 6
  | .double => 7
  | .void => 8
  | .null => 9
  | .cls _ => 10
  | .array _ => 11

/-- The order in which types are listed: by constructor, classes by id, arrays by element. -/
def le : Ty → Ty → Bool
  | .cls a, .cls b => a ≤ b
  | .array a, .array b => a.le b
  | a, b => a.rank ≤ b.rank

def spell : Ty → String
  | .bool => "Bool"
  | .byte => "Byte"
  | .char => "Char"
  | .short => "Short"
  | .int => "Int"
  | .long => "Long"
  | .float => "Float"
  | .double => "Double"
  | .void => "Void"
  | .null => "Null"
  | .cls id => s!"Class(ClassId({id}))"
  | .array elem => "Array(" ++ elem.spell ++ ")"

end Ty

inductive Annotation where
  | nonNull
  | nullable
  /-- The result has exactly the declared type; no override narrows it. -/
  | exactType
  | other (name : String)
deriving DecidableEq, Inhabited

end Verilower
