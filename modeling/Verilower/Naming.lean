import Verilower.Model.Program
import Verilower.Refusal

namespace Verilower

/-- Whether the target language takes the character in an identifier. -/
def isIdentChar (c : Char) : Bool :=
  c.isAlphanum || ['_', '.', '$', '#', '\'', '~', '^', '?'].contains c

/-- The text with an underscore for each character that identifiers do not take. -/
def sanitize (name : String) : String :=
  String.ofList (name.toList.map fun c => if isIdentChar c then c else '_')

def labelName (method : MethodId) (node : Nat) : String :=
  "block_" ++ toString method ++ "_" ++ toString node

/-- The made-up global variable that `count` others precede. -/
def globalIdent (count : Nat) (ty : Ivl.Ty) : Ivl.Ident := ⟨"$freshglobal_" ++ toString count, ty⟩

/-- The representation of a declared type. -/
def Ty.lowered : Ty → Except Refusal Ivl.Ty
  | .bool => .ok .bool
  | .byte | .char | .short | .int | .long => .ok .int
  | .float | .double => .ok .real
  | .cls _ | .array _ | .null => .ok .ref
  | .void => .error .voidValue

namespace Program

/-- A type as a part of a longer name. -/
def fragment (p : Program) : Ty → Except Fault String
  | .array elem => return (← p.fragment elem) ++ "$arr"
  | ty => p.typeName ty

/-- Owner, result type, name and parameter types, joined by dollar signs. -/
def procedureName (p : Program) (m : Method) : Except Fault String := do
  let result ← p.fragment m.returns
  let params ← m.params.mapM p.fragment
  return sanitize ("$".intercalate (p.className m.owner :: result :: m.name :: params))

def tagName (p : Program) (ty : Ty) : Except Fault String := do
  return "$type_" ++ sanitize (← p.fragment ty)

/-- The constant that stands for a type at run time. -/
def tag (p : Program) (ty : Ty) : Except Fault Ivl.Ident := do
  return ⟨← p.tagName ty, .tag⟩

def fieldIdentName (p : Program) (f : Field) : String := sanitize (p.fieldName f)

/-- The heap field of an instance field, or the global variable of a static one. -/
def fieldIdent (p : Program) (id : FieldId) : Except Failure Ivl.Ident := do
  let f ← (p.field? id).mapError .fault
  let ty ← f.ty.lowered.mapError .refused
  return ⟨p.fieldIdentName f, if f.isStatic then ty else .field ty⟩

end Program

end Verilower
