import Verilower.Ivl.Decl
import Verilower.Violation

namespace Verilower

open Ivl (Ident Expr Stmt Decl Procedure)

/-- The part of the standard declarations that can vary: procedures, sorted by name. -/
structure Prelude where
  procedures : List Procedure := []
deriving Inhabited

namespace Prelude

def null : Ident := ⟨"$null", .ref⟩

def heap : Ident := ⟨"$heap", .heap⟩

/-- The field that says whether an object is allocated. -/
def alloc : Ident := ⟨"$alloc", .field .bool⟩

/-- The field that holds the type tag of an object. -/
def typeField : Ident := ⟨"$type", .field .tag⟩

def arraySize : Ident := ⟨"$arrSizeHeap", .map [.ref] .int⟩

def stringSize : Ident := ⟨"$stringSizeHeap", .map [.ref] .int⟩

def contents (name : String) (elem : Ivl.Ty) : Ident :=
  ⟨name, .map [.ref] (.map [.int] elem)⟩

def intArrays : Ident := contents "$intArrHeap" .int

def realArrays : Ident := contents "$realArrHeap" .real

def boolArrays : Ident := contents "$boolArrHeap" .bool

def refArrays : Ident := contents "$refArrHeap" .ref

/-- The variables that lowered code assigns. -/
def globals : List Ident :=
  [heap, arraySize, stringSize, intArrays, realArrays, boolArrays, refArrays]

/-- The contents of the arrays with that kind of element. -/
def arrays? : Ivl.Ty → Option Ident
  | .int => some intArrays
  | .real => some realArrays
  | .bool => some boolArrays
  | .ref => some refArrays
  | _ => none

/-- The constant that the exception slot holds after a violation. -/
def witness : Violation → Ident
  | .nullPointer => ⟨"$exNullPointer", .ref⟩
  | .arrayBounds => ⟨"$exArrayIndex", .ref⟩
  | .classCast => ⟨"$exClassCast", .ref⟩
  | .precondition => ⟨"$exPrecondition", .ref⟩
  | .postcondition => ⟨"$exPostcondition", .ref⟩
  | .unexpected => ⟨"$exUnexpected", .ref⟩

def read (object : Expr) (field : Ident) : Expr := .select heap.expr [object, field.expr]

def write (object : Expr) (field : Ident) (value : Expr) : Stmt :=
  .assign heap (.store heap.expr [object, field.expr] value)

def typeOf (object : Expr) : Expr := read object typeField

def isNonNull (e : Expr) : Expr := .neq e null.expr

/-- The conversion of `e` between two types, if there is one. -/
def convert (source target : Ivl.Ty) (e : Expr) : Option Expr :=
  let intToBool (e : Expr) : Expr := .apply "$intToBool" [e] .bool
  let boolToInt (e : Expr) : Expr := .apply "$boolToInt" [e] .int
  let intToReal (e : Expr) : Expr := .apply "$intToReal" [e] .real
  let realToInt (e : Expr) : Expr := .apply "$realToInt" [e] .int
  if source = target then some e else
  match source, target with
  | .int, .bool => some (intToBool e)
  | .bool, .int => some (boolToInt e)
  | .int, .real => some (intToReal e)
  | .real, .int => some (realToInt e)
  | .bool, .real => some (intToReal (boolToInt e))
  | .real, .bool => some (intToBool (realToInt e))
  | _, _ => none

/-- The expression converted to the given type, if that is possible. -/
def coerce (e : Expr) (target : Ivl.Ty) : Except Fault (Option Expr) := do
  return convert (← e.ty) target e

def objectClone : String := "java.lang.Object$java.lang.Object$clone"

/-- The procedures that only the prelude may declare. -/
def reserved : List String := [objectClone]

def find? (prelude : Prelude) (name : String) : Option Procedure :=
  prelude.procedures.find? fun p => p.name = name

/-- The procedures with `p` in its place by name, instead of one of the same name. -/
def insert (p : Procedure) : List Procedure → List Procedure
  | [] => [p]
  | q :: qs =>
    if p.name = q.name then p :: qs
    else if p.name < q.name then p :: q :: qs
    else q :: insert p qs

def add (prelude : Prelude) (p : Procedure) : Prelude := ⟨insert p prelude.procedures⟩

def objectCloneProcedure : Procedure :=
  let this : Ident := ⟨"$this", .ref⟩
  let result : Ident := ⟨"$return", .ref⟩
  { name := objectClone
    ins := [this]
    outs := [result, ⟨"$exception", .ref⟩]
    modifies := [heap]
    clauses := [
      { contract := .requires, free := true, formula := isNonNull this.expr },
      { contract := .ensures, free := true, formula := isNonNull result.expr }] }

def bare : Prelude := {}

def standard : Prelude := bare.add objectCloneProcedure

def conversions : List Decl := [
  .function "$intToBool" [.int] .bool,
  .function "$boolToInt" [.bool] .int,
  .function "$intToReal" [.int] .real,
  .function "$realToInt" [.real] .int]

def operators : List Decl :=
  (["$bitAnd", "$bitOr", "$bitXor", "$shl", "$shr", "$ushr", "$cmpInt", "$remInt"].map
    fun name => .function name [.int, .int] .int) ++
  [.function "$remReal" [.real, .real] .real] ++
  (["$cmplReal", "$cmpgReal"].map fun name => .function name [.real, .real] .int)

def witnesses : List Decl :=
  Violation.all.flatMap fun v =>
    [.const (witness v) true [], .fact (isNonNull (witness v).expr)]

def declarations (prelude : Prelude) : List Decl :=
  [.type "ref" [], .type "javaType" [], .type "Field" ["x"],
    .const null true [], .var heap, .const alloc true [], .const typeField true [],
    .var arraySize, .var stringSize,
    .var intArrays, .var realArrays, .var boolArrays, .var refArrays] ++
  conversions ++ operators ++ witnesses ++ prelude.procedures.map .procedure

end Prelude

end Verilower
