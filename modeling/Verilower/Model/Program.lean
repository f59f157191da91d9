import Verilower.Model.Hierarchy

namespace Verilower

structure Program extends Draft where
  /-- There is a node of 32 bits for each class, and one number to spare. -/
  numbered : classes.length < 0x100000000 := by decide
  linked : toDraft.isLinked = true
  acyclic : toDraft.isCyclic = false

inductive Draft.Defect where
  | dangling
  | cyclic
deriving DecidableEq

def Draft.Defect.message : Draft.Defect → String
  | .dangling => Fault.danglingSupertype.message
  | .cyclic => "class hierarchy contains a cycle"

/-- The program of a draft, unless a class or a supertype has no node or a class is above itself. -/
def Program.ofDraft (d : Draft) : Except Draft.Defect Program :=
  if nodes : d.classes.length < 0x100000000 ∧ d.isLinked = true then
    if acyclic : d.isCyclic = false then
      .ok { toDraft := d, numbered := nodes.1, linked := nodes.2, acyclic }
    else .error .cyclic
  else .error .dangling

namespace Program

def empty : Program where
  toDraft := .empty
  numbered := by decide +kernel
  linked := by decide +kernel
  acyclic := by decide +kernel

def class? (p : Program) (id : ClassId) : Except Fault ClassDecl := entry p.classes id

def method? (p : Program) (id : MethodId) : Except Fault Method := entry p.methods id

def field? (p : Program) (id : FieldId) : Except Fault Field := entry p.fields id

/-- The super class and the interfaces of a class, where each must be a class of the program. -/
def supers? (p : Program) (c : ClassDecl) : Except Fault (Option ClassId × List ClassId) := do
  let known (id : ClassId) : Except Fault ClassId := (p.class? id).map fun _ => id
  return (← c.superClass.mapM known, ← c.interfaces.mapM known)

/-- The name of a registered class; members always belong to one. -/
def className (p : Program) (id : ClassId) : String :=
  match p.classes[id]? with
  | some c => c.name
  | none => ""

def methodName (p : Program) (m : Method) : String := p.className m.owner ++ "." ++ m.name

def fieldName (p : Program) (f : Field) : String := p.className f.owner ++ "." ++ f.name

/-- The first method that the class itself declares with that name and those parameters. -/
def declaredMethod? (p : Program) (c : ClassDecl) (name : String) (params : List Ty) :
    Option MethodId :=
  c.methods.find? fun id =>
    match p.methods[id]? with
    | some m => m.name = name && m.params = params
    | none => false

def describe (p : Program) (loc : Loc) : String := describeLoc p.sources loc

def typeName (p : Program) : Ty → Except Fault String
  | .bool => .ok "boolean"
  | .byte => .ok "byte"
  | .char => .ok "char"
  | .short => .ok "short"
  | .int => .ok "int"
  | .long => .ok "long"
  | .float => .ok "float"
  | .double => .ok "double"
  | .void => .ok "void"
  | .null => .ok "null_type"
  | .cls id => return (← p.class? id).name
  | .array elem => return (← p.typeName elem) ++ "[]"

end Program

namespace Method

def isConstructor (m : Method) : Bool := m.name = "<init>"

/-- Whether the method has a body and can be reached through a receiver. -/
def isConcreteInstance (m : Method) : Bool := !m.isAbstract && !m.isStatic

def hasAnnotation (m : Method) (a : Annotation) : Bool := m.annotations.contains a

def paramHasAnnotation (m : Method) (index : Nat) (a : Annotation) : Bool :=
  match m.paramAnnotations[index]? with
  | some annotations => annotations.contains a
  | none => false

def returnsNonNull (m : Method) : Bool := m.hasAnnotation .nonNull

def returnsExact (m : Method) : Bool := m.hasAnnotation .exactType

end Method

def Field.isNonNull (f : Field) : Bool := f.annotations.contains .nonNull

end Verilower
