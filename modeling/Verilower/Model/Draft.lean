import Verilower.Digraph
import Verilower.Model.Source
import Verilower.Model.Ty

namespace Verilower

structure ClassDecl where
  name : String
  isInterface : Bool := false
  isAbstract : Bool := false
  superClass : Option ClassId := none
  interfaces : List ClassId := []
  methods : List MethodId := []
  fields : List FieldId := []
  loc : Loc := none

structure MethodDecl where
  name : String
  params : List Ty := []
  returns : Ty := .void
  isStatic : Bool := false
  isAbstract : Bool := false
  throws : List ClassId := []
  annotations : List Annotation := []
  /-- One list per parameter; it may be shorter or longer than the parameters. -/
  paramAnnotations : List (List Annotation) := []
  loc : Loc := none

def MethodDecl.param (m : MethodDecl) (ty : Ty) (annotations : List Annotation := []) :
    MethodDecl :=
  { m with
    params := m.params ++ [ty]
    paramAnnotations := m.paramAnnotations ++ [annotations] }

structure Method extends MethodDecl where
  owner : ClassId

structure FieldDecl where
  name : String
  ty : Ty
  isStatic : Bool := false
  annotations : List Annotation := []

structure Field extends FieldDecl where
  owner : ClassId

/-- A program under construction: classes, members and sources, numbered in the order in which they
are registered. -/
structure Draft where
  classes : List ClassDecl := []
  /-- The class of each registered name. -/
  index : List (String × ClassId) := []
  methods : List Method := []
  fields : List Field := []
  sources : List Source := []

def ClassId.object : ClassId := 0

def ClassId.string : ClassId := 1

def ClassId.throwable : ClassId := 2

namespace Draft

def findClass? (d : Draft) (name : String) : Option ClassId := d.index.lookup name

/-- The id of the class of that name; a new class is registered at the end, an old one is kept. -/
def register (d : Draft) (c : ClassDecl) : Draft × ClassId :=
  match d.findClass? c.name with
  | some id => (d, id)
  | none =>
    let id := d.classes.length
    ({ d with classes := d.classes ++ [c], index := d.index ++ [(c.name, id)] }, id)

def objectName : String := "java.lang.Object"

/-- The names of the classes that every draft has. -/
def predefined : List String := [objectName, "java.lang.String", "java.lang.Throwable"]

/-- Registers a predefined class, which extends the object class unless it is that class. -/
def predefine (d : Draft) (name : String) : Draft :=
  (d.register {
    name
    superClass := if name = objectName then none else d.findClass? objectName }).1

/-- The draft of a program that declares nothing of its own. -/
def empty : Draft := predefined.foldl predefine {}

def object (d : Draft) : Except Fault ClassId :=
  match d.findClass? objectName with
  | some id => .ok id
  | none => .error .noEntry

/-- Changes the class with that id, if there is one. -/
def updateClass (d : Draft) (id : ClassId) (f : ClassDecl → ClassDecl) : Draft :=
  { d with classes := d.classes.modify id f }

/-- Registers a class; without a super class it extends the object class. -/
def addClass (d : Draft) (name : String) (superClass : Option ClassId)
    (interfaces : List ClassId) : Except Fault (Draft × ClassId) := do
  let superClass ← superClass.elim d.object .ok
  return d.register { name, superClass := some superClass, interfaces }

def markAbstract (d : Draft) (id : ClassId) : Except Fault Draft := do
  let _ ← entry d.classes id
  return d.updateClass id fun c => { c with isAbstract := true }

def addAbstractClass (d : Draft) (name : String) (superClass : Option ClassId)
    (interfaces : List ClassId) : Except Fault (Draft × ClassId) := do
  let (d, id) ← d.addClass name superClass interfaces
  return (← d.markAbstract id, id)

def addInterface (d : Draft) (name : String) (interfaces : List ClassId) :
    Except Fault (Draft × ClassId) := do
  let (d, id) := d.register { name, isInterface := true, interfaces }
  return (← d.markAbstract id, id)

/-- Registers a method; an instance method of an interface is abstract. -/
def addMethod (d : Draft) (owner : ClassId) (m : MethodDecl) :
    Except Fault (Draft × MethodId) := do
  let c ← entry d.classes owner
  let id := d.methods.length
  let m := { m with isAbstract := m.isAbstract || (c.isInterface && !m.isStatic) }
  let d := d.updateClass owner fun c => { c with methods := c.methods ++ [id] }
  return ({ d with methods := d.methods ++ [{ m with owner }] }, id)

/-- Registers a concrete instance method with the declaration of `overridden`. -/
def addOverride (d : Draft) (owner : ClassId) (overridden : MethodId) :
    Except Fault (Draft × MethodId) := do
  let m ← entry d.methods overridden
  d.addMethod owner { m.toMethodDecl with isStatic := false, isAbstract := false, loc := none }

def addField (d : Draft) (owner : ClassId) (f : FieldDecl) : Except Fault (Draft × FieldId) := do
  let _ ← entry d.classes owner
  let id := d.fields.length
  let d := d.updateClass owner fun c => { c with fields := c.fields ++ [id] }
  return ({ d with fields := d.fields ++ [{ f with owner }] }, id)

def addSource (d : Draft) (source : Source) : Draft × Nat :=
  ({ d with sources := d.sources ++ [source] }, d.sources.length)

end Draft

end Verilower
