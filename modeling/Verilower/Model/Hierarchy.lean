import Verilower.Model.Draft

namespace Verilower

/-- The node of the hierarchy that an id stands for; an id of 32 bits stands for itself. -/
def ClassId.node (id : ClassId) : Nat := id % 0x100000000

namespace Draft

/-- The nodes of the super class and the interfaces that a class names. -/
def declaredSupertypes (d : Draft) (node : Nat) : List Nat :=
  match d.classes[node]? with
  | some c => (c.superClass.toList ++ c.interfaces).map ClassId.node
  | none => []

/-- Super class and interfaces in increasing order, each once. -/
def directSupertypes (d : Draft) (id : ClassId) : List ClassId :=
  (List.range d.classes.length).filter (d.declaredSupertypes (ClassId.node id)).contains

/-- The classes and interfaces that name `id` as a supertype, in increasing order. -/
def directSubtypes (d : Draft) (id : ClassId) : List ClassId :=
  (List.range d.classes.length).filter fun sub =>
    (d.declaredSupertypes sub).contains (ClassId.node id)

/-- The class itself and all its subtypes, in the order of a depth-first walk. -/
def subtypes (d : Draft) (id : ClassId) : List ClassId :=
  Digraph.preorder d.classes.length d.directSubtypes id

/-- A node itself and all nodes above it. -/
def supertypes (d : Draft) (node : Nat) : List Nat :=
  Digraph.preorder d.classes.length d.declaredSupertypes node

/-- Whether the hierarchy leads from one id up to the other; equal ids need no path. -/
def isSubtype (d : Draft) (sub sup : ClassId) : Bool :=
  sub == sup || (d.supertypes (ClassId.node sub)).contains (ClassId.node sup)

def isStrictSubtype (d : Draft) (sub sup : ClassId) : Bool := sub != sup && d.isSubtype sub sup

/-- The subtype test for ids that may name nothing: a path may end outside the hierarchy, but it
may not start there. -/
def testSubtype (d : Draft) (sub sup : ClassId) : Except Fault Bool :=
  if sub = sup || ClassId.node sub < d.classes.length then .ok (d.isSubtype sub sup)
  else .error .outsideHierarchy

def testStrictSubtype (d : Draft) (sub sup : ClassId) : Except Fault Bool :=
  if sub = sup then .ok false else d.testSubtype sub sup

/-- Whether every node that is named as a supertype exists. -/
def isLinked (d : Draft) : Bool :=
  (List.range d.classes.length).all fun node =>
    (d.declaredSupertypes node).all fun sup => sup < d.classes.length

/-- Whether some class is above itself. -/
def isCyclic (d : Draft) : Bool := Digraph.hasCycle d.classes.length d.declaredSupertypes

end Draft

end Verilower
