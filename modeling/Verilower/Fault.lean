import Verilower.Ivl.Ty

namespace Verilower

inductive Fault where
  /-- A table of the given length was asked for an entry that it does not have. -/
  | outOfRange (length index : Nat)
  /-- A slice of a list was to start behind its end. -/
  | sliceStart (start length : Nat)
  /-- A map was indexed with a key that it does not have. -/
  | noEntry
  /-- A class names a super class or interface that does not exist. -/
  | danglingSupertype
  /-- A path query starts at a node that the hierarchy does not have. -/
  | outsideHierarchy
  /-- A case value of a table switch leaves the 32-bit range. -/
  | addOverflow
  /-- A source region ends before it starts. -/
  | reversedRegion
  /-- The heap was read with a second index that is no field. -/
  | nonFieldIndex (found : Option Ivl.Ty)
  /-- Something other than a map was indexed. -/
  | nonMapIndexed (found : Ivl.Ty)
deriving DecidableEq

def Fault.message : Fault → String
  | .outOfRange length index =>
    s!"index out of bounds: the len is {length} but the index is {index}"
  | .sliceStart start length =>
    s!"range start index {start} out of range for slice of length {length}"
  | .noEntry => "no entry found for key"
  | .danglingSupertype => "Graph::add_edge: node indices out of bounds"
  | .outsideHierarchy => "assertion failed: bit < self.length"
  | .addOverflow => "attempt to add with overflow"
  | .reversedRegion => "assertion failed: end >= start"
  | .nonFieldIndex none => "BUG: heap accessed with non-field index of type None"
  | .nonFieldIndex (some ty) =>
    "BUG: heap accessed with non-field index of type Some(" ++ ty.spell ++ ")"
  | .nonMapIndexed ty => "BUG: indexing into non-map expression of type " ++ ty.render

def entry {α : Type} (table : List α) (index : Nat) : Except Fault α :=
  match table[index]? with
  | some a => .ok a
  | none => .error (.outOfRange table.length index)

end Verilower
