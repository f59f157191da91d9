import Verilower.Diagnostic
import Verilower.Signature

namespace Verilower

open Ivl (Ident)

/-- The entry of a key in a table. One that is missing is made and kept, unless that fails. -/
def fetch {κ ν : Type} [BEq κ] (table : List (κ × ν)) (key : κ) (make : Except Failure ν) :
    Except Failure ν × List (κ × ν) :=
  match table.lookup key with
  | some v => (.ok v, table)
  | none =>
    match make with
    | .error e => (.error e, table)
    | .ok v => (.ok v, table ++ [(key, v)])

/-- A map between nodes and labels that keeps at most one pair per node and per label. -/
structure LabelMap where
  pairs : List ((MethodId × Nat) × String) := []
deriving Inhabited

namespace LabelMap

def labelOf? (m : LabelMap) (node : MethodId × Nat) : Option String :=
  (m.pairs.find? fun pair => pair.1 = node).map Prod.snd

def nodeOf? (m : LabelMap) (label : String) : Option (MethodId × Nat) :=
  (m.pairs.find? fun pair => pair.2 = label).map Prod.fst

/-- Adds a pair and drops every pair that shares a side with it. -/
def insert (m : LabelMap) (node : MethodId × Nat) (label : String) : LabelMap :=
  ⟨(m.pairs.filter fun pair => pair.1 ≠ node && pair.2 ≠ label) ++ [(node, label)]⟩

end LabelMap

/-- What has been asked for so far, each table in the order of first use. -/
structure Registry where
  tagTable : List (Ty × Ident) := []
  fieldTable : List (FieldId × Ident) := []
  signatureTable : List (MethodId × Signature) := []
  labels : LabelMap := {}
  globals : List Ident := []
  diagnostics : Array Diagnostic := #[]
  log : Array Record := #[]
deriving Inhabited

namespace Registry

def tags (r : Registry) : List Ty := r.tagTable.map Prod.fst

def fields (r : Registry) : List FieldId := r.fieldTable.map Prod.fst

def signatures (r : Registry) : List Signature := r.signatureTable.map Prod.snd

def tag (p : Program) (r : Registry) (ty : Ty) : Except Failure Ident × Registry :=
  let (x, tagTable) := fetch r.tagTable ty ((p.tag ty).mapError .fault)
  (x, { r with tagTable })

def field (p : Program) (r : Registry) (id : FieldId) : Except Failure Ident × Registry :=
  let (x, fieldTable) := fetch r.fieldTable id (p.fieldIdent id)
  (x, { r with fieldTable })

def label (r : Registry) (method : MethodId) (node : Nat) : String × Registry :=
  match r.labels.labelOf? (method, node) with
  | some found => (found, r)
  | none =>
    let made := labelName method node
    (made, { r with labels := r.labels.insert (method, node) made })

def freshGlobal (r : Registry) (ty : Ivl.Ty) : Ident × Registry :=
  let x := globalIdent r.globals.length ty
  (x, { r with globals := r.globals ++ [x] })

def addRecord (r : Registry) (record : Record) : Registry := { r with log := r.log.push record }

def addDiagnostic (r : Registry) (p : Program) (d : Diagnostic) : Registry :=
  { r.addRecord (d.record p) with diagnostics := r.diagnostics.push d }

def sortedTags (r : Registry) : List (Ty × Ident) := r.tagTable.mergeSort fun a b => a.1.le b.1

def sortedFields (r : Registry) : List (FieldId × Ident) :=
  r.fieldTable.mergeSort fun a b => a.1 ≤ b.1

def sortedSignatures (r : Registry) : List Signature :=
  (r.signatureTable.mergeSort fun a b => a.1 ≤ b.1).map Prod.snd

def hasErrors (r : Registry) : Bool := r.diagnostics.any Diagnostic.isError

end Registry

end Verilower
