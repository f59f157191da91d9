namespace Verilower.Settings

/-- How a table came to be, which decides whether it can still grow. -/
inductive TableKind where
  /-- Written in braces; it is complete. -/
  | inline
  /-- Named by a header of its own. -/
  | header
  /-- Named on the way to the table of a header. -/
  | implied
  /-- Made by a dotted key. -/
  | dotted
deriving DecidableEq, Inhabited

inductive Value where
  | string (text : String)
  | bool (value : Bool)
  | table (kind : TableKind) (entries : List (String × Value))
deriving Inhabited

/-- Keys with their values, in the order in which they were added. -/
abbrev Entries := List (String × Value)

namespace Entries

def get? (es : Entries) (key : String) : Option Value :=
  (es.find? fun e => e.1 = key).map Prod.snd

/-- Gives a key that is there another value. -/
def replace (es : Entries) (key : String) (v : Value) : Entries :=
  es.map fun e => if e.1 = key then (key, v) else e

/-- Adds a value under a dotted key. A key has one value, and only a table that dotted keys made
can grow by another. -/
def assign (v : Value) : (key : List String) → Entries → Option Entries
  | [], _ => none
  | [k], es => if (es.get? k).isSome then none else some (es ++ [(k, v)])
  | k :: key, es =>
    match es.get? k with
    | none => do return es ++ [(k, .table .dotted (← assign v key []))]
    | some (.table .dotted inner) => do
      return es.replace k (.table .dotted (← assign v key inner))
    | some _ => none

/-- Opens the table of a header. A table has one header. -/
def openTable : (path : List String) → Entries → Option Entries
  | [], _ => none
  | [k], es =>
    match es.get? k with
    | none => some (es ++ [(k, .table .header [])])
    | some (.table .implied inner) => some (es.replace k (.table .header inner))
    | some _ => none
  | k :: path, es =>
    match es.get? k with
    | none => do return es ++ [(k, .table .implied (← openTable path []))]
    | some (.table .inline _) => none
    | some (.table kind inner) => do return es.replace k (.table kind (← openTable path inner))
    | some _ => none

/-- Adds a value under a dotted key of the table at `path`. -/
def assignAt (v : Value) (key : List String) : (path : List String) → Entries → Option Entries
  | [], es => assign v key es
  | k :: path, es =>
    match es.get? k with
    | some (.table kind inner) => do return es.replace k (.table kind (← assignAt v key path inner))
    | _ => none

end Entries

end Verilower.Settings
