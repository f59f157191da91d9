import Verilower.Settings.Text
import Verilower.Settings.Value

namespace Verilower.Settings

def isBareKeyChar (c : Char) : Bool := c.isAlphanum || c = '_' || c = '-'

/-- A key without dots, bare or in quotes. -/
def simpleKey? : List Char → Option (String × List Char)
  | '"' :: cs => do
    let (text, rest) ← basic? cs
    return (String.ofList text, rest)
  | '\'' :: cs => do
    let (text, rest) ← literal? cs
    return (String.ofList text, rest)
  | cs =>
    match cs.takeWhile isBareKeyChar with
    | [] => none
    | key => some (String.ofList key, cs.dropWhile isBareKeyChar)

/-- The parts of a dotted key, with the blanks around them; `fuel` bounds their number. -/
def key? : (fuel : Nat) → List Char → Option (List String × List Char)
  | 0, _ => none
  | fuel + 1, cs => do
    let (part, cs) ← simpleKey? (skipBlanks cs)
    match skipBlanks cs with
    | '.' :: cs => do
      let (parts, cs) ← key? fuel cs
      return (part :: parts, cs)
    | cs => return ([part], cs)

def keyEquals? (cs : List Char) : Option (List String × List Char) := do
  match ← key? (cs.length + 1) cs with
  | (key, '=' :: cs) => return (key, skipBlanks cs)
  | _ => none

mutual

/-- A value; `fuel` bounds the number of values and keys inside it. -/
def value? : (fuel : Nat) → List Char → Option (Value × List Char)
  | 0, _ => none
  | fuel + 1, cs =>
    match cs with
    | 't' :: 'r' :: 'u' :: 'e' :: cs => some (.bool true, cs)
    | 'f' :: 'a' :: 'l' :: 's' :: 'e' :: cs => some (.bool false, cs)
    | '\x7b' :: cs =>
      match skipBlanks cs with
      | '\x7d' :: cs => some (.table .inline [], cs)
      | cs => inlineTable? fuel [] cs
    | cs => do
      let (text, cs) ← text? cs
      return (.string text, cs)

/-- The pairs of a table in braces, after those in `es`. -/
def inlineTable? : (fuel : Nat) → Entries → List Char → Option (Value × List Char)
  | 0, _, _ => none
  | fuel + 1, es, cs => do
    let (key, cs) ← keyEquals? cs
    let (v, cs) ← value? fuel cs
    let es ← es.assign v key
    match skipBlanks cs with
    | '\x7d' :: cs => return (.table .inline es, cs)
    | ',' :: cs => inlineTable? fuel es cs
    | _ => none

end

/-- A header in brackets. Arrays of tables stand for no option. -/
def header? (cs : List Char) : Option (List String × List Char) := do
  match ← key? (cs.length + 1) cs with
  | (path, ']' :: cs) => return (path, cs)
  | _ => none

/-- The lines of a document; `path` is the table that is open and `es` what has been read. -/
def lines? : (fuel : Nat) → (path : List String) → Entries → List Char → Option Entries
  | 0, _, _, _ => none
  | fuel + 1, path, es, cs =>
    match skipBlanks cs with
    | [] => some es
    | '[' :: cs => do
      let (path, cs) ← header? cs
      let es ← es.openTable path
      lines? fuel path es (← lineEnd? cs)
    | cs =>
      match lineEnd? cs with
      | some cs => lines? fuel path es cs
      | none => do
        let (key, cs) ← keyEquals? cs
        let (v, cs) ← value? (cs.length + 1) cs
        let es ← es.assignAt v key path
        lines? fuel path es (← lineEnd? cs)

/-- The entries of a document; a byte order mark in front is ignored. -/
def document? (text : String) : Option Entries :=
  let cs := match text.toList with
    | '\ufeff' :: cs => cs
    | cs => cs
  lines? (cs.length + 1) [] [] cs

end Verilower.Settings
