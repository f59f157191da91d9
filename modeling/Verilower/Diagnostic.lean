import Verilower.Model.Program
import Verilower.Text.Width

namespace Verilower

inductive Severity where
  | help
  | note
  | warning
  | error
  | bug
deriving DecidableEq, Inhabited

def Severity.name : Severity → String
  | .help => "help"
  | .note => "note"
  | .warning => "warning"
  | .error => "error"
  | .bug => "bug"

/-- The place in the order from help to bug. -/
def Severity.rank : Severity → Nat
  | .help => 0
  | .note => 1
  | .warning => 2
  | .error => 3
  | .bug => 4

structure Diagnostic where
  severity : Severity
  loc : Loc
  message : String

def Diagnostic.isError (d : Diagnostic) : Bool := Severity.error.rank ≤ d.severity.rank

inductive Level where
  | debug
  | info
  | warn
  | error
deriving DecidableEq, Inhabited

def Level.name : Level → String
  | .debug => "debug"
  | .info => "info"
  | .warn => "warn"
  | .error => "error"

structure Record where
  level : Level
  message : String
deriving DecidableEq, Inhabited

def Severity.level : Severity → Level
  | .bug | .error => .error
  | .warning => .warn
  | .note | .help => .info

def Diagnostic.record (p : Program) (d : Diagnostic) : Record :=
  ⟨d.severity.level, d.message ++ " (" ++ p.describe d.loc ++ ")"⟩

/-- A report and whether it had to stop at a diagnostic in an unknown file. -/
structure Report where
  text : String := ""
  fileMissing : Bool := false

namespace Report

/-- The carets under those characters of a line that meet its bytes from `start` to `stop`; the
place after the last character counts as one more. -/
def carets (start stop : Nat) : (position : Nat) → List (Char × Nat) → List Char
  | position, [] => mark position 1 1
  | position, (c, width) :: cs =>
    mark position c.utf8Size width ++ carets start stop (position + c.utf8Size) cs
where
  mark (position size width : Nat) : List Char :=
    if max start position < min stop (position + size) then List.replicate width '^'
    else if position < stop then List.replicate width ' '
    else []

/-- A character as it is shown; a tab is shown as blanks. -/
def shownChar : Char × Nat → List Char
  | (c, width) => if c = '\t' then List.replicate width ' ' else [c]

/-- A line without the line ends and null characters at its end. -/
def trimEnd (line : List Char) : List Char :=
  (line.reverse.dropWhile fun c => c = '\r' || c = '\x00').reverse

def snippet (source : Source) (region : Region) : String :=
  let index := source.lineIndex region.start
  let (offset, line) := source.line index
  let start := region.start - offset
  let stop := max (region.stop - offset) (start + 1)
  let shown := Text.withWidths 0 (trimEnd line)
  let column := (takeBytes start line).length + 1
  let number := toString (index + 1)
  let gutter := String.ofList (List.replicate number.length ' ')
  gutter ++ " ┌─ " ++ source.name ++ ":" ++ number ++ ":" ++ toString column ++ "\n" ++
  gutter ++ " │\n" ++
  number ++ " │ " ++ String.ofList (shown.flatMap shownChar) ++ "\n" ++
  gutter ++ " │ " ++ String.ofList (carets start stop 0 shown) ++ "\n\n"

/-- One diagnostic, or nothing if its file is unknown. -/
def entry? (p : Program) (d : Diagnostic) : Option String :=
  let header := d.severity.name ++ ": " ++ d.message ++ "\n"
  match d.loc with
  | none => some (header ++ "\n")
  | some region =>
    match p.sources[region.file]? with
    | none => none
    | some source => some (header ++ snippet source region)

/-- The diagnostics one after the other, up to the first in an unknown file. -/
def ofDiagnostics (p : Program) : List Diagnostic → Report
  | [] => {}
  | d :: ds =>
    match entry? p d with
    | none => { fileMissing := true }
    | some text =>
      let rest := ofDiagnostics p ds
      { rest with text := text ++ rest.text }

end Report

end Verilower
