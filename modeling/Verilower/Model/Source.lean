import Verilower.Fault
import Verilower.Text.Lines

namespace Verilower

structure Source where
  name : String
  content : String
deriving DecidableEq, Inhabited

/-- A stretch of bytes of a file. -/
structure Region where
  file : Nat
  start : Nat
  stop : Nat
  ordered : start ≤ stop

/-- The region from `start` to `stop`, which may not end before it starts. -/
def Region.make (file start stop : Nat) : Except Fault Region :=
  if h : start ≤ stop then .ok ⟨file, start, stop, h⟩ else .error .reversedRegion

/-- Where something was declared, if that is known. -/
abbrev Loc := Option Region

def byteSize (cs : List Char) : Nat := cs.foldl (fun n c => n + c.utf8Size) 0

/-- The characters that end at or before the byte `offset`. -/
def takeBytes : (offset : Nat) → List Char → List Char
  | _, [] => []
  | offset, c :: cs =>
    if c.utf8Size ≤ offset then c :: takeBytes (offset - c.utf8Size) cs else []

namespace Source

/-- The number of the line that holds the byte `offset`, from zero; the last line holds all offsets
past the end. Only a line feed ends a line. -/
def lineIndex (s : Source) (offset : Nat) : Nat :=
  (takeBytes offset s.content.toList).count '\n'

/-- The line with its start in bytes; its text has no line feed. -/
def line (s : Source) (index : Nat) : Nat × List Char :=
  let pieces := Text.splitOn '\n' s.content.toList
  ((pieces.take index).foldl (fun n piece => n + byteSize piece + 1) 0, pieces.getD index [])

end Source

/-- `file:line` for a known file. -/
def describeLoc (sources : List Source) : Loc → String
  | none => "<unknown>"
  | some region =>
    match sources[region.file]? with
    | none => s!"<file {region.file}>"
    | some source => source.name ++ ":" ++ toString (source.lineIndex region.start + 1)

end Verilower
