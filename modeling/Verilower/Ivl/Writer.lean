import Verilower.Text.Lines

namespace Verilower.Ivl

structure Writer where
  lines : Array String := #[]
  depth : Nat := 0
deriving Inhabited

namespace Writer

/-- Writes the lines of `text` at the current depth. -/
def line (w : Writer) (text : String) : Writer :=
  { w with lines := w.lines ++ ((Text.lines text).map (Text.indentLine w.depth)).toArray }

def blank (w : Writer) : Writer := { w with lines := w.lines.push "" }

def indent (w : Writer) : Writer := { w with depth := w.depth + 1 }

/-- One step to the left, or nothing at the margin. -/
def dedent (w : Writer) : Writer := { w with depth := w.depth - 1 }

/-- What has been written, without a line feed at the end. -/
def finish (w : Writer) : String := Text.unlines w.lines.toList

end Writer

end Verilower.Ivl
