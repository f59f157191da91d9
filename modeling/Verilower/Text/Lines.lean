namespace Verilower.Text

/-- The pieces of a character list between occurrences of `sep`. -/
def splitOn (sep : Char) : List Char → List (List Char)
  | [] => [[]]
  | c :: cs =>
    match splitOn sep cs with
    | [] => [[c]]
    | piece :: pieces => if c = sep then [] :: piece :: pieces else (c :: piece) :: pieces

theorem splitOn_ne_nil (sep : Char) (cs : List Char) : splitOn sep cs ≠ [] := by
  cases cs with
  | nil => simp [splitOn]
  | cons c cs => rw [splitOn]; split <;> (try split) <;> simp

/-- The lines of a text; a line feed ends a line and starts the next. -/
def lines (s : String) : List String := (splitOn '\n' s.toList).map String.ofList

/-- A text from its lines, without a line feed at the end. -/
def unlines (ls : List String) : String := "\n".intercalate ls

/-- `depth` steps of four blanks. -/
def margin (depth : Nat) : String := String.ofList (List.replicate (4 * depth) ' ')

/-- A line moved right by `depth` steps; an empty line stays empty. -/
def indentLine (depth : Nat) (line : String) : String :=
  if line.isEmpty then "" else margin depth ++ line

end Verilower.Text
