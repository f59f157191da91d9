namespace Verilower.Settings

def isBlank (c : Char) : Bool := c = ' ' || c = '\t'

/-- Whether a comment or a text may hold the character as it is; line ends and other controls are
excluded. -/
def isPlain (c : Char) : Bool := c = '\t' || (' ' ≤ c && c ≠ '\x7f')

def skipBlanks (cs : List Char) : List Char := cs.dropWhile isBlank

def newline? : List Char → Option (List Char)
  | '\n' :: cs => some cs
  | '\r' :: '\n' :: cs => some cs
  | _ => none

def skipComment : List Char → List Char
  | '#' :: cs => cs.dropWhile isPlain
  | cs => cs

/-- What follows the rest of a line that holds nothing more than a comment. -/
def lineEnd? (cs : List Char) : Option (List Char) :=
  match skipComment (skipBlanks cs) with
  | [] => some []
  | cs => newline? cs

def hexDigit? (c : Char) : Option Nat :=
  if '0' ≤ c && c ≤ '9' then some (c.toNat - '0'.toNat)
  else if 'a' ≤ c && c ≤ 'f' then some (c.toNat - 'a'.toNat + 10)
  else if 'A' ≤ c && c ≤ 'F' then some (c.toNat - 'A'.toNat + 10)
  else none

/-- The character with the code point that the digits spell; surrogates are no characters. -/
def codePoint? (digits : List Char) : Option Char := do
  let n ← digits.foldlM (fun n c => do return 16 * n + (← hexDigit? c)) 0
  if Nat.isValidChar n then some (Char.ofNat n) else none

def shortEscape? : Char → Option Char
  | 'b' => some '\x08'
  | 't' => some '\t'
  | 'n' => some '\n'
  | 'f' => some '\x0c'
  | 'r' => some '\r'
  | '"' => some '"'
  | '\\' => some '\\'
  | _ => none

/-- The character whose code point the first `count` characters spell. -/
def digitsEscape? (count : Nat) (cs : List Char) : Option (Char × List Char) :=
  if count ≤ cs.length then (codePoint? (cs.take count)).map fun c => (c, cs.drop count) else none

/-- The character of an escape, after its backslash. -/
def escape? : List Char → Option (Char × List Char)
  | 'u' :: cs => digitsEscape? 4 cs
  | 'U' :: cs => digitsEscape? 8 cs
  | c :: cs => (shortEscape? c).map fun c => (c, cs)
  | [] => none

theorem digitsEscape?_length {count : Nat} {cs rest : List Char} {c : Char}
    (h : digitsEscape? count cs = some (c, rest)) : rest.length ≤ cs.length := by
  unfold digitsEscape? at h
  split at h
  · obtain ⟨_, _, h⟩ := Option.map_eq_some_iff.1 h
    obtain ⟨_, rfl⟩ := Prod.mk.inj h
    rw [List.length_drop]
    omega
  · exact absurd h (by simp)

theorem escape?_length {cs rest : List Char} {c : Char} (h : escape? cs = some (c, rest)) :
    rest.length < cs.length := by
  unfold escape? at h
  split at h
  · exact Nat.lt_succ_of_le (digitsEscape?_length h)
  · exact Nat.lt_succ_of_le (digitsEscape?_length h)
  · obtain ⟨_, _, h⟩ := Option.map_eq_some_iff.1 h
    obtain ⟨_, rfl⟩ := Prod.mk.inj h
    exact Nat.lt_succ_self _
  · exact absurd h (by simp)

def basic? (cs : List Char) : Option (List Char × List Char) :=
  match cs with
  | [] => none
  | '"' :: cs => some ([], cs)
  | '\\' :: cs =>
    match _h : escape? cs with
    | none => none
    | some (c, rest) => do
      let (text, rest) ← basic? rest
      return (c :: text, rest)
  | c :: cs =>
    if isPlain c then do
      let (text, rest) ← basic? cs
      return (c :: text, rest)
    else none
termination_by cs.length
decreasing_by
  · have := escape?_length _h; simp; omega
  · simp

def literal? : List Char → Option (List Char × List Char)
  | [] => none
  | '\'' :: cs => some ([], cs)
  | c :: cs =>
    if isPlain c then do
      let (text, rest) ← literal? cs
      return (c :: text, rest)
    else none

/-- The end of a text of several lines: three closing marks, with up to two more before them that
belong to the text. -/
def closing? (mark : Char) (cs : List Char) : Option (List Char × List Char) :=
  let marks := min 5 (cs.takeWhile (· = mark)).length
  if 3 ≤ marks then some (List.replicate (marks - 3) mark, cs.drop marks) else none

/-- Whether a backslash stands at the end of its line, where it joins the lines. -/
def joinsLines (cs : List Char) : Bool := (newline? (skipBlanks cs)).isSome

def skipGap : List Char → List Char
  | '\n' :: cs => skipGap cs
  | '\r' :: '\n' :: cs => skipGap cs
  | c :: cs => if isBlank c then skipGap cs else c :: cs
  | [] => []

/-- A text of several lines with escapes, after its opening marks; `fuel` bounds its length. Line
ends are kept as line feeds. -/
def longBasic? : (fuel : Nat) → List Char → Option (List Char × List Char)
  | 0, _ => none
  | fuel + 1, cs =>
    match closing? '"' cs with
    | some found => some found
    | none =>
      match cs with
      | '\\' :: cs =>
        if joinsLines cs then longBasic? fuel (skipGap cs)
        else do
          let (c, cs) ← escape? cs
          let (text, rest) ← longBasic? fuel cs
          return (c :: text, rest)
      | c :: cs =>
        match newline? (c :: cs) with
        | some cs => do
          let (text, rest) ← longBasic? fuel cs
          return ('\n' :: text, rest)
        | none =>
          if isPlain c then do
            let (text, rest) ← longBasic? fuel cs
            return (c :: text, rest)
          else none
      | [] => none

/-- A text of several lines without escapes, after its opening marks. -/
def longLiteral? : (fuel : Nat) → List Char → Option (List Char × List Char)
  | 0, _ => none
  | fuel + 1, cs =>
    match closing? '\'' cs with
    | some found => some found
    | none =>
      match newline? cs, cs with
      | some cs, _ => do
        let (text, rest) ← longLiteral? fuel cs
        return ('\n' :: text, rest)
      | none, c :: cs =>
        if isPlain c then do
          let (text, rest) ← longLiteral? fuel cs
          return (c :: text, rest)
        else none
      | none, [] => none

def dropNewline (cs : List Char) : List Char := (newline? cs).getD cs

/-- A text in any of the four kinds of quotes. A line end right after three marks is dropped. -/
def text? : List Char → Option (String × List Char)
  | '"' :: '"' :: '"' :: cs => do
    let (text, rest) ← longBasic? (cs.length + 1) (dropNewline cs)
    return (String.ofList text, rest)
  | '\'' :: '\'' :: '\'' :: cs => do
    let (text, rest) ← longLiteral? (cs.length + 1) (dropNewline cs)
    return (String.ofList text, rest)
  | '"' :: cs => do
    let (text, rest) ← basic? cs
    return (String.ofList text, rest)
  | '\'' :: cs => do
    let (text, rest) ← literal? cs
    return (String.ofList text, rest)
  | _ => none

end Verilower.Settings
