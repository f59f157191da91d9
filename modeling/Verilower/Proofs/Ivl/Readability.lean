import Verilower.Proofs.LocalNames

namespace Verilower.Ivl
set_option autoImplicit true

/-- An identifier that is no word of the language. -/
structure IsName (name : String) : Prop extends IsIdentifier name where
  notReserved : name ∉ ["true", "false", "div", "mod"]

theorem isName_iff : IsName name ↔ name ≠ "" ∧ name.toList.all isIdentChar = true ∧
    name.toList.head?.all (fun c => !c.isDigit) = true ∧
    ["true", "false", "div", "mod"].contains name = false := by
  constructor
  · intro h
    refine ⟨h.nonempty, List.all_eq_true.2 h.chars, ?_, by simpa using h.notReserved⟩
    simpa [Option.all_eq_true] using h.start
  · rintro ⟨hne, hchars, hstart, hres⟩
    refine ⟨⟨hne, List.all_eq_true.1 hchars, ?_⟩, by simpa using hres⟩
    simpa [Option.all_eq_true] using hstart

instance (name : String) : Decidable (IsName name) := decidable_of_iff _ isName_iff.symm

theorem IsName.toList_ne_nil (h : IsName name) : name.toList ≠ [] := by
  simpa using h.nonempty

/-- Digits with a point between them. -/
def IsUnsignedDecimal (cs : List Char) : Prop :=
  ∃ whole fraction : List Char, whole ≠ [] ∧ fraction ≠ [] ∧
    (∀ c ∈ whole ++ fraction, c.isDigit = true) ∧ cs = whole ++ '.' :: fraction

/-- Digits with a point between them, behind a minus sign or without one. -/
def IsDecimal (text : String) : Prop :=
  IsUnsignedDecimal text.toList ∨ ∃ cs, text.toList = '-' :: cs ∧ IsUnsignedDecimal cs

theorem isIdentChar_of_isDigit (h : c.isDigit = true) : isIdentChar c = true := by
  simp [isIdentChar, Char.isAlphanum, h]

theorem IsUnsignedDecimal.ne_nil (h : IsUnsignedDecimal word) : word ≠ [] := by
  obtain ⟨whole, fraction, -, -, -, rfl⟩ := h
  simp

theorem IsUnsignedDecimal.isIdentChar (h : IsUnsignedDecimal word) (hc : c ∈ word) :
    isIdentChar c = true := by
  obtain ⟨whole, fraction, -, -, hdigits, rfl⟩ := h
  simp only [List.mem_append, List.mem_cons] at hc hdigits
  rcases hc with hc | rfl | hc
  · exact isIdentChar_of_isDigit (hdigits c (.inl hc))
  · decide
  · exact isIdentChar_of_isDigit (hdigits c (.inr hc))

namespace Expr

/-- Whether indices can be put behind the text of the expression. -/
def isLocation : Expr → Bool
  | .ident _ | .select _ _ | .store _ _ _ => true
  | _ => false

mutual

/-- Names and literals are those of the language, and only locations are indexed. -/
def Legible : Expr → Prop
  | .ident x => IsName x.name
  | .bool _ | .int _ => True
  | .real text => IsDecimal text
  | .binary _ lhs rhs => lhs.Legible ∧ rhs.Legible
  | .unary _ arg => arg.Legible
  | .select map indices => map.isLocation = true ∧ map.Legible ∧ AllLegible indices
  | .store map indices value =>
    map.isLocation = true ∧ map.Legible ∧ AllLegible indices ∧ value.Legible
  | .apply function args _ => IsName function ∧ AllLegible args

def AllLegible : List Expr → Prop
  | [] => True
  | e :: es => e.Legible ∧ AllLegible es

end

mutual

/-- The expression with all types made alike and negative literals written as negations. -/
def bare : Expr → Expr
  | .ident x => .ident ⟨x.name, .int⟩
  | .bool value => .bool value
  | .int (.ofNat n) => .int n
  | .int (.negSucc n) => .unary .neg (.int (n + 1))
  | .real text =>
    match text.toList with
    | '-' :: cs => .unary .neg (.real (String.ofList cs))
    | _ => .real text
  | .binary op lhs rhs => .binary op lhs.bare rhs.bare
  | .unary op arg => .unary op arg.bare
  | .select map indices => .select map.bare (bareAll indices)
  | .store map indices value => .store map.bare (bareAll indices) value.bare
  | .apply function args _ => .apply function (bareAll args) .int

def bareAll : List Expr → List Expr
  | [] => []
  | e :: es => e.bare :: bareAll es

end

theorem bare_minus (h : text.toList = '-' :: cs) :
    (Expr.real text).bare = .unary .neg (.real (String.ofList cs)) := by
  simp [bare, h]

theorem bare_decimal (h : IsUnsignedDecimal text.toList) : (Expr.real text).bare = .real text := by
  rw [bare]
  split
  · next hminus => exact absurd (h.isIdentChar (hminus ▸ List.mem_cons_self)) (by decide)
  · rfl

theorem minus_append (h : text.toList = '-' :: cs) : "-" ++ String.ofList cs = text := by
  rw [← String.toList_inj]
  simp [h]

mutual

theorem render_bare : ∀ e : Expr, e.bare.render = e.render
  | .ident _ | .bool _ | .int (.ofNat _) | .int (.negSucc _) => rfl
  | .real text => by
    rw [bare]
    split
    · next htext => exact minus_append htext
    · rfl
  | .binary _ lhs rhs => by simp only [bare, render, lhs.render_bare, rhs.render_bare]
  | .unary _ arg => by simp only [bare, render, arg.render_bare]
  | .select map indices => by
    simp only [bare, render, map.render_bare, renderAll_bareAll indices]
  | .store map indices value => by
    simp only [bare, render, map.render_bare, value.render_bare, renderAll_bareAll indices]
  | .apply _ args _ => by simp only [bare, render, renderAll_bareAll args]

theorem renderAll_bareAll : ∀ es : List Expr, renderAll (bareAll es) = renderAll es
  | [] => rfl
  | e :: es => by simp only [bareAll, renderAll, e.render_bare, renderAll_bareAll es]

end

theorem renderTop_bare (e : Expr) : e.bare.renderTop = e.renderTop := by
  cases e with
  | binary op lhs rhs => simp only [bare, renderTop, render_bare]
  | int value => cases value <;> rfl
  | real text =>
    rw [bare]
    split
    · next htext => exact minus_append htext
    · rfl
  | _ => exact render_bare _

theorem binary_or_renderTop (e : Expr) :
    (∃ op lhs rhs, e = .binary op lhs rhs) ∨ e.renderTop = e.render := by
  cases e with
  | binary op lhs rhs => exact .inl ⟨op, lhs, rhs, rfl⟩
  | _ => exact .inr rfl

theorem render_binary :
    (binary op lhs rhs).render = "(" ++ (binary op lhs rhs).renderTop ++ ")" := by
  simp only [render, renderTop, String.append_assoc]

def chars (e : Expr) : List Char := e.render.toList

def following (es : List Expr) : List Char := es.flatMap fun e => ',' :: ' ' :: e.chars

def listed : List Expr → List Char
  | [] => []
  | e :: es => e.chars ++ following es

theorem following_cons : following (e :: es) = ',' :: ' ' :: (e.chars ++ following es) := rfl

theorem intercalate_renderAll (es : List Expr) :
    [',', ' '].intercalate ((renderAll es).map String.toList) = listed es := by
  induction es with
  | nil => rfl
  | cons e es ih =>
    cases es with
    | nil => simp [renderAll, listed, following, chars]
    | cons e' es =>
      simp only [renderAll, List.map_cons, List.intercalate_cons_cons] at ih ⊢
      rw [ih]
      simp [listed, following, chars]

theorem chars_nat (n : Nat) : (Expr.int n).chars = Nat.toDigits 10 n :=
  Nat.toList_repr

theorem chars_negSucc (n : Nat) :
    (Expr.int (.negSucc n)).chars = '-' :: Nat.toDigits 10 (n + 1) := by
  have hrender : (Expr.int (.negSucc n)).chars = ("-" ++ Nat.repr (n + 1)).toList := rfl
  rw [hrender, String.toList_append, Nat.toList_repr]
  rfl

theorem chars_binary : (binary op lhs rhs).chars =
    '(' :: (lhs.chars ++ ' ' :: (op.symbol.toList ++ ' ' :: (rhs.chars ++ [')']))) := by
  simp [chars, render]

theorem chars_unary : (unary op arg).chars = op.symbol.toList ++ arg.chars := by
  simp [chars, render]

theorem chars_select :
    (select map indices).chars = map.chars ++ '[' :: (listed indices ++ [']']) := by
  simp [chars, render, intercalate_renderAll]

theorem chars_store : (store map indices value).chars =
    map.chars ++ '[' :: (listed indices ++ ' ' :: ':' :: '=' :: ' ' :: (value.chars ++ [']'])) := by
  simp [chars, render, intercalate_renderAll]

theorem chars_apply : (apply function args result).chars =
    function.toList ++ '(' :: (listed args ++ [')']) := by
  simp [chars, render, intercalate_renderAll]

end Expr

def BinOp.ofSymbol? (symbol : List Char) : Option BinOp :=
  [.eq, .neq, .lt, .le, .gt, .ge, .add, .sub, .mul, .div, .mod, .realDiv, .and, .or, .implies,
    .subtype].find? fun op => op.symbol.toList = symbol

theorem BinOp.ofSymbol?_symbol (op : BinOp) : BinOp.ofSymbol? op.symbol.toList = some op := by
  cases op <;> decide

theorem BinOp.blank_notMem_symbol (op : BinOp) : ' ' ∉ op.symbol.toList := by
  cases op <;> decide

theorem UnOp.length_symbol (op : UnOp) : op.symbol.toList.length = 1 := by
  cases op <;> rfl

namespace Reader

/-- What a word stands for that has no arguments behind it. -/
def ofWord (word : List Char) : Expr :=
  if (word.head?.map Char.isDigit).getD false then
    if word.contains '.' then .real (String.ofList word) else .int (Nat.ofDigitChars 10 word 0)
  else if word = "true".toList then .bool true
  else if word = "false".toList then .bool false
  else .ident ⟨String.ofList word, .int⟩

def symbol : List Char → Option (BinOp × List Char)
  | ' ' :: cs =>
    match cs.dropWhile (· ≠ ' ') with
    | ' ' :: rest => (BinOp.ofSymbol? (cs.takeWhile (· ≠ ' '))).map fun op => (op, rest)
    | _ => none
  | _ => none

mutual

/-- Reads an expression at the front of a text. All calls but the one in `items` are for a shorter
text, so more than twice its length is fuel enough. -/
@[simp]
def expr : Nat → List Char → Option (Expr × List Char)
  | 0, _ => none
  | n + 1, '(' :: cs => do
    let (lhs, cs) ← expr n cs
    let (op, cs) ← symbol cs
    let (rhs, cs) ← expr n cs
    match cs with
    | ')' :: cs => return (.binary op lhs rhs, cs)
    | _ => none
  | n + 1, '!' :: cs => do
    let (arg, cs) ← expr n cs
    return (.unary .not arg, cs)
  | n + 1, '-' :: cs => do
    let (arg, cs) ← expr n cs
    return (.unary .neg arg, cs)
  | n + 1, cs =>
    match cs.takeWhile isIdentChar, cs.dropWhile isIdentChar with
    | [], _ => none
    | word, '(' :: cs => do
      let (args, cs) ← items n cs
      match cs with
      | ')' :: cs => return (.apply (String.ofList word) args .int, cs)
      | _ => none
    | word, cs => brackets n (ofWord word) cs

def brackets : Nat → Expr → List Char → Option (Expr × List Char)
  | n + 1, map, '[' :: cs => do
    let (indices, cs) ← items n cs
    match cs with
    | ']' :: cs => brackets n (.select map indices) cs
    | ' ' :: ':' :: '=' :: ' ' :: cs =>
      let (value, cs) ← expr n cs
      match cs with
      | ']' :: cs => brackets n (.store map indices value) cs
      | _ => none
    | _ => none
  | _, map, cs => some (map, cs)

def items : Nat → List Char → Option (List Expr × List Char)
  | 0, _ => none
  | n + 1, cs =>
    match expr n cs with
    | none => some ([], cs)
    | some (e, cs) => do
      let (es, cs) ← more n cs
      return (e :: es, cs)

def more : Nat → List Char → Option (List Expr × List Char)
  | n + 1, ',' :: ' ' :: cs => do
    let (e, cs) ← expr n cs
    let (es, cs) ← more n cs
    return (e :: es, cs)
  | _, cs => some ([], cs)

end

/-- The expression at the front of a text, without types, and the rest of the text. -/
def read? (text : List Char) : Option (Expr × List Char) := expr (2 * text.length + 1) text

/-- Texts that do not continue a word, nor make it the name of a function. -/
structure EndsWord (rest : List Char) : Prop where
  notIdent : ∀ c ∈ rest.head?, isIdentChar c = false
  notCall : rest.head? ≠ some '('

theorem EndsWord.bracket : EndsWord ('[' :: cs) := ⟨by simp; decide, by simp⟩

/-- Texts that do not continue an expression. -/
structure Stops (rest : List Char) : Prop extends EndsWord rest where
  notIndex : rest.head? ≠ some '['

inductive EndsList : Char → Prop
  | blank : EndsList ' '
  | paren : EndsList ')'
  | bracket : EndsList ']'

theorem Stops.nil : Stops [] := ⟨⟨by simp, by simp⟩, by simp⟩

theorem Stops.comma : Stops (',' :: cs) := ⟨⟨by simp; decide, by simp⟩, by simp⟩

theorem EndsList.stops (h : EndsList c) : Stops (c :: cs) := by
  cases h <;> exact ⟨⟨by simp; decide, by simp⟩, by simp⟩

theorem EndsList.stops_following (hc : EndsList c) :
    Stops (Expr.following es ++ c :: rest) := by
  cases es with
  | nil => exact hc.stops
  | cons e es => exact .comma

theorem takeWhile_dropWhile {p : Char → Bool} {word rest : List Char}
    (hword : ∀ c ∈ word, p c = true) (hrest : ∀ c ∈ rest.head?, p c = false) :
    (word ++ rest).takeWhile p = word ∧ (word ++ rest).dropWhile p = rest := by
  rw [List.takeWhile_append_of_pos hword, List.dropWhile_append_of_pos hword]
  cases rest with
  | nil => simp
  | cons c cs => simp [hrest c rfl]

theorem symbol_blanks (op : BinOp) (cs : List Char) :
    symbol (' ' :: (op.symbol.toList ++ ' ' :: cs)) = some (op, cs) := by
  have hne : ∀ c ∈ op.symbol.toList, decide (c ≠ ' ') = true := fun c hc =>
    decide_eq_true fun h => op.blank_notMem_symbol (h ▸ hc)
  have hblank : ∀ c ∈ (' ' :: cs).head?, decide (c ≠ ' ') = false := by simp
  obtain ⟨htake, hdrop⟩ := takeWhile_dropWhile hne hblank
  simp only [symbol, htake, hdrop, BinOp.ofSymbol?_symbol, Option.map_some]

theorem expr_binary (hl : expr n cs = some (lhs, ' ' :: (op.symbol.toList ++ ' ' :: text)))
    (hr : expr n text = some (rhs, ')' :: rest)) :
    expr (n + 1) ('(' :: cs) = some (.binary op lhs rhs, rest) := by
  rw [expr, hl]
  simp only [Option.bind_eq_bind, Option.bind_some, symbol_blanks, hr]
  rfl

theorem expr_unary (h : expr n cs = some (arg, rest)) :
    expr (n + 1) (op.symbol.toList ++ cs) = some (.unary op arg, rest) := by
  cases op <;> simp [UnOp.symbol, h]

theorem brackets_select (h : items n cs = some (indices, ']' :: rest)) :
    brackets (n + 1) map ('[' :: cs) = brackets n (.select map indices) rest := by
  rw [brackets, h]
  rfl

theorem brackets_store (h : items n cs = some (indices, ' ' :: ':' :: '=' :: ' ' :: text))
    (hv : expr n text = some (value, ']' :: rest)) :
    brackets (n + 1) map ('[' :: cs) = brackets n (.store map indices value) rest := by
  rw [brackets, h]
  simp only [Option.bind_eq_bind, Option.bind_some, hv]

section Words

variable {word rest : List Char}

theorem expr_of_isIdentChar (h : isIdentChar c = true) :
    expr (n + 1) (c :: cs) =
      match (c :: cs).takeWhile isIdentChar, (c :: cs).dropWhile isIdentChar with
      | [], _ => none
      | word, '(' :: cs => do
        let (args, cs) ← items n cs
        match cs with
        | ')' :: cs => return (.apply (String.ofList word) args .int, cs)
        | _ => none
      | word, cs => brackets n (ofWord word) cs := by
  rw [expr]
  all_goals
    rintro cs' ⟨⟩
    exact absurd h (by decide)

theorem expr_word (hne : word ≠ []) (hword : ∀ c ∈ word, isIdentChar c = true)
    (hrest : EndsWord rest) : expr (n + 1) (word ++ rest) = brackets n (ofWord word) rest := by
  obtain ⟨c, cs, rfl⟩ := List.exists_cons_of_ne_nil hne
  obtain ⟨htake, hdrop⟩ := takeWhile_dropWhile hword hrest.notIdent
  rw [List.cons_append] at hdrop htake ⊢
  rw [expr_of_isIdentChar (hword c List.mem_cons_self), hdrop, htake]
  split
  · contradiction
  · exact absurd rfl hrest.notCall
  · rfl

theorem expr_call (hne : word ≠ []) (hword : ∀ c ∈ word, isIdentChar c = true)
    (hitems : items n text = some (args, ')' :: rest)) :
    expr (n + 1) (word ++ '(' :: text) = some (.apply (String.ofList word) args .int, rest) := by
  obtain ⟨c, cs, rfl⟩ := List.exists_cons_of_ne_nil hne
  have hcall : ∀ c ∈ ('(' :: text).head?, isIdentChar c = false := by simp; decide
  obtain ⟨htake, hdrop⟩ := takeWhile_dropWhile hword hcall
  rw [List.cons_append] at hdrop htake ⊢
  rw [expr_of_isIdentChar (hword c List.mem_cons_self), hdrop, htake]
  simp [hitems]

theorem expr_eq_none (h : EndsList c) : expr n (c :: cs) = none := by
  cases n with
  | zero => rw [expr]
  | succ n => cases h <;> simp [List.takeWhile, isIdentChar]

theorem brackets_of_stops (h : Stops rest) : brackets n e rest = some (e, rest) := by
  unfold brackets
  split
  · exact absurd rfl h.notIndex
  · rfl

theorem ofWord_name (h : IsName name) : ofWord name.toList = .ident ⟨name, .int⟩ := by
  obtain ⟨c, cs, hcs⟩ := List.exists_cons_of_ne_nil h.toList_ne_nil
  have hstart : c.isDigit = false := h.start c (by rw [hcs]; rfl)
  have htrue : name.toList ≠ "true".toList := fun heq =>
    h.notReserved (by simp [String.toList_injective heq])
  have hfalse : name.toList ≠ "false".toList := fun heq =>
    h.notReserved (by simp [String.toList_injective heq])
  rw [ofWord, if_neg, if_neg htrue, if_neg hfalse, String.ofList_toList]
  simp [hcs, hstart]

theorem ofWord_digits (hne : word ≠ []) (hdigits : ∀ c ∈ word, c.isDigit = true) :
    ofWord word = .int (Nat.ofDigitChars 10 word 0) := by
  obtain ⟨c, cs, rfl⟩ := List.exists_cons_of_ne_nil hne
  have hpoint : '.' ∉ c :: cs := fun hmem => absurd (hdigits _ hmem) (by decide)
  rw [ofWord, if_pos, if_neg]
  · simpa using hpoint
  · simp [hdigits c List.mem_cons_self]

theorem ofWord_decimal (h : IsUnsignedDecimal word) :
    ofWord word = .real (String.ofList word) := by
  obtain ⟨whole, fraction, hwhole, -, hdigits, rfl⟩ := h
  obtain ⟨c, cs, rfl⟩ := List.exists_cons_of_ne_nil hwhole
  rw [ofWord, if_pos, if_pos]
  · simp
  · simp [hdigits c (by simp)]

end Words

end Reader

open Reader Ivl.Expr

/-- The reader gives the expression back, whatever stands behind its text. -/
def Readable (e : Expr) : Prop :=
  ∀ ⦃rest n⦄, Stops rest → 2 * (e.chars ++ rest).length < n →
    expr n (e.chars ++ rest) = some (e.bare, rest)

/-- The reader comes to what stands behind the text of the expression with the expression read, also
if that is a bracket. -/
def Indexable (e : Expr) : Prop :=
  ∀ ⦃rest n⦄, EndsWord rest → 2 * (e.chars ++ rest).length < n →
    ∃ m, 2 * rest.length < m ∧ expr n (e.chars ++ rest) = brackets m e.bare rest

def TailReadable (es : List Expr) : Prop :=
  ∀ ⦃c rest n⦄, EndsList c → 2 * (following es ++ c :: rest).length < n →
    more n (following es ++ c :: rest) = some (bareAll es, c :: rest)

def ListReadable (es : List Expr) : Prop :=
  ∀ ⦃c rest n⦄, EndsList c → 2 * (listed es ++ c :: rest).length + 1 < n →
    items n (listed es ++ c :: rest) = some (bareAll es, c :: rest)

theorem Indexable.readable (h : Indexable e) : Readable e := by
  intro rest n hrest hn
  obtain ⟨m, -, hread⟩ := h hrest.toEndsWord hn
  rw [hread, brackets_of_stops hrest]

theorem Indexable.of_word (hne : e.chars ≠ []) (hchars : ∀ c ∈ e.chars, isIdentChar c = true)
    (hword : ofWord e.chars = e.bare) : Indexable e := by
  intro rest n hrest hn
  obtain ⟨m, rfl⟩ : ∃ m, n = m + 1 := ⟨n - 1, by omega⟩
  have hpos := List.length_pos_iff.2 hne
  rw [List.length_append] at hn
  exact ⟨m, by omega, by rw [expr_word hne hchars hrest, hword]⟩

theorem Indexable.ident (h : IsName x.name) : Indexable (.ident x) :=
  .of_word h.toList_ne_nil h.chars (ofWord_name h)

theorem Indexable.select (h : Indexable map) (hs : ListReadable indices) :
    Indexable (.select map indices) := by
  intro rest n hrest hn
  simp only [chars_select, List.cons_append, List.append_assoc, List.nil_append, List.length_append,
    List.length_cons] at hn ⊢
  obtain ⟨m, hm, hread⟩ := @h ('[' :: (listed indices ++ ']' :: rest)) n .bracket (by simp; omega)
  obtain ⟨m, rfl⟩ : ∃ k, m = k + 1 := ⟨m - 1, by omega⟩
  simp only [List.length_cons, List.length_append] at hm
  have hitems := @hs ']' rest m .bracket (by simp; omega)
  exact ⟨m, by omega, by rw [hread, brackets_select hitems, bare]⟩

theorem Indexable.store (h : Indexable map) (hs : ListReadable indices) (hv : Readable value) :
    Indexable (.store map indices value) := by
  intro rest n hrest hn
  simp only [chars_store, List.cons_append, List.append_assoc, List.nil_append, List.length_append,
    List.length_cons] at hn ⊢
  obtain ⟨m, hm, hread⟩ := @h
    ('[' :: (listed indices ++ ' ' :: ':' :: '=' :: ' ' :: (value.chars ++ ']' :: rest))) n .bracket
    (by simp; omega)
  obtain ⟨m, rfl⟩ : ∃ k, m = k + 1 := ⟨m - 1, by omega⟩
  simp only [List.length_cons, List.length_append] at hm
  have hitems := @hs ' ' (':' :: '=' :: ' ' :: (value.chars ++ ']' :: rest)) m .blank
    (by simp; omega)
  have hvalue := @hv (']' :: rest) m EndsList.bracket.stops (by simp; omega)
  exact ⟨m, by omega, by rw [hread, brackets_store hitems hvalue, bare]⟩

namespace Readable

theorem binary (hl : Readable lhs) (hr : Readable rhs) : Readable (.binary op lhs rhs) := by
  intro rest n hrest hn
  obtain ⟨m, rfl⟩ : ∃ m, n = m + 1 := ⟨n - 1, by omega⟩
  simp only [chars_binary, List.cons_append, List.append_assoc, List.nil_append, List.length_append,
    List.length_cons] at hn ⊢
  have hlhs := @hl (' ' :: (op.symbol.toList ++ ' ' :: (rhs.chars ++ ')' :: rest))) m
    EndsList.blank.stops (by simp; omega)
  have hrhs := @hr (')' :: rest) m EndsList.paren.stops (by simp; omega)
  rw [expr_binary hlhs hrhs, bare]

/-- An operator in front of what can be read. Negative literals are of this kind too. -/
theorem of_unary {e arg : Expr} (h : Readable arg)
    (hchars : e.chars = op.symbol.toList ++ arg.chars) (hbare : e.bare = .unary op arg.bare) :
    Readable e := by
  intro rest n hrest hn
  obtain ⟨m, rfl⟩ : ∃ m, n = m + 1 := ⟨n - 1, by omega⟩
  rw [hchars, List.append_assoc] at hn ⊢
  rw [List.length_append, op.length_symbol] at hn
  have harg := @h rest m hrest (by omega)
  rw [expr_unary harg, hbare]

theorem apply (hname : IsName function) (hs : ListReadable args) :
    Readable (.apply function args result) := by
  intro rest n hrest hn
  obtain ⟨m, rfl⟩ : ∃ m, n = m + 1 := ⟨n - 1, by omega⟩
  simp only [chars_apply, List.cons_append, List.append_assoc, List.nil_append, List.length_append,
    List.length_cons] at hn ⊢
  have hitems := @hs ')' rest m .paren (by simp; omega)
  rw [expr_call hname.toList_ne_nil hname.chars hitems, String.ofList_toList, bare]

theorem bool : Readable (.bool value) := by
  apply Indexable.readable
  cases value <;> exact .of_word (by decide) (List.all_eq_true.1 (by decide)) (by decide)

theorem nat (n : Nat) : Readable (.int n) := by
  have hdigits : ∀ c ∈ (Expr.int n).chars, c.isDigit = true := fun c hc =>
    Nat.isDigit_of_mem_toDigits (by decide) (by decide) (chars_nat n ▸ hc)
  have hne : (Expr.int n).chars ≠ [] := by
    rw [chars_nat]
    exact Nat.toDigits_ne_nil
  apply Indexable.readable
  refine .of_word hne (fun c hc => isIdentChar_of_isDigit (hdigits c hc)) ?_
  rw [ofWord_digits hne hdigits, chars_nat, Nat.ofDigitChars_ten_toDigits]
  rfl

theorem int (value : Int) : Readable (.int value) := by
  cases value with
  | ofNat n => exact .nat n
  | negSucc n =>
    refine (Readable.nat (n + 1)).of_unary ?_ rfl
    rw [chars_negSucc, chars_nat]
    rfl

theorem decimal (h : IsUnsignedDecimal text.toList) : Readable (.real text) := by
  have hword : ofWord text.toList = (Expr.real text).bare := by
    rw [ofWord_decimal h, bare_decimal h, String.ofList_toList]
  apply Indexable.readable
  exact .of_word h.ne_nil (fun _ hc => h.isIdentChar hc) hword

theorem real (h : IsDecimal text) : Readable (.real text) := by
  rcases h with h | ⟨cs, htext, h⟩
  · exact .decimal h
  · have harg : IsUnsignedDecimal (String.ofList cs).toList := by rwa [String.toList_ofList]
    have hbare : (Expr.real text).bare = .unary .neg (Expr.real (String.ofList cs)).bare := by
      rw [bare_minus htext, bare_decimal harg]
    refine (Readable.decimal harg).of_unary ?_ hbare
    rw [chars, render, chars, render, htext, String.toList_ofList]
    rfl

end Readable

theorem TailReadable.nil : TailReadable [] := by
  intro c rest n hc hn
  cases hc <;> simp [following, more, bareAll]

theorem TailReadable.cons (h : Readable e) (hs : TailReadable es) : TailReadable (e :: es) := by
  intro c rest n hc hn
  obtain ⟨m, rfl⟩ : ∃ m, n = m + 1 := ⟨n - 1, by omega⟩
  simp only [following_cons, List.cons_append, List.append_assoc, List.length_cons,
    List.length_append] at hn ⊢
  have he := @h (following es ++ c :: rest) m hc.stops_following (by simp; omega)
  have hes := @hs c rest m hc (by simp; omega)
  simp [more, he, hes, bareAll]

theorem ListReadable.nil : ListReadable [] := by
  intro c rest n hc hn
  obtain ⟨m, rfl⟩ : ∃ m, n = m + 1 := ⟨n - 1, by omega⟩
  simp [listed, items, expr_eq_none hc, bareAll]

theorem ListReadable.cons (h : Readable e) (hs : TailReadable es) : ListReadable (e :: es) := by
  intro c rest n hc hn
  obtain ⟨m, rfl⟩ : ∃ m, n = m + 1 := ⟨n - 1, by omega⟩
  simp only [listed, List.append_assoc, List.length_cons, List.length_append] at hn ⊢
  have he := @h (following es ++ c :: rest) m hc.stops_following (by simp; omega)
  have hes := @hs c rest m hc (by simp; omega)
  simp [items, he, hes, bareAll]

namespace Expr

mutual

theorem Legible.readable : ∀ {e : Expr}, e.Legible → Readable e
  | .ident _, h => (Indexable.ident h).readable
  | .bool _, _ => .bool
  | .int value, _ => .int value
  | .real _, h => .real h
  | .binary _ _ _, h => .binary h.1.readable h.2.readable
  | .unary _ arg, h =>
    have harg : Readable arg := Legible.readable h
    harg.of_unary chars_unary rfl
  -- `Readable map` does not help here: a bracket follows the map, and the reader does not stop there
  | .select _ _, ⟨hmap, h, hs⟩ => ((h.indexable hmap).select hs.readable).readable
  | .store _ _ _, ⟨hmap, h, hs, hv⟩ =>
    ((h.indexable hmap).store hs.readable hv.readable).readable
  | .apply _ _ _, h => .apply h.1 h.2.readable

theorem Legible.indexable : ∀ {e : Expr}, e.Legible → e.isLocation = true → Indexable e
  | .ident _, h, _ => .ident h
  | .select _ _, ⟨hmap, h, hs⟩, _ => (h.indexable hmap).select hs.readable
  | .store _ _ _, ⟨hmap, h, hs, hv⟩, _ => (h.indexable hmap).store hs.readable hv.readable

theorem AllLegible.tail : ∀ {es : List Expr}, AllLegible es → TailReadable es
  | [], _ => .nil
  | _ :: _, h => .cons h.1.readable h.2.tail

theorem AllLegible.readable : ∀ {es : List Expr}, AllLegible es → ListReadable es
  | [], _ => .nil
  | _ :: _, h => .cons h.1.readable h.2.tail

end

section Unique

variable {a b e : Expr}

theorem Legible.read?_append (h : e.Legible) (hrest : Stops rest) :
    read? (e.chars ++ rest) = some (e.bare, rest) :=
  h.readable hrest (Nat.lt_succ_self _)

theorem Legible.read?_chars (h : e.Legible) : read? e.chars = some (e.bare, []) := by
  simpa using h.read?_append .nil

theorem Legible.bare_eq_of_render_eq (ha : a.Legible) (hb : b.Legible)
    (h : a.render = b.render) : a.bare = b.bare := by
  have hchars : a.chars = b.chars := congrArg String.toList h
  have hread := ha.read?_chars
  rw [hchars, hb.read?_chars] at hread
  simpa using hread.symm

/-- Without its parentheses a binary operation is not the text of one expression: the reader stops
behind the left operand. -/
theorem Legible.renderTop_binary_ne (ha : (binary op lhs rhs).Legible) (hb : b.Legible) :
    (binary op lhs rhs).renderTop ≠ b.render := by
  intro h
  have hchars : lhs.chars ++ ' ' :: (op.symbol.toList ++ ' ' :: rhs.chars) = b.chars := by
    simpa [renderTop, chars] using congrArg String.toList h
  have hstops : Stops (' ' :: (op.symbol.toList ++ ' ' :: rhs.chars)) := EndsList.blank.stops
  have hread := ha.1.read?_append hstops
  rw [hchars, hb.read?_chars] at hread
  simp at hread

theorem Legible.bare_eq_of_renderTop_eq (ha : a.Legible) (hb : b.Legible)
    (h : a.renderTop = b.renderTop) : a.bare = b.bare := by
  rcases a.binary_or_renderTop with ⟨op, l, r, rfl⟩ | ha' <;>
    rcases b.binary_or_renderTop with ⟨op', l', r', rfl⟩ | hb'
  · exact ha.bare_eq_of_render_eq hb (by rw [render_binary, render_binary, h])
  · exact absurd (h.trans hb') (ha.renderTop_binary_ne hb)
  · exact absurd (h.symm.trans ha') (hb.renderTop_binary_ne ha)
  · exact ha.bare_eq_of_render_eq hb (by rw [← ha', ← hb', h])

/-- Expressions have the same text exactly if they are the same without types and signed literals,
and the same holds of the texts without the outermost parentheses. -/
theorem render_eq_iff_bare_eq (ha : a.Legible) (hb : b.Legible) :
    (a.render = b.render ↔ a.bare = b.bare) ∧ (a.renderTop = b.renderTop ↔ a.bare = b.bare) := by
  refine ⟨⟨ha.bare_eq_of_render_eq hb, fun h => ?_⟩, ⟨ha.bare_eq_of_renderTop_eq hb, fun h => ?_⟩⟩
  · rw [← a.render_bare, h, b.render_bare]
  · rw [← a.renderTop_bare, h, b.renderTop_bare]

end Unique

/-- The expression `m.$0[-5 := -0.50][(1 - f^'(x, true))]`. -/
def tableRead : Expr :=
  .select (.store (.ident ⟨"m.$0", .map [.int] .real⟩) [.int (-5)] (.real "-0.50"))
    [.binary .sub (.int 1) (.apply "f^'" [.ident ⟨"x", .ref⟩, .bool true] .int)]

/-- An expression with the same text, of other types and with the minus signs as operators. -/
def tableReread : Expr :=
  .select (.store (.ident ⟨"m.$0", .map [.bool] .real⟩) [.unary .neg (.int 5)]
      (.unary .neg (.real "0.50")))
    [.binary .sub (.int 1) (.apply "f^'" [.ident ⟨"x", .bool⟩, .bool true] .real)]

theorem half_isUnsignedDecimal : IsUnsignedDecimal ['0', '.', '5', '0'] :=
  ⟨['0'], ['5', '0'], by decide, by decide, List.all_eq_true.1 (by decide), rfl⟩

theorem tableRead_legible : tableRead.Legible := by
  have hmap : IsName "m.$0" := by decide
  have hcall : IsName "f^'" ∧ IsName "x" := by decide
  have hvalue : IsDecimal "-0.50" := .inr ⟨_, by decide, half_isUnsignedDecimal⟩
  exact ⟨rfl, ⟨rfl, hmap, ⟨trivial, trivial⟩, hvalue⟩,
    ⟨trivial, hcall.1, hcall.2, trivial, trivial⟩, trivial⟩

theorem tableReread_legible : tableReread.Legible := by
  have hmap : IsName "m.$0" := by decide
  have hcall : IsName "f^'" ∧ IsName "x" := by decide
  have hvalue : IsDecimal "0.50" := .inl half_isUnsignedDecimal
  exact ⟨rfl, ⟨rfl, hmap, ⟨trivial, trivial⟩, hvalue⟩,
    ⟨trivial, hcall.1, hcall.2, trivial, trivial⟩, trivial⟩

theorem render_eq_iff_bare_eq_table : tableRead.Legible ∧ tableReread.Legible ∧
    tableRead ≠ tableReread ∧ tableRead.render = tableReread.render ∧
    tableRead.renderTop = tableReread.renderTop := by
  have hbare : tableRead.bare = tableReread.bare := by decide
  obtain ⟨hrender, htop⟩ := render_eq_iff_bare_eq tableRead_legible tableReread_legible
  exact ⟨tableRead_legible, tableReread_legible, by decide, hrender.2 hbare, htop.2 hbare⟩

end Expr

end Verilower.Ivl
