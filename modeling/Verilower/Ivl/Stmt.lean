import Verilower.Ivl.Expr
import Verilower.Ivl.Writer

namespace Verilower.Ivl

inductive Stmt where
  | assign (target : Ident) (value : Expr)
  | assert (formula : Expr)
  | assume (formula : Expr)
  | havoc (targets : List Ident)
  | label (name : String)
  | goto (labels : List String)
  /-- An empty second branch is written as a one-armed conditional. -/
  | ite (condition : Expr) (thenBranch elseBranch : List Stmt)
  | call (procedure : String) (args : List Expr) (outs : List Ident)
  | ret
deriving Inhabited

mutual

def Stmt.same : Stmt → Stmt → Bool
  | .assign x e, .assign x' e' => decide (x = x') && decide (e = e')
  | .assert e, .assert e' => decide (e = e')
  | .assume e, .assume e' => decide (e = e')
  | .havoc xs, .havoc xs' => decide (xs = xs')
  | .label l, .label l' => decide (l = l')
  | .goto ls, .goto ls' => decide (ls = ls')
  | .ite c t e, .ite c' t' e' => decide (c = c') && Stmt.sameAll t t' && Stmt.sameAll e e'
  | .call p as xs, .call p' as' xs' => decide (p = p') && decide (as = as') && decide (xs = xs')
  | .ret, .ret => true
  | _, _ => false

def Stmt.sameAll : List Stmt → List Stmt → Bool
  | [], [] => true
  | a :: as, b :: bs => a.same b && Stmt.sameAll as bs
  | _, _ => false

end

mutual

theorem Stmt.same_iff : ∀ a b : Stmt, a.same b = true ↔ a = b
  | .assign _ _, b | .assert _, b | .assume _, b | .havoc _, b | .label _, b | .goto _, b
  | .call _ _ _, b | .ret, b => by cases b <;> simp [Stmt.same, and_assoc]
  | .ite c t e, b => by
    cases b <;> simp [Stmt.same, Stmt.sameAll_iff t, Stmt.sameAll_iff e, and_assoc]

theorem Stmt.sameAll_iff : ∀ as bs : List Stmt, Stmt.sameAll as bs = true ↔ as = bs
  | [], bs => by cases bs <;> simp [Stmt.sameAll]
  | a :: as, bs => by cases bs <;> simp [Stmt.sameAll, Stmt.same_iff a, Stmt.sameAll_iff as]

end

instance : DecidableEq Stmt := fun a b => decidable_of_iff _ (Stmt.same_iff a b)

def Stmt.jump (label : String) : Stmt := .goto [label]

def Stmt.when (condition : Expr) (body : List Stmt) : Stmt := .ite condition body []

/-- The expressions of a statement itself, without those of the statements inside it. -/
def Stmt.expressions : Stmt → List Expr
  | .assign _ value => [value]
  | .assert formula | .assume formula => [formula]
  | .ite condition _ _ => [condition]
  | .call _ args _ => args
  | .havoc _ | .label _ | .goto _ | .ret => []

mutual

/-- How many statements there are, nested ones included. -/
def Stmt.count : Stmt → Nat
  | .ite _ thenBranch elseBranch => Stmt.countAll thenBranch + Stmt.countAll elseBranch + 1
  | _ => 1

def Stmt.countAll : List Stmt → Nat
  | [] => 0
  | s :: rest => s.count + Stmt.countAll rest

end

theorem Stmt.countAll_append (as bs : List Stmt) :
    Stmt.countAll (as ++ bs) = Stmt.countAll as + Stmt.countAll bs := by
  induction as with
  | nil => simp [Stmt.countAll]
  | cons a as ih => simp [Stmt.countAll, ih, Nat.add_assoc]

theorem Stmt.countAll_reverse (as : List Stmt) : Stmt.countAll as.reverse = Stmt.countAll as := by
  induction as with
  | nil => rfl
  | cons a as ih =>
    simp only [List.reverse_cons, Stmt.countAll_append, Stmt.countAll, ih]
    omega

/-- A stack with what a statement contains pushed onto it, the first branch last, so that the
statement to visit first is on top. -/
def Stmt.pushInner : Stmt → Array Stmt → Array Stmt
  | .ite _ thenBranch elseBranch, stack => stack ++ elseBranch.reverse ++ thenBranch.reverse
  | _, stack => stack

theorem Stmt.countAll_pushInner (s : Stmt) (stack : Array Stmt) :
    Stmt.countAll (s.pushInner stack).toList < Stmt.countAll (stack.push s).toList := by
  cases s with
  | ite c a b =>
    simp only [Stmt.pushInner, Array.toList_appendList, Array.toList_push, Stmt.countAll_append,
      Stmt.countAll_reverse, Stmt.countAll, Stmt.count]
    omega
  | _ => simp [Stmt.pushInner, Stmt.countAll_append, Stmt.countAll, Stmt.count]

/-- A position in a walk through statements: those still to visit, the next one on top. -/
structure Cursor where
  stack : Array Stmt

/-- The next statement of the walk; what it contains is visited right after it. -/
def Cursor.next? (c : Cursor) : Option (Stmt × Cursor) :=
  match c.stack.back? with
  | none => none
  | some s => some (s, ⟨s.pushInner c.stack.pop⟩)

theorem Cursor.next?_push (stack : Array Stmt) (s : Stmt) :
    Cursor.next? ⟨stack.push s⟩ = some (s, ⟨s.pushInner stack⟩) := by
  simp [Cursor.next?]

theorem Cursor.next?_eq_some {c c' : Cursor} {s : Stmt} (h : c.next? = some (s, c')) :
    ∃ stack : Array Stmt, c = ⟨stack.push s⟩ ∧ c' = ⟨s.pushInner stack⟩ := by
  obtain ⟨stack⟩ := c
  cases hback : stack.back? with
  | none => simp [Cursor.next?, hback] at h
  | some top =>
    obtain ⟨rest, rfl⟩ := Array.back?_eq_some_iff.1 hback
    rw [Cursor.next?_push] at h
    cases h
    exact ⟨rest, rfl, rfl⟩

/-- Everything that is left of a walk. -/
def Cursor.toList (c : Cursor) : List Stmt :=
  match _next : c.next? with
  | none => []
  | some (s, c') => s :: c'.toList
termination_by Stmt.countAll c.stack.toList
decreasing_by
  obtain ⟨stack, rfl, rfl⟩ := Cursor.next?_eq_some _next
  exact Stmt.countAll_pushInner s stack

/-- A walk through a statement and all that it contains. -/
def Stmt.cursor (s : Stmt) : Cursor := ⟨#[s]⟩

/-- A statement and all that it contains, outer statements first. -/
def Stmt.nested (s : Stmt) : List Stmt := s.cursor.toList

mutual

def Stmt.write : Stmt → Writer → Writer
  | .assign target value, w => w.line (target.name ++ " := " ++ value.render ++ ";")
  | .assert formula, w => w.line ("assert " ++ formula.renderTop ++ ";")
  | .assume formula, w => w.line ("assume " ++ formula.renderTop ++ ";")
  | .havoc targets, w => w.line ("havoc " ++ ", ".intercalate (targets.map Ident.name) ++ ";")
  | .label name, w => w.line (name ++ ":")
  | .goto labels, w => w.line ("goto " ++ ", ".intercalate labels ++ ";")
  | .ite condition thenBranch elseBranch, w =>
    let w := w.line ("if (" ++ condition.renderTop ++ ") \x7b")
    let w := (Stmt.writeAll thenBranch w.indent).dedent
    let w :=
      if elseBranch.isEmpty then w
      else (Stmt.writeAll elseBranch (w.line "\x7d else \x7b").indent).dedent
    w.line "\x7d"
  | .call procedure args outs, w =>
    let arguments := "(" ++ ", ".intercalate (Expr.renderAll args) ++ ");"
    if outs.isEmpty then w.line ("call " ++ procedure ++ arguments)
    else w.line
      ("call " ++ ", ".intercalate (outs.map Ident.name) ++ " := " ++ procedure ++ arguments)
  | .ret, w => w.line "return;"

def Stmt.writeAll : List Stmt → Writer → Writer
  | [], w => w
  | s :: rest, w => Stmt.writeAll rest (s.write w)

end

/-- Writes statements one step deeper than the current depth. -/
def Writer.block (w : Writer) (body : List Stmt) : Writer := (Stmt.writeAll body w.indent).dedent

/-- Statements as text, without a line feed at the end. -/
def Stmt.renderAll (body : List Stmt) : String := (Stmt.writeAll body {}).finish

def Stmt.render (s : Stmt) : String := Stmt.renderAll [s]

end Verilower.Ivl
