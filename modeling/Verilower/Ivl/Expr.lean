import Verilower.Fault

namespace Verilower.Ivl

/-- A typed name; two identifiers are the same only if names and types agree. -/
structure Ident where
  name : String
  ty : Ty
deriving DecidableEq, Inhabited

/-- `name: type`, as parameter lists and variable declarations write it. -/
def Ident.typed (x : Ident) : String := x.name ++ ": " ++ x.ty.render

inductive BinOp where
  | eq | neq | lt | le | gt | ge
  | add | sub | mul
  /-- Integer division. -/
  | div
  | mod
  | realDiv
  | and | or | implies
  | subtype
deriving DecidableEq, Inhabited

/-- Whether the operator yields a truth value whatever its operands are. -/
def BinOp.isBoolean : BinOp → Bool
  | .add | .sub | .mul | .div | .mod | .realDiv => false
  | _ => true

def BinOp.symbol : BinOp → String
  | .eq => "=="
  | .neq => "!="
  | .lt => "<"
  | .le => "<="
  | .gt => ">"
  | .ge => ">="
  | .add => "+"
  | .sub => "-"
  | .mul => "*"
  | .div => "div"
  | .mod => "mod"
  | .realDiv => "/"
  | .and => "&&"
  | .or => "||"
  | .implies => "==>"
  | .subtype => "<:"

inductive UnOp where
  | not
  | neg
deriving DecidableEq, Inhabited

def UnOp.symbol : UnOp → String
  | .not => "!"
  | .neg => "-"

inductive Expr where
  | ident (x : Ident)
  | bool (value : Bool)
  | int (value : Int)
  /-- A decimal literal, kept as its text. -/
  | real (text : String)
  | binary (op : BinOp) (lhs rhs : Expr)
  | unary (op : UnOp) (arg : Expr)
  | select (map : Expr) (indices : List Expr)
  | store (map : Expr) (indices : List Expr) (value : Expr)
  | apply (function : String) (args : List Expr) (result : Ty)
deriving Inhabited

def Ident.expr (x : Ident) : Expr := .ident x

def Expr.eq (lhs rhs : Expr) : Expr := .binary .eq lhs rhs

def Expr.neq (lhs rhs : Expr) : Expr := .binary .neq lhs rhs

def Expr.and (lhs rhs : Expr) : Expr := .binary .and lhs rhs

def Expr.or (lhs rhs : Expr) : Expr := .binary .or lhs rhs

def Expr.subtype (lhs rhs : Expr) : Expr := .binary .subtype lhs rhs

def Expr.not (arg : Expr) : Expr := .unary .not arg

mutual

def Expr.same : Expr → Expr → Bool
  | .ident x, .ident y => decide (x = y)
  | .bool a, .bool b => decide (a = b)
  | .int a, .int b => decide (a = b)
  | .real a, .real b => decide (a = b)
  | .binary op l r, .binary op' l' r' => decide (op = op') && l.same l' && r.same r'
  | .unary op e, .unary op' e' => decide (op = op') && e.same e'
  | .select m is, .select m' is' => m.same m' && Expr.sameAll is is'
  | .store m is v, .store m' is' v' => m.same m' && Expr.sameAll is is' && v.same v'
  | .apply f as t, .apply f' as' t' => decide (f = f') && Expr.sameAll as as' && decide (t = t')
  | _, _ => false

def Expr.sameAll : List Expr → List Expr → Bool
  | [], [] => true
  | a :: as, b :: bs => a.same b && Expr.sameAll as bs
  | _, _ => false

end

mutual

theorem Expr.same_iff : ∀ a b : Expr, a.same b = true ↔ a = b
  | .ident _, b | .bool _, b | .int _, b | .real _, b => by cases b <;> simp [Expr.same]
  | .binary op l r, b => by
    cases b <;> simp [Expr.same, Expr.same_iff l, Expr.same_iff r, and_assoc]
  | .unary op e, b => by cases b <;> simp [Expr.same, Expr.same_iff e]
  | .select m is, b => by cases b <;> simp [Expr.same, Expr.same_iff m, Expr.sameAll_iff is]
  | .store m is v, b => by
    cases b <;> simp [Expr.same, Expr.same_iff m, Expr.sameAll_iff is, Expr.same_iff v, and_assoc]
  | .apply f as t, b => by cases b <;> simp [Expr.same, Expr.sameAll_iff as, and_assoc]

theorem Expr.sameAll_iff : ∀ as bs : List Expr, Expr.sameAll as bs = true ↔ as = bs
  | [], bs => by cases bs <;> simp [Expr.sameAll]
  | a :: as, bs => by cases bs <;> simp [Expr.sameAll, Expr.same_iff a, Expr.sameAll_iff as]

end

instance : DecidableEq Expr := fun a b => decidable_of_iff _ (Expr.same_iff a b)

mutual

/-- The type of an expression, read off its outermost operator and leftmost operands. -/
def Expr.ty : Expr → Except Fault Ty
  | .ident x => .ok x.ty
  | .bool _ => .ok .bool
  | .int _ => .ok .int
  | .real _ => .ok .real
  | .binary op lhs _ =>
    if op = .realDiv then .ok .real else if op.isBoolean then .ok .bool else lhs.ty
  | .unary .not _ => .ok .bool
  | .unary .neg arg => arg.ty
  | .select map indices => do
    match ← map.ty with
    | .map _ range => return range
    | .heap =>
      match ← Expr.secondTy indices with
      | some (.field value) => return value
      | found => throw (.nonFieldIndex found)
    | found => throw (.nonMapIndexed found)
  | .store map _ _ => map.ty
  | .apply _ _ result => .ok result

/-- The type of the second expression of a list, if there is one. -/
def Expr.secondTy : List Expr → Except Fault (Option Ty)
  | _ :: second :: _ => do return some (← second.ty)
  | _ => .ok none

end

abbrev Subst := Ident → Option Expr

/-- The substitution listed by `pairs`, where a later pair for an identifier replaces an earlier. -/
def Subst.ofPairs (pairs : List (Ident × Expr)) : Subst := fun x =>
  pairs.foldl (fun found pair => if pair.1 = x then some pair.2 else found) none

mutual

def Expr.substitute (σ : Subst) : Expr → Expr
  | .ident x => (σ x).getD (.ident x)
  | .bool value => .bool value
  | .int value => .int value
  | .real text => .real text
  | .binary op lhs rhs => .binary op (lhs.substitute σ) (rhs.substitute σ)
  | .unary op arg => .unary op (arg.substitute σ)
  | .select map indices => .select (map.substitute σ) (Expr.substituteAll σ indices)
  | .store map indices value =>
    .store (map.substitute σ) (Expr.substituteAll σ indices) (value.substitute σ)
  | .apply function args result => .apply function (Expr.substituteAll σ args) result

def Expr.substituteAll (σ : Subst) : List Expr → List Expr
  | [] => []
  | e :: es => e.substitute σ :: Expr.substituteAll σ es

end

mutual

/-- The text of an expression; every binary operation stands in parentheses. -/
def Expr.render : Expr → String
  | .ident x => x.name
  | .bool value => if value then "true" else "false"
  | .int value => toString value
  | .real text => text
  | .binary op lhs rhs => "(" ++ lhs.render ++ " " ++ op.symbol ++ " " ++ rhs.render ++ ")"
  | .unary op arg => op.symbol ++ arg.render
  | .select map indices => map.render ++ "[" ++ ", ".intercalate (Expr.renderAll indices) ++ "]"
  | .store map indices value =>
    map.render ++ "[" ++ ", ".intercalate (Expr.renderAll indices) ++ " := " ++ value.render ++ "]"
  | .apply function args _ => function ++ "(" ++ ", ".intercalate (Expr.renderAll args) ++ ")"

def Expr.renderAll : List Expr → List String
  | [] => []
  | e :: es => e.render :: Expr.renderAll es

end

/-- The text of an expression without the outermost parentheses of a binary operation. -/
def Expr.renderTop : Expr → String
  | .binary op lhs rhs => lhs.render ++ " " ++ op.symbol ++ " " ++ rhs.render
  | e => e.render

end Verilower.Ivl
