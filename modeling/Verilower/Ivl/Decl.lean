import Verilower.Ivl.Stmt

namespace Verilower.Ivl

inductive Contract where
  | requires
  | ensures
deriving DecidableEq, Inhabited

/-- A contract of a procedure; a free one is assumed and never checked. -/
structure Clause where
  contract : Contract
  free : Bool := false
  formula : Expr
deriving Inhabited

def Clause.render (c : Clause) : String :=
  (if c.free then "free " else "") ++
  (match c.contract with | .requires => "requires " | .ensures => "ensures ") ++
  c.formula.renderTop ++ ";"

/-- A procedure's signature with its contracts. -/
structure Procedure where
  name : String
  ins : List Ident := []
  outs : List Ident := []
  /-- Global variables that the procedure and what it calls may assign. -/
  modifies : List Ident := []
  clauses : List Clause := []
deriving Inhabited

/-- The formulas of the contracts of one kind that are not free. -/
def Procedure.checked (p : Procedure) (contract : Contract) : List Expr :=
  (p.clauses.filter fun c => c.contract = contract && !c.free).map Clause.formula

/-- What a caller has to establish. -/
def Procedure.preconditions (p : Procedure) : List Expr := p.checked .requires

/-- What the implementation has to establish before it returns. -/
def Procedure.postconditions (p : Procedure) : List Expr := p.checked .ensures

def Procedure.header (p : Procedure) : String :=
  let list (xs : List Ident) := "(" ++ ", ".intercalate (xs.map Ident.typed) ++ ")"
  p.name ++ list p.ins ++ (if p.outs.isEmpty then "" else " returns " ++ list p.outs)

def Procedure.write (p : Procedure) (w : Writer) : Writer :=
  let w := (w.line ("procedure " ++ p.header ++ ";")).indent
  let w :=
    if p.modifies.isEmpty then w
    else w.line ("modifies " ++ ", ".intercalate (p.modifies.map Ident.name) ++ ";")
  (p.clauses.foldl (fun w c => w.line c.render) w).dedent

def Procedure.render (p : Procedure) : String := (p.write {}).finish

structure Implementation where
  procedure : Procedure
  locals : List Ident := []
  body : List Stmt := []
deriving Inhabited

def Implementation.name (i : Implementation) : String := i.procedure.name

def Implementation.write (i : Implementation) (w : Writer) : Writer :=
  let w := ((w.line ("implementation " ++ i.procedure.header)).line "\x7b").indent
  let w := i.locals.foldl (fun w x => w.line ("var " ++ x.typed ++ ";")) w
  let w := (if i.locals.isEmpty then w else w.blank).dedent
  (w.block i.body).line "\x7d"

def Implementation.render (i : Implementation) : String := (i.write {}).finish

inductive Decl where
  | type (name : String) (params : List String)
  /-- A constant; `parents` are the constants directly above it in the tag order. -/
  | const (x : Ident) (unique : Bool) (parents : List String)
  | var (x : Ident)
  | function (name : String) (params : List Ty) (result : Ty)
  /-- A formula assumed throughout the program. -/
  | fact (formula : Expr)
  | procedure (p : Procedure)
  | implementation (i : Implementation)
deriving Inhabited

def Decl.write : Decl → Writer → Writer
  | .type name params, w => w.line ("type " ++ " ".intercalate (name :: params) ++ ";")
  | .const x unique parents, w =>
    w.line ("const " ++ (if unique then "unique " else "") ++ x.typed ++
      (if parents.isEmpty then "" else " extends " ++ ", ".intercalate parents) ++ ";")
  | .var x, w => w.line ("var " ++ x.typed ++ ";")
  | .function name params result, w =>
    w.line ("function " ++ name ++ "(" ++ ", ".intercalate (Ty.renderAll params) ++
      ") returns (" ++ result.render ++ ");")
  | .fact formula, w => w.line ("axiom " ++ formula.renderTop ++ ";")
  | .procedure p, w => p.write w.blank
  | .implementation i, w => i.write w.blank

structure Program where
  decls : List Decl := []
deriving Inhabited

def Program.procedures (p : Program) : List Procedure :=
  p.decls.filterMap fun | .procedure q => some q | _ => none

def Program.implementations (p : Program) : List Implementation :=
  p.decls.filterMap fun | .implementation i => some i | _ => none

def Program.findImplementation? (p : Program) (name : String) : Option Implementation :=
  p.implementations.find? fun i => i.name = name

/-- Declarations as text, without a line feed at the end. -/
def Decl.renderAll (decls : List Decl) : String :=
  (decls.foldl (fun w d => d.write w) ({} : Writer)).finish

def Program.render (p : Program) : String := Decl.renderAll p.decls

end Verilower.Ivl
