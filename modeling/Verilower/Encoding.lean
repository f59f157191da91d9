import Verilower.Locals
import Verilower.Prelude

namespace Verilower

open Ivl (Ident Expr Stmt)

namespace Obligation

/-- Dereferencing `e` is allowed. -/
def nonNull (e : Expr) : Obligation := ⟨.nullPointer, some (Prelude.isNonNull e)⟩

def precondition (formula : Expr) : Obligation := ⟨.precondition, some formula⟩

def postcondition (formula : Expr) : Obligation := ⟨.postcondition, some formula⟩

end Obligation

/-- How obligations become statements: the error model, the exception slot of the procedure, and
whether index obligations are dropped. -/
structure Encoding where
  model : ErrorModel
  slot : Ident
  dropBounds : Bool := false

namespace Encoding

/-- Whether the obligation leaves no statement. -/
def drops (enc : Encoding) (o : Obligation) : Bool :=
  enc.dropBounds && o.violation = .arrayBounds

/-- What a violation does under the exception model. -/
def raise (enc : Encoding) (v : Violation) : List Stmt :=
  [.assign LocalPool.flag (.bool true), .assign enc.slot (Prelude.witness v).expr, .ret]

def obligation (enc : Encoding) (o : Obligation) : List Stmt :=
  if enc.drops o then [] else
  match enc.model, o.guard with
  | .exception, some guard => [.when (.not guard) (enc.raise o.violation)]
  | .exception, none => enc.raise o.violation
  | .assertion, some guard => [.assert guard]
  | .assertion, none => [.ret]

/-- Whether the statements of an obligation use the flag of exceptional returns. -/
def flags (enc : Encoding) (o : Obligation) : Bool := enc.model = .exception && !enc.drops o

/-- Encodes one obligation and declares the flag if it is used. -/
def report (enc : Encoding) (pool : LocalPool) (o : Obligation) : List Stmt × LocalPool :=
  (enc.obligation o, { pool with flagged := pool.flagged || enc.flags o })

end Encoding

end Verilower
