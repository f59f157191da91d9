import Verilower.Ask
import Verilower.Bytecode.Body
import Verilower.Encoding

namespace Verilower

open Ivl (Ident Expr Stmt)

/-- What stays the same while a body is lowered. -/
structure Frame where
  program : Program
  prelude : Prelude
  body : Body
  method : Method
  signature : Signature

/-- One step of the lowering of a body. -/
inductive Command : Type → Type 1 where
  | frame : Command Frame
  /-- The variable of a source local. -/
  | slot (index : Nat) : Command Ident
  /-- A new local variable. -/
  | fresh (ty : Ivl.Ty) : Command Ident
  /-- A new global variable. -/
  | freshGlobal (ty : Ivl.Ty) : Command Ident
  /-- The locals bound to the receiver, which need no check before they are dereferenced. -/
  | receivers : Command (List Nat)
  | bindReceiver (index : Nat) : Command Unit
  | signature (id : MethodId) : Command Signature
  | request {α : Type} (q : Request α) : Command α
  | emit (s : Stmt) : Command Unit
  | oblige (o : Obligation) : Command Unit

/-- The lowering of a piece of code, as the tree of its steps. -/
inductive Lower : Type → Type 1 where
  | pure {α : Type} (a : α) : Lower α
  | fail {α : Type} (e : Failure) : Lower α
  | protected step {α β : Type} (c : Command β) (k : β → Lower α) : Lower α
  /-- Puts what the body writes under a condition, which is lowered after it. -/
  | protected branch {α : Type} (body : Lower Unit) (condition : Lower Expr) (k : Lower α) : Lower α
  /-- Sets the refusal of a part in a context. -/
  | protected scope {α β : Type} (context : Refusal → Refusal) (x : Lower β) (k : β → Lower α) : Lower α

/-- What changes while a body is lowered. -/
structure Workspace where
  registry : Registry
  pool : LocalPool
  receivers : List Nat := []
  out : Array Stmt := #[]

/-- A step takes identifiers from the registry and the local variables, and writes statements; an
obligation is encoded at once. -/
def Command.run {α : Type} (F : Frame) (enc : Encoding) (w : Workspace) :
    Command α → Except Failure α × Workspace
  | frame => (.ok F, w)
  | slot index => ((w.pool.slot index).mapError .refused, w)
  | fresh ty =>
    let (pool, x) := w.pool.fresh ty
    (.ok x, { w with pool })
  | freshGlobal ty =>
    let (x, registry) := w.registry.freshGlobal ty
    (.ok x, { w with registry })
  | receivers => (.ok w.receivers, w)
  | bindReceiver index => (.ok (), { w with receivers := index :: w.receivers })
  | signature id =>
    let (found, registry) := w.registry.signature F.program F.prelude id
    (found, { w with registry })
  | request q =>
    let (found, registry) := q.run F.program w.registry
    (found, { w with registry })
  | emit s => (.ok (), { w with out := w.out.push s })
  | oblige o =>
    let (code, pool) := enc.report w.pool o
    (.ok (), { w with pool, out := w.out ++ code })

namespace Lower

variable {α β : Type}

/-- Lowers a piece of code. What a branch writes is kept apart until its condition is there. -/
def run (F : Frame) (enc : Encoding) {α : Type} :
    Lower α → Workspace → Except Failure α × Workspace
  | pure a, w => (.ok a, w)
  | fail e, w => (.error e, w)
  | .step c k, w =>
    match c.run F enc w with
    | (.error e, w) => (.error e, w)
    | (.ok b, w) => (k b).run F enc w
  | .branch body condition k, w =>
    match body.run F enc { w with out := #[] } with
    | (.error e, inner) => (.error e, { inner with out := w.out })
    | (.ok _, inner) =>
      match condition.run F enc { inner with out := w.out } with
      | (.error e, w) => (.error e, w)
      | (.ok c, w) => k.run F enc { w with out := w.out.push (.when c inner.out.toList) }
  | .scope context x k, w =>
    match x.run F enc w with
    | (.error e, w) => (.error (e.within context), w)
    | (.ok b, w) => (k b).run F enc w

def bind : Lower α → (α → Lower β) → Lower β
  | pure a, f => f a
  | fail e, _ => fail e
  | .step c k, f => .step c fun b => (k b).bind f
  | .branch body condition k, f => .branch body condition (k.bind f)
  | .scope context x k, f => .scope context x fun b => (k b).bind f

instance : Monad Lower where
  pure := pure
  bind := bind

def ofExcept : Except Failure α → Lower α
  | .ok a => pure a
  | .error e => fail e

def promise (x : Except Fault α) : Lower α := ofExcept (x.mapError .fault)

def decision (x : Except Refusal α) : Lower α := ofExcept (x.mapError .refused)

def refuse (cause : Refusal) : Lower α := fail (.refused cause)

def command (c : Command α) : Lower α := .step c pure

def request (q : Request α) : Lower α := command (.request q)

def frame : Lower Frame := command .frame

def emit (s : Stmt) : Lower Unit := command (.emit s)

def oblige (o : Obligation) : Lower Unit := command (.oblige o)

def obligeAll : List Obligation → Lower Unit
  | [] => return ()
  | o :: os => do
    oblige o
    obligeAll os

def when (body : Lower Unit) (condition : Lower Expr) : Lower Unit :=
  .branch body condition (pure ())

/-- The same computation with its refusal set in a context. -/
def within (context : Refusal → Refusal) (x : Lower α) : Lower α := .scope context x pure

def slot (index : Nat) : Lower Ident := command (.slot index)

def fresh (ty : Ivl.Ty) : Lower Ident := command (.fresh ty)

def freshGlobal (ty : Ivl.Ty) : Lower Ident := command (.freshGlobal ty)

def receivers : Lower (List Nat) := command .receivers

def bindReceiver (index : Nat) : Lower Unit := command (.bindReceiver index)

def tag (ty : Ty) : Lower Expr := do return (← request (.tag ty)).expr

def field (id : FieldId) : Lower Ident := request (.field id)

def label (node : Nat) : Lower String := do request (.label (← frame).body.method node)

def signature (id : MethodId) : Lower Signature := command (.signature id)

def diagnose (severity : Severity) (node : Nat) (message : String) : Lower Unit := do
  request (.diagnose ⟨severity, (← frame).body.locOf node, message⟩)

def log (level : Level) (message : String) : Lower Unit := request (.log ⟨level, message⟩)

/-- The full name of the method whose body is lowered. -/
def methodName : Lower String := do
  let { program, method, .. } ← frame
  return program.methodName method

def typeOf (e : Expr) : Lower Ivl.Ty := promise e.ty

def coerce (e : Expr) (target : Ivl.Ty) : Lower Expr := do
  let source ← typeOf e
  match Prelude.convert source target e with
  | some e => return e
  | none => refuse (.noConversion source target)

def enforcePostconditions : Lower Unit := do
  obligeAll ((← frame).signature.procedure.postconditions.map .postcondition)

def leave : Lower Unit := do
  enforcePostconditions
  emit .ret

end Lower

end Verilower
