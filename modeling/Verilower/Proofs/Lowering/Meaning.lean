import Verilower.Proofs.Journal
import Verilower.Proofs.Lowering.Encoding

namespace Verilower
set_option autoImplicit true

open Ivl (Ident Expr Stmt Implementation)

/-- What changes from node to node. -/
structure Scratch where
  pool : LocalPool
  /-- Locals bound to the receiver. -/
  receivers : List Nat := []
  /-- The number of global variables that exist. -/
  globals : Nat

/-- A value with the state and the outlines that came with it. -/
structure Emitted (α : Type) where
  value : α
  scratch : Scratch
  code : List Outline

def Emitted.after (r : Emitted α) (earlier : List Outline) : Emitted α :=
  { r with code := earlier ++ r.code }

def Trace.andThen (t : Trace (Emitted α)) (f : α → Scratch → Trace (Emitted β)) :
    Trace (Emitted β) := do
  let r ← t
  let r' ← f r.value r.scratch
  return r'.after r.code

theorem Trace.pure_andThen {f : α → Scratch → Trace (Emitted β)} :
    Trace.andThen (Pure.pure ⟨a, s, []⟩) f = f a s := by
  simp [andThen, Emitted.after]

theorem Trace.andThen_pure {t : Trace (Emitted α)} :
    (t.andThen fun a s => Pure.pure ⟨a, s, []⟩) = t := by
  simp [andThen, Emitted.after]

theorem Trace.andThen_assoc {t : Trace (Emitted α)} {f : α → Scratch → Trace (Emitted β)}
    {g : β → Scratch → Trace (Emitted γ)} :
    (t.andThen f).andThen g = t.andThen fun a s => (f a s).andThen g := by
  simp [andThen, Emitted.after]

/-- A step as it is without the registry: identifiers are those that the program gives, global
variables are numbered by the state, and obligations are not encoded yet. -/
def Command.trace (F : Frame) (s : Scratch) : Command α → Trace (Emitted α)
  | frame => return ⟨F, s, []⟩
  | slot index => return ⟨← Trace.decision (s.pool.slot index), s, []⟩
  | fresh ty => return ⟨(s.pool.fresh ty).2, { s with pool := (s.pool.fresh ty).1 }, []⟩
  | freshGlobal ty => do
    return ⟨← Trace.freshGlobal s.globals ty, { s with globals := s.globals + 1 }, []⟩
  | receivers => return ⟨s.receivers, s, []⟩
  | bindReceiver index => return ⟨(), { s with receivers := index :: s.receivers }, []⟩
  | signature id => return ⟨← Trace.signature F.program F.prelude id, s, []⟩
  | request q => return ⟨← q.trace F.program, s, []⟩
  | emit st => return ⟨(), s, [.plain st]⟩
  | oblige o => return ⟨(), s, [.oblige o]⟩

namespace Lower

/-- What a branch writes is put under the condition. -/
def branched (body : Trace (Emitted Unit)) (condition : Scratch → Trace (Emitted Expr)) :
    Trace (Emitted Unit) := do
  let r ← body
  let c ← condition r.scratch
  return ⟨(), c.scratch, c.code ++ [.when c.value r.code]⟩

/-- The lowering as it is without the registry and without an encoding of obligations. -/
def trace {α : Type} : Lower α → Frame → Scratch → Trace (Emitted α)
  | pure a, _, s => return ⟨a, s, []⟩
  | fail e, _, _ => Trace.fail e
  | .step c k, F, s => (c.trace F s).andThen fun b s => (k b).trace F s
  | .branch body condition k, F, s =>
    (branched (body.trace F s) (condition.trace F)).andThen fun _ s => k.trace F s
  | .scope context x k, F, s => ((x.trace F s).within context).andThen fun b s => (k b).trace F s

instance : CoeFun (Lower α) fun _ => Frame → Scratch → Trace (Emitted α) := ⟨trace⟩

theorem bind_apply {x : Lower α} {f : α → Lower β} {F : Frame} {s : Scratch} :
    (x >>= f) F s = (x F s).andThen fun a s => f a F s := by
  show (x.bind f) F s = _
  induction x generalizing s with
  | pure => exact Trace.pure_andThen.symm
  | fail => rfl
  | step _ _ ih | branch _ _ _ _ _ ih | scope _ _ _ _ ih =>
    simp only [bind, trace, Trace.andThen_assoc]
    simp only [ih]

theorem pure_apply {a : α} : (Pure.pure a : Lower α) F s = Pure.pure ⟨a, s, []⟩ := rfl

theorem command_apply {c : Command α} : (command c) F s = c.trace F s := Trace.andThen_pure

theorem within_apply {x : Lower α} : (within context x) F s = (x F s).within context :=
  Trace.andThen_pure

theorem when_apply {body : Lower Unit} {condition : Lower Expr} :
    (when body condition) F s = branched (body F s) (condition F) := Trace.andThen_pure

/-- The outlines of the nodes in order, one list per node. -/
def segments : List (Node × Nat) → Frame → Scratch → Trace (Emitted (List (List Outline)))
  | [], _, s => return ⟨[], s, []⟩
  | (n, id) :: rest, F, s => do
    let context := Refusal.atNode (F.program.methodName F.method) id (F.program.describe n.loc)
    let r ← ((node id n) F s).within context
    let r' ← segments rest F r.scratch
    return ⟨r.code :: r'.value, r'.scratch, []⟩

theorem nodes_apply {l : List (Node × Nat)} : (Lower.nodes l) F s = do
    let r ← segments l F s
    return ⟨(), r.scratch, r.value.flatten⟩ := by
  induction l generalizing s with
  | nil => rfl
  | cons head rest ih =>
    obtain ⟨n, id⟩ := head
    simp [Lower.nodes, segments, bind_apply, pure_apply, within_apply, methodName, frame,
      command_apply, Command.trace, Trace.andThen, Emitted.after, ih]

end Lower

/-- A lowered body whose obligations are not encoded yet. -/
structure Lowered where
  signature : Signature
  pool : LocalPool
  /-- One list of outlines per node. -/
  segments : List (List Outline)

/-- The lowering of a body after `globals` global variables; nothing else of what happened before
matters. -/
def lowerBody (program : Program) (prelude : Prelude) (globals : Nat) (body : Body) :
    Trace Lowered := do
  let method ← Trace.promise (program.method? body.method)
  let name := program.methodName method
  let signature ← Trace.signature program prelude body.method
  let pool ← (Trace.decision (LocalPool.ofSlots body.slots)).within (.inSlots name)
  Trace.emit (.log ⟨.debug, "translating body of `" ++ name ++ "`"⟩)
  let frame : Frame := { program, prelude, body, method, signature }
  let r ← Lower.segments body.nodes.zipIdx frame { pool, globals }
  return { signature, pool := r.scratch.pool, segments := r.value }

namespace Lowered

def encoding (l : Lowered) (options : Options) : Encoding := l.signature.encoding options

def usesFlag (l : Lowered) (options : Options) : Bool :=
  l.segments.any (l.encoding options).raisesAny

def prologue (l : Lowered) (options : Options) : List Stmt :=
  l.signature.prologue (l.usesFlag options)

def implementation (l : Lowered) (options : Options) : Implementation where
  procedure := l.signature.procedure
  locals := { l.pool with flagged := l.usesFlag options }.declarations
  body := l.prologue options ++ l.segments.flatMap (l.encoding options).encodeAll

end Lowered

end Verilower
