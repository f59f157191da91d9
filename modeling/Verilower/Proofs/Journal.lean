import Verilower.Coherence

namespace Verilower
set_option autoImplicit true

/-- What a computation asks of the registry. -/
inductive Event where
  | tag (ty : Ty)
  | field (id : FieldId)
  | signature (id : MethodId)
  | label (method : MethodId) (node : Nat)
  /-- A new global variable is made. -/
  | global (x : Ivl.Ident)
  | diagnostic (d : Diagnostic)
  | log (r : Record)

/-- A journal of events and the result that was reached. The journal survives a failure, and it is
never read. -/
structure Trace (α : Type) where
  journal : List Event
  result : Except Failure α

namespace Trace

def pure (a : α) : Trace α := ⟨[], .ok a⟩

def after (x : Trace α) (earlier : List Event) : Trace α := ⟨earlier ++ x.journal, x.result⟩

/-- One trace after the other; a failure ends both. -/
def bind (x : Trace α) (f : α → Trace β) : Trace β :=
  match x.result with
  | .error e => ⟨x.journal, .error e⟩
  | .ok a => (f a).after x.journal

instance : Monad Trace where
  pure := pure
  bind := bind

instance : LawfulMonad Trace := .mk' Trace
  (fun ⟨j, x⟩ => by cases x <;> simp [Functor.map, bind, after, pure])
  (fun _ _ => rfl)
  (fun ⟨j, x⟩ f g => by
    obtain e | a := x
    · rfl
    · rcases hf : f a with ⟨j₁, e | b⟩ <;> simp [Bind.bind, bind, after, hf])

def emit (e : Event) : Trace Unit := ⟨[e], .ok ()⟩

def fail (e : Failure) : Trace α := ⟨[], .error e⟩

def refuse (cause : Refusal) : Trace α := fail (.refused cause)

def ofExcept (x : Except Failure α) : Trace α := ⟨[], x⟩

def promise (x : Except Fault α) : Trace α := ofExcept (x.mapError .fault)

def decision (x : Except Refusal α) : Trace α := ofExcept (x.mapError .refused)

/-- The same trace with its refusal set in a context. -/
def within (context : Refusal → Refusal) (x : Trace α) : Trace α :=
  { x with result := x.result.mapError (Failure.within context) }

/-- The tag of a type, as the program gives it. -/
def tag (p : Program) (ty : Ty) : Trace Ivl.Ident := do
  let x ← promise (p.tag ty)
  emit (.tag ty)
  return x

/-- The identifier of a field, as the program gives it. -/
def field (p : Program) (id : FieldId) : Trace Ivl.Ident := do
  let x ← ofExcept (p.fieldIdent id)
  emit (.field id)
  return x

def label (method : MethodId) (node : Nat) : Trace String := do
  emit (.label method node)
  return labelName method node

def freshGlobal (count : Nat) (ty : Ivl.Ty) : Trace Ivl.Ident := do
  let x := globalIdent count ty
  emit (.global x)
  return x

end Trace

def Request.trace (p : Program) : Request α → Trace α
  | tag ty => Trace.tag p ty
  | field id => Trace.field p id
  | label method node => Trace.label method node
  | diagnose d => Trace.emit (.diagnostic d)
  | log record => Trace.emit (.log record)

namespace Ask

def trace (p : Program) : Ask α → Trace α
  | done a => return a
  | fail e => Trace.fail e
  | request q k => do (k (← q.trace p)).trace p

@[simp] theorem trace_pure {a : α} : (Pure.pure a : Ask α).trace p = Pure.pure a := rfl

@[simp] theorem trace_bind {x : Ask α} {f : α → Ask β} :
    (x >>= f).trace p = x.trace p >>= fun a => (f a).trace p := by
  have hbind : ∀ (x : Ask α), (x.bind f).trace p = x.trace p >>= fun a => (f a).trace p := by
    intro x
    induction x with
    | done a => rfl
    | fail e => rfl
    | request q k ih => simp [Ask.bind, trace, ih]
  exact hbind x

@[simp] theorem trace_ofExcept {x : Except Failure α} :
    (ofExcept x).trace p = Trace.ofExcept x := by
  cases x <;> rfl

@[simp] theorem trace_promise {x : Except Fault α} : (promise x).trace p = Trace.promise x :=
  trace_ofExcept

@[simp] theorem trace_decision {x : Except Refusal α} :
    (decision x).trace p = Trace.decision x := trace_ofExcept

@[simp] theorem trace_field : (field i).trace p = Trace.field p i := bind_pure _

@[simp] theorem trace_log : (log level m).trace p = Trace.emit (.log ⟨level, m⟩) := rfl

end Ask

/-- How the signature of a method is built from the program alone. -/
def Signature.build (p : Program) (prelude : Prelude) (id : MethodId) : Trace Signature :=
  (builder p prelude id).trace p

/-- The signature of a method. What building it asks for is left to the registry, which builds it
only once. -/
def Trace.signature (p : Program) (prelude : Prelude) (id : MethodId) : Trace Signature := do
  emit (.signature id)
  ofExcept (Signature.build p prelude id).result

namespace Registry

/-- What the events leave behind that do not ask for a signature. -/
def recordBasic (p : Program) (r : Registry) : Event → Registry
  | .tag ty => (r.tag p ty).2
  | .field id => (r.field p id).2
  | .signature _ => r
  | .label method node => (r.label method node).2
  | .global x => { r with globals := r.globals ++ [x] }
  | .diagnostic d => r.addDiagnostic p d
  | .log record => r.addRecord record

def record (p : Program) (prelude : Prelude) (r : Registry) : Event → Registry
  | .signature id => (r.signature p prelude id).2
  | event => recordBasic p r event

def replay (p : Program) (prelude : Prelude) (r : Registry) (journal : List Event) : Registry :=
  journal.foldl (record p prelude) r

end Registry

theorem fetch_of_error [BEq κ] [LawfulBEq κ] {make : κ → Except Failure ν}
    (h : Remembers make table) (hk : make k = .error e) :
    fetch table k (make k) = (.error e, table) := by
  cases hl : table.lookup k with
  | some v => cases hk.symm.trans (h k v (mem_of_lookup hl))
  | none => simp [fetch, hl, hk]

/-- A coherent registry answers as the program does and keeps the events. -/
theorem Request.run_eq {r : Registry} (h : r.Coherent p q) (x : Request α) :
    x.run p r = ((x.trace p).result, (x.trace p).journal.foldl (Registry.recordBasic p) r) := by
  refine Prod.ext ?_ ?_
  · rw [(h.request x).1]
    cases x with
    | tag ty =>
      simp only [answer, trace, Trace.tag]
      cases p.tag ty <;> rfl
    | field i =>
      simp only [answer, trace, Trace.field]
      cases p.fieldIdent i <;> rfl
    | label | diagnose | log => rfl
  · cases x with
    | tag ty =>
      cases ht : p.tag ty with
      | ok x => simp [run, trace, Trace.tag, ht]; rfl
      | error e =>
        have hnone := fetch_of_error (k := ty) h.tags (by rw [ht]; rfl)
        simp only [run, trace, Trace.tag, Registry.tag, hnone]
        rw [ht]
        rfl
    | field i =>
      cases hf : p.fieldIdent i with
      | ok x => simp [run, trace, Trace.field, hf]; rfl
      | error e =>
        have hnone := fetch_of_error (k := i) h.fields hf
        simp only [run, trace, Trace.field, Registry.field, hnone]
        rw [hf]
        rfl
    | label | diagnose | log => rfl

theorem Request.run_globals {x : Request α} : (x.run p r).2.globals = r.globals := by
  cases x with
  | label m n =>
    simp only [run, Registry.label]
    split <;> rfl
  | tag | field | diagnose | log => rfl

theorem Ask.run_globals {x : Ask α} : (x.run p r).2.globals = r.globals := by
  induction x generalizing r with
  | done | fail => rfl
  | request x k ih =>
    have hx := Request.run_globals (x := x) (p := p) (r := r)
    rw [run]
    generalize x.run p r = found at hx
    obtain ⟨e | b, r'⟩ := found
    · exact hx
    · exact (ih b).trans hx

theorem Registry.signature_globals : (Registry.signature p q r i).2.globals = r.globals := by
  unfold signature
  split
  · rfl
  · have hx := Ask.run_globals (x := Signature.builder p q i) (p := p) (r := r)
    generalize (Signature.builder p q i).run p r = found at hx
    obtain ⟨e | b, r'⟩ := found <;> exact hx

namespace Ask

theorem run_eq {r : Registry} (h : r.Coherent p q) (x : Ask α) :
    x.run p r = ((x.trace p).result, (x.trace p).journal.foldl (Registry.recordBasic p) r) := by
  induction x generalizing r with
  | done | fail => rfl
  | request x k ih =>
    have hr := (h.request x).2
    rw [run, trace]
    rw [x.run_eq h] at hr ⊢
    rcases hx : x.trace p with ⟨j, e | b⟩
    · rfl
    · rw [hx] at hr
      simp only [ih b hr]
      simp [Bind.bind, Trace.bind, Trace.after]

theorem trace_result (x : Ask α) : (x.trace p).result = x.answer p := by
  have hempty : Registry.Coherent p .bare {} := ⟨nofun, nofun, nofun, nofun⟩
  have hrun := (hempty.ask x).1
  rwa [x.run_eq hempty] at hrun

end Ask

namespace Registry

theorem Coherent.build {r : Registry} (h : r.Coherent p q) :
    Remembers (fun i => (Signature.build p q i).result) r.signatureTable := fun i sig hmem =>
  (Ask.trace_result _).trans (h.signatures i sig hmem)

theorem signature_fst {r : Registry} (h : r.Coherent p q) :
    (r.signature p q i).1 = (Signature.build p q i).result :=
  (h.signature i).1.trans (Ask.trace_result _).symm

/-- What a request for a signature leaves behind: nothing if the signature is there; otherwise the
events of building it, and the signature unless that fails. -/
theorem signature_snd {r : Registry} (h : r.Coherent p q) : (r.signature p q i).2 =
    match r.signatureTable.lookup i with
    | some _ => r
    | none =>
      let built := (Signature.build p q i).journal.foldl (recordBasic p) r
      match (Signature.build p q i).result with
      | .ok sig => { built with signatureTable := built.signatureTable ++ [(i, sig)] }
      | .error _ => built := by
  unfold signature
  cases r.signatureTable.lookup i with
  | some => rfl
  | none =>
    simp only [Ask.run_eq h]
    unfold Signature.build
    cases ((Signature.builder p q i).trace p).result <;> rfl

theorem Coherent.record {r : Registry} (h : r.Coherent p q) (e : Event) :
    (r.record p q e).Coherent p q := by
  cases e with
  | tag ty => exact (h.tag ty).2
  | field i => exact (h.field i).2
  | signature i => exact (h.signature i).2
  | label m n => exact (h.label m n).2
  | diagnostic d => exact h.addDiagnostic d
  | global | log => exact { h with }

theorem Coherent.replay {r : Registry} (h : r.Coherent p q) (j : List Event) :
    (r.replay p q j).Coherent p q := by
  induction j generalizing r with
  | nil => exact h
  | cons e j ih => exact ih (h.record e)

theorem replay_append : replay p q r (j ++ j') = replay p q (replay p q r j) j' :=
  List.foldl_append

end Registry

end Verilower
