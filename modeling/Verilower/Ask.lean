import Verilower.Registry

namespace Verilower

open Ivl (Ident Procedure)

inductive Request : Type → Type where
  | tag (ty : Ty) : Request Ident
  | field (id : FieldId) : Request Ident
  | label (method : MethodId) (node : Nat) : Request String
  | diagnose (d : Diagnostic) : Request Unit
  | log (record : Record) : Request Unit

namespace Request

variable {α : Type}

def run (p : Program) (r : Registry) : Request α → Except Failure α × Registry
  | tag ty => r.tag p ty
  | field id => r.field p id
  | label method node =>
    let (found, r) := r.label method node
    (.ok found, r)
  | diagnose d => (.ok (), r.addDiagnostic p d)
  | log record => (.ok (), r.addRecord record)

def answer (p : Program) : Request α → Except Failure α
  | tag ty => (p.tag ty).mapError .fault
  | field id => p.fieldIdent id
  | label method node => .ok (labelName method node)
  | diagnose _ | log _ => .ok ()

end Request

/-- A computation that asks one thing after the other and may fail. -/
inductive Ask : Type → Type 1 where
  | done {α : Type} (a : α) : Ask α
  | fail {α : Type} (e : Failure) : Ask α
  | request {α β : Type} (q : Request β) (k : β → Ask α) : Ask α

namespace Ask

variable {α β : Type}

def bind : Ask α → (α → Ask β) → Ask β
  | done a, f => f a
  | fail e, _ => fail e
  | request q k, f => request q fun b => (k b).bind f

instance : Monad Ask where
  pure := done
  bind := bind

def ofExcept : Except Failure α → Ask α
  | .ok a => done a
  | .error e => fail e

/-- A look-up that can break a promise. -/
def promise (x : Except Fault α) : Ask α := ofExcept (x.mapError .fault)

/-- A decision that can refuse the input. -/
def decision (x : Except Refusal α) : Ask α := ofExcept (x.mapError .refused)

def field (id : FieldId) : Ask Ident := request (.field id) done

def log (level : Level) (message : String) : Ask Unit := request (.log ⟨level, message⟩) done

/-- The result with the answers of the registry, which keeps what has been asked for. -/
def run (p : Program) : Ask α → Registry → Except Failure α × Registry
  | done a, r => (.ok a, r)
  | fail e, r => (.error e, r)
  | request q k, r =>
    match q.run p r with
    | (.error e, r) => (.error e, r)
    | (.ok b, r) => (k b).run p r

def answer (p : Program) : Ask α → Except Failure α
  | done a => .ok a
  | fail e => .error e
  | request q k => (q.answer p).bind fun b => (k b).answer p

end Ask

namespace Signature

def staticFields (p : Program) : List FieldId → Ask (List Ident)
  | [] => return []
  | id :: ids => do
    match p.fields[id]? with
    | some f =>
      if f.isStatic then
        let x ← Ask.field id
        return x :: (← staticFields p ids)
      else staticFields p ids
    | none => staticFields p ids

/-- The signature made from the declaration of a method. A callee may write any global, so every
procedure lists all of them. -/
def synthesize (p : Program) (id : MethodId) (m : Method) (name : String) : Ask Signature := do
  let receiver : Option Ident := if m.isStatic then none else some ⟨"$this", .ref⟩
  let params ← Ask.decision (m.params.zipIdx.mapM fun (ty, index) => param index ty)
  let result ← Ask.decision (resultOf m)
  let exception : Ident := ⟨"$exception", .ref⟩
  let statics ← staticFields p (List.range p.fields.length)
  return {
    method := id
    procedure := {
      name
      ins := receiver.toList ++ params
      outs := result.toList ++ [exception]
      modifies := Prelude.globals ++ statics
      clauses := requires m params ++ ensures m result }
    receiver
    params
    result
    exception
    fromPrelude := false }

def builder (p : Program) (prelude : Prelude) (id : MethodId) : Ask Signature := do
  let m ← Ask.promise (p.method? id)
  let name ← Ask.promise (p.procedureName m)
  match prelude.find? name with
  | some q =>
    Ask.log .debug ("reusing prelude signature for `" ++ name ++ "`")
    Ask.ofExcept (ofPrelude p id m q)
  | none =>
    if Prelude.reserved.contains name then Ask.fail (.refused (.preludeOnly (p.methodName m)))
    else synthesize p id m name

end Signature

/-- The signature of a method. It is built only once, and what building it asks for is kept even if
it fails. -/
def Registry.signature (p : Program) (prelude : Prelude) (r : Registry) (id : MethodId) :
    Except Failure Signature × Registry :=
  match r.signatureTable.lookup id with
  | some found => (.ok found, r)
  | none =>
    match (Signature.builder p prelude id).run p r with
    | (.error e, r) => (.error e, r)
    | (.ok made, r) => (.ok made, { r with signatureTable := r.signatureTable ++ [(id, made)] })

end Verilower
