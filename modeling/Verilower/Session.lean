import Verilower.Coherence

namespace Verilower

open Ivl (Decl Implementation)

/-- A program and the bodies that are held for its methods, sorted by method. -/
structure CodeBase where
  program : Program
  bodies : List Body := []
  log : Array Record := #[]

namespace CodeBase

def ofProgram (program : Program) : CodeBase where
  program
  log := #[⟨.debug,
    "built program model with " ++ toString program.classes.length ++ " classes, " ++
      toString program.methods.length ++ " methods, " ++ toString program.fields.length ++
      " fields"⟩]

/-- The bodies with `body` in its place, instead of one of the same method. -/
def insert (body : Body) : List Body → List Body
  | [] => [body]
  | b :: bs =>
    if body.method = b.method then body :: bs
    else if body.method < b.method then body :: b :: bs
    else b :: insert body bs

/-- Holds a body; the last body of a method is kept. -/
def hold (c : CodeBase) (body : Body) : CodeBase :=
  { c with
    bodies := insert body c.bodies
    log := c.log.push
      ⟨.debug, "registering body of method MethodId(" ++ toString body.method ++ ")"⟩ }

/-- Holds the bodies of pieces of code one after the other, up to the first with a defect. -/
def holdAll (c : CodeBase) : List Code → Except Code.Defect Unit × CodeBase
  | [] => (.ok (), c)
  | code :: codes =>
    match Body.ofCode code with
    | .error e => (.error e, c)
    | .ok body => (c.hold body).holdAll codes

def body? (c : CodeBase) (method : MethodId) : Option Body :=
  c.bodies.find? fun b => b.method = method

end CodeBase

/-- One registry over one code base. -/
structure Session where
  program : Program
  bodies : List Body
  prelude : Prelude
  options : Options
  registry : Registry
  coherent : registry.Coherent program prelude

namespace Session

def start (code : CodeBase) (prelude : Prelude) (options : Options) : Session where
  program := code.program
  bodies := code.bodies
  prelude
  options
  registry := {
    log := code.log.push
      ⟨.info, "using the " ++ options.errorModel.name ++ " error model"⟩ }
  coherent := ⟨nofun, nofun, nofun, nofun⟩

def log (s : Session) (level : Level) (message : String) : Session :=
  { s with
    registry := s.registry.addRecord ⟨level, message⟩
    coherent := s.coherent.addRecord _ }

def diagnose (s : Session) (severity : Severity) (loc : Loc) (message : String) : Session :=
  { s with
    registry := s.registry.addDiagnostic s.program ⟨severity, loc, message⟩
    coherent := s.coherent.addDiagnostic _ }

def tag (s : Session) (ty : Ty) : Except Failure Ivl.Ident × Session :=
  let found := s.registry.tag s.program ty
  (found.1, { s with registry := found.2, coherent := (s.coherent.tag ty).2 })

def field (s : Session) (id : FieldId) : Except Failure Ivl.Ident × Session :=
  let found := s.registry.field s.program id
  (found.1, { s with registry := found.2, coherent := (s.coherent.field id).2 })

def signature (s : Session) (id : MethodId) : Except Failure Signature × Session :=
  let found := s.registry.signature s.program s.prelude id
  (found.1, { s with registry := found.2, coherent := (s.coherent.signature id).2 })

def label (s : Session) (method : MethodId) (node : Nat) : Except Failure String × Session :=
  let found := s.registry.label method node
  (.ok found.1, { s with registry := found.2, coherent := (s.coherent.label method node).2 })

def freshGlobal (s : Session) (ty : Ivl.Ty) : Except Failure Ivl.Ident × Session :=
  let found := s.registry.freshGlobal ty
  (.ok found.1, { s with registry := found.2, coherent := s.coherent.freshGlobal ty })

/-- The tags in use with their types, in the order of types. -/
def tags (s : Session) : List (Ty × Ivl.Ident) := s.registry.sortedTags

def fields (s : Session) : List (FieldId × Ivl.Ident) := s.registry.sortedFields

def lower (s : Session) (body : Body) : Except Failure Implementation × Session :=
  let found := s.registry.lower s.program s.prelude s.options body
  (found.1, { s with registry := found.2, coherent := s.coherent.lower s.options body })

def declareTags (s : Session) : Session :=
  (List.range s.program.classes.length).foldl (fun s id => (s.tag (.cls id)).2) s

/-- Registers the identifier of a field; one without a representation is reported. -/
def declareField (s : Session) (id : FieldId) : Session :=
  match s.field id, s.program.fields[id]? with
  | (.error e, s), some f =>
    let loc := (s.program.classes[f.owner]?).bind ClassDecl.loc
    s.diagnose .error loc
      ("cannot translate field `" ++ s.program.fieldName f ++ "`: " ++ e.message)
  | (_, s), _ => s

/-- Registers a signature; a method that is refused is reported, a fault is passed on. -/
def declareSignature (s : Session) (id : MethodId) : Except Failure Unit × Session :=
  match s.signature id, s.program.methods[id]? with
  | (.error (.refused cause), s), some m =>
    (.ok (), s.diagnose .error m.loc
      ("cannot build signature of `" ++ s.program.methodName m ++ "`: " ++ cause.message))
  | (.error e, s), _ => (.error e, s)
  | (.ok _, s), _ => (.ok (), s)

def declareSignatures (s : Session) : List MethodId → Except Failure Unit × Session
  | [] => (.ok (), s)
  | id :: ids =>
    match s.declareSignature id with
    | (.error e, s) => (.error e, s)
    | (.ok _, s) => s.declareSignatures ids

/-- Lowers a held body if its class is in scope; one that is refused is reported, a fault is passed
on. -/
def lowerHeld (s : Session) (body : Body) : Except Failure (Option Implementation) × Session :=
  match s.program.method? body.method with
  | .error e => (.error (.fault e), s)
  | .ok m =>
    let name := s.program.methodName m
    if !s.options.inScope (s.program.className m.owner) then
      (.ok none, s.log .debug ("skipping `" ++ name ++ "`: out of scope"))
    else
      match s.lower body with
      | (.ok i, s) => (.ok (some i), s)
      | (.error (.refused cause), s) =>
        (.ok none, s.diagnose .error m.loc
          ("cannot translate `" ++ name ++ "`: " ++ cause.message))
      | (.error e, s) => (.error e, s)

def lowerAll (s : Session) : List Body → Except Failure (List Implementation) × Session
  | [] => (.ok [], s)
  | body :: bodies =>
    match s.lowerHeld body with
    | (.error e, s) => (.error e, s)
    | (.ok i, s) =>
      match s.lowerAll bodies with
      | (.error e, s) => (.error e, s)
      | (.ok is, s) => (.ok (i.toList ++ is), s)

/-- The names of the tags directly above the tag of a type. -/
def parents (p : Program) : Ty → List String
  | .cls id => (p.directSupertypes id).filterMap fun sup => (p.tagName (.cls sup)).toOption
  | .array _ => (p.tagName (.cls ClassId.object)).toOption.toList
  | _ => []

def tagDecls (s : Session) : List Decl :=
  s.tags.map fun (ty, x) => .const x true (parents s.program ty)

def fieldDecls (s : Session) : List Decl :=
  s.fields.map fun (id, x) =>
    match s.program.fields[id]? with
    | some f => if f.isStatic then .var x else .const x true []
    | none => .const x true []

/-- The procedures that the prelude does not declare. All of them may assign the made-up global
variables, which are known only after all bodies have been lowered. -/
def procedureDecls (s : Session) : List Decl :=
  (s.registry.sortedSignatures.filter (!·.fromPrelude)).map fun sig =>
    .procedure { sig.procedure with modifies := sig.procedure.modifies ++ s.registry.globals }

def ownDecls (s : Session) (implementations : List Implementation) : List Decl :=
  s.tagDecls ++ s.fieldDecls ++ s.registry.globals.map .var ++ s.procedureDecls ++
    implementations.map .implementation

def assemble (s : Session) (implementations : List Implementation) : Ivl.Program :=
  ⟨s.prelude.declarations ++ s.ownDecls implementations⟩

/-- Declares all that the program has, then lowers every held body in scope. What is refused is
reported and left out. -/
def generate (s : Session) : Except Failure Ivl.Program × Session :=
  let s := s.declareTags
  let s := (List.range s.program.fields.length).foldl declareField s
  match s.declareSignatures (List.range s.program.methods.length) with
  | (.error e, s) => (.error e, s)
  | (.ok _, s) =>
    match s.lowerAll s.bodies with
    | (.error e, s) => (.error e, s)
    | (.ok implementations, s) =>
      let s := s.log .info
        ("translated " ++ toString implementations.length ++ " procedure bodies")
      (.ok (s.assemble implementations), s)

/-- The diagnostics of at least the given severity. -/
def report (s : Session) (least : Severity) : Report :=
  Report.ofDiagnostics s.program
    (s.registry.diagnostics.toList.filter fun d => least.rank ≤ d.severity.rank)

end Session

end Verilower
