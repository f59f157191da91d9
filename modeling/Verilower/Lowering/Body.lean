import Verilower.Lowering.Node
import Verilower.Options

namespace Verilower

open Ivl (Stmt Implementation)

/-- How the obligations in a body of the signature are encoded. -/
def Signature.encoding (s : Signature) (options : Options) : Encoding where
  model := options.errorModel
  slot := s.exception
  dropBounds := options.noArrayBoundsChecks

/-- What comes before the first node: the receiver is not null, no exception is in flight, and the
flag of exceptional returns, if it is used, is down. -/
def Signature.prologue (s : Signature) (flagged : Bool) : List Stmt :=
  s.receiver.toList.map (fun this => .assume (Prelude.isNonNull this.expr)) ++
  [.assign s.exception Prelude.null.expr] ++
  (if flagged then [.assign LocalPool.flag (.bool false)] else [])

def Registry.lower (program : Program) (prelude : Prelude) (options : Options) (r : Registry)
    (body : Body) : Except Failure Implementation × Registry :=
  match program.method? body.method with
  | .error e => (.error (.fault e), r)
  | .ok method =>
    let name := program.methodName method
    match r.signature program prelude body.method with
    | (.error e, r) => (.error e, r)
    | (.ok signature, r) =>
      match LocalPool.ofSlots body.slots with
      | .error cause => (.error (.refused (.inSlots name cause)), r)
      | .ok pool =>
        let r := r.addRecord ⟨.debug, "translating body of `" ++ name ++ "`"⟩
        let frame : Frame := { program, prelude, body, method, signature }
        match (Lower.nodes body.nodes.zipIdx).run frame (signature.encoding options)
            { registry := r, pool } with
        | (.error e, w) => (.error e, w.registry)
        | (.ok _, w) =>
          let code := signature.prologue w.pool.flagged ++ w.out.toList
          let message :=
            "translated `" ++ name ++ "` into " ++ toString code.length ++ " statements"
          (.ok { procedure := signature.procedure, locals := w.pool.declarations, body := code },
            w.registry.addRecord ⟨.debug, message⟩)

end Verilower
