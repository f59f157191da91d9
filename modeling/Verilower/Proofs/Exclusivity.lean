import Verilower.Proofs.CallSites

namespace Verilower
set_option autoImplicit true

open Ivl

theorem Code.Targets.owners_nodup {c : Code} {call : Call} (h : c.Targets p call callee ts) :
    (ts.map Target.owner).Nodup := by
  cases h with
  | direct => exact List.nodup_nil
  | dynamic _ _ _ ht => exact Program.dispatch_nodup ht

theorem Lower.Evaluated.isConstant_outs (h : Lower.Evaluated F s call callee target o t code)
    (hexc : F.signature.exception.ty = .ref) : ∀ x ∈ o.outs, x.ty.isConstant = false := by
  obtain ⟨-, -, hd⟩ := h
  obtain ⟨_, _, hdest, hr, -⟩ := Lower.destination_gives hd
  cases hr
  intro x hx
  obtain hx | hx := List.mem_append.1 hx
  · obtain ⟨ty, hty, rfl⟩ := hdest.result_ty (Option.mem_toList.1 hx)
    exact Ty.isConstant_of_lowered hty
  · rw [List.mem_singleton.1 hx]
    exact congrArg Ivl.Ty.isConstant hexc

theorem CallSite.Of.isConstant_outs (h : Of x s body low)
    (hlow : BodyLowered s.program s.prelude g body low j) :
    ∀ y ∈ x.operands.outs, y.ty.isConstant = false := by
  obtain ⟨caller, t, code, -, -, heval, -⟩ := h.evaluated
  apply heval.isConstant_outs
  exact (Signature.build_gives (Trace.gives_of_result hlow.signature_eq)).exception_ty

/-- The devirtualized call at a node: its candidates stand in the segment of the node, test the
receiver that the call is made on, and answer the targets that it resolves to. They exclude each
other exactly if each of them bars the later ones, and they do so if types stay the same and the
receiver mentions nothing that a call assigns. -/
theorem lower_exclusive_iff {s : Session} {body : Body} {i : Implementation} {k : Nat} {node : Node}
    {call : Call} {target : Option Value} {callee : Method} {base : Value} {ty : Option Ty}
    {ts : List Target} (h : (s.lower body).1 = .ok i) (hnode : body.nodes[k]? = some node)
    (hcall : node.instr.call? = some (call, target)) (hk : call.kind.isDynamic = true)
    (hm : s.program.method? call.method = .ok callee) (hi : s.program.intrinsic? callee = none)
    (hb : call.base = some base) (hty : body.typeOf s.program base = .ok ty)
    (ht : s.program.dispatch (Lower.startClass callee ty) callee = .ok ts) (hne : ts ≠ []) :
    ∃ (low : Lowered) (x : CallSite) (receiver : Expr) (l : List Candidate),
      (lowerBody s.program s.prelude s.registry.globals.length body).result = .ok low ∧
      i = low.implementation s.options ∧ low.segments.length = body.nodes.length ∧
      x.Of s body low ∧
      (x.node = k ∧ x.call = call ∧ x.target = target ∧ x.callee = callee ∧ x.targets = ts) ∧
      x.Devirtualized s.program s.prelude receiver l ∧
      ∀ W : World,
        ((x.operands.through receiver).Exclusive l s.program W (low.encoding s.options) ↔
          (x.operands.through receiver).Settled l s.program W) ∧
        (W.KeepsTypes → (x.operands.through receiver).ReceiverFixed W →
          (x.operands.through receiver).Exclusive l s.program W (low.encoding s.options)) := by
  obtain ⟨low, j, hgives, rfl, -⟩ := Session.lower_result h
  have hlow := lowerBody_gives hgives
  obtain ⟨x, hof, hxk, rfl, rfl, rfl⟩ := exists_callSite hgives hnode hcall hm hi
  obtain rfl := hof.resolved.eq_of_dispatch hk hb hty ht
  obtain ⟨receiver, l, hdev⟩ := hof.devirtualized hne
  have hout := hof.isConstant_outs hlow
  have hiff {W : World} :
      (x.operands.through receiver).Exclusive l s.program W (low.encoding s.options) ↔
        (x.operands.through receiver).Settled l s.program W :=
    Dispatched.exclusive_iff hout hdev.answers hof.resolved.owners_nodup
  refine ⟨low, x, receiver, l, congrArg Trace.result hgives, rfl, hlow.segments_length, hof,
    ⟨hxk, rfl, rfl, rfl, rfl⟩, hdev, fun W => ⟨hiff, fun hkeep hfix => hiff.2 ?_⟩⟩
  exact Dispatched.settled_of_receiverFixed hout hdev.answers hof.resolved.owners_nodup hkeep hfix

def walkNext : Method := { name := "next", returns := .cls 3, owner := 3 }

/-- A class and its subclass with a method each that returns an object of the class, and a static
method that walks from object to object. -/
def walk : Program := .declaring [
  .addClass "A",
  .addClass "B" (some 3),
  .addMethod 3 walkNext.toMethodDecl,
  .addOverride 4 0,
  .addMethod 3 { name := "walk", params := [.cls 3], isStatic := true }] (by decide +kernel)

/-- One step of the walk: the result goes where the receiver was. -/
def walkBody : Body where
  method := 2
  slots := [⟨"x", .cls 3⟩]
  nodes := [
    { instr := .identity 0 (.param 0) },
    { instr := .assign (.slot 0) (.invoke .virtual 0 (some (.slot 0)) []) },
    { instr := .retVoid }]
  sound := by decide

def walkSession : Session := Session.start (.ofProgram walk) .standard {}

theorem lower_exclusive_iff_walk :
    ∃ i, (walkSession.lower walkBody).1 = .ok i ∧
      ∃ (low : Lowered) (x : CallSite) (receiver : Expr) (l : List Candidate),
      (lowerBody walk .standard 0 walkBody).result = .ok low ∧
      i = low.implementation {} ∧ low.segments.length = 3 ∧ x.Of walkSession walkBody low ∧
      (x.node = 1 ∧ x.call = ⟨.virtual, 0, some (.slot 0), []⟩ ∧ x.target = some (.slot 0) ∧
        x.callee = walkNext ∧ x.targets = [⟨3, 0⟩, ⟨4, 1⟩]) ∧
      x.Devirtualized walk .standard receiver l ∧
      ∀ W : World,
        ((x.operands.through receiver).Exclusive l walk W (low.encoding {}) ↔
          (x.operands.through receiver).Settled l walk W) ∧
        (W.KeepsTypes → (x.operands.through receiver).ReceiverFixed W →
          (x.operands.through receiver).Exclusive l walk W (low.encoding {})) := by
  obtain ⟨i, hi⟩ := exists_of_isOk (x := (walkSession.lower walkBody).1) (by decide +kernel)
  have hcall : (walkBody.nodes[1]?.bind fun node => node.instr.call?) =
      some (⟨.virtual, 0, some (.slot 0), []⟩, some (.slot 0)) := rfl
  exact ⟨i, hi, lower_exclusive_iff (k := 1) hi rfl hcall rfl rfl (by decide) rfl rfl rfl
    (by decide)⟩

/-- The walk stands at the object `0` of the class; the object `1` is of the subclass. -/
def walkState (x : Ident) : Free :=
  if x = walkVar then .int 0
  else if x = Prelude.heap then
    .update (.update (.bool false) [.int 0, .name Prelude.typeField] (.name (walkTag "A")))
      [.int 1, .name Prelude.typeField] (.name (walkTag "B"))
  else .name x

theorem walkState_tag (h : x.ty = .tag) : walkState x = .name x := by
  have hvar : x ≠ walkVar := by
    rintro rfl
    cases h
  have hheap : x ≠ Prelude.heap := by
    rintro rfl
    cases h
  unfold walkState
  rw [if_neg hvar, if_neg hheap]

theorem walkState_tagsDistinct : walk.TagsDistinct walkState :=
  Program.tagsDistinct_free (fun _ => walkState_tag) (by decide +kernel)

abbrev walkBranch (name : String) : Stmt :=
  .when (.eq (Prelude.typeOf walkVar.expr) (walkTag name).expr)
    [.call (name ++ "$A$next") [walkVar.expr] [walkVar, ⟨"$exception", .ref⟩]]

theorem walkWorld_keepsTypes : walkWorld.KeepsTypes := by
  intro f args σ o
  simp [Prelude.heap]

theorem sat_walkState : walkWorld.Sat walkState
    (.eq (Prelude.typeOf walkVar.expr) (walkTag "A").expr) := by
  refine walkWorld.holds_eq.2 ?_
  simp [Expr.eval, Expr.evalAll, Prelude.typeOf, Prelude.read, Ident.expr, walkState, Free.select,
    Prelude.heap, Prelude.typeField]

theorem sat_walkState_after : walkWorld.Sat
    (walkWorld.after f args [walkVar, ⟨"$exception", .ref⟩] walkState)
    (.eq (Prelude.typeOf walkVar.expr) (walkTag "B").expr) := by
  refine walkWorld.holds_eq.2 ?_
  simp [World.after, Expr.eval, Expr.evalAll, Prelude.typeOf, Prelude.read, Ident.expr, walkState,
    Free.select, Prelude.heap, Prelude.typeField]

/-- Both candidates of the walk can be called one after the other: the first call puts an object of
the other class where the receiver was. -/
theorem walk_calls_both :
    ∃ i, (walkSession.lower walkBody).1 = .ok i ∧
      [walkBranch "A", walkBranch "B"].IsInfix i.body ∧
      walkWorld.KeepsTypes ∧ walk.TagsDistinct walkState ∧
      ∃ σ, walkWorld.Exec walkState [walkBranch "A", walkBranch "B"]
        ["A$A$next", "B$A$next"] σ [] := by
  obtain ⟨i, hi⟩ := exists_of_isOk (x := (walkSession.lower walkBody).1) (by decide +kernel)
  have hin : ((walkSession.lower walkBody).1.toOption.map fun i =>
      decide ([walkBranch "A", walkBranch "B"].IsInfix i.body)) = some true := by decide +kernel
  exact ⟨i, hi, by simpa [hi, Except.toOption] using hin, walkWorld_keepsTypes,
    walkState_tagsDistinct, _, .step (.thenBranch sat_walkState)
      (.step .call (.step (.thenBranch sat_walkState_after) (.step .call .refl)))⟩

end Verilower
