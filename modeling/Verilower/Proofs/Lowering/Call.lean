import Verilower.Proofs.Lowering.Operand

namespace Verilower
set_option autoImplicit true

open Ivl (Ident Expr Stmt)

namespace Lower

/-- An exception is in the slot. -/
abbrev inFlight (F : Frame) : Expr := Prelude.isNonNull F.signature.exception.expr

/-- The exception in the slot has a tag at or below `τ`. -/
def caughtBy (F : Frame) (τ : Ident) : Expr :=
  .subtype (Prelude.typeOf F.signature.exception.expr) τ.expr

@[simp] theorem gives_catches {i : ClassId} :
    (catches F.signature.exception i).Gives F s r j ↔ ∃ τ, F.program.tag (.cls i) = .ok τ ∧
      r = ⟨caughtBy F τ, s, []⟩ ∧ j = [.tag (.cls i)] := by
  constructor
  · intro h
    obtain ⟨_, _, _, _, ht, h₁, rfl, rfl⟩ := gives_bind.1 h
    obtain ⟨τ, hτ, rfl, rfl⟩ := gives_tag.1 ht
    obtain ⟨rfl, rfl⟩ := gives_pure.1 h₁
    exact ⟨τ, hτ, rfl, rfl⟩
  · rintro ⟨τ, hτ, rfl, rfl⟩
    simp [catches, caughtBy, hτ]

/-- What is assumed of a result that is annotated. -/
def resultFacts (callee : Method) (x τ : Ident) : List Outline :=
  [.plain (.assume (Prelude.isNonNull x.expr)),
    .plain (.assume (.subtype (Prelude.typeOf x.expr) τ.expr))] ++
  if callee.returnsExact then [.plain (.assume (.eq (Prelude.typeOf x.expr) τ.expr))] else []

/-- The assumptions after a call: only a captured reference result can carry some. -/
inductive Assumed (F : Frame) (callee : Method) :
    Option Ident → Bool → List Outline → List Event → Prop
  | annotated (hr : callee.returns.isReference = true) (hn : callee.returnsNonNull = true)
      (ht : F.program.tag callee.returns = .ok τ) :
      Assumed F callee (some x) true (resultFacts callee x τ) [.tag callee.returns]
  | plain (h : ¬ (captured = true ∧ result.isSome = true ∧ callee.returns.isReference = true ∧
      callee.returnsNonNull = true)) : Assumed F callee result captured [] []

/-- The preconditions of a callee with the actuals in the place of its formals. -/
def preconditionCode (signature : Signature) (actuals : List Expr) : List Outline :=
  signature.procedure.preconditions.map fun e => .oblige (.precondition
    (e.substitute (Ivl.Subst.ofPairs (signature.formals.zip actuals))))

def callOuts (F : Frame) (result : Option Ident) : List Ident :=
  result.toList ++ [F.signature.exception]

inductive DirectCall (F : Frame) (m : MethodId) (callee : Method) (actuals : List Expr)
    (result : Option Ident) (captured : Bool) : List Outline → List Event → Prop
  | intro (hs : (Signature.build F.program F.prelude m).result = .ok sig)
      (hin : actuals.length = sig.procedure.ins.length)
      (hout : (callOuts F result).length = sig.procedure.outs.length)
      (ha : Assumed F callee result captured code j) :
      DirectCall F m callee actuals result captured
        (preconditionCode sig actuals ++
          [.plain (.call sig.name actuals (callOuts F result))] ++ code) ([.signature m] ++ j)

/-- What the guarded calls of the overrides yield, with the exceptions that they declare. -/
inductive GuardedCalls (F : Frame) (receiver : Expr) (actuals : List Expr) (result : Option Ident)
    (captured : Bool) : List Target → List ClassId → List Outline → List Event → Prop
  | nil : GuardedCalls F receiver actuals result captured [] [] [] []
  | cons (hm : F.program.method? t.method = .ok callee)
      (hd : DirectCall F t.method callee actuals result captured branch j)
      (ht : F.program.tag (.cls t.owner) = .ok τ)
      (hrest : GuardedCalls F receiver actuals result captured ts thrown code js) :
      GuardedCalls F receiver actuals result captured (t :: ts) (callee.throws ++ thrown)
        (.when (.eq (Prelude.typeOf receiver) τ.expr) branch :: code)
        (j ++ [.tag (.cls t.owner)] ++ js)

def startClass (callee : Method) : Option Ty → ClassId
  | some (.cls i) => i
  | _ => callee.owner

/-- What performing a call yields, with the exceptions that it may throw. -/
inductive Performed (F : Frame) (n : Nat) (call : Call) (callee : Method) (actuals : List Expr)
    (result : Option Ident) (captured : Bool) :
    Option Expr → List ClassId → List Outline → List Event → Prop
  | direct (hk : call.kind.isDynamic = false)
      (hd : DirectCall F call.method callee actuals result captured code j) :
      Performed F n call callee actuals result captured receiver callee.throws code j
  | fallback (hk : call.kind.isDynamic = true) (hb : call.base = some base)
      (hty : F.body.typeOf F.program base = .ok ty)
      (ht : F.program.dispatch (startClass callee ty) callee = .ok [])
      (hd : DirectCall F call.method callee actuals result captured code j) :
      Performed F n call callee actuals result captured (some receiver) callee.throws code
        (.diagnostic ⟨.warning, F.body.locOf n, "no concrete override of `" ++
          F.program.methodName callee ++ "` found, calling the declared method"⟩ :: j)
  | devirtualized (hk : call.kind.isDynamic = true) (hb : call.base = some base)
      (hty : F.body.typeOf F.program base = .ok ty)
      (ht : F.program.dispatch (startClass callee ty) callee = .ok targets) (hne : targets ≠ [])
      (hg : GuardedCalls F receiver actuals result captured targets thrown code j) :
      Performed F n call callee actuals result captured (some receiver) thrown code
        (.log ⟨.debug, "devirtualized `" ++ F.program.methodName callee ++ "` into " ++
          toString targets.length ++ " targets"⟩ :: j)

inductive TrapJumps (F : Frame) : List Trap → List Outline → List Event → Prop
  | nil : TrapJumps F [] [] []
  | cons (ht : F.program.tag (.cls t.exception) = .ok τ) (hrest : TrapJumps F ts code j) :
      TrapJumps F (t :: ts)
        (.plain (.when (.and (inFlight F) (caughtBy F τ))
          [.jump (labelName F.body.method t.handler)]) :: code)
        ([.tag (.cls t.exception), .label F.body.method t.handler] ++ j)

/-- The warning about an exception that escapes without being declared. -/
inductive EscapeWarning (F : Frame) (n : Nat) (i : ClassId) : List Event → Prop
  | declared (h : anyOf (fun t => F.program.testSubtype i t) F.method.throws = .ok true) :
      EscapeWarning F n i []
  | undeclared (h : anyOf (fun t => F.program.testSubtype i t) F.method.throws = .ok false)
      (hc : F.program.class? i = .ok c) :
      EscapeWarning F n i [.diagnostic ⟨.warning, F.body.locOf n, "`" ++ c.name ++
        "` may escape `" ++ F.program.methodName F.method ++ "` without being declared"⟩]

/-- The guarded exits of the exceptions that escape, the most specific first. -/
inductive EscapeExits (F : Frame) (n : Nat) :
    Nat → List ClassId → List Outline → List Event → Prop
  | spent : EscapeExits F n 0 types [] []
  | done (h : F.program.mostSpecific? types types = .ok none) :
      EscapeExits F n (fuel + 1) types [] []
  | step (h : F.program.mostSpecific? types types = .ok (some i)) (hw : EscapeWarning F n i jw)
      (ht : F.program.tag (.cls i) = .ok τ)
      (hrest : EscapeExits F n fuel (types.filter (· ≠ i)) code j) :
      EscapeExits F n (fuel + 1) types
        (.when (.and (inFlight F) (caughtBy F τ)) (exitCode F) :: code)
        (jw ++ [.tag (.cls i)] ++ j)

/-- What follows a call whose callee may throw the given types. -/
inductive Continued (F : Frame) (n : Nat) (thrown : List ClassId) :
    List Outline → List Event → Prop
  | intro (hj : TrapJumps F (F.body.trapsAt n) c₁ j₁)
      (ht : F.program.escaping thrown ((F.body.trapsAt n).map Trap.exception) = .ok types)
      (he : EscapeExits F n types.length types c₂ j₂) :
      Continued F n thrown (c₁ ++ c₂) (j₁ ++ j₂)

/-- Where the result of a call goes: a local of its type takes it at once, any other location takes
it from a temporary afterwards. -/
inductive Destined (F : Frame) (s : Scratch) (callee : Method) :
    Option Value → Destination → Scratch → Prop
  | void (hv : callee.returns.isVoid = true) : Destined F s callee none ⟨none, none⟩ s
  | dropped (hv : callee.returns.isVoid = false) (ht : callee.returns.lowered = .ok ty) :
      Destined F s callee none ⟨some (s.next ty), none⟩ (s.grown ty)
  | local (hv : callee.returns.isVoid = false) (ht : callee.returns.lowered = .ok ty)
      (hx : s.pool.slot index = .ok x) (hty : x.ty = ty) :
      Destined F s callee (some (.slot index)) ⟨some x, none⟩ s
  | other (hv : callee.returns.isVoid = false) (ht : callee.returns.lowered = .ok ty) :
      Destined F s callee (some v) ⟨some (s.next ty), some (v, s.next ty)⟩ (s.grown ty)

inductive Arguments (F : Frame) :
    Scratch → List (Value × Ty) → Emitted (List Expr) → List Event → Prop
  | nil : Arguments F s [] ⟨[], s, []⟩ []
  | cons (ha : Operand F s arg ⟨a, s₁, c₁⟩ j₁) (ht : ty.lowered = .ok t) (hc : Converts a t e)
      (hrest : Arguments F s₁ args ⟨es, s₂, c₂⟩ j₂) :
      Arguments F s ((arg, ty) :: args) ⟨e :: es, s₂, c₁ ++ c₂⟩ (j₁ ++ j₂)

inductive ReceiverOf (F : Frame) (s : Scratch) (call : Call) :
    Emitted (Option Expr) → List Event → Prop
  | none (hb : call.base = none) : ReceiverOf F s call ⟨none, s, []⟩ []
  | dynamic (hb : call.base = some base) (hk : call.kind.isDynamic = true)
      (ho : Operand F s base ⟨e, s', code⟩ j) :
      ReceiverOf F s call ⟨some e, s', code ++ nullGuard s' base e⟩ j
  | direct (hb : call.base = some base) (hk : call.kind.isDynamic = false)
      (ho : Operand F s base ⟨e, s', code⟩ j) : ReceiverOf F s call ⟨some e, s', code⟩ j

inductive WrittenBack (F : Frame) (s : Scratch) :
    Option (Value × Ident) → Emitted Unit → List Event → Prop
  | none : WrittenBack F s none ⟨(), s, []⟩ []
  | some (h : Stored F s v x.expr r j) : WrittenBack F s (some (v, x)) r j

inductive Invoked (F : Frame) (n : Nat) (call : Call) (target : Option Value) :
    Scratch → Emitted Unit → List Event → Prop
  | exit (hm : F.program.method? call.method = .ok callee)
      (hi : F.program.intrinsic? callee = some .exit) :
      Invoked F n call target s ⟨(), s, exitCode F⟩ [.log ⟨.info,
        "call to process exit in `" ++ F.program.methodName F.method ++ "` ends the procedure"⟩]
  | stringLengthDropped (hm : F.program.method? call.method = .ok callee)
      (hi : F.program.intrinsic? callee = some .stringLength) (hb : call.base = some base)
      (ho : Operand F s base ⟨e, s', code⟩ j) (ht : target = none) :
      Invoked F n call target s ⟨(), s', code ++ nullGuard s' base e⟩ j
  | stringLength (hm : F.program.method? call.method = .ok callee)
      (hi : F.program.intrinsic? callee = some .stringLength) (hb : call.base = some base)
      (ho : Operand F s base ⟨e, s₁, c₁⟩ j₁) (ht : target = some v)
      (hs : Stored F s₁ v (.select Prelude.stringSize.expr [e]) ⟨(), s₂, c₂⟩ j₂) :
      Invoked F n call target s ⟨(), s₂, c₁ ++ nullGuard s₁ base e ++ c₂⟩ (j₁ ++ j₂)
  | call (hm : F.program.method? call.method = .ok callee)
      (hi : F.program.intrinsic? callee = none)
      (hstatic : callee.isStatic = call.base.isNone)
      (hargs : call.args.length = callee.params.length)
      (hr : ReceiverOf F s call ⟨receiver, s₁, c₁⟩ j₁)
      (ha : Arguments F s₁ (call.args.zip callee.params) ⟨args, s₂, c₂⟩ j₂)
      (hd : Destined F s₂ callee target d s₃)
      (hp : Performed F n call callee (receiver.toList ++ args) d.result target.isSome receiver
        thrown c₃ j₃)
      (hx : Continued F n (sortIds thrown) c₄ j₄)
      (hw : WrittenBack F s₃ d.writeBack ⟨(), s₄, c₅⟩ j₅) :
      Invoked F n call target s ⟨(), s₄, c₁ ++ c₂ ++ c₃ ++ c₄ ++ c₅⟩
        (j₁ ++ j₂ ++ j₃ ++ j₄ ++ j₅)

theorem assumeResult_gives (h : (assumeResult callee x).Gives F s r j) :
    ∃ code, Assumed F callee (some x) true code j ∧ r = ⟨(), s, code⟩ := by
  simp only [assumeResult] at h
  split at h <;> rename_i hann
  · obtain ⟨hr, hn⟩ := Bool.and_eq_true_iff.1 hann
    obtain ⟨_, _, _, _, ht, h₁, rfl, rfl⟩ := gives_bind.1 h
    obtain ⟨τ, hτ, rfl, rfl⟩ := gives_tag.1 ht
    split at h₁ <;> rename_i he
    all_goals
      simp at h₁
      obtain ⟨rfl, rfl⟩ := h₁
      exact ⟨_, .annotated hr hn hτ, by simp [resultFacts, he]⟩
  · obtain ⟨rfl, rfl⟩ := gives_pure.1 h
    refine ⟨[], .plain ?_, rfl⟩
    simp_all

theorem directCall_gives (h : (directCall m callee actuals result captured).Gives F s r j) :
    ∃ code, DirectCall F m callee actuals result captured code j ∧ r = ⟨(), s, code⟩ := by
  obtain ⟨_, _, _, _, hs, h₁, rfl, rfl⟩ := gives_bind.1 h
  obtain ⟨sig, hsig, rfl, rfl⟩ := gives_signature.1 hs
  obtain ⟨hin, h₂⟩ := gives_check.1 h₁
  obtain ⟨_, _, _, _, hw, h₃, rfl, rfl⟩ := gives_bind.1 h₂
  obtain ⟨rfl, rfl⟩ := gives_obligeAll.1 hw
  obtain ⟨hout, h₄⟩ := gives_check.1 (gives_frame_bind.1 h₃)
  obtain ⟨_, _, r, j, hc, h₅, rfl, rfl⟩ := gives_bind.1 h₄
  obtain ⟨rfl, rfl⟩ := gives_emit.1 hc
  have ⟨code, ha, hr⟩ : ∃ code, Assumed F callee result captured code j ∧ r = ⟨(), s, code⟩ := by
    cases captured with
    | false =>
      obtain ⟨rfl, rfl⟩ := gives_pure.1 h₅
      exact ⟨[], .plain (by simp), rfl⟩
    | true =>
      cases result with
      | none =>
        obtain ⟨rfl, rfl⟩ := gives_pure.1 h₅
        exact ⟨[], .plain (by simp), rfl⟩
      | some x => exact assumeResult_gives h₅
  subst hr
  exact ⟨_, .intro hsig (not_not.1 hin) (not_not.1 hout) ha, by simp [preconditionCode, callOuts]⟩

theorem guardedCalls_gives : ∀ {ts : List Target} {s : Scratch} {r : Emitted (List ClassId)}
    {j : List Event}, (guardedCalls receiver actuals result captured ts).Gives F s r j →
    ∃ thrown code, GuardedCalls F receiver actuals result captured ts thrown code j ∧
      r = ⟨thrown, s, code⟩
  | [], s, r, j, h => by
    obtain ⟨rfl, rfl⟩ := gives_pure.1 h
    exact ⟨[], [], .nil, rfl⟩
  | t :: ts, s, r, j, h => by
    obtain ⟨callee, hm, h₁⟩ := gives_promise_bind.1 (gives_frame_bind.1 h)
    obtain ⟨_, _, _, _, hw, h₂, rfl, rfl⟩ := gives_bind.1 h₁
    obtain ⟨_, _, _, _, hg, hc, rfl, rfl⟩ := gives_when.1 hw
    obtain ⟨branch, hd, rfl⟩ := directCall_gives hg
    obtain ⟨_, _, _, _, ht, h₃, rfl, rfl⟩ := gives_bind.1 hc
    obtain ⟨τ, hτ, rfl, rfl⟩ := gives_tag.1 ht
    obtain ⟨rfl, rfl⟩ := gives_pure.1 h₃
    obtain ⟨_, _, _, _, hr, h₄, rfl, rfl⟩ := gives_bind.1 h₂
    obtain ⟨thrown, code, hrest, rfl⟩ := guardedCalls_gives hr
    obtain ⟨rfl, rfl⟩ := gives_pure.1 h₄
    exact ⟨_, _, by simpa using GuardedCalls.cons hm hd hτ hrest, by simp⟩

theorem receiverClass_gives (h : (receiverClass callee base).Gives F s r j) :
    ∃ ty, F.body.typeOf F.program base = .ok ty ∧ r = ⟨startClass callee ty, s, []⟩ ∧ j = [] := by
  obtain ⟨ty, ht, h₁⟩ := gives_promise_bind.1 (gives_frame_bind.1 h)
  refine ⟨ty, ht, ?_⟩
  split at h₁
  · exact gives_pure.1 h₁
  · rename_i hn
    obtain ⟨rfl, rfl⟩ := gives_pure.1 h₁
    refine ⟨?_, rfl⟩
    cases ty with
    | none => rfl
    | some ty => cases ty <;> first | rfl | exact (hn _ rfl).elim

theorem perform_gives
    (h : (perform n call callee receiver actuals result captured).Gives F s r j) :
    ∃ thrown code, Performed F n call callee actuals result captured receiver thrown code j ∧
      r = ⟨thrown, s, code⟩ := by
  cases hk : call.kind.isDynamic with
  | false =>
    simp only [perform, hk] at h
    obtain ⟨_, _, _, _, hc, h₁, rfl, rfl⟩ := gives_bind.1 h
    obtain ⟨code, hd, rfl⟩ := directCall_gives hc
    obtain ⟨rfl, rfl⟩ := gives_pure.1 h₁
    exact ⟨_, _, .direct hk (by simpa using hd), by simp⟩
  | true =>
    simp only [perform, hk, if_true] at h
    split at h
    · rename_i base receiver hb
      obtain ⟨_, _, _, _, hc, h₁, rfl, rfl⟩ := gives_bind.1 (gives_frame_bind.1 h)
      obtain ⟨ty, hty, rfl, rfl⟩ := receiverClass_gives hc
      obtain ⟨targets, ht, h₂⟩ := gives_promise_bind.1 h₁
      split at h₂
      · obtain ⟨_, _, _, _, hw, h₃, rfl, rfl⟩ := gives_bind.1 h₂
        obtain ⟨rfl, rfl⟩ := gives_diagnose.1 hw
        obtain ⟨_, _, _, _, hg, h₄, rfl, rfl⟩ := gives_bind.1 h₃
        obtain ⟨code, hd, rfl⟩ := directCall_gives hg
        obtain ⟨rfl, rfl⟩ := gives_pure.1 h₄
        exact ⟨_, _, by simpa using Performed.fallback hk hb hty ht hd, by simp⟩
      · rename_i hne
        obtain ⟨_, _, _, _, hl, h₃, rfl, rfl⟩ := gives_bind.1 h₂
        obtain ⟨rfl, rfl⟩ := gives_log.1 hl
        obtain ⟨thrown, code, hg, rfl⟩ := guardedCalls_gives h₃
        exact ⟨_, _, .devirtualized hk hb hty ht hne hg, rfl⟩
    · exact (not_gives_refuse (gives_frame_bind.1 h)).elim

theorem trapJumps_gives : ∀ {ts : List Trap} {s : Scratch} {r : Emitted Unit} {j : List Event},
    (trapJumps (inFlight F) ts).Gives F s r j → ∃ code, TrapJumps F ts code j ∧ r = ⟨(), s, code⟩
  | [], s, r, j, h => by
    obtain ⟨rfl, rfl⟩ := gives_pure.1 h
    exact ⟨[], .nil, rfl⟩
  | t :: ts, s, r, j, h => by
    obtain ⟨_, _, _, _, hc, h₁, rfl, rfl⟩ := gives_bind.1 (gives_frame_bind.1 h)
    obtain ⟨τ, hτ, rfl, rfl⟩ := gives_catches.1 hc
    obtain ⟨_, _, _, _, hl, h₂, rfl, rfl⟩ := gives_bind.1 h₁
    obtain ⟨rfl, rfl⟩ := gives_label.1 hl
    obtain ⟨_, _, _, _, he, h₃, rfl, rfl⟩ := gives_bind.1 h₂
    obtain ⟨rfl, rfl⟩ := gives_emit.1 he
    obtain ⟨code, hrest, rfl⟩ := trapJumps_gives h₃
    exact ⟨_, .cons hτ hrest, by simp⟩

theorem escapeExit_gives {i : ClassId} (h : (escapeExit n (inFlight F) i).Gives F s r j) :
    ∃ τ jw, EscapeWarning F n i jw ∧ F.program.tag (.cls i) = .ok τ ∧
      r = ⟨(), s, [.when (.and (inFlight F) (caughtBy F τ)) (exitCode F)]⟩ ∧
      j = jw ++ [.tag (.cls i)] := by
  obtain ⟨declared, hd, h₁⟩ := gives_promise_bind.1 (gives_frame_bind.1 h)
  have exit {r : Emitted Unit} {j : List Event} (h : (do
      let guard ← catches F.signature.exception i
      when leave (return .and (inFlight F) guard)).Gives F s r j) :
      ∃ τ, F.program.tag (.cls i) = .ok τ ∧
        r = ⟨(), s, [.when (.and (inFlight F) (caughtBy F τ)) (exitCode F)]⟩ ∧
        j = [.tag (.cls i)] := by
    obtain ⟨_, _, _, _, hc, h₁, rfl, rfl⟩ := gives_bind.1 h
    obtain ⟨τ, hτ, rfl, rfl⟩ := gives_catches.1 hc
    obtain ⟨_, _, _, _, hl, hg, rfl, rfl⟩ := gives_when.1 h₁
    obtain ⟨rfl, rfl⟩ := gives_leave.1 hl
    obtain ⟨rfl, rfl⟩ := gives_pure.1 hg
    exact ⟨τ, hτ, rfl, rfl⟩
  cases declared with
  | true =>
    obtain ⟨τ, hτ, rfl, rfl⟩ := exit h₁
    exact ⟨τ, [], .declared hd, hτ, rfl, rfl⟩
  | false =>
    obtain ⟨c, hc, h₂⟩ := gives_promise_bind.1 h₁
    obtain ⟨_, _, _, _, hw, h₃, rfl, rfl⟩ := gives_bind.1 (gives_methodName_bind.1 h₂)
    obtain ⟨rfl, rfl⟩ := gives_diagnose.1 hw
    obtain ⟨τ, hτ, rfl, rfl⟩ := exit h₃
    exact ⟨τ, _, .undeclared hd hc, hτ, rfl, rfl⟩

theorem escapeExits_gives : ∀ {fuel : Nat} {types : List ClassId} {s : Scratch} {r : Emitted Unit}
    {j : List Event}, (escapeExits n (inFlight F) fuel types).Gives F s r j →
    ∃ code, EscapeExits F n fuel types code j ∧ r = ⟨(), s, code⟩
  | 0, types, s, r, j, h => by
    obtain ⟨rfl, rfl⟩ := gives_pure.1 h
    exact ⟨[], .spent, rfl⟩
  | fuel + 1, types, s, r, j, h => by
    obtain ⟨found, hf, h₁⟩ := gives_promise_bind.1 (gives_frame_bind.1 h)
    cases found with
    | none =>
      obtain ⟨rfl, rfl⟩ := gives_pure.1 h₁
      exact ⟨[], .done hf, rfl⟩
    | some i =>
      obtain ⟨_, _, _, _, he, h₂, rfl, rfl⟩ := gives_bind.1 h₁
      obtain ⟨τ, jw, hw, hτ, rfl, rfl⟩ := escapeExit_gives he
      obtain ⟨code, hrest, rfl⟩ := escapeExits_gives h₂
      exact ⟨_, .step hf hw hτ hrest, rfl⟩

theorem exceptionContinuation_gives (h : (exceptionContinuation n thrown).Gives F s r j) :
    ∃ code, Continued F n thrown code j ∧ r = ⟨(), s, code⟩ := by
  obtain ⟨_, _, _, _, hg, h₁, rfl, rfl⟩ := gives_bind.1 (gives_frame_bind.1 h)
  obtain ⟨c₁, hj, rfl⟩ := trapJumps_gives hg
  obtain ⟨types, ht, h₂⟩ := gives_promise_bind.1 h₁
  obtain ⟨c₂, he, rfl⟩ := escapeExits_gives h₂
  exact ⟨_, .intro hj ht he, rfl⟩

theorem destination_gives (h : (destination callee target).Gives F s r j) :
    ∃ d s', Destined F s callee target d s' ∧ r = ⟨d, s', []⟩ ∧ j = [] := by
  replace h := gives_frame_bind.1 h
  cases hv : callee.returns.isVoid with
  | true =>
    simp only [hv, if_true] at h
    cases target with
    | none => exact ⟨_, _, .void hv, gives_pure.1 h⟩
    | some v => exact (not_gives_refuse h).elim
  | false =>
    simp only [hv] at h
    obtain ⟨ty, ht, h₁⟩ := gives_decision_bind.1 h
    split at h₁
    · obtain ⟨_, _, _, _, hf, h₂, rfl, rfl⟩ := gives_bind.1 h₁
      obtain ⟨rfl, rfl⟩ := gives_fresh.1 hf
      exact ⟨_, _, .dropped hv ht, gives_pure.1 h₂⟩
    · obtain ⟨x, hx, h₂⟩ := gives_slot_bind.1 h₁
      split at h₂
      · rename_i hty
        exact ⟨_, _, .local hv ht hx hty, gives_pure.1 h₂⟩
      · obtain ⟨_, _, _, _, hf, h₃, rfl, rfl⟩ := gives_bind.1 h₂
        obtain ⟨rfl, rfl⟩ := gives_fresh.1 hf
        exact ⟨_, _, .other hv ht, gives_pure.1 h₃⟩
    · obtain ⟨_, _, _, _, hf, h₂, rfl, rfl⟩ := gives_bind.1 h₁
      obtain ⟨rfl, rfl⟩ := gives_fresh.1 hf
      exact ⟨_, _, .other hv ht, gives_pure.1 h₂⟩

theorem arguments_gives : ∀ {args : List (Value × Ty)} {s : Scratch} {r : Emitted (List Expr)}
    {j : List Event}, (arguments args).Gives F s r j → Arguments F s args r j
  | [], s, r, j, h => by
    obtain ⟨rfl, rfl⟩ := gives_pure.1 h
    exact .nil
  | (arg, ty) :: args, s, r, j, h => by
    obtain ⟨a, _, _, _, ha, h₁, rfl, rfl⟩ := gives_bind.1 h
    obtain ⟨t, ht, h₂⟩ := gives_decision_bind.1 h₁
    obtain ⟨e, hc, h₃⟩ := gives_coerce_bind.1 h₂
    obtain ⟨es, _, _, _, hrest, h₄, rfl, rfl⟩ := gives_bind.1 h₃
    obtain ⟨rfl, rfl⟩ := gives_pure.1 h₄
    simpa using Arguments.cons (value_gives ha) ht hc (arguments_gives hrest)

theorem receiverOf_gives (h : (receiverOf call).Gives F s r j) : ReceiverOf F s call r j := by
  simp only [receiverOf] at h
  split at h
  · rename_i hb
    obtain ⟨rfl, rfl⟩ := gives_pure.1 h
    exact .none hb
  · rename_i base hb
    split at h <;> rename_i hk
    · obtain ⟨_, _, _, _, hd, h₁, rfl, rfl⟩ := gives_bind.1 h
      obtain ⟨e, s', code, ho, rfl⟩ := dereference_gives hd
      obtain ⟨rfl, rfl⟩ := gives_pure.1 h₁
      simpa using ReceiverOf.dynamic hb hk ho
    · obtain ⟨_, _, _, _, hv, h₁, rfl, rfl⟩ := gives_bind.1 h
      obtain ⟨rfl, rfl⟩ := gives_pure.1 h₁
      simpa using ReceiverOf.direct hb (Bool.eq_false_iff.2 hk) (value_gives hv)

theorem intrinsic_gives (hm : F.program.method? call.method = .ok callee)
    (hi : F.program.intrinsic? callee = some which)
    (h : (intrinsic which call target).Gives F s r j) : Invoked F n call target s r j := by
  cases which with
  | exit =>
    obtain ⟨_, _, _, _, hl, h₁, rfl, rfl⟩ := gives_bind.1 (gives_methodName_bind.1 h)
    obtain ⟨rfl, rfl⟩ := gives_log.1 hl
    obtain ⟨rfl, rfl⟩ := gives_leave.1 h₁
    exact .exit hm hi
  | stringLength =>
    simp only [intrinsic] at h
    split at h
    · exact (not_gives_refuse h).elim
    · rename_i base hb
      obtain ⟨_, _, _, _, hd, h₁, rfl, rfl⟩ := gives_bind.1 h
      obtain ⟨e, s', code, ho, rfl⟩ := dereference_gives hd
      cases target with
      | none =>
        obtain ⟨rfl, rfl⟩ := gives_pure.1 h₁
        simpa using Invoked.stringLengthDropped hm hi hb ho rfl
      | some v => exact .stringLength hm hi hb ho rfl (assignTo_gives h₁)

/-- Every successful lowering of a call has a derivation. -/
theorem invoke_gives (h : (invoke n call target).Gives F s r j) :
    Invoked F n call target s r j := by
  obtain ⟨callee, hm, h₁⟩ := gives_promise_bind.1 (gives_frame_bind.1 h)
  split at h₁
  · rename_i which hi
    exact intrinsic_gives hm hi h₁
  · rename_i hi
    obtain ⟨hstatic, h₂⟩ := gives_check.1 h₁
    obtain ⟨hargs, h₃⟩ := gives_check.1 h₂
    obtain ⟨_, _, _, _, hr, h₄, rfl, rfl⟩ := gives_bind.1 h₃
    obtain ⟨_, _, _, _, ha, h₅, rfl, rfl⟩ := gives_bind.1 h₄
    obtain ⟨_, _, _, _, gd, h₆, rfl, rfl⟩ := gives_bind.1 h₅
    obtain ⟨⟨result, writeBack⟩, s₃, hd, rfl, rfl⟩ := destination_gives gd
    obtain ⟨_, _, _, _, gp, h₇, rfl, rfl⟩ := gives_bind.1 h₆
    obtain ⟨thrown, c₃, hp, rfl⟩ := perform_gives gp
    obtain ⟨_, _, r, j, gx, h₈, rfl, rfl⟩ := gives_bind.1 h₇
    obtain ⟨c₄, hx, rfl⟩ := exceptionContinuation_gives gx
    have hw : WrittenBack F s₃ writeBack r j := by
      cases writeBack with
      | none =>
        obtain ⟨rfl, rfl⟩ := gives_pure.1 h₈
        exact .none
      | some v => exact .some (assignTo_gives h₈)
    simpa using Invoked.call hm hi (not_not.1 hstatic) (not_not.1 hargs) (receiverOf_gives hr)
      (arguments_gives ha) hd hp hx hw

end Lower

end Verilower
