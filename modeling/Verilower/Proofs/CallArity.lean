import Verilower.Proofs.CallSites
import Verilower.Proofs.Receivers

namespace Verilower
set_option autoImplicit true

open Ivl

/-- Temporaries have their numbers as names, and no source local has a name that is made up. -/
structure LocalPool.Numbered (pool : LocalPool) : Prop where
  slots : ∀ x ∈ pool.slots, ¬ x.IsReserved
  temps : ∀ (k : Nat) (x : Ident), pool.temps[k]? = some x → x.name = "$fakelocal_" ++ toString k

namespace LocalPool

theorem numbered_of_ofSlots {slots : List Slot} (h : ofSlots slots = .ok pool) :
    pool.Numbered := by
  refine ⟨fun x hx => not_isReserved_of_ofSlots h hx, ?_⟩
  obtain ⟨tys, -, h₁⟩ := except_bind_eq_ok.1 h
  cases h₁
  exact nofun

theorem stable_numbered : Stable Numbered := by
  intro pool ty h
  refine ⟨h.slots, fun k x hk => ?_⟩
  obtain hlt | hge := Nat.lt_or_ge k pool.temps.length
  · rw [fresh, List.getElem?_append_left hlt] at hk
    exact h.temps k x hk
  · rw [fresh, List.getElem?_append_right hge, List.getElem?_singleton] at hk
    split at hk
    · cases hk
      obtain rfl : k = pool.temps.length := by omega
      rfl
    · cases hk

theorem Numbered.fresh_notMem (h : Numbered pool) (ty : Ivl.Ty) :
    (pool.fresh ty).2 ∉ pool.vars := by
  intro hmem
  obtain hmem | hmem := List.mem_append.1 hmem
  · exact h.slots _ hmem (.numbered (by decide) _ ty)
  · obtain ⟨k, hk⟩ := List.mem_iff_getElem?.1 hmem
    have hname : "$fakelocal_" ++ toString pool.temps.length = "$fakelocal_" ++ toString k :=
      h.temps k _ hk
    have hlt := (List.getElem?_eq_some_iff.1 hk).1
    have heq := toString_injective ((String.append_right_inj _).1 hname)
    omega

end LocalPool

namespace Lower

theorem Reaches.pool (h : Reaches F g k t) (hI : LocalPool.Stable I)
    (h₀ : ∀ pool, LocalPool.ofSlots F.body.slots = .ok pool → I pool) : I t.pool := by
  obtain ⟨pool, r, j, hpool, hseg, rfl⟩ := h
  exact (segments_gives hseg).pool hI (h₀ pool hpool)

theorem Evaluated.pool (h : Evaluated F s call callee target o t code) (hI : LocalPool.Stable I)
    (hs : I s.pool) : I t.pool := by
  obtain ⟨hr, ha, -⟩ := h
  exact (arguments_gives ha).pool hI ((receiverOf_gives hr).pool hI hs)

theorem Evaluated.receiver_isNone {call : Call} (h : Evaluated F s call callee target o t code) :
    o.receiver.isNone = call.base.isNone := by
  obtain ⟨hr, -, -⟩ := h
  exact (receiverOf_gives hr).isNone_eq

theorem Evaluated.args_length {call : Call} (h : Evaluated F s call callee target o t code) :
    o.args.length = min call.args.length callee.params.length := by
  obtain ⟨-, ha, -⟩ := h
  exact (arguments_gives ha).length_eq.trans List.length_zip

/-- The variable of a result is the local that the call is assigned to, or the next temporary. -/
theorem Evaluated.result (h : Evaluated F s call callee target o t code) (hx : x ∈ o.result) :
    (∃ index, target = some (.slot index) ∧ t.pool.slot index = .ok x) ∨ ∃ ty, x = t.next ty := by
  obtain ⟨-, -, hd⟩ := h
  obtain ⟨d, s', hdest, hr, -⟩ := destination_gives hd
  cases hr
  cases hdest with
  | void => cases hx
  | dropped | other =>
    cases hx
    exact .inr ⟨_, rfl⟩
  | «local» _ _ hslot =>
    cases hx
    exact .inl ⟨_, rfl, hslot⟩

end Lower

namespace CallSite

/-- Every method that a call may run has the receiver and the parameters of the method it names. -/
theorem Of.alike (h : Of x s body low) (hm : m ∈ x.methods) (hm' : s.program.method? m = .ok m') :
    m'.isStatic = x.call.base.isNone ∧ m'.params = x.callee.params := by
  unfold methods Target.methodsOr at hm
  split at hm
  · obtain rfl := List.mem_singleton.1 hm
    cases h.declared.symm.trans hm'
    exact ⟨h.static, rfl⟩
  · obtain ⟨t, ht, rfl⟩ := List.mem_map.1 hm
    obtain ⟨hstatic, hparams⟩ := (h.resolved.overrides ht).method hm'
    obtain ⟨base, hb⟩ := h.resolved.exists_base ht
    refine ⟨?_, hparams⟩
    rw [hstatic, hb]
    rfl

theorem Of.state_pool (h : Of x s body low) (hI : LocalPool.Stable I)
    (h₀ : ∀ pool, LocalPool.ofSlots body.slots = .ok pool → I pool) : I x.state.pool := by
  obtain ⟨caller, t, code, -, hreach, heval, -⟩ := h.evaluated
  exact heval.pool hI (hreach.pool hI h₀)

/-- A call of the site's operands fits the method and its procedure, and takes what comes back in
the variables of the implementation. -/
structure Fits (x : CallSite) (i : Implementation) (low : Lowered) (m : Method) (sig : Signature) :
    Prop where
  receiver : x.operands.receiver.isSome = !m.isStatic
  args : x.operands.args.length = m.params.length
  ins : x.operands.actuals.length = sig.procedure.ins.length
  result : x.operands.result.isSome = !m.returns.isVoid
  location : ∀ y ∈ x.operands.result, y ∈ i.locals ∧
    ((∃ index, x.target = some (.slot index) ∧ low.pool.slots[index]? = some y) ∨
      y ∈ low.pool.temps ∧ y ∉ x.state.pool.vars)
  slot : i.procedure.outs.getLast? = some x.operands.slot
  outs : x.operands.outs.length = sig.procedure.outs.length

/-- The variable of a result is declared, and it is the local that the call is assigned to or a
temporary that is not there before. -/
theorem Of.location (h : Of x s body low) (hlow : BodyLowered s.program s.prelude g body low j)
    (hy : y ∈ x.operands.result) : y ∈ low.pool.vars ∧
      ((∃ index, x.target = some (.slot index) ∧ low.pool.slots[index]? = some y) ∨
        y ∈ low.pool.temps ∧ y ∉ x.state.pool.vars) := by
  refine ⟨h.result y hy, ?_⟩
  obtain ⟨caller, t, code, -, -, heval, -⟩ := h.evaluated
  obtain ⟨index, htarget, hslot⟩ | ⟨ty, rfl⟩ := heval.result hy
  · obtain ⟨pool, hpool, hslots⟩ := hlow.slots_eq
    have hstate : x.state.pool.slots = pool.slots :=
      h.state_pool (I := fun p => p.slots = pool.slots) (fun _ _ hp => hp) fun pool' hpool' =>
        congrArg LocalPool.slots (Except.ok.inj (hpool'.symm.trans hpool))
    refine .inl ⟨index, htarget, ?_⟩
    rw [hslots, ← hstate]
    exact LocalPool.getElem?_of_slot hslot
  · have hnumbered := h.state_pool LocalPool.stable_numbered fun _ => LocalPool.numbered_of_ofSlots
    refine .inr ⟨?_, hnumbered.fresh_notMem ty⟩
    obtain hslot | htemp := List.mem_append.1 (h.result _ hy)
    · exact absurd (Scratch.next_isReserved x.state ty) (hlow.slots_not_isReserved _ hslot)
    · exact htemp

theorem Of.fits (h : Of x s body low) (hlow : BodyLowered s.program s.prelude g body low j)
    (hm : m ∈ x.methods) (hmethod : s.program.method? m = .ok method)
    (hcalled : Lower.Called s.program s.prelude x.operands m sig part) :
    x.Fits (low.implementation s.options) low method sig := by
  obtain ⟨hsig, hin, hout, -⟩ := hcalled
  obtain ⟨_, hbuilt⟩ := Signature.built_of_result hsig
  obtain ⟨_, hown⟩ := Signature.built_of_result hlow.signature_eq
  obtain ⟨hstatic, hparams⟩ := h.alike hm hmethod
  obtain ⟨caller, t, code, -, -, heval, -⟩ := h.evaluated
  refine ⟨?_, ?_, hin, ?_, fun y hy => ?_, ?_, hout⟩
  · rw [hstatic, ← heval.receiver_isNone, Option.not_isNone]
  · rw [heval.args_length, h.count, Nat.min_self, hparams]
  · rw [← hbuilt.result_isSome hmethod]
    rw [hbuilt.outs_eq, Operands.outs] at hout
    cases hres : x.operands.result <;> cases hsres : sig.result <;> simp [hres, hsres] at hout ⊢
  · obtain ⟨hvars, hloc⟩ := h.location hlow hy
    exact ⟨List.mem_append_left _ hvars, hloc⟩
  · show low.signature.procedure.outs.getLast? = _
    rw [hown.outs_eq, heval.slot, List.getLast?_append]
    rfl

end CallSite

theorem Session.lower_error {s : Session} (h : (s.lower b).1 = .error e) :
    (lowerBody s.program s.prelude s.registry.globals.length b).result = .error e := by
  rw [lower_fst] at h
  cases hresult : (lowerBody s.program s.prelude s.registry.globals.length b).result with
  | error e' =>
    rw [hresult] at h
    cases h
    rfl
  | ok l =>
    rw [hresult] at h
    cases h

/-- Calls fit what they call. No body is refused for the number of arguments that a procedure takes,
and every call statement of an implementation, nested ones included, is the call of a method that a
call of the body may run, with operands that fit it. -/
theorem Session.lower_arity (s : Session) (body : Body) :
    (∀ cause, (s.lower body).1 = .error (.refused cause) → ∀ procedure expected given,
      cause.root ≠ .procedureArguments procedure expected given) ∧
    ∀ i, (s.lower body).1 = .ok i → ∃ low : Lowered,
      (lowerBody s.program s.prelude s.registry.globals.length body).result = .ok low ∧
      i = low.implementation s.options ∧
      ∀ f args outs, Stmt.call f args outs ∈ i.body.flatMap Stmt.nested →
        ∃ (x : CallSite) (m : MethodId) (method : Method) (sig : Signature), x.Of s body low ∧
          m ∈ x.methods ∧ s.program.method? m = .ok method ∧
          (Signature.build s.program s.prelude m).result = .ok sig ∧
          .call f args outs = x.operands.call sig.name ∧ x.Fits i low method sig := by
  constructor
  · intro cause h
    exact lowerBody_agrees cause (Session.lower_error h)
  · intro i h
    obtain ⟨low, j, hgives, rfl, -⟩ := Session.lower_result h
    refine ⟨low, congrArg Trace.result hgives, rfl, fun f args outs hst => ?_⟩
    obtain ⟨x, hof, m, hm, sig, part, hcalled, hcall⟩ := exists_callSite_of_mem hgives hst
    have hsig := hcalled.build
    obtain ⟨_, hbuilt⟩ := Signature.built_of_result hsig
    obtain ⟨method, hmethod⟩ := hbuilt.declared_method
    exact ⟨x, m, method, sig, hof, hm, hmethod, hsig, hcall,
      hof.fits (lowerBody_gives hgives) hm hmethod hcalled⟩

def meters : Program := .declaring [
  .addClass "Meter",
  .addClass "Gauge" (some 3),
  .addMethod ClassId.object { name := "clone", returns := .cls ClassId.object },
  .addMethod 3 { name := "read", params := [.int], returns := .int },
  .addOverride 4 1,
  .addMethod 3 { name := "sample", params := [.cls 3], isStatic := true }] (by decide +kernel)

/-- A reading that is stored, one that is converted, a copy, and a reading that is dropped. -/
def metersBody : Body where
  method := 3
  slots := [⟨"x", .cls 3⟩, ⟨"y", .int⟩, ⟨"b", .bool⟩, ⟨"z", .cls ClassId.object⟩]
  nodes := [
    { instr := .identity 0 (.param 0) },
    { instr := .assign (.slot 1) (.invoke .virtual 1 (some (.slot 0)) [.constant (.bool true)]) },
    { instr := .assign (.slot 2) (.invoke .virtual 1 (some (.slot 0)) [.slot 1]) },
    { instr := .assign (.slot 3) (.invoke .virtual 0 (some (.slot 0)) []) },
    { instr := .invoke ⟨.special, 1, some (.slot 0), [.slot 1]⟩ },
    { instr := .retVoid }]
  sound := by decide

def metersSession : Session := .start (.ofProgram meters) .standard {}

/-- The call in the branch for gauges, whose argument is a truth value in the body. -/
abbrev gaugeCall : Stmt :=
  .call "Gauge$int$read$int" [.ident ⟨"x", .ref⟩, .apply "$boolToInt" [.bool true] .int]
    [⟨"y", .int⟩, ⟨"$exception", .ref⟩]

abbrev metersCallees : List String := [
  "Meter$int$read$int", "Gauge$int$read$int", "Meter$int$read$int", "Gauge$int$read$int",
  "java.lang.Object$java.lang.Object$clone", "Meter$int$read$int"]

/-- Readings and copies are called with operands that fit, in branches and directly. -/
theorem lower_arity_meters :
    ∃ (i : Implementation) (low : Lowered) (x : CallSite) (m : MethodId) (method : Method)
        (sig : Signature),
      (metersSession.lower metersBody).1 = .ok i ∧ callees i.body = metersCallees ∧
      gaugeCall ∈ i.body.flatMap Stmt.nested ∧ x.Of metersSession metersBody low ∧ m ∈ x.methods ∧
      gaugeCall = x.operands.call sig.name ∧ x.Fits i low method sig := by
  have hrun : ((metersSession.lower metersBody).1.toOption.map fun i =>
      (callees i.body, decide (gaugeCall ∈ i.body.flatMap Stmt.nested))) =
      some (metersCallees, true) := by decide +kernel
  obtain ⟨i, hi, hcalls⟩ := exists_of_toOption_map hrun
  obtain ⟨hcallees, hmem⟩ := Prod.mk.inj hcalls
  have hgauge := of_decide_eq_true hmem
  obtain ⟨low, -, -, hfit⟩ := (Session.lower_arity metersSession metersBody).2 i hi
  obtain ⟨x, m, method, sig, hof, hm, -, -, hcall, hfits⟩ := hfit _ _ _ hgauge
  exact ⟨i, low, x, m, method, sig, hi, hcallees, hgauge, hof, hm, hcall, hfits⟩

end Verilower
