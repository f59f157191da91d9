import Verilower.Proofs.Escapes
import Verilower.Proofs.Lowering.Refusals

namespace Verilower
set_option autoImplicit true

open Ivl

/-- The operands of a call once they are lowered. -/
structure Operands where
  receiver : Option Expr
  args : List Expr
  /-- The variable that takes the result. -/
  result : Option Ident
  /-- The variable that takes the exception. -/
  slot : Ident

namespace Operands

def actuals (o : Operands) : List Expr := o.receiver.toList ++ o.args

def outs (o : Operands) : List Ident := o.result.toList ++ [o.slot]

def call (o : Operands) (procedure : String) : Stmt := .call procedure o.actuals o.outs

/-- What the calls of targets have in common, which are made through the receiver. -/
def through (o : Operands) (receiver : Expr) : Dispatched := ⟨receiver, o.actuals, o.outs⟩

end Operands

/-- The targets of a call; only a dynamic call has any. -/
inductive Code.Targets (c : Code) (p : Program) (call : Call) (callee : Method) :
    List Target → Prop
  | direct (hk : call.kind.isDynamic = false) : Targets c p call callee []
  | dynamic (hk : call.kind.isDynamic = true) (hb : call.base = some base)
      (hty : c.typeOf p base = .ok ty)
      (ht : p.dispatch (Lower.startClass callee ty) callee = .ok ts) : Targets c p call callee ts

/-- The methods that a call of `m` with the targets may run. -/
def Target.methodsOr (m : MethodId) (ts : List Target) : List MethodId :=
  if ts = [] then [m] else ts.map Target.method

theorem Code.Targets.exists_base {c : Code} {call : Call} (h : c.Targets p call callee ts)
    (ht : t ∈ ts) : ∃ base, call.base = some base := by
  cases h with
  | direct => cases ht
  | dynamic _ hb => exact ⟨_, hb⟩

theorem Code.Targets.eq_of_dispatch {c : Code} {call : Call} (h : c.Targets p call callee ts)
    (hk : call.kind.isDynamic = true) (hb : call.base = some base)
    (hty : c.typeOf p base = .ok ty)
    (ht : p.dispatch (Lower.startClass callee ty) callee = .ok ts') : ts = ts' := by
  cases h with
  | direct hk' => simp [hk] at hk'
  | dynamic _ hb' hty' ht' =>
    cases hb.symm.trans hb'
    cases hty.symm.trans hty'
    exact Except.ok.inj (ht'.symm.trans ht)

theorem Code.Targets.overrides {c : Code} {call : Call} (h : c.Targets p call callee ts)
    (ht : t ∈ ts) : p.Overrides callee t.owner t.method := by
  cases h with
  | direct => cases ht
  | dynamic _ _ _ hd => exact Program.overrides_of_dispatch hd ht

namespace Lower

/-- The operands of a call, lowered one after the other from a state: the receiver, the arguments
and then the destination of the result. The code is that of the receiver and the arguments, and
`s₂` is the state in which the destination is chosen. -/
inductive Evaluated (F : Frame) (s : Scratch) (call : Call) (callee : Method)
    (target : Option Value) : Operands → Scratch → List Outline → Prop
  | intro (hr : (receiverOf call).Gives F s ⟨receiver, s₁, c₁⟩ j₁)
      (ha : (arguments (call.args.zip callee.params)).Gives F s₁ ⟨args, s₂, c₂⟩ j₂)
      (hd : (destination callee target).Gives F s₂ ⟨d, s₃, c₃⟩ j₃) :
      Evaluated F s call callee target ⟨receiver, args, d.result, F.signature.exception⟩ s₂
        (c₁ ++ c₂)

/-- The call of one method with the operands, after its preconditions and before assumptions. -/
inductive Called (p : Program) (q : Prelude) (o : Operands) (m : MethodId) (sig : Signature) :
    List Outline → Prop
  | intro (hs : (Signature.build p q m).result = .ok sig)
      (hin : o.actuals.length = sig.procedure.ins.length)
      (hout : o.outs.length = sig.procedure.outs.length) (facts : List Expr) :
      Called p q o m sig (preconditionCode sig o.actuals ++ [.plain (o.call sig.name)] ++
        facts.map fun e => .plain (.assume e))

/-- The call of a target, behind a test of the receiver's tag. -/
def CalledAt (p : Program) (q : Prelude) (o : Operands) (receiver : Expr) (t : Target)
    (branch : Outline) : Prop :=
  ∃ τ sig code, p.tag (.cls t.owner) = .ok τ ∧ Called p q o t.method sig code ∧
    branch = .when (.eq (Prelude.typeOf receiver) τ.expr) code

/-- The calls of what a call of `m` may run: of each target in its own branch, or of `m` itself if
there is no target. -/
inductive Calls (p : Program) (q : Prelude) (o : Operands) (m : MethodId) :
    List Target → List Outline → Prop
  | single (h : Called p q o m sig code) : Calls p q o m [] code
  | guarded (hne : ts ≠ []) (hr : o.receiver = some receiver)
      (h : List.Forall₂ (CalledAt p q o receiver) ts code) : Calls p q o m ts code

theorem DirectCall.called {o : Operands}
    (h : DirectCall F m callee o.actuals o.result captured code j)
    (hslot : o.slot = F.signature.exception) :
    ∃ sig, Called F.program F.prelude o m sig code := by
  obtain ⟨hs, hin, hout, ha⟩ := h
  obtain ⟨es, rfl⟩ := ha.formulas
  have houts : callOuts F o.result = o.outs := by rw [callOuts, Operands.outs, hslot]
  rw [houts] at hout ⊢
  exact ⟨_, .intro hs hin hout es⟩

theorem GuardedCalls.called {o : Operands}
    (h : GuardedCalls F receiver o.actuals o.result captured ts thrown code j)
    (hslot : o.slot = F.signature.exception) :
    List.Forall₂ (CalledAt F.program F.prelude o receiver) ts code := by
  induction h with
  | nil => exact .nil
  | cons _ hd ht _ ih =>
    obtain ⟨sig, hcalled⟩ := hd.called hslot
    exact .cons ⟨_, sig, _, ht, hcalled, rfl⟩ ih

theorem Performed.calls {o : Operands} {call : Call}
    (h : Performed F n call callee o.actuals o.result captured o.receiver thrown code j)
    (hslot : o.slot = F.signature.exception) :
    ∃ ts, F.body.Targets F.program call callee ts ∧
      Calls F.program F.prelude o call.method ts code := by
  generalize hrec : o.receiver = receiver at h
  cases h with
  | direct hk hd =>
    obtain ⟨sig, hcalled⟩ := hd.called hslot
    exact ⟨[], .direct hk, .single hcalled⟩
  | fallback hk hb hty ht hd =>
    obtain ⟨sig, hcalled⟩ := hd.called hslot
    exact ⟨[], .dynamic hk hb hty ht, .single hcalled⟩
  | devirtualized hk hb hty ht hne hg =>
    exact ⟨_, .dynamic hk hb hty ht, .guarded hne hrec (hg.called hslot)⟩

/-- A call that is no intrinsic: its operands, the calls of what it may run, and code that calls
nothing. -/
theorem invoke_calls {call : Call} (h : (invoke n call target).Gives F s r j)
    (hm : F.program.method? call.method = .ok callee) (hi : F.program.intrinsic? callee = none) :
    ∃ o s₂ before ts mid after, Evaluated F s call callee target o s₂ before ∧
      callee.isStatic = call.base.isNone ∧ call.args.length = callee.params.length ∧
      F.body.Targets F.program call callee ts ∧
      Calls F.program F.prelude o call.method ts mid ∧ r.code = before ++ mid ++ after ∧
      CallFree before ∧ CallFree after ∧ ∀ x ∈ o.result, x ∈ r.scratch.pool.vars := by
  obtain ⟨callee', hm', h₁⟩ := gives_promise_bind.1 (gives_frame_bind.1 h)
  cases hm.symm.trans hm'
  simp only [hi] at h₁
  obtain ⟨hstatic, h₂⟩ := gives_check.1 h₁
  obtain ⟨hargs, h₃⟩ := gives_check.1 h₂
  obtain ⟨⟨receiver, s₁, c₁⟩, _, _, _, hr, h₄, rfl, rfl⟩ := gives_bind.1 h₃
  obtain ⟨⟨args, s₂, c₂⟩, _, _, _, ha, h₅, rfl, rfl⟩ := gives_bind.1 h₄
  obtain ⟨_, _, _, _, gd, h₆, rfl, rfl⟩ := gives_bind.1 h₅
  obtain ⟨⟨result, writeBack⟩, s₃, hd, rfl, rfl⟩ := destination_gives gd
  obtain ⟨_, _, _, _, gp, h₇, rfl, rfl⟩ := gives_bind.1 h₆
  obtain ⟨thrown, c₃, hp, rfl⟩ := perform_gives gp
  obtain ⟨_, _, r, j, gx, h₈, rfl, rfl⟩ := gives_bind.1 h₇
  obtain ⟨c₄, hx, rfl⟩ := exceptionContinuation_gives gx
  have hw : WrittenBack F s₃ writeBack r j := by
    cases writeBack with
    | none =>
      obtain ⟨rfl, rfl⟩ := gives_pure.1 h₈
      exact .none
    | some v => exact .some (assignTo_gives h₈)
  have hcalls := Performed.calls (o := ⟨receiver, args, result, F.signature.exception⟩) hp rfl
  obtain ⟨ts, hts, hmid⟩ := hcalls
  have code_eq : c₁ ++ (c₂ ++ ([] ++ (c₃ ++ (c₄ ++ r.code)))) =
      (c₁ ++ c₂) ++ c₃ ++ (c₄ ++ r.code) := by simp
  refine ⟨_, s₂, _, ts, c₃, _, .intro hr ha gd, not_not.1 hstatic, not_not.1 hargs, hts, hmid,
    code_eq, ?_, ?_, ?_⟩
  · exact (receiverOf_gives hr).inline.callFree.append (arguments_gives ha).inline.callFree
  · exact hx.callFree.append hw.inline.callFree
  · intro x hres
    apply hw.pool (LocalPool.stable_mem x)
    exact hd.result_mem hres

theorem Invoked.declared {call : Call} (h : Invoked F n call target s r j) :
    ∃ callee, F.program.method? call.method = .ok callee := by
  cases h with
  | exit hm | stringLengthDropped hm | stringLength hm | call hm => exact ⟨_, hm⟩

theorem Invoked.callFree {call : Call} (h : Invoked F n call target s r j)
    (hm : F.program.method? call.method = .ok callee) (hi : F.program.intrinsic? callee ≠ none) :
    CallFree r.code := by
  cases h with
  | exit => exact callFree_exitCode
  | stringLengthDropped _ _ _ ho =>
    exact (inline_append.2 ⟨ho.inline, inline_nullGuard⟩).callFree
  | stringLength _ _ _ ho _ hs =>
    exact (inline_append.2 ⟨inline_append.2 ⟨ho.inline, inline_nullGuard⟩, hs.inline⟩).callFree
  | call hm' hi' =>
    cases hm.symm.trans hm'
    exact absurd hi' hi

theorem callees_cascaded {inner : Stmt} (hi : callees [inner] = []) :
    callees [cascaded F key cases inner] = [] := by
  induction cases generalizing inner with
  | nil => exact hi
  | cons c cases ih =>
    apply ih
    rw [callees, collect_ite, ← callees, ← callees, hi, jump, Stmt.jump, callees_flat rfl]
    rfl

theorem Switched.callFree (h : Switched F n key cases other s r j) : CallFree r.code := by
  cases h with
  | empty => exact callFree_plain rfl rfl
  | cascade _ ho =>
    refine ho.inline.callFree.append fun enc => ?_
    rw [Encoding.encodeAll_plain]
    exact callees_cascaded (callees_flat rfl)

theorem CatchJumps.callFree (h : CatchJumps F handler ids code j) : CallFree code := by
  induction h with
  | nil => exact fun _ => rfl
  | cons _ _ ih => exact callFree_jumpWhen.cons ih

theorem HandlerJumps.callFree (h : HandlerJumps F traps handlers code j) : CallFree code := by
  induction h with
  | nil => exact fun _ => rfl
  | cons hc _ ih => exact hc.callFree.append ih

theorem Handed.callFree (h : Handed F n code j) : CallFree code := by
  cases h with
  | leave => exact callFree_exitCode
  | single => exact callFree_plain rfl rfl
  | many _ hj => exact hj.callFree.append (callFree_plain rfl rfl)

theorem Executed.callFree (h : Executed F n s i r j) (hc : i.call? = none) : CallFree r.code := by
  cases h with
  | assign h =>
    cases h with
    | invoke => cases hc
    | new _ hs => exact (inline_append.2 ⟨inline_newObject, hs.inline⟩).callFree
    | newArray ho _ _ hs =>
      exact Inline.callFree (by simp [ho.inline, hs.inline, Outline.isInline])
    | newMultiArray hd _ hs => exact Inline.callFree (by simp [hd.inline, hs.inline])
    | value ho hs => exact (inline_append.2 ⟨ho.inline, hs.inline⟩).callFree
  | identity h => exact h.inline.callFree
  | invoke => cases hc
  | goto => exact callFree_plain rfl rfl
  | branch ho => exact ho.inline.callFree.append callFree_jumpWhen
  | lookupSwitch h | tableSwitch _ h => exact h.callFree
  | ret _ ho =>
    exact (ho.inline.callFree.append (callFree_plain rfl rfl)).append callFree_exitCode
  | retVoid => exact callFree_exitCode
  | raise ho _ _ hh =>
    exact (ho.inline.callFree.append (callFree_plain rfl rfl)).append hh.callFree
  | nop | breakpoint => exact fun _ => rfl
  | enterMonitor ho | exitMonitor ho =>
    exact (inline_append.2 ⟨ho.inline, inline_nullGuard⟩).callFree
  | retSubroutine => exact Inline.callFree rfl

theorem instr_of_call? (h : Instr.call? i = some (call, target)) :
    instr n i = invoke n call target := by
  cases i with
  | assign location v =>
    cases v <;> cases h
    rfl
  | invoke =>
    cases h
    rfl
  | _ => cases h

theorem node_instr (h : (node n nd).Gives F s r j) :
    ∃ r' j', (instr n nd.instr).Gives F s r' j' ∧
      r = ⟨(), r'.scratch, entryCode F n ++ r'.code⟩ := by
  replace h := gives_frame_bind.1 h
  split at h <;> rename_i ht
  · obtain ⟨_, _, _, _, hl, h₁, rfl, rfl⟩ := gives_bind.1 h
    obtain ⟨rfl, rfl⟩ := gives_label.1 hl
    obtain ⟨_, _, _, _, he, h₂, rfl, rfl⟩ := gives_bind.1 h₁
    obtain ⟨rfl, rfl⟩ := gives_emit.1 he
    exact ⟨_, _, h₂, by simp [entryCode, ht]⟩
  · exact ⟨r, j, h, by simp [entryCode, ht]⟩

theorem segments_cons : (segments ((nd, n) :: nodes) F s).Gives r j ↔
    ∃ r₁ j₁ r₂ j₂, (node n nd).Gives F s r₁ j₁ ∧ (segments nodes F r₁.scratch).Gives r₂ j₂ ∧
      r = ⟨r₁.code :: r₂.value, r₂.scratch, []⟩ ∧ j = j₁ ++ j₂ := by
  simp only [segments, Trace.gives_bind, Trace.gives_within, Trace.gives_pure]
  constructor
  · rintro ⟨r₁, j₁, _, hn, ⟨r₂, j₂, _, hrest, ⟨rfl, rfl⟩, rfl⟩, rfl⟩
    exact ⟨r₁, j₁, r₂, j₂, hn, hrest, rfl, by simp⟩
  · rintro ⟨r₁, j₁, r₂, j₂, hn, hrest, rfl, rfl⟩
    exact ⟨r₁, j₁, _, hn, ⟨r₂, j₂, [], hrest, ⟨rfl, rfl⟩, rfl⟩, by simp⟩

/-- A node is lowered from the state that the nodes before it leave. -/
theorem segments_at (h : (segments nodes F s).Gives r j) (hk : nodes[k]? = some (nd, n)) :
    ∃ r₀ j₀ r' j', (segments (nodes.take k) F s).Gives r₀ j₀ ∧
      (instr n nd.instr).Gives F r₀.scratch r' j' ∧
      r.value[k]? = some (entryCode F n ++ r'.code) ∧
      ∀ x ∈ r'.scratch.pool.vars, x ∈ r.scratch.pool.vars := by
  induction nodes generalizing k s r j with
  | nil => cases hk
  | cons nd₀ nodes ih =>
    obtain ⟨r₁, j₁, r₂, j₂, hn, hrest, rfl, rfl⟩ := segments_cons.1 h
    cases k with
    | zero =>
      cases hk
      obtain ⟨r', j', hi, rfl⟩ := node_instr hn
      refine ⟨_, _, r', j', Trace.gives_pure.2 ⟨rfl, rfl⟩, hi, rfl, fun x hx => ?_⟩
      exact (segments_gives hrest).pool (LocalPool.stable_mem x) hx
    | succ k =>
      obtain ⟨r₀, j₀, r', j', h₀, hi, hseg, hpool⟩ := ih hrest hk
      exact ⟨_, _, r', j', segments_cons.2 ⟨r₁, j₁, r₀, j₀, hn, h₀, rfl, rfl⟩, hi, hseg, hpool⟩

end Lower

theorem Ivl.call_not_mem (h : callees ss = []) : .call f args outs ∉ ss.flatMap Stmt.nested := by
  intro hmem
  have hf : f ∈ callees ss := List.mem_flatMap.2 ⟨_, hmem, List.mem_singleton_self f⟩
  rw [h] at hf
  cases hf

namespace Lower

theorem Called.build (h : Called p q o m sig code) :
    (Signature.build p q m).result = .ok sig := by
  obtain ⟨hs, -⟩ := h
  exact hs

theorem Called.eq_of_mem (h : Called p q o m sig code) {enc : Encoding}
    (hst : .call f args outs ∈ (enc.encodeAll code).flatMap Stmt.nested) :
    .call f args outs = o.call sig.name := by
  obtain ⟨-, -, -, facts⟩ := h
  simp only [Encoding.encodeAll_append, List.flatMap_append, List.mem_append] at hst
  obtain (hst | hst) | hst := hst
  · exact absurd hst (call_not_mem (inline_preconditionCode.callFree enc))
  · rw [Encoding.encodeAll_plain, List.flatMap_singleton, Operands.call, Stmt.nested_flat rfl] at hst
    exact List.mem_singleton.1 hst
  · exact absurd hst (call_not_mem (inline_assumptions.callFree enc))

theorem methodsOr_targets (hne : ts ≠ []) : Target.methodsOr m ts = ts.map Target.method :=
  if_neg hne

/-- A call statement among the calls of what may run is the call of one of these methods. -/
theorem Calls.called_of_mem (h : Calls p q o m ts code) (enc : Encoding)
    (hst : .call f args outs ∈ (enc.encodeAll code).flatMap Stmt.nested) :
    ∃ m' ∈ Target.methodsOr m ts, ∃ sig part, Called p q o m' sig part ∧
      .call f args outs = o.call sig.name := by
  cases h with
  | single h => exact ⟨m, List.mem_singleton_self m, _, _, h, h.eq_of_mem hst⟩
  | @guarded _ receiver _ hne _ h =>
    rw [methodsOr_targets hne]
    clear hne
    induction h with
    | nil => cases hst
    | @cons t branch ts branches hb _ ih =>
      obtain ⟨τ, sig, body, -, hcalled, rfl⟩ := hb
      rw [Encoding.encodeAll_cons, Encoding.encode_when, List.flatMap_append, List.mem_append,
        List.flatMap_singleton, Stmt.when, Stmt.nested_ite, List.flatMap_nil, List.append_nil,
        List.mem_cons] at hst
      obtain (hst | hst) | hst := hst
      · cases hst
      · exact ⟨t.method, List.mem_cons_self, sig, body, hcalled, hcalled.eq_of_mem hst⟩
      · obtain ⟨m', hm', hcall⟩ := ih hst
        exact ⟨m', List.mem_cons_of_mem _ hm', hcall⟩

/-- The call of a target behind the test of its tag is a candidate that answers it. -/
theorem Called.candidate (h : Called p q o t.method sig code)
    (ht : p.tag (.cls t.owner) = .ok τ) (receiver : Expr) :
    ∃ c : Candidate, c.tag = τ ∧ code = (o.through receiver).branch c ∧ c.Answers p q t := by
  obtain ⟨hs, -, -, facts⟩ := h
  refine ⟨⟨τ, sig.name, sig.procedure.preconditions.map fun e =>
    e.substitute (Subst.ofPairs (sig.formals.zip o.actuals)), facts⟩, rfl, ?_, ht, sig, hs, rfl⟩
  simp [Dispatched.branch, preconditionCode, Operands.through, Operands.call]

theorem CalledAt.candidates (h : List.Forall₂ (CalledAt p q o receiver) ts code) :
    ∃ l, code = (o.through receiver).code l ∧ List.Forall₂ (Candidate.Answers p q) ts l := by
  induction h with
  | nil => exact ⟨[], rfl, .nil⟩
  | cons hb _ ih =>
    obtain ⟨τ, sig, body, ht, hcalled, rfl⟩ := hb
    obtain ⟨c, rfl, rfl, hc⟩ := hcalled.candidate ht receiver
    obtain ⟨l, rfl, hl⟩ := ih
    exact ⟨c :: l, rfl, .cons hc hl⟩

theorem Evaluated.slot (h : Evaluated F s call callee target o t code) :
    o.slot = F.signature.exception := by
  obtain ⟨-, -, -⟩ := h
  rfl

/-- The state in which node `k` is lowered, if `globals` global variables exist at the start. -/
def Reaches (F : Frame) (globals k : Nat) (t : Scratch) : Prop :=
  ∃ pool r j, LocalPool.ofSlots F.body.slots = .ok pool ∧
    (segments (F.body.nodes.zipIdx.take k) F { pool, globals }).Gives r j ∧ t = r.scratch

end Lower

/-- The frame in which a body was lowered. -/
def Session.frame (s : Session) (body : Body) (caller : Method) (low : Lowered) : Frame where
  program := s.program
  prelude := s.prelude
  body
  method := caller
  signature := low.signature

/-- A call of a lowered body, with the segment of its node in three parts: what comes before the
calls of the methods that it may run, these calls, and what comes after them. -/
structure CallSite where
  node : Nat
  call : Call
  target : Option Value
  callee : Method
  operands : Operands
  /-- The state in which the variable of the result is chosen. -/
  state : Scratch
  targets : List Target
  before : List Outline
  calls : List Outline
  after : List Outline

namespace CallSite

def methods (x : CallSite) : List MethodId := Target.methodsOr x.call.method x.targets

/-- The site is one of the lowered body; its call is no intrinsic. -/
structure Of (x : CallSite) (s : Session) (body : Body) (low : Lowered) : Prop where
  instr : ∃ node, body.nodes[x.node]? = some node ∧ node.instr.call? = some (x.call, x.target)
  declared : s.program.method? x.call.method = .ok x.callee
  plain : s.program.intrinsic? x.callee = none
  evaluated : ∃ caller t code, s.program.method? body.method = .ok caller ∧
    Lower.Reaches (s.frame body caller low) s.registry.globals.length x.node t ∧
    Lower.Evaluated (s.frame body caller low) t x.call x.callee x.target x.operands x.state code ∧
    x.before = Lower.entryCode (s.frame body caller low) x.node ++ code
  static : x.callee.isStatic = x.call.base.isNone
  count : x.call.args.length = x.callee.params.length
  resolved : body.Targets s.program x.call x.callee x.targets
  called : Lower.Calls s.program s.prelude x.operands x.call.method x.targets x.calls
  segment : low.segments[x.node]? = some (x.before ++ x.calls ++ x.after)
  quietBefore : Lower.CallFree x.before
  quietAfter : Lower.CallFree x.after
  result : ∀ y ∈ x.operands.result, y ∈ low.pool.vars

/-- The calls are candidates that answer the targets; what they test is the receiver of the site. -/
structure Devirtualized (x : CallSite) (p : Program) (q : Prelude) (receiver : Expr)
    (l : List Candidate) : Prop where
  receiver_eq : x.operands.receiver = some receiver
  calls : x.calls = (x.operands.through receiver).code l
  answers : List.Forall₂ (Candidate.Answers p q) x.targets l

theorem Of.devirtualized (h : Of x s body low) (hne : x.targets ≠ []) :
    ∃ receiver l, x.Devirtualized s.program s.prelude receiver l := by
  obtain ⟨node, call, target, callee, o, state, ts, before, code, after⟩ := x
  cases h.called with
  | single => exact (hne rfl).elim
  | guarded _ hr hcalled =>
    obtain ⟨l, hl, ha⟩ := Lower.CalledAt.candidates hcalled
    exact ⟨_, l, hr, hl, ha⟩

end CallSite

theorem Lowered.callees_prologue (l : Lowered) (o : Options) : callees (l.prologue o) = [] := by
  unfold prologue Signature.prologue
  rw [callees_append, callees_append]
  have hthis : callees (l.signature.receiver.toList.map
      fun this => .assume (Prelude.isNonNull this.expr)) = [] := by
    cases l.signature.receiver with
    | none => rfl
    | some this => exact callees_flat rfl
  rw [hthis, callees_flat rfl]
  split
  · exact callees_flat rfl
  · rfl

section Sites

variable {s : Session} {body : Body}

/-- Every node is lowered in the state that the nodes before it leave, and its code ends its
segment. The derivation of a body forgets these states; the run itself still has them. -/
theorem lowerBody_node
    (h : (lowerBody s.program s.prelude s.registry.globals.length body).Gives low j) :
    ∃ caller, s.program.method? body.method = .ok caller ∧
      ∀ (k : Nat) node, body.nodes[k]? = some node →
        ∃ t r j, Lower.Reaches (s.frame body caller low) s.registry.globals.length k t ∧
          (Lower.instr k node.instr).Gives (s.frame body caller low) t r j ∧
          low.segments[k]? = some (Lower.entryCode (s.frame body caller low) k ++ r.code) ∧
          ∀ x ∈ r.scratch.pool.vars, x ∈ low.pool.vars := by
  obtain ⟨caller, _, _, gm, h₁, rfl⟩ := Trace.gives_bind.1 h
  obtain ⟨hcaller, rfl⟩ := Trace.gives_promise.1 gm
  obtain ⟨sig, _, _, gs, h₂, rfl⟩ := Trace.gives_bind.1 h₁
  obtain ⟨hs, rfl⟩ := Trace.gives_signature.1 gs
  obtain ⟨pool, _, _, gp, h₃, rfl⟩ := Trace.gives_bind.1 h₂
  obtain ⟨hpool, rfl⟩ := Trace.gives_decision.1 (Trace.gives_within.1 gp)
  obtain ⟨_, _, _, gl, h₄, rfl⟩ := Trace.gives_bind.1 h₃
  obtain ⟨r, _, _, hr, h₅, rfl⟩ := Trace.gives_bind.1 h₄
  obtain ⟨rfl, -⟩ := Trace.gives_pure.1 h₅
  refine ⟨caller, hcaller, fun k node hnode => ?_⟩
  have hat : body.nodes.zipIdx[k]? = some (node, k) := by simp [hnode]
  obtain ⟨r₀, j₀, r', j', h₀, hinstr, hseg, hgrow⟩ := Lower.segments_at hr hat
  exact ⟨r₀.scratch, r', j', ⟨pool, r₀, j₀, hpool, h₀, rfl⟩, hinstr, hseg, hgrow⟩

theorem exists_callSite
    (h : (lowerBody s.program s.prelude s.registry.globals.length body).Gives low j)
    {k : Nat} {node : Node} {call : Call} (hnode : body.nodes[k]? = some node)
    (hcall : node.instr.call? = some (call, target))
    (hm : s.program.method? call.method = .ok callee) (hi : s.program.intrinsic? callee = none) :
    ∃ x : CallSite, x.Of s body low ∧ x.node = k ∧ x.call = call ∧ x.target = target ∧
      x.callee = callee := by
  obtain ⟨caller, hcaller, hat⟩ := lowerBody_node h
  obtain ⟨t₀, r, j', ht₀, hinstr, hseg, hgrow⟩ := hat k node hnode
  rw [Lower.instr_of_call? hcall] at hinstr
  obtain ⟨o, t, before, ts, mid, after, he, hstatic, hcount, hts, hcalls, hcode, hb, ha, hres⟩ :=
    Lower.invoke_calls hinstr hm hi
  refine ⟨⟨k, call, target, callee, o, t, ts, _, mid, after⟩, ⟨⟨node, hnode, hcall⟩, hm, hi,
    ⟨caller, t₀, before, hcaller, ht₀, he, rfl⟩, hstatic, hcount, hts, hcalls, ?_,
    Lower.callFree_entryCode.append hb, ha, ?_⟩, rfl, rfl, rfl, rfl⟩
  · rw [hcode] at hseg
    simpa using hseg
  · exact fun y hy => hgrow y (hres y hy)

theorem callFree_or_callSite
    (h : (lowerBody s.program s.prelude s.registry.globals.length body).Gives low j) {k : Nat}
    (hseg : low.segments[k]? = some seg) :
    Lower.CallFree seg ∨ ∃ x : CallSite, x.Of s body low ∧ x.node = k := by
  have hlow := lowerBody_gives h
  have hk := (List.getElem?_eq_some_iff.1 hseg).1
  obtain ⟨node, hnode⟩ : ∃ node, body.nodes[k]? = some node :=
    ⟨_, List.getElem?_eq_getElem (hlow.segments_length ▸ hk)⟩
  obtain ⟨F, _, r, _, hx, ⟨hp, -⟩, hcode⟩ := hlow.executed hnode
  obtain rfl := Option.some.inj (hseg.symm.trans hcode)
  cases hcall : node.instr.call? with
  | none => exact .inl (Lower.callFree_entryCode.append (hx.callFree hcall))
  | some found =>
    obtain ⟨call, target⟩ := found
    have hinv := hx.invoked hcall
    obtain ⟨callee, hm⟩ := hinv.declared
    cases hi : F.program.intrinsic? callee with
    | some => exact .inl (Lower.callFree_entryCode.append (hinv.callFree hm (by simp [hi])))
    | none =>
      rw [hp] at hm hi
      obtain ⟨x, hof, rfl, -⟩ := exists_callSite h hnode hcall hm hi
      exact .inr ⟨x, hof, rfl⟩

/-- Every call statement of an implementation is there for a method that a call of the body may
run. -/
theorem exists_callSite_of_mem
    (h : (lowerBody s.program s.prelude s.registry.globals.length body).Gives low j)
    (hst : .call f args outs ∈ (low.implementation s.options).body.flatMap Stmt.nested) :
    ∃ x : CallSite, x.Of s body low ∧ ∃ m ∈ x.methods, ∃ sig part,
      Lower.Called s.program s.prelude x.operands m sig part ∧
      .call f args outs = x.operands.call sig.name := by
  rw [Lowered.implementation, List.flatMap_append, List.mem_append, List.flatMap_assoc] at hst
  obtain hst | hst := hst
  · exact absurd hst (call_not_mem (low.callees_prologue s.options))
  · obtain ⟨seg, hseg, hst⟩ := List.mem_flatMap.1 hst
    obtain ⟨k, hk⟩ := List.mem_iff_getElem?.1 hseg
    obtain hquiet | ⟨x, hof, rfl⟩ := callFree_or_callSite h hk
    · exact absurd hst (call_not_mem (hquiet _))
    · obtain rfl := Option.some.inj (hk.symm.trans hof.segment)
      refine ⟨x, hof, hof.called.called_of_mem (low.encoding s.options) ?_⟩
      simp only [Encoding.encodeAll_append, List.flatMap_append, List.mem_append] at hst
      obtain (hst | hst) | hst := hst
      · exact absurd hst (call_not_mem (hof.quietBefore _))
      · exact hst
      · exact absurd hst (call_not_mem (hof.quietAfter _))

end Sites

end Verilower
