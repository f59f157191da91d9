import Verilower.Proofs.Escapes
import Verilower.Proofs.Receivers

namespace Verilower
set_option autoImplicit true

open Ivl

namespace Ivl

def AllNested (P : Stmt → Prop) (ss : List Stmt) : Prop := ∀ st ∈ ss.flatMap Stmt.nested, P st

variable {P : Stmt → Prop}

@[simp] theorem allNested_nil : AllNested P [] := nofun

@[simp] theorem allNested_append :
    AllNested P (as ++ bs) ↔ AllNested P as ∧ AllNested P bs := by
  simp only [AllNested, List.flatMap_append, List.mem_append, or_imp, forall_and]

theorem allNested_cons : AllNested P (s :: ss) ↔ AllNested P [s] ∧ AllNested P ss := by
  rw [← allNested_append, List.singleton_append]

theorem allNested_flat {s : Stmt} (hs : s.isFlat = true) : AllNested P [s] ↔ P s := by
  rw [AllNested, List.flatMap_singleton, Stmt.nested_flat hs, List.forall_mem_singleton]

theorem allNested_ite : AllNested P [.ite c a b] ↔
    P (.ite c a b) ∧ AllNested P a ∧ AllNested P b := by
  rw [AllNested, List.flatMap_singleton, Stmt.nested_ite, List.forall_mem_cons]
  simp only [AllNested, List.mem_append, or_imp, forall_and]

/-- A statement that neither assigns a variable nor holds a formula. -/
def Stmt.isControl : Stmt → Bool
  | .havoc _ | .label _ | .goto _ | .call .. | .ret => true
  | .assign .. | .assert _ | .assume _ | .ite .. => false

theorem Stmt.isFlat_of_isControl {s : Stmt} (h : s.isControl = true) : s.isFlat = true := by
  cases s <;> first | rfl | cases h

end Ivl

theorem Ty.lowered_eq_ref {ty : Ty} : ty.lowered = .ok .ref ↔ ty.isReference = true := by
  cases ty <;> simp [lowered, isReference]

namespace Lower

/-- A formula that the annotations of a method let one assume of its result, held by `x`. -/
inductive ResultFact (p : Program) (method : Method) (x : Ident) (e : Expr) : Prop
  | intro (hr : method.returns.isReference = true) (hn : method.returnsNonNull = true)
      (ht : p.tag method.returns = .ok τ) (he : .plain (.assume e) ∈ resultFacts method x τ)

/-- A formula that is assumed of the result of a call. The variable has the type of what the named
method returns, and the formula comes from a method that the call may run. -/
structure CallFact (p : Program) (body : Body) (call : Call) (callee method : Method) (x : Ident)
    (e : Expr) : Prop where
  declared : p.method? call.method = .ok callee
  result : callee.returns.lowered = .ok x.ty
  runs : ∃ ms m, body.mayRun p call callee = .ok ms ∧ m ∈ ms ∧ p.method? m = .ok method
  fact : ResultFact p method x e

/-- The property holds of the statements that are written for any instruction in a body of the
signature. -/
structure Common (P : Stmt → Prop) (p : Program) (q : Prelude) (sig : Signature) : Prop where
  control : ∀ st, st.isControl = true → P st
  assign : ∀ x e, e.ty = .ok x.ty → P (.assign x e)
  assert : ∀ e, e.ty = .ok .bool → P (.assert e)
  ite : ∀ c a b, c.ty = .ok .bool → P (.ite c a b)
  unallocated : ∀ x : Ident, x.ty = .ref →
    P (.assume (.not (Prelude.read x.expr Prelude.alloc)))
  nonNull : ∀ x : Ident, x.ty = .ref → P (.assume (Prelude.isNonNull x.expr))
  precondition : ∀ m callee e σ, (Signature.build p q m).result = .ok callee →
    e ∈ callee.procedure.preconditions → P (.assert (e.substitute σ))
  postcondition : ∀ e ∈ sig.procedure.postconditions, P (.assert e)

end Lower

mutual

/-- The property holds of the statements that the outline is encoded as. -/
def Outline.Obeys (P : Stmt → Prop) : Outline → Prop
  | .plain s => AllNested P [s]
  | .oblige o => ∀ e, o.guard = some e → P (.assert e)
  | .when c body => c.ty = .ok .bool ∧ Outline.AllObey P body

def Outline.AllObey (P : Stmt → Prop) : List Outline → Prop
  | [] => True
  | o :: os => o.Obeys P ∧ Outline.AllObey P os

end

variable {P : Stmt → Prop}

namespace Outline

@[simp] theorem allObey_nil : AllObey P [] := trivial

@[simp] theorem allObey_cons : AllObey P (o :: os) ↔ o.Obeys P ∧ AllObey P os := Iff.rfl

@[simp] theorem allObey_append : AllObey P (os ++ ps) ↔ AllObey P os ∧ AllObey P ps := by
  induction os with
  | nil => simp
  | cons o os ih => simp [ih, and_assoc]

theorem allObey_map {f : α → Outline} {as : List α} (h : ∀ a ∈ as, (f a).Obeys P) :
    AllObey P (as.map f) := by
  induction as with
  | nil => trivial
  | cons a as ih =>
    exact ⟨h a List.mem_cons_self, ih fun b hb => h b (List.mem_cons_of_mem _ hb)⟩

theorem obeys_oblige (h : P (.assert e)) : (oblige ⟨v, some e⟩).Obeys P := by
  rintro _ ⟨⟩
  exact h

end Outline

namespace Lower.Common

open Lower

variable (hP : Common P p q sig)
include hP

theorem flow (h : st.isControl = true) : (Outline.plain st).Obeys P :=
  (allNested_flat (Stmt.isFlat_of_isControl h)).2 (hP.control st h)

theorem assigned (h : e.ty = .ok x.ty) : (Outline.plain (.assign x e)).Obeys P :=
  (allNested_flat rfl).2 (hP.assign x e h)

theorem checked (v : Violation) (h : e.ty = .ok .bool) : (Outline.oblige ⟨v, some e⟩).Obeys P :=
  Outline.obeys_oblige (hP.assert e h)

theorem jumpWhen (h : c.ty = .ok .bool) : (Outline.plain (.when c [.jump l])).Obeys P :=
  allNested_ite.2 ⟨hP.ite _ _ _ h, (allNested_flat rfl).2 (hP.control _ rfl), allNested_nil⟩

theorem newObject (hx : x.ty = .ref) : Outline.AllObey P (newObject x τ) :=
  ⟨hP.flow rfl, (allNested_flat rfl).2 (hP.unallocated x hx), hP.assigned rfl,
    (allNested_flat rfl).2 (hP.nonNull x hx), hP.assigned rfl, trivial⟩

theorem nullGuard : Outline.AllObey P (nullGuard s base e) := by
  unfold Lower.nullGuard
  split
  · trivial
  · exact ⟨hP.checked _ rfl, trivial⟩

theorem storeGuard : Outline.AllObey P (storeGuard f e) := by
  unfold Lower.storeGuard
  split
  · exact ⟨hP.checked _ rfl, trivial⟩
  · trivial

theorem exitCode (hs : F.signature = sig) : Outline.AllObey P (exitCode F) := by
  subst hs
  refine Outline.allObey_append.2 ⟨Outline.allObey_map fun e he => ?_, hP.flow rfl, trivial⟩
  exact Outline.obeys_oblige (hP.postcondition e he)

theorem entryCode : Outline.AllObey P (entryCode F n) := by
  unfold Lower.entryCode
  split
  · exact ⟨hP.flow rfl, trivial⟩
  · trivial

end Lower.Common

namespace Encoding

variable {enc : Encoding} {o : Obligation}

theorem allNested_raise (hP : Lower.Common P p q sig) (hslot : enc.slot.ty = .ref) :
    AllNested P (enc.raise v) := by
  have hw : (Prelude.witness v).expr.ty = .ok enc.slot.ty := by
    rw [hslot]
    cases v <;> rfl
  refine allNested_cons.2 ⟨hP.assigned rfl, allNested_cons.2 ⟨hP.assigned hw, ?_⟩⟩
  exact hP.flow rfl

theorem allNested_obligation (hP : Lower.Common P p q sig) (hslot : enc.slot.ty = .ref)
    (h : ∀ e, o.guard = some e → P (.assert e)) : AllNested P (enc.obligation o) := by
  obtain he | ⟨g, -, he⟩ | ⟨-, he⟩ | ⟨g, hg, he⟩ | ⟨-, he⟩ := enc.obligation_cases o
  · simp [he]
  · rw [he]
    exact allNested_ite.2 ⟨hP.ite _ _ _ rfl, allNested_raise hP hslot, allNested_nil⟩
  · rw [he]
    exact allNested_raise hP hslot
  · rw [he]
    exact (allNested_flat rfl).2 (h g hg)
  · rw [he]
    exact hP.flow rfl

mutual

theorem allNested_encode (hP : Lower.Common P p q sig) (hslot : enc.slot.ty = .ref) :
    ∀ {o : Outline}, o.Obeys P → AllNested P (enc.encode o)
  | .plain _, h => h
  | .oblige _, h => allNested_obligation hP hslot h
  | .when _ _, h =>
    allNested_ite.2 ⟨hP.ite _ _ _ h.1, allNested_encodeAll hP hslot h.2, allNested_nil⟩

theorem allNested_encodeAll (hP : Lower.Common P p q sig) (hslot : enc.slot.ty = .ref) :
    ∀ {os : List Outline}, Outline.AllObey P os → AllNested P (enc.encodeAll os)
  | [], _ => allNested_nil
  | _ :: _, h =>
    allNested_append.2 ⟨allNested_encode hP hslot h.1, allNested_encodeAll hP hslot h.2⟩

end

end Encoding

namespace Lower

section Walk

variable {F : Frame} (hP : Common P F.program F.prelude F.signature)
include hP

theorem Operand.obeys (h : Operand F s v r j) : Outline.AllObey P r.code := by
  induction h with
  | slot | literal | param | receiver | caught | staticField => trivial
  | string => exact Outline.allObey_append.2 ⟨hP.newObject rfl, hP.assigned rfl, trivial⟩
  | instanceField _ _ _ ih | length _ ih => exact Outline.allObey_append.2 ⟨ih, hP.nullGuard⟩
  | element _ _ _ _ iha ihi =>
    simp only [Outline.allObey_append]
    exact ⟨⟨⟨iha, hP.nullGuard⟩, ihi⟩, hP.checked _ rfl, trivial⟩
  | binary _ _ _ ihl ihr => exact Outline.allObey_append.2 ⟨ihl, ihr⟩
  | neg _ ih | convert _ _ _ _ ih | instanceOf _ _ ih => exact ih
  | cast _ _ _ ih => exact Outline.allObey_append.2 ⟨ih, hP.checked _ rfl, trivial⟩

/-- Under a selection the assigned value is a store, which has the type of its map. -/
theorem storeInto_obeys : ∀ {location e : Expr} {st : Stmt},
    storeInto location e = .ok st → e.ty = location.ty → (Outline.plain st).Obeys P
  | .ident _, _, _, h, he => by
    cases h
    exact hP.assigned he
  | .select map indices, e, st, h, _ => by
    have hmap : storeInto map (.store map indices e) = .ok st := h
    exact storeInto_obeys hmap rfl
  | .bool _, _, _, h, _ | .int _, _, _, h, _ | .real _, _, _, h, _ | .binary _ _ _, _, _, h, _
  | .unary _ _, _, _, h, _ | .store _ _ _, _, _, h, _ | .apply _ _ _, _, _, h, _ => nomatch h

theorem Stored.obeys (h : Stored F s target e r j) : Outline.AllObey P r.code := by
  cases h with
  | slot _ hc => exact ⟨hP.assigned hc.ty_eq, trivial⟩
  | field _ hl ht hc _ hs =>
    have hst := storeInto_obeys hP hs (hc.ty_eq.trans ht.symm)
    simp only [Outline.allObey_append]
    exact ⟨⟨hl.obeys hP, hP.storeGuard⟩, hst, trivial⟩
  | element hl ht hc hs =>
    have hst := storeInto_obeys hP hs (hc.ty_eq.trans ht.symm)
    exact Outline.allObey_append.2 ⟨hl.obeys hP, hst, trivial⟩

omit hP in
theorem Assumed.obeys (h : Assumed F callee result captured code j)
    (hf : ∀ x e, captured = true → result = some x → ResultFact F.program callee x e →
      P (.assume e)) : Outline.AllObey P code := by
  cases h with
  | @annotated τ x hr hn ht =>
    have hfact : ∀ e, .plain (.assume e) ∈ resultFacts callee x τ →
        (Outline.plain (.assume e)).Obeys P := fun e he =>
      (allNested_flat rfl).2 (hf x e rfl rfl ⟨hr, hn, ht, he⟩)
    refine Outline.allObey_append.2 ⟨⟨hfact _ ?_, hfact _ ?_, trivial⟩, ?_⟩
    · simp [resultFacts]
    · simp [resultFacts]
    · split <;> rename_i hexact
      · exact ⟨hfact _ (by simp [resultFacts, hexact]), trivial⟩
      · trivial
  | plain => trivial

theorem DirectCall.obeys (h : DirectCall F m callee actuals result captured code j)
    (hf : ∀ x e, captured = true → result = some x → ResultFact F.program callee x e →
      P (.assume e)) : Outline.AllObey P code := by
  obtain ⟨hs, -, -, ha⟩ := h
  simp only [Outline.allObey_append]
  refine ⟨⟨Outline.allObey_map fun e he => ?_, hP.flow rfl, trivial⟩, ha.obeys hf⟩
  exact Outline.obeys_oblige (hP.precondition _ _ e _ hs he)

theorem GuardedCalls.obeys
    (h : GuardedCalls F receiver actuals result captured ts thrown code j)
    (hf : ∀ m ∈ ts.map Target.method, ∀ method x e, F.program.method? m = .ok method →
      captured = true → result = some x → ResultFact F.program method x e → P (.assume e)) :
    Outline.AllObey P code := by
  induction h with
  | nil => trivial
  | cons hm hd _ _ ih =>
    obtain ⟨hfirst, hrest⟩ := List.forall_mem_cons.1 hf
    exact ⟨⟨rfl, hd.obeys hP fun x e => hfirst _ x e hm⟩, ih hrest⟩

theorem Performed.obeys {call : Call}
    (h : Performed F n call callee actuals result captured receiver thrown code j)
    (hm : F.program.method? call.method = .ok callee)
    (hf : ∀ ms, F.body.mayRun F.program call callee = .ok ms → ∀ m ∈ ms, ∀ method x e,
      F.program.method? m = .ok method → captured = true → result = some x →
      ResultFact F.program method x e → P (.assume e)) : Outline.AllObey P code := by
  cases h with
  | direct hk hd =>
    exact hd.obeys hP fun x e =>
      hf _ (Code.mayRun_direct hk) _ (List.mem_singleton_self _) _ x e hm
  | fallback hk hb hty ht hd =>
    exact hd.obeys hP fun x e =>
      hf _ (Code.mayRun_dynamic hk hb hty ht) _ (List.mem_singleton_self _) _ x e hm
  | devirtualized hk hb hty ht hne hg =>
    have hrun := Code.mayRun_dynamic hk hb hty ht
    rw [if_neg hne] at hrun
    exact hg.obeys hP (hf _ hrun)

theorem TrapJumps.obeys (h : TrapJumps F ts code j) : Outline.AllObey P code := by
  induction h with
  | nil => trivial
  | cons _ _ ih => exact ⟨hP.jumpWhen rfl, ih⟩

theorem EscapeExits.obeys (h : EscapeExits F n fuel types code j) : Outline.AllObey P code := by
  induction h with
  | spent | done => trivial
  | step _ _ _ _ ih => exact ⟨⟨rfl, hP.exitCode rfl⟩, ih⟩

theorem Continued.obeys (h : Continued F n thrown code j) : Outline.AllObey P code := by
  obtain ⟨hj, -, he⟩ := h
  exact Outline.allObey_append.2 ⟨hj.obeys hP, he.obeys hP⟩

theorem Arguments.obeys (h : Arguments F s args r j) : Outline.AllObey P r.code := by
  induction h with
  | nil => trivial
  | cons ha _ _ _ ih => exact Outline.allObey_append.2 ⟨ha.obeys hP, ih⟩

theorem ReceiverOf.obeys (h : ReceiverOf F s call r j) : Outline.AllObey P r.code := by
  cases h with
  | none => trivial
  | dynamic _ _ ho => exact Outline.allObey_append.2 ⟨ho.obeys hP, hP.nullGuard⟩
  | direct _ _ ho => exact ho.obeys hP

theorem WrittenBack.obeys (h : WrittenBack F s w r j) : Outline.AllObey P r.code := by
  cases h with
  | none => trivial
  | some hst => exact hst.obeys hP

theorem Invoked.obeys {call : Call} (h : Invoked F n call target s r j)
    (hf : ∀ callee method x e, target.isSome = true →
      CallFact F.program F.body call callee method x e → P (.assume e)) :
    Outline.AllObey P r.code := by
  cases h with
  | exit => exact hP.exitCode rfl
  | stringLengthDropped _ _ _ ho => exact Outline.allObey_append.2 ⟨ho.obeys hP, hP.nullGuard⟩
  | stringLength _ _ _ ho _ hst =>
    simp only [Outline.allObey_append]
    exact ⟨⟨ho.obeys hP, hP.nullGuard⟩, hst.obeys hP⟩
  | call hm _ _ _ hr ha hd hp hx hw =>
    have hcalls := hp.obeys hP hm fun ms hms m hmem method x e hmethod hc hres hfact => by
      obtain ⟨t, hlow, rfl⟩ := hd.result_ty hres
      exact hf _ method x e hc ⟨hm, hlow, ⟨ms, m, hms, hmem, hmethod⟩, hfact⟩
    simp only [Outline.allObey_append]
    exact ⟨⟨⟨⟨hr.obeys hP, ha.obeys hP⟩, hcalls⟩, hx.obeys hP⟩, hw.obeys hP⟩

theorem allNested_cascaded {inner : Stmt} (hi : AllNested P [inner]) :
    AllNested P [cascaded F key cases inner] := by
  induction cases generalizing inner with
  | nil => exact hi
  | cons c cases ih => exact ih (allNested_ite.2 ⟨hP.ite _ _ _ rfl, hP.flow rfl, hi⟩)

theorem Switched.obeys (h : Switched F n key cases other s r j) : Outline.AllObey P r.code := by
  cases h with
  | empty => exact ⟨hP.flow rfl, trivial⟩
  | cascade _ ho _ =>
    exact Outline.allObey_append.2
      ⟨ho.obeys hP, allNested_cascaded hP (hP.flow rfl), trivial⟩

theorem CatchJumps.obeys (h : CatchJumps F handler ids code j) : Outline.AllObey P code := by
  induction h with
  | nil => trivial
  | cons _ _ ih => exact ⟨hP.jumpWhen rfl, ih⟩

theorem HandlerJumps.obeys (h : HandlerJumps F traps handlers code j) : Outline.AllObey P code := by
  induction h with
  | nil => trivial
  | cons hc _ ih => exact Outline.allObey_append.2 ⟨hc.obeys hP, ih⟩

theorem Handed.obeys (h : Handed F n code j) : Outline.AllObey P code := by
  cases h with
  | leave => exact hP.exitCode rfl
  | single => exact ⟨hP.flow rfl, trivial⟩
  | many _ hj => exact Outline.allObey_append.2 ⟨hj.obeys hP, hP.flow rfl, trivial⟩

theorem Dropped.obeys (h : Dropped F s vs r j) : Outline.AllObey P r.code := by
  induction h with
  | nil => trivial
  | cons ho _ ih => exact Outline.allObey_append.2 ⟨ho.obeys hP, ih⟩

theorem Assigned.obeys (h : Assigned F n target s v r j)
    (hf : ∀ call callee method x e, (Instr.assign target v).call? = some (call, some target) →
      CallFact F.program F.body call callee method x e → P (.assume e)) :
    Outline.AllObey P r.code := by
  cases h with
  | invoke h => exact h.obeys hP fun _ _ _ _ _ hfact => hf _ _ _ _ _ rfl hfact
  | new _ hst => exact Outline.allObey_append.2 ⟨hP.newObject rfl, hst.obeys hP⟩
  | newArray ho _ _ hst =>
    simp only [Outline.allObey_append]
    exact ⟨⟨⟨ho.obeys hP, hP.newObject rfl⟩, hP.assigned rfl, trivial⟩, hst.obeys hP⟩
  | newMultiArray hd _ hst =>
    simp only [Outline.allObey_append]
    exact ⟨⟨hd.obeys hP, hP.newObject rfl⟩, hst.obeys hP⟩
  | value ho hst => exact Outline.allObey_append.2 ⟨ho.obeys hP, hst.obeys hP⟩

theorem Bound.obeys (h : Bound F s index v r)
    (he : F.signature.exception.ty = .ref)
    (hc : v = .caught → ∀ x, s.pool.slot index = .ok x →
      P (.assign x F.signature.exception.expr)) : Outline.AllObey P r.code := by
  cases h with
  | receiver _ _ hconv | param _ _ hconv => exact ⟨hP.assigned hconv.ty_eq, trivial⟩
  | caught hx =>
    have hnull : Prelude.null.expr.ty = .ok F.signature.exception.ty := by
      rw [he]
      rfl
    exact ⟨(allNested_flat rfl).2 (hc rfl _ hx), hP.assigned hnull, trivial⟩

/-- The code of an instruction has the property if its own statements have it. These are the binding
of a caught exception and what is assumed of the result of a call. -/
theorem Executed.obeys (h : Executed F n s i r j)
    (he : F.signature.exception.ty = .ref)
    (hc : ∀ index x, i = .identity index .caught → s.pool.slot index = .ok x →
      P (.assign x F.signature.exception.expr))
    (hf : ∀ call target callee method x e, i.call? = some (call, some target) →
      CallFact F.program F.body call callee method x e → P (.assume e)) :
    Outline.AllObey P r.code := by
  cases h with
  | assign h => exact h.obeys hP fun call => hf call _
  | @identity _ index v _ h => exact h.obeys hP he fun hv x hx => hc index x (by rw [hv]) hx
  | invoke h => exact h.obeys hP fun _ _ _ _ hsome => nomatch hsome
  | goto => exact ⟨hP.flow rfl, trivial⟩
  | branch ho hconv =>
    exact Outline.allObey_append.2 ⟨ho.obeys hP, hP.jumpWhen hconv.ty_eq, trivial⟩
  | lookupSwitch h | tableSwitch _ h => exact h.obeys hP
  | ret _ ho hconv =>
    simp only [Outline.allObey_append]
    exact ⟨⟨ho.obeys hP, hP.assigned hconv.ty_eq, trivial⟩, hP.exitCode rfl⟩
  | retVoid => exact hP.exitCode rfl
  | raise ho hconv _ hh =>
    have hthrown := hP.assigned (hconv.ty_eq.trans (congrArg Except.ok he.symm))
    simp only [Outline.allObey_append]
    exact ⟨⟨ho.obeys hP, hthrown, trivial⟩, hh.obeys hP⟩
  | nop | breakpoint => trivial
  | enterMonitor ho | exitMonitor ho =>
    exact Outline.allObey_append.2 ⟨ho.obeys hP, hP.nullGuard⟩
  | retSubroutine => exact ⟨nofun, trivial⟩

end Walk

end Lower

section Bodies

variable {body : Body} (h : BodyLowered p q g body low j)
  (hP : Lower.Common P p q low.signature)
  (hc : ∀ node ∈ body.nodes, ∀ index x, node.instr = .identity index .caught →
    low.pool.slots[index]? = some x → P (.assign x low.signature.exception.expr))
  (hf : ∀ node ∈ body.nodes, ∀ call target callee method x e,
    node.instr.call? = some (call, some target) →
    Lower.CallFact p body call callee method x e → P (.assume e))
include h hP hc hf

theorem BodyLowered.segment_obeys (hseg : seg ∈ low.segments) : Outline.AllObey P seg := by
  obtain ⟨k, hk⟩ := List.mem_iff_getElem?.1 hseg
  have hlt := h.segments_length ▸ (List.getElem?_eq_some_iff.1 hk).1
  have hnode := List.getElem_mem hlt
  obtain ⟨F, t, r, _, hexec, rfl, rfl, hbody, hsig, hat, hslots, -⟩ :=
    h.node (List.getElem?_eq_getElem hlt)
  obtain rfl := Option.some.inj (hat.symm.trans hk)
  obtain ⟨_, hbuilt⟩ := Signature.built_of_result h.signature_eq
  rw [← hsig] at hP hc hbuilt
  refine Outline.allObey_append.2
    ⟨hP.entryCode, hexec.obeys hP hbuilt.exception_ty (fun index x hi hx => ?_) ?_⟩
  · exact hc _ hnode index x hi (hslots ▸ LocalPool.getElem?_of_slot hx)
  · rw [hbody]
    exact hf _ hnode

/-- A property of the statements that are written for instructions, and of the assumption that the
receiver is not null, is one of all statements of the body. -/
theorem BodyLowered.obeys
    (hthis : ∀ this ∈ low.signature.receiver, P (.assume (Prelude.isNonNull this.expr)))
    (o : Options) : AllNested P (low.implementation o).body := by
  obtain ⟨_, hbuilt⟩ := Signature.built_of_result h.signature_eq
  have hassume : AllNested P (low.signature.receiver.toList.map fun this =>
      .assume (Prelude.isNonNull this.expr)) := by
    cases hr : low.signature.receiver with
    | none => exact allNested_nil
    | some this => exact (allNested_flat rfl).2 (hthis this hr)
  have hclear : Prelude.null.expr.ty = .ok low.signature.exception.ty := by
    rw [hbuilt.exception_ty]
    rfl
  have hflag :
      AllNested P (if low.usesFlag o then [.assign LocalPool.flag (.bool false)] else []) := by
    split
    · exact hP.assigned rfl
    · exact allNested_nil
  refine allNested_append.2
    ⟨allNested_append.2 ⟨allNested_append.2 ⟨hassume, hP.assigned hclear⟩, hflag⟩, ?_⟩
  intro st hst
  rw [List.flatMap_assoc] at hst
  obtain ⟨seg, hseg, hst⟩ := List.mem_flatMap.1 hst
  have hobey := h.segment_obeys hP hc hf hseg
  exact Encoding.allNested_encodeAll hP hbuilt.exception_ty hobey st hst

end Bodies

end Verilower
