import Verilower.Proofs.Hierarchy
import Verilower.Proofs.Lowering.Call
import Verilower.Proofs.Lowering.Signature

namespace Verilower
set_option autoImplicit true

open Ivl (Ident Expr Stmt)

/-- The cause of a refusal without the contexts around it. -/
def Refusal.root : Refusal → Refusal
  | .inSlots _ cause | .atNode _ _ _ cause => cause.root
  | cause => cause

/-- The refusal is not about the number of arguments that a procedure takes. -/
def Refusal.Agrees (cause : Refusal) : Prop :=
  ∀ procedure expected given, cause.root ≠ .procedureArguments procedure expected given

def Refusal.isProcedureArguments : Refusal → Bool
  | .procedureArguments _ _ _ => true
  | _ => false

theorem Refusal.Agrees.of_root {cause : Refusal} (h : cause.root.isProcedureArguments = false) :
    cause.Agrees := by
  intro procedure expected given heq
  rw [heq] at h
  cases h

/-- If the trace ends in a refusal, then not because of the arguments of a procedure. -/
def Trace.Agrees (t : Trace α) : Prop := ∀ cause, t.result = .error (.refused cause) → cause.Agrees

/-- If the computation ends in a refusal, then not because of the arguments of a procedure. -/
def Lower.Agrees (F : Frame) (x : Lower α) : Prop := ∀ s, (x F s).Agrees

/-- A refusal of a list is a refusal of one of its entries. -/
theorem mapM_agrees {f : α → Except Refusal β} {xs : List α} {cause : Refusal}
    (hf : ∀ a cause, f a = .error cause → cause.Agrees) (h : xs.mapM f = .error cause) :
    cause.Agrees := by
  induction xs with
  | nil => cases h
  | cons x xs ih =>
    rw [List.mapM_cons] at h
    obtain h | ⟨y, -, h⟩ := except_bind_eq_error.1 h
    · exact hf x _ h
    · obtain h | ⟨ys, -, h⟩ := except_bind_eq_error.1 h
      · exact ih h
      · cases h

theorem Ty.lowered_agrees {ty : Ty} (h : ty.lowered = .error cause) : cause.Agrees := by
  cases ty <;> cases h
  exact .of_root rfl

theorem storeInto_agrees : ∀ {location e : Expr} {cause : Refusal},
    storeInto location e = .error cause → cause.Agrees
  | .ident _, _, _, h => by cases h
  | .select map indices, e, cause, h =>
    have hmap : storeInto map (.store map indices e) = .error cause := h
    storeInto_agrees hmap
  | .bool _, _, _, h | .int _, _, _, h | .real _, _, _, h | .binary _ _ _, _, _, h
  | .unary _ _, _, _, h | .store _ _ _, _, _, h | .apply _ _ _, _, _, h => by
    cases h
    exact .of_root rfl

theorem LocalPool.slot_agrees {pool : LocalPool} (h : pool.slot i = .error cause) :
    cause.Agrees := by
  unfold slot at h
  split at h <;> cases h
  exact .of_root rfl

namespace Trace

theorem agrees_of_ok {t : Trace α} (h : t.result = .ok a) : t.Agrees := by
  intro cause hc
  rw [h] at hc
  cases hc

theorem agrees_of_fault {t : Trace α} (h : t.result = .error (.fault fault)) : t.Agrees := by
  intro cause hc
  rw [h] at hc
  cases hc

theorem agrees_pure {a : α} : (Pure.pure a : Trace α).Agrees := agrees_of_ok rfl

theorem agrees_refuse (h : cause.Agrees) : (refuse cause : Trace α).Agrees := by
  rintro _ ⟨⟩
  exact h

theorem agrees_promise {x : Except Fault α} : (promise x).Agrees := by
  cases x with
  | error => exact agrees_of_fault rfl
  | ok => exact agrees_of_ok rfl

theorem agrees_decision {x : Except Refusal α} (h : ∀ cause, x = .error cause → cause.Agrees) :
    (decision x).Agrees := by
  cases x with
  | error e =>
    rintro _ ⟨⟩
    exact h e rfl
  | ok => exact agrees_of_ok rfl

theorem agrees_emit : (emit e).Agrees := agrees_of_ok rfl

theorem Agrees.bind_gives {x : Trace α} {f : α → Trace β} (hx : x.Agrees)
    (hf : ∀ a j, x.Gives a j → (f a).Agrees) : (x >>= f).Agrees := by
  obtain ⟨j, e | a⟩ := x
  · intro cause h
    exact hx cause (by simpa [Bind.bind, Trace.bind] using h)
  · exact hf a j rfl

theorem Agrees.bind {x : Trace α} {f : α → Trace β} (hx : x.Agrees) (hf : ∀ a, (f a).Agrees) :
    (x >>= f).Agrees := hx.bind_gives fun a _ _ => hf a

theorem Agrees.within {x : Trace α} {c : Refusal → Refusal} (hx : x.Agrees)
    (hc : ∀ cause : Refusal, (c cause).root = cause.root) : (x.within c).Agrees := by
  obtain ⟨j, (cause | fault) | a⟩ := x
  · rintro _ ⟨⟩ procedure expected given
    rw [hc]
    exact hx cause rfl procedure expected given
  · exact agrees_of_fault rfl
  · exact agrees_of_ok rfl

theorem agrees_tag : (tag p ty).Agrees :=
  .bind agrees_promise fun _ => .bind agrees_emit fun _ => agrees_pure

theorem agrees_label : (label m n).Agrees := .bind agrees_emit fun _ => agrees_pure

theorem agrees_field : (field p i).Agrees := by
  have hident : (ofExcept (p.fieldIdent i)).Agrees := by
    intro cause h
    obtain h | ⟨f, -, h⟩ := except_bind_eq_error.1 h
    · cases hf : p.field? i <;> rw [hf] at h <;> cases h
    · obtain h | ⟨t, -, h⟩ := except_bind_eq_error.1 h
      · cases ht : f.ty.lowered <;> rw [ht] at h <;> cases h
        exact Ty.lowered_agrees ht
      · cases h
  exact hident.bind fun _ => .bind agrees_emit fun _ => agrees_pure

end Trace

namespace Signature

theorem ofPrelude_agrees (h : ofPrelude p i m q = .error (.refused cause)) : cause.Agrees := by
  unfold ofPrelude at h
  dsimp only at h
  split at h
  · cases h
    exact .of_root rfl
  · obtain h | ⟨_, hx, h⟩ := except_bind_eq_error.1 h
    · cases h
    cases hx
    obtain ⟨-, ⟨⟩⟩ | ⟨-, h⟩ := except_check_eq_error.1 h
    · exact .of_root rfl
    obtain ⟨-, ⟨⟩⟩ | ⟨-, h⟩ := except_check_eq_error.1 h
    · exact .of_root rfl
    obtain ⟨-, ⟨⟩⟩ | ⟨-, h⟩ := except_check_eq_error.1 h
    · exact .of_root rfl
    obtain h | ⟨_, -, h⟩ := except_bind_eq_error.1 h
    · cases hs : splitFormals m.isStatic q.ins <;> rw [hs] at h <;> cases h
    · cases h

theorem param_agrees (h : param index ty = .error cause) : cause.Agrees := by
  obtain h | ⟨t, -, h⟩ := except_bind_eq_error.1 h
  · exact Ty.lowered_agrees h
  · cases h

theorem resultOf_agrees (h : resultOf m = .error cause) : cause.Agrees := by
  unfold resultOf at h
  split at h
  · cases h
  · obtain h | ⟨t, -, h⟩ := except_bind_eq_error.1 h
    · exact Ty.lowered_agrees h
    · cases h

theorem staticFields_agrees {ids : List FieldId} : ((staticFields p ids).trace p).Agrees := by
  induction ids with
  | nil => exact Trace.agrees_pure
  | cons i ids ih =>
    unfold staticFields
    split
    · split
      · simp only [Ask.trace_bind, Ask.trace_field]
        exact .bind Trace.agrees_field fun _ => ih.bind fun _ => Trace.agrees_pure
      · exact ih
    · exact ih

theorem build_agrees : (build p q i).Agrees := by
  simp only [build, builder, Ask.trace_bind, Ask.trace_promise]
  refine .bind Trace.agrees_promise fun m => .bind Trace.agrees_promise fun n => ?_
  split
  · simp only [Ask.trace_bind, Ask.trace_log, Ask.trace_ofExcept]
    exact .bind Trace.agrees_emit fun _ _ => ofPrelude_agrees
  · split
    · exact Trace.agrees_refuse (.of_root rfl)
    · simp only [synthesize, Ask.trace_bind, Ask.trace_decision]
      exact (Trace.agrees_decision fun _ => mapM_agrees fun _ _ => param_agrees).bind fun _ =>
        (Trace.agrees_decision fun _ => resultOf_agrees).bind fun _ =>
          staticFields_agrees.bind fun _ => Trace.agrees_pure

end Signature

namespace Program

/-- An override is an instance method with the parameters of the method that it overrides. -/
theorem Overrides.method {p : Program} (h : p.Overrides m c t) (hm : p.method? t = .ok m') :
    m'.isStatic = false ∧ m'.params = m.params := by
  obtain ⟨decl, found, -, -, hfind, hfound, -, hstatic⟩ := h
  obtain rfl : found = m' := Option.some.inj (hfound.symm.trans (entry_eq_ok.1 hm))
  refine ⟨hstatic, ?_⟩
  have hsame := List.find?_some hfind
  simp only [hfound, Bool.and_eq_true, decide_eq_true_eq] at hsame
  exact hsame.2

theorem overrides_of_dispatch {p : Program} (h : p.dispatch i m = .ok ts) (ht : t ∈ ts) :
    p.Overrides m t.owner t.method := by
  obtain ⟨_, -, h⟩ := except_bind_eq_ok.1 h
  cases h
  obtain ⟨id, -, hid⟩ := List.mem_filterMap.1 ht
  obtain ⟨method, ho, rfl⟩ := Option.map_eq_some_iff.1 hid
  exact override?_eq_some.1 ho

end Program

namespace Lower

variable {F : Frame}

theorem Agrees.bind_gives {x : Lower α} {f : α → Lower β} (hx : x.Agrees F)
    (hf : ∀ s r j, x.Gives F s r j → (f r.value).Agrees F) : (x >>= f).Agrees F := fun s => by
  rw [bind_apply]
  exact (hx s).bind_gives fun r j hr => (hf s r j hr r.scratch).bind fun _ => Trace.agrees_pure

theorem Agrees.bind {x : Lower α} {f : α → Lower β} (hx : x.Agrees F)
    (hf : ∀ a, (f a).Agrees F) : (x >>= f).Agrees F := hx.bind_gives fun _ r _ _ => hf r.value

theorem agrees_pure {a : α} : (Pure.pure a : Lower α).Agrees F := fun _ => Trace.agrees_pure

theorem agrees_refuse (h : cause.Agrees) : (refuse cause : Lower α).Agrees F := fun _ =>
  Trace.agrees_refuse h

theorem agrees_promise {x : Except Fault α} : (promise x).Agrees F := by
  cases x with
  | error => exact fun _ => Trace.agrees_of_fault rfl
  | ok => exact agrees_pure

theorem agrees_promise_bind {x : Except Fault α} {f : α → Lower β}
    (hf : ∀ a, x = .ok a → (f a).Agrees F) : (promise x >>= f).Agrees F :=
  .bind_gives agrees_promise fun s r j h => by
    obtain ⟨a, ha, rfl, -⟩ := gives_promise.1 h
    exact hf a ha

theorem agrees_decision {x : Except Refusal α} (h : ∀ cause, x = .error cause → cause.Agrees) :
    (decision x).Agrees F := by
  cases x with
  | error e => exact agrees_refuse (h e rfl)
  | ok a => exact agrees_pure

theorem agrees_lowered {ty : Ty} : (decision ty.lowered).Agrees F :=
  agrees_decision fun _ => Ty.lowered_agrees

theorem agrees_command {c : Command α} (h : ∀ s, (c.trace F s).Agrees) :
    (command c).Agrees F := fun s => by
  rw [command_apply]
  exact h s

theorem agrees_ask {c : Command α} {t : Trace α} (hc : ∀ s, c.trace F s = return ⟨← t, s, []⟩)
    (ht : t.Agrees) : (command c).Agrees F :=
  agrees_command fun s => hc s ▸ ht.bind fun _ => Trace.agrees_pure

theorem agrees_frame_bind {f : Frame → Lower α} (h : (f F).Agrees F) :
    (frame >>= f).Agrees F := by
  have hframe : frame.Agrees F := agrees_command fun _ => Trace.agrees_pure
  refine hframe.bind_gives fun s r j hr => ?_
  obtain ⟨rfl, -⟩ := gives_frame.1 hr
  exact h

theorem agrees_emit : (emit st).Agrees F := agrees_command fun _ => Trace.agrees_pure

theorem agrees_oblige : (oblige o).Agrees F := agrees_command fun _ => Trace.agrees_pure

theorem agrees_obligeAll {os : List Obligation} : (obligeAll os).Agrees F := by
  induction os with
  | nil => exact agrees_pure
  | cons _ _ ih => exact .bind agrees_oblige fun _ => ih

theorem Agrees.when {x : Lower Unit} {c : Lower Expr} (hx : x.Agrees F) (hc : c.Agrees F) :
    (when x c).Agrees F := fun s => by
  rw [when_apply]
  exact (hx s).bind fun r => (hc r.scratch).bind fun _ => Trace.agrees_pure

theorem Agrees.ite {c : Prop} [Decidable c] {x y : Lower α} (hx : x.Agrees F) (hy : y.Agrees F) :
    (if c then x else y).Agrees F := by
  split
  · exact hx
  · exact hy

/-- A check that refuses the input; what comes after it may rely on it. -/
theorem Agrees.check {c : Prop} [Decidable c] {f : Unit → Lower α} (hc : c → cause.Agrees)
    (hf : ¬ c → (f ()).Agrees F) : (if c then refuse cause >>= f else f ()).Agrees F := by
  split
  · rename_i h
    exact (agrees_refuse (hc h)).bind_gives fun s r j hr => (not_gives_refuse hr).elim
  · rename_i h
    exact hf h

theorem agrees_slot : (slot index).Agrees F := agrees_command fun _ =>
  (Trace.agrees_decision fun _ => LocalPool.slot_agrees).bind fun _ => Trace.agrees_pure

theorem agrees_fresh : (fresh ty).Agrees F := agrees_command fun _ => Trace.agrees_pure

theorem agrees_receivers : receivers.Agrees F := agrees_command fun _ => Trace.agrees_pure

theorem agrees_bindReceiver : (bindReceiver index).Agrees F :=
  agrees_command fun _ => Trace.agrees_pure

theorem agrees_tag : (tag ty).Agrees F :=
  (agrees_ask (fun _ => rfl) Trace.agrees_tag).bind fun _ => agrees_pure

theorem agrees_field : (field i).Agrees F := agrees_ask (fun _ => rfl) Trace.agrees_field

theorem agrees_label : (label n).Agrees F :=
  agrees_frame_bind (agrees_ask (fun _ => rfl) Trace.agrees_label)

theorem agrees_signature : (signature m).Agrees F :=
  agrees_ask (fun _ => rfl) (.bind Trace.agrees_emit fun _ => Signature.build_agrees)

theorem agrees_freshGlobal : (freshGlobal ty).Agrees F :=
  agrees_command fun _ => Trace.agrees_of_ok rfl

theorem agrees_diagnose : (diagnose l n m).Agrees F :=
  agrees_frame_bind (agrees_ask (fun _ => rfl) Trace.agrees_emit)

theorem agrees_log : (log l m).Agrees F := agrees_ask (fun _ => rfl) Trace.agrees_emit

theorem agrees_methodName : methodName.Agrees F := agrees_frame_bind agrees_pure

theorem agrees_typeOf : (typeOf e).Agrees F := agrees_promise

theorem agrees_coerce : (coerce e ty).Agrees F := by
  refine .bind agrees_typeOf fun source => ?_
  cases Prelude.convert source ty e with
  | none => exact agrees_refuse (.of_root rfl)
  | some e' => exact agrees_pure

theorem agrees_leave : leave.Agrees F :=
  Agrees.bind (agrees_frame_bind agrees_obligeAll) fun _ => agrees_emit

theorem agrees_allocateInto : (allocateInto x ty).Agrees F :=
  .bind agrees_tag fun _ => .bind agrees_emit fun _ => .bind agrees_emit fun _ =>
    .bind agrees_emit fun _ => .bind agrees_emit fun _ => agrees_emit

theorem agrees_allocate : (allocate ty).Agrees F :=
  .bind agrees_fresh fun _ => .bind agrees_allocateInto fun _ => agrees_pure

theorem agrees_constant : (constant c).Agrees F := by
  cases c with
  | float => exact .ite agrees_pure (agrees_refuse (.of_root rfl))
  | string => exact .bind agrees_allocate fun _ => .bind agrees_emit fun _ => agrees_pure
  | _ => exact agrees_pure

theorem agrees_isReceiver : (isReceiver v).Agrees F := by
  cases v with
  | slot index => exact .bind agrees_receivers fun _ => agrees_pure
  | _ => exact agrees_pure

theorem agrees_guardNonNull : (guardNonNull v e).Agrees F :=
  .bind agrees_isReceiver fun _ => .ite agrees_pure (.bind agrees_oblige fun _ => agrees_pure)

theorem agrees_elementHeap : (elementHeap v).Agrees F := by
  refine agrees_frame_bind (.bind agrees_promise fun ty => ?_)
  cases ty.bind Ty.element? with
  | none => exact agrees_refuse (.of_root rfl)
  | some elem =>
    refine .bind agrees_lowered fun t => ?_
    cases Prelude.arrays? t with
    | none => exact agrees_refuse (.of_root rfl)
    | some heap => exact agrees_pure

theorem agrees_align : (align l r).Agrees F := by
  refine .bind agrees_typeOf fun tl => .bind agrees_typeOf fun tr => .ite agrees_pure ?_
  cases Prelude.convert tr tl r with
  | some r' => exact agrees_pure
  | none =>
    cases Prelude.convert tl tr l with
    | some l' => exact agrees_pure
    | none => exact agrees_refuse (.of_root rfl)

theorem agrees_aligned : (aligned op l r).Agrees F := .bind agrees_align fun _ => agrees_pure

theorem agrees_converted : (converted f a b l r).Agrees F :=
  .bind agrees_coerce fun _ => .bind agrees_coerce fun _ => agrees_pure

theorem agrees_logical : (logical op f l r).Agrees F :=
  Agrees.bind (.bind agrees_typeOf fun _ =>
    .ite (.bind agrees_typeOf fun _ => agrees_pure) agrees_pure) fun _ =>
      .ite agrees_pure agrees_converted

theorem agrees_binary : (binary op l r).Agrees F := by
  cases op with
  | add | sub | mul | eq | ne | lt | le | gt | ge => exact agrees_aligned
  | div => exact .bind agrees_align fun _ => .bind agrees_typeOf fun _ => agrees_pure
  | rem =>
    exact .bind agrees_align fun _ => .bind agrees_typeOf fun _ => .ite agrees_pure agrees_converted
  | and | or | xor => exact agrees_logical
  | shl | shr | ushr | cmp | cmpl | cmpg => exact agrees_converted

theorem agrees_cast : (cast e ty).Agrees F :=
  .ite (.bind agrees_lowered fun _ => agrees_coerce)
    (.bind agrees_tag fun _ => .bind agrees_oblige fun _ => agrees_pure)

theorem agrees_value : ∀ {v : Value}, (value v).Agrees F
  | .slot _ => .bind agrees_slot fun _ => agrees_pure
  | .constant _ => agrees_constant
  | .param index => by
    apply agrees_frame_bind
    cases F.signature.params[index]? with
    | none => exact agrees_refuse (.of_root rfl)
    | some x => exact agrees_pure
  | .receiver => by
    apply agrees_frame_bind
    cases F.signature.receiver with
    | none => exact agrees_refuse (.of_root rfl)
    | some x => exact agrees_pure
  | .caught => agrees_frame_bind agrees_pure
  | .instanceField base _ => by
    refine (agrees_value (v := base)).bind fun _ => .bind agrees_guardNonNull fun _ =>
      .bind agrees_field fun x => ?_
    cases x.ty with
    | field => exact agrees_pure
    | _ => exact agrees_refuse (.of_root rfl)
  | .staticField _ => by
    refine .bind agrees_field fun x => ?_
    cases x.ty with
    | field => exact agrees_refuse (.of_root rfl)
    | _ => exact agrees_pure
  | .element base index =>
    .bind agrees_elementHeap fun _ => (agrees_value (v := base)).bind fun _ =>
      .bind agrees_guardNonNull fun _ => (agrees_value (v := index)).bind fun _ =>
        .bind agrees_coerce fun _ => .bind agrees_oblige fun _ => agrees_pure
  | .length base =>
    (agrees_value (v := base)).bind fun _ => .bind agrees_guardNonNull fun _ => agrees_pure
  | .binary _ lhs rhs =>
    (agrees_value (v := lhs)).bind fun _ => (agrees_value (v := rhs)).bind fun _ => agrees_binary
  | .neg arg => (agrees_value (v := arg)).bind fun _ => agrees_pure
  | .cast arg _ => (agrees_value (v := arg)).bind fun _ => agrees_cast
  | .instanceOf arg _ =>
    (agrees_value (v := arg)).bind fun _ => .bind agrees_tag fun _ => agrees_pure
  | .new _ | .newArray _ _ | .newMultiArray _ _ | .invoke _ _ _ _ => agrees_refuse (.of_root rfl)

theorem agrees_dereference : (dereference v).Agrees F :=
  .bind agrees_value fun _ => agrees_guardNonNull

theorem agrees_assignTo : (assignTo target e).Agrees F := by
  have hstore : ∀ location e : Expr, (do emit (← decision (storeInto location e)) :
      Lower Unit).Agrees F := fun _ _ =>
    (agrees_decision fun _ => storeInto_agrees).bind fun _ => agrees_emit
  cases target with
  | slot index => exact .bind agrees_slot fun _ => .bind agrees_coerce fun _ => agrees_emit
  | instanceField | staticField =>
    exact .bind agrees_value fun location => .bind agrees_typeOf fun _ =>
      .bind agrees_coerce fun e => agrees_frame_bind (.bind agrees_promise fun _ =>
        .ite (.bind agrees_oblige fun _ => hstore location e) (hstore location e))
  | element =>
    exact .bind agrees_value fun location => .bind agrees_typeOf fun _ =>
      .bind agrees_coerce fun e => hstore location e
  | _ => exact agrees_refuse (.of_root rfl)

theorem agrees_catches : (catches x i).Agrees F := .bind agrees_tag fun _ => agrees_pure

theorem agrees_assumeResult : (assumeResult callee x).Agrees F :=
  .ite (.bind agrees_tag fun _ => .bind agrees_emit fun _ => .bind agrees_emit fun _ =>
    .ite agrees_emit agrees_pure) agrees_pure

theorem ReceiverOf.isNone_eq {call : Call} (h : ReceiverOf F s call r j) :
    r.value.isNone = call.base.isNone := by
  cases h with
  | none hb | dynamic hb | direct hb => rw [hb]; rfl

theorem Arguments.length_eq (h : Arguments F s args r j) : r.value.length = args.length := by
  induction h with
  | nil => rfl
  | cons _ _ _ _ ih => exact congrArg (· + 1) ih

def Takes (F : Frame) (m : MethodId) (n : Nat) : Prop :=
  ∀ method, F.program.method? m = .ok method →
    n = (if method.isStatic then 0 else 1) + method.params.length

/-- A call with as many actuals as its method takes is not refused for their number. -/
theorem agrees_directCall (h : Takes F m actuals.length) :
    (directCall m callee actuals result captured).Agrees F := by
  refine .bind_gives agrees_signature fun s r j hs => ?_
  obtain ⟨sig, hsig, rfl, rfl⟩ := gives_signature.1 hs
  refine .check (fun hne => ?_) fun _ => .bind agrees_obligeAll fun _ => agrees_frame_bind
    (.check (fun _ => .of_root rfl) fun _ => .bind agrees_emit fun _ => .ite ?_ agrees_pure)
  · obtain ⟨_, hbuilt⟩ := Signature.built_of_result hsig
    obtain ⟨method, hm⟩ := hbuilt.declared_method
    exact absurd ((h method hm).trans (hbuilt.ins_length hm).symm) hne
  · cases result with
    | none => exact agrees_pure
    | some x => exact agrees_assumeResult

theorem agrees_trapJumps {ts : List Trap} : (trapJumps e ts).Agrees F := by
  induction ts with
  | nil => exact agrees_pure
  | cons t ts ih =>
    exact agrees_frame_bind (.bind agrees_catches fun _ => .bind agrees_label fun _ =>
      .bind agrees_emit fun _ => ih)

theorem agrees_escapeExit : (escapeExit n e i).Agrees F := by
  have hexit : (do
      let guard ← catches F.signature.exception i
      when leave (return .and e guard) : Lower Unit).Agrees F :=
    .bind agrees_catches fun _ => .when agrees_leave agrees_pure
  exact agrees_frame_bind (.bind agrees_promise fun _ =>
    .ite (.bind agrees_promise fun _ => .bind agrees_methodName fun _ =>
      .bind agrees_diagnose fun _ => hexit) hexit)

theorem agrees_escapeExits {fuel : Nat} {types : List ClassId} :
    (escapeExits n e fuel types).Agrees F := by
  induction fuel generalizing types with
  | zero => exact agrees_pure
  | succ fuel ih =>
    refine agrees_frame_bind (.bind agrees_promise fun i => ?_)
    cases i with
    | none => exact agrees_pure
    | some i => exact .bind agrees_escapeExit fun _ => ih

theorem agrees_exceptionContinuation : (exceptionContinuation n thrown).Agrees F :=
  agrees_frame_bind (.bind agrees_trapJumps fun _ => .bind agrees_promise fun _ =>
    agrees_escapeExits)

theorem agrees_guardedCalls {ts : List Target} (h : ∀ t ∈ ts, Takes F t.method actuals.length) :
    (guardedCalls receiver actuals result captured ts).Agrees F := by
  induction ts with
  | nil => exact agrees_pure
  | cons t ts ih =>
    obtain ⟨htakes, hrest⟩ := List.forall_mem_cons.1 h
    exact agrees_frame_bind (.bind agrees_promise fun _ =>
      ((agrees_directCall htakes).when (.bind agrees_tag fun _ => agrees_pure)).bind fun _ =>
        (ih hrest).bind fun _ => agrees_pure)

theorem agrees_receiverClass : (receiverClass callee base).Agrees F := by
  refine agrees_frame_bind (.bind agrees_promise fun ty => ?_)
  split <;> exact agrees_pure

theorem agrees_dynamicCall (h : Takes F m actuals.length)
    (hcount : actuals.length = 1 + callee.params.length) :
    (dynamicCall n m callee base receiver actuals result captured).Agrees F := by
  refine agrees_frame_bind (.bind agrees_receiverClass fun start =>
    agrees_promise_bind fun ts ht => ?_)
  cases ts with
  | nil => exact .bind agrees_diagnose fun _ => (agrees_directCall h).bind fun _ => agrees_pure
  | cons t ts =>
    refine .bind agrees_log fun _ => agrees_guardedCalls fun t' ht' method hm => ?_
    obtain ⟨hstatic, hparams⟩ := (Program.overrides_of_dispatch ht ht').method hm
    simp [hstatic, hparams, hcount]

theorem agrees_destination : (destination callee target).Agrees F := by
  refine agrees_frame_bind (.ite ?_ (.bind agrees_lowered fun ty => ?_))
  · cases target with
    | none => exact agrees_pure
    | some v => exact agrees_refuse (.of_root rfl)
  · split
    · exact .bind agrees_fresh fun _ => agrees_pure
    · exact .bind agrees_slot fun _ => .ite agrees_pure (.bind agrees_fresh fun _ => agrees_pure)
    · exact .bind agrees_fresh fun _ => agrees_pure

theorem agrees_arguments {args : List (Value × Ty)} : (arguments args).Agrees F := by
  induction args with
  | nil => exact agrees_pure
  | cons arg args ih =>
    exact .bind agrees_value fun _ => .bind agrees_lowered fun _ => .bind agrees_coerce fun _ =>
      ih.bind fun _ => agrees_pure

theorem agrees_receiverOf : (receiverOf call).Agrees F := by
  unfold receiverOf
  cases call.base with
  | none => exact agrees_pure
  | some base =>
    exact .ite (.bind agrees_dereference fun _ => agrees_pure)
      (.bind agrees_value fun _ => agrees_pure)

theorem agrees_intrinsic : (intrinsic which call target).Agrees F := by
  cases which with
  | exit => exact .bind agrees_methodName fun _ => .bind agrees_log fun _ => agrees_leave
  | stringLength =>
    unfold intrinsic
    cases call.base with
    | none => exact agrees_refuse (.of_root rfl)
    | some base =>
      refine .bind agrees_dereference fun _ => ?_
      cases target with
      | none => exact agrees_pure
      | some v => exact agrees_assignTo

theorem agrees_perform {call : Call} {receiver : Option Expr} {args : List Expr}
    (hm : F.program.method? call.method = .ok callee)
    (hstatic : callee.isStatic = receiver.isNone) (hargs : args.length = callee.params.length) :
    (perform n call callee receiver (receiver.toList ++ args) result captured).Agrees F := by
  have htakes : Takes F call.method (receiver.toList ++ args).length := by
    intro method hm'
    cases hm.symm.trans hm'
    cases receiver <;> simp [hstatic, hargs]
    omega
  refine .ite ?_ ((agrees_directCall htakes).bind fun _ => agrees_pure)
  split
  · exact agrees_dynamicCall htakes (by simp [hargs, Nat.add_comm])
  · exact agrees_frame_bind (agrees_refuse (.of_root rfl))

theorem agrees_invoke : (invoke n call target).Agrees F := by
  refine agrees_frame_bind (agrees_promise_bind fun callee hm => ?_)
  dsimp only
  split
  · exact agrees_intrinsic
  · refine .check (fun _ => .of_root rfl) fun hstatic => .check (fun _ => .of_root rfl) fun hargs =>
      .bind_gives agrees_receiverOf fun _ r _ hr => .bind_gives agrees_arguments fun _ a _ ha =>
        .bind agrees_destination fun d => Agrees.bind (agrees_perform hm ?_ ?_) fun thrown =>
          .bind agrees_exceptionContinuation fun _ => ?_
    · rw [(receiverOf_gives hr).isNone_eq, not_not.1 hstatic]
    · rw [(arguments_gives ha).length_eq, List.length_zip, not_not.1 hargs, Nat.min_self]
    · split
      · exact agrees_assignTo
      · exact agrees_pure

theorem agrees_jumpTo : (jumpTo n).Agrees F := .bind agrees_label fun _ => agrees_pure

theorem agrees_cascade {cases : List (Int × Nat)} {st : Stmt} :
    (cascade key cases st).Agrees F := by
  induction cases generalizing st with
  | nil => exact agrees_pure
  | cons c cases ih => exact .bind agrees_jumpTo fun _ => ih

theorem agrees_switch : (switch n key cases d).Agrees F :=
  .bind agrees_jumpTo fun _ => .ite
    (.bind agrees_methodName fun _ => .bind agrees_diagnose fun _ => agrees_emit)
    (.bind agrees_value fun _ => .bind agrees_coerce fun _ => .bind agrees_cascade fun _ =>
      agrees_emit)

theorem agrees_catchJumps {ids : List ClassId} : (catchJumps h ids).Agrees F := by
  induction ids with
  | nil => exact agrees_pure
  | cons i ids ih =>
    exact agrees_frame_bind (.bind agrees_catches fun _ => .bind agrees_jumpTo fun _ =>
      .bind agrees_emit fun _ => ih)

theorem agrees_handlerJumps {hs : List Nat} : (handlerJumps traps hs).Agrees F := by
  induction hs with
  | nil => exact agrees_pure
  | cons h hs ih => exact .bind agrees_catchJumps fun _ => ih

theorem agrees_raise : (raise n v).Agrees F := by
  refine agrees_frame_bind (.bind agrees_value fun _ => .bind agrees_coerce fun _ =>
    .bind agrees_emit fun _ => ?_)
  dsimp only
  split
  · exact agrees_refuse (.of_root rfl)
  · split
    · exact agrees_leave
    · exact .bind agrees_jumpTo fun _ => agrees_emit
    · exact .bind agrees_handlerJumps fun _ => agrees_emit

theorem agrees_dropSizes {sizes : List Value} : (dropSizes sizes).Agrees F := by
  induction sizes with
  | nil => exact agrees_pure
  | cons v sizes ih => exact .bind agrees_value fun _ => .bind agrees_log fun _ => ih

theorem agrees_identity : (identity index v).Agrees F := by
  have hbind : ∀ x : Ident,
      (do emit (.assign x (← coerce (← value v) x.ty)) : Lower Unit).Agrees F :=
    fun x => .bind agrees_value fun _ => .bind agrees_coerce fun _ => agrees_emit
  refine .bind agrees_slot fun x => agrees_frame_bind ?_
  cases v with
  | receiver =>
    exact .bind agrees_bindReceiver fun _ => hbind x
  | param => exact hbind x
  | caught => exact .bind agrees_emit fun _ => agrees_emit
  | _ => exact agrees_refuse (.of_root rfl)

theorem agrees_instr : (instr n i).Agrees F := by
  cases i with
  | assign target v =>
    cases v with
    | invoke => exact agrees_invoke
    | new => exact .bind agrees_allocate fun _ => agrees_assignTo
    | newArray =>
      exact .bind agrees_value fun _ => .bind agrees_coerce fun _ => .bind agrees_allocate fun _ =>
        .bind agrees_emit fun _ => agrees_assignTo
    | newMultiArray =>
      exact .bind agrees_dropSizes fun _ => .bind agrees_freshGlobal fun _ =>
        .bind agrees_allocateInto fun _ => agrees_assignTo
    | _ => exact .bind agrees_value fun _ => agrees_assignTo
  | identity => exact agrees_identity
  | invoke => exact agrees_invoke
  | goto => exact .bind agrees_jumpTo fun _ => agrees_emit
  | branch =>
    exact .bind agrees_value fun _ => .bind agrees_coerce fun _ => .bind agrees_jumpTo fun _ =>
      agrees_emit
  | lookupSwitch => exact agrees_switch
  | tableSwitch => exact .bind agrees_promise fun _ => agrees_switch
  | ret =>
    apply agrees_frame_bind
    split
    · exact agrees_refuse (.of_root rfl)
    · exact .bind agrees_value fun _ => .bind agrees_coerce fun _ => .bind agrees_emit fun _ =>
        agrees_leave
  | retVoid => exact agrees_leave
  | raise => exact agrees_raise
  | nop | breakpoint => exact agrees_log
  | enterMonitor | exitMonitor => exact .bind agrees_dereference fun _ => agrees_pure
  | retSubroutine =>
    exact .bind agrees_methodName fun _ => .bind agrees_diagnose fun _ => agrees_oblige

theorem agrees_node : (node n nd).Agrees F :=
  agrees_frame_bind (.ite (.bind agrees_label fun _ => .bind agrees_emit fun _ => agrees_instr)
    agrees_instr)

theorem agrees_segments {nodes : List (Node × Nat)} {s : Scratch} :
    (segments nodes F s).Agrees := by
  induction nodes generalizing s with
  | nil => exact Trace.agrees_pure
  | cons _ _ ih =>
    exact ((agrees_node s).within (c := .atNode _ _ _) fun _ => rfl).bind fun _ =>
      ih.bind fun _ => Trace.agrees_pure

end Lower

theorem LocalPool.ofSlots_agrees {slots : List Slot} (h : ofSlots slots = .error cause) :
    cause.Agrees := by
  obtain h | ⟨_, -, h⟩ := except_bind_eq_error.1 h
  · exact mapM_agrees (fun _ _ => Ty.lowered_agrees) h
  · cases h

/-- No body is refused because a call does not have the number of arguments that its procedure
takes. -/
theorem lowerBody_agrees : (lowerBody p q k b).Agrees := by
  refine .bind Trace.agrees_promise fun method => Trace.Agrees.bind
    (.bind Trace.agrees_emit fun _ => Signature.build_agrees) fun sig => ?_
  have hpool : (Trace.decision (LocalPool.ofSlots b.slots)).Agrees :=
    Trace.agrees_decision fun _ => LocalPool.ofSlots_agrees
  exact (hpool.within (c := .inSlots _) fun _ => rfl).bind fun _ => .bind Trace.agrees_emit fun _ =>
    .bind Lower.agrees_segments fun _ => Trace.agrees_pure

end Verilower
