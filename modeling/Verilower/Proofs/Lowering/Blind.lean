import Verilower.Proofs.Lowering.Outcome

namespace Verilower
set_option autoImplicit true

open Ivl (Ident Expr Stmt)

def Trace.map (f : α → β) (t : Trace α) : Trace β := ⟨t.journal, t.result.map f⟩

def Emitted.at (k : Nat) (r : Emitted α) : Emitted α :=
  { r with scratch := { r.scratch with globals := k } }

def Event.isGlobal : Event → Bool
  | .global _ => true
  | _ => false

def Event.isError : Event → Bool
  | .diagnostic d => d.isError
  | _ => false

/-- No global variable is made, and nothing is reported as an error. -/
abbrev Trace.Quiet (t : Trace α) : Prop :=
  t.Records fun e => e.isGlobal = false ∧ e.isError = false

/-- The trace is quiet, and the number of global variables has no influence. -/
structure Lower.Blind (x : Lower α) : Prop where
  run : ∀ F s k, x F { s with globals := k } = (x F s).map (Emitted.at k)
  quiet : ∀ F s, (x F s).Quiet

def Instr.makesGlobal : Instr → Bool
  | .assign _ (.newMultiArray ..) => true
  | _ => false

theorem Instr.makesGlobal_eq_true : makesGlobal i = true ↔
    ∃ target ty sizes, i = .assign target (.newMultiArray ty sizes) := by
  constructor
  · intro h
    unfold makesGlobal at h
    split at h
    · exact ⟨_, _, _, rfl⟩
    · cases h
  · rintro ⟨target, ty, sizes, rfl⟩
    rfl

namespace Trace

theorem quiet_emit (h : e.isGlobal = false) (he : e.isError = false) : (emit e).Quiet :=
  records_emit ⟨h, he⟩

theorem quiet_tag : (Trace.tag p ty).Quiet :=
  records_ofExcept.bind fun _ => (quiet_emit rfl rfl).bind fun _ => records_pure

theorem quiet_field : (Trace.field p i).Quiet := records_field ⟨rfl, rfl⟩

theorem quiet_label : (Trace.label m n).Quiet := (quiet_emit rfl rfl).bind fun _ => records_pure

theorem quiet_signature : (Trace.signature p q i).Quiet :=
  (quiet_emit rfl rfl).bind fun _ => records_ofExcept

end Trace

namespace Lower

theorem Blind.bind {x : Lower α} {f : α → Lower β} (hx : x.Blind) (hf : ∀ a, (f a).Blind) :
    (x >>= f).Blind where
  run F s k := by
    rw [bind_apply, bind_apply, hx.run F s k]
    obtain ⟨j, e | r⟩ := x F s
    · rfl
    · have hrun := (hf r.value).run F r.scratch k
      simp only [Trace.andThen, Bind.bind, Trace.bind, Trace.map, Except.map, Emitted.at] at hrun ⊢
      rw [hrun]
      obtain ⟨j', e | r'⟩ := f r.value F r.scratch <;> rfl
  quiet F s := by
    rw [bind_apply]
    exact (hx.quiet F s).bind fun r => ((hf r.value).quiet F r.scratch).bind fun _ =>
      Trace.records_pure

theorem Blind.globals_eq {x : Lower α} (hx : x.Blind) (h : (x F s).result = .ok r) :
    r.scratch.globals = s.globals := by
  have hself := congrArg Trace.result (hx.run F s s.globals)
  rw [Trace.map, h] at hself
  rw [Except.ok.inj hself]
  rfl

theorem blind_pure {a : α} : (Pure.pure a : Lower α).Blind :=
  ⟨fun _ _ _ => rfl, fun _ _ => Trace.records_pure⟩

theorem blind_fail : (fail e : Lower α).Blind :=
  ⟨fun _ _ _ => rfl, fun _ _ => Trace.records_ofExcept (x := .error e)⟩

theorem blind_refuse : (refuse c : Lower α).Blind := blind_fail

theorem blind_ofExcept {x : Except Failure α} : (ofExcept x).Blind := by
  cases x with
  | error => exact blind_fail
  | ok => exact blind_pure

theorem blind_promise {x : Except Fault α} : (promise x).Blind := blind_ofExcept

theorem blind_decision {x : Except Refusal α} : (decision x).Blind := blind_ofExcept

theorem blind_command {c : Command α}
    (hrun : ∀ F s k, c.trace F { s with globals := k } = (c.trace F s).map (Emitted.at k))
    (hquiet : ∀ F s, (c.trace F s).Quiet) : (command c).Blind where
  run F s k := by
    rw [command_apply, command_apply]
    exact hrun F s k
  quiet F s := by
    rw [command_apply]
    exact hquiet F s

theorem blind_ask {c : Command α} {t : Frame → Trace α}
    (hc : ∀ F s, c.trace F s = return ⟨← t F, s, []⟩) (ht : ∀ F, (t F).Quiet) :
    (command c).Blind := by
  refine blind_command (fun F s k => ?_) fun F s => ?_
  · rw [hc, hc]
    obtain ⟨j, e | a⟩ := t F <;> rfl
  · rw [hc]
    exact (ht F).bind fun _ => Trace.records_pure

theorem blind_frame : frame.Blind :=
  blind_command (fun _ _ _ => rfl) fun _ _ => Trace.records_pure

theorem blind_emit : (emit st).Blind :=
  blind_command (fun _ _ _ => rfl) fun _ _ => Trace.records_pure

theorem blind_oblige : (oblige o).Blind :=
  blind_command (fun _ _ _ => rfl) fun _ _ => Trace.records_pure

theorem blind_obligeAll {os : List Obligation} : (obligeAll os).Blind := by
  induction os with
  | nil => exact blind_pure
  | cons _ _ ih => exact .bind blind_oblige fun _ => ih

theorem Blind.when {x : Lower Unit} {c : Lower Expr} (hx : x.Blind) (hc : c.Blind) :
    (when x c).Blind where
  run F s k := by
    rw [when_apply, when_apply, hx.run F s k]
    obtain ⟨j, e | r⟩ := x F s
    · rfl
    · have hrun := hc.run F r.scratch k
      simp only [branched, Bind.bind, Trace.bind, Trace.map, Except.map, Emitted.at] at hrun ⊢
      rw [hrun]
      obtain ⟨j', e | r'⟩ := c F r.scratch <;> rfl
  quiet F s := by
    rw [when_apply]
    exact (hx.quiet F s).bind fun r => (hc.quiet F r.scratch).bind fun _ => Trace.records_pure

theorem Blind.ite {c : Prop} [Decidable c] {x y : Lower α} (hx : x.Blind) (hy : y.Blind) :
    (if c then x else y).Blind := by
  split
  · exact hx
  · exact hy

theorem Blind.check {c : Prop} [Decidable c] {cause : Refusal} {f : Unit → Lower α}
    (hf : ∀ u, (f u).Blind) : (if c then refuse cause >>= f else f ()).Blind :=
  .ite (.bind blind_refuse hf) (hf ())

theorem blind_slot : (slot index).Blind := by
  refine blind_command (fun F s k => ?_) fun F s => ?_
  · simp only [Command.trace]
    cases s.pool.slot index <;> rfl
  · exact Trace.records_ofExcept.bind fun _ => Trace.records_pure

theorem blind_fresh : (fresh ty).Blind :=
  blind_command (fun _ _ _ => rfl) fun _ _ => Trace.records_pure

theorem blind_receivers : receivers.Blind :=
  blind_command (fun _ _ _ => rfl) fun _ _ => Trace.records_pure

theorem blind_bindReceiver : (bindReceiver index).Blind :=
  blind_command (fun _ _ _ => rfl) fun _ _ => Trace.records_pure

theorem blind_tag : (tag ty).Blind :=
  (blind_ask (fun _ _ => rfl) fun _ => Trace.quiet_tag).bind fun _ => blind_pure

theorem blind_field : (field i).Blind := blind_ask (fun _ _ => rfl) fun _ => Trace.quiet_field

theorem blind_label : (label n).Blind :=
  .bind blind_frame fun _ => blind_ask (fun _ _ => rfl) fun _ => Trace.quiet_label

theorem blind_signature : (signature m).Blind :=
  blind_ask (fun _ _ => rfl) fun _ => Trace.quiet_signature

theorem blind_diagnose (h : l.rank < Severity.error.rank) : (diagnose l n m).Blind :=
  .bind blind_frame fun _ => blind_ask (fun _ _ => rfl) fun _ =>
    Trace.quiet_emit rfl (decide_eq_false (Nat.not_le.2 h))

theorem blind_warn : (diagnose .warning n m).Blind := blind_diagnose (by decide)

theorem blind_log : (log l m).Blind := blind_ask (fun _ _ => rfl) fun _ => Trace.quiet_emit rfl rfl

theorem blind_methodName : methodName.Blind := .bind blind_frame fun _ => blind_pure

theorem blind_typeOf : (typeOf e).Blind := blind_promise

theorem blind_coerce : (coerce e ty).Blind := by
  refine .bind blind_typeOf fun source => ?_
  cases Prelude.convert source ty e with
  | none => exact blind_refuse
  | some e' => exact blind_pure

theorem blind_leave : leave.Blind :=
  .bind (.bind blind_frame fun _ => blind_obligeAll) fun _ => blind_emit

theorem blind_allocateInto : (allocateInto x ty).Blind :=
  .bind blind_tag fun _ => .bind blind_emit fun _ => .bind blind_emit fun _ =>
    .bind blind_emit fun _ => .bind blind_emit fun _ => blind_emit

theorem blind_allocate : (allocate ty).Blind :=
  .bind blind_fresh fun _ => .bind blind_allocateInto fun _ => blind_pure

theorem blind_constant : (constant c).Blind := by
  cases c with
  | float => exact .ite blind_pure blind_refuse
  | string => exact .bind blind_allocate fun _ => .bind blind_emit fun _ => blind_pure
  | _ => exact blind_pure

theorem blind_isReceiver : (isReceiver v).Blind := by
  cases v with
  | slot index => exact .bind blind_receivers fun _ => blind_pure
  | _ => exact blind_pure

theorem blind_guardNonNull : (guardNonNull v e).Blind :=
  .bind blind_isReceiver fun _ => .ite blind_pure (.bind blind_oblige fun _ => blind_pure)

theorem blind_elementHeap : (elementHeap v).Blind := by
  refine .bind blind_frame fun F => .bind blind_promise fun ty => ?_
  cases ty.bind Ty.element? with
  | none => exact blind_refuse
  | some elem =>
    refine .bind blind_decision fun t => ?_
    cases Prelude.arrays? t with
    | none => exact blind_refuse
    | some heap => exact blind_pure

theorem blind_align : (align l r).Blind := by
  refine .bind blind_typeOf fun tl => .bind blind_typeOf fun tr => .ite blind_pure ?_
  cases Prelude.convert tr tl r with
  | some r' => exact blind_pure
  | none =>
    cases Prelude.convert tl tr l with
    | some l' => exact blind_pure
    | none => exact blind_refuse

theorem blind_aligned : (aligned op l r).Blind := .bind blind_align fun _ => blind_pure

theorem blind_converted : (converted f a b l r).Blind :=
  .bind blind_coerce fun _ => .bind blind_coerce fun _ => blind_pure

theorem blind_bothBool : (bothBool l r).Blind :=
  .bind blind_typeOf fun _ => .ite (.bind blind_typeOf fun _ => blind_pure) blind_pure

theorem blind_logical : (logical op f l r).Blind :=
  .bind blind_bothBool fun _ => .ite blind_pure blind_converted

theorem blind_binary : (binary op l r).Blind := by
  cases op with
  | add | sub | mul | eq | ne | lt | le | gt | ge => exact blind_aligned
  | div => exact .bind blind_align fun _ => .bind blind_typeOf fun _ => blind_pure
  | rem =>
    exact .bind blind_align fun _ => .bind blind_typeOf fun _ => .ite blind_pure blind_converted
  | and | or | xor => exact blind_logical
  | shl | shr | ushr | cmp | cmpl | cmpg => exact blind_converted

theorem blind_cast : (cast e ty).Blind :=
  .ite (.bind blind_decision fun _ => blind_coerce)
    (.bind blind_tag fun _ => .bind blind_oblige fun _ => blind_pure)

theorem blind_instanceOf : (instanceOf e ty).Blind := .bind blind_tag fun _ => blind_pure

theorem blind_value : ∀ {v : Value}, (value v).Blind
  | .slot _ => .bind blind_slot fun _ => blind_pure
  | .constant _ => blind_constant
  | .param index => by
    refine .bind blind_frame fun F => ?_
    cases F.signature.params[index]? with
    | none => exact blind_refuse
    | some x => exact blind_pure
  | .receiver => by
    refine .bind blind_frame fun F => ?_
    cases F.signature.receiver with
    | none => exact blind_refuse
    | some x => exact blind_pure
  | .caught => .bind blind_frame fun _ => blind_pure
  | .instanceField base _ => by
    refine (blind_value (v := base)).bind fun _ => .bind blind_guardNonNull fun _ =>
      .bind blind_field fun x => ?_
    cases x.ty with
    | field => exact blind_pure
    | _ => exact blind_refuse
  | .staticField _ => by
    refine .bind blind_field fun x => ?_
    cases x.ty with
    | field => exact blind_refuse
    | _ => exact blind_pure
  | .element base index =>
    .bind blind_elementHeap fun _ => (blind_value (v := base)).bind fun _ =>
      .bind blind_guardNonNull fun _ => (blind_value (v := index)).bind fun _ =>
        .bind blind_coerce fun _ => .bind blind_oblige fun _ => blind_pure
  | .length base =>
    (blind_value (v := base)).bind fun _ => .bind blind_guardNonNull fun _ => blind_pure
  | .binary _ lhs rhs =>
    (blind_value (v := lhs)).bind fun _ => (blind_value (v := rhs)).bind fun _ => blind_binary
  | .neg arg => (blind_value (v := arg)).bind fun _ => blind_pure
  | .cast arg _ => (blind_value (v := arg)).bind fun _ => blind_cast
  | .instanceOf arg _ => (blind_value (v := arg)).bind fun _ => blind_instanceOf
  | .new _ | .newArray _ _ | .newMultiArray _ _ | .invoke _ _ _ _ => blind_refuse

theorem blind_dereference : (dereference v).Blind :=
  .bind blind_value fun _ => blind_guardNonNull

theorem blind_assignTo : (assignTo target e).Blind := by
  cases target with
  | slot index => exact .bind blind_slot fun _ => .bind blind_coerce fun _ => blind_emit
  | instanceField | staticField =>
    exact .bind blind_value fun _ => .bind blind_typeOf fun _ => .bind blind_coerce fun _ =>
      .bind blind_frame fun _ => .bind blind_promise fun _ =>
        .ite (.bind blind_oblige fun _ => .bind blind_decision fun _ => blind_emit)
          (.bind blind_decision fun _ => blind_emit)
  | element =>
    exact .bind blind_value fun _ => .bind blind_typeOf fun _ => .bind blind_coerce fun _ =>
      .bind blind_decision fun _ => blind_emit
  | _ => exact blind_refuse

theorem blind_catches : (catches x i).Blind := .bind blind_tag fun _ => blind_pure

theorem blind_assumeResult : (assumeResult callee x).Blind :=
  .ite (.bind blind_tag fun _ => .bind blind_emit fun _ => .bind blind_emit fun _ =>
    .ite blind_emit blind_pure) blind_pure

theorem blind_directCall : (directCall m callee actuals result captured).Blind := by
  refine .bind blind_signature fun sig => .check fun _ => .bind blind_obligeAll fun _ =>
    .bind blind_frame fun F => .check fun _ => .bind blind_emit fun _ => .ite ?_ blind_pure
  cases result with
  | none => exact blind_pure
  | some x => exact blind_assumeResult

theorem blind_trapJumps {ts : List Trap} : (trapJumps e ts).Blind := by
  induction ts with
  | nil => exact blind_pure
  | cons _ _ ih =>
    exact .bind blind_frame fun _ => .bind blind_catches fun _ => .bind blind_label fun _ =>
      .bind blind_emit fun _ => ih

theorem blind_escapeExit : (escapeExit n e i).Blind := by
  have hexit : ∀ F : Frame, (do
      let guard ← catches F.signature.exception i
      when leave (return .and e guard) : Lower Unit).Blind := fun F =>
    .bind blind_catches fun _ => .when blind_leave blind_pure
  exact .bind blind_frame fun F => .bind blind_promise fun _ =>
    .ite (.bind blind_promise fun _ => .bind blind_methodName fun _ => .bind blind_warn fun _ =>
      hexit F) (hexit F)

theorem blind_escapeExits {types : List ClassId} : (escapeExits n e fuel types).Blind := by
  induction fuel generalizing types with
  | zero => exact blind_pure
  | succ fuel ih =>
    refine .bind blind_frame fun F => .bind blind_promise fun i => ?_
    cases i with
    | none => exact blind_pure
    | some i => exact .bind blind_escapeExit fun _ => ih

theorem blind_exceptionContinuation : (exceptionContinuation n thrown).Blind :=
  .bind blind_frame fun _ => .bind blind_trapJumps fun _ => .bind blind_promise fun _ =>
    blind_escapeExits

theorem blind_guardedCalls {ts : List Target} :
    (guardedCalls receiver actuals result captured ts).Blind := by
  induction ts with
  | nil => exact blind_pure
  | cons _ _ ih =>
    exact .bind blind_frame fun _ => .bind blind_promise fun _ =>
      .bind (.when blind_directCall (.bind blind_tag fun _ => blind_pure)) fun _ =>
        ih.bind fun _ => blind_pure

theorem blind_receiverClass : (receiverClass callee base).Blind := by
  refine .bind blind_frame fun F => .bind blind_promise fun ty => ?_
  split <;> exact blind_pure

theorem blind_dynamicCall :
    (dynamicCall n m callee base receiver actuals result captured).Blind := by
  refine .bind blind_frame fun F => .bind blind_receiverClass fun _ =>
    .bind blind_promise fun ts => ?_
  cases ts with
  | nil => exact .bind blind_warn fun _ => .bind blind_directCall fun _ => blind_pure
  | cons t ts => exact .bind blind_log fun _ => blind_guardedCalls

theorem blind_destination : (destination callee target).Blind := by
  refine .bind blind_frame fun F => .ite ?_ (.bind blind_decision fun ty => ?_)
  · cases target with
    | none => exact blind_pure
    | some v => exact blind_refuse
  · split
    · exact .bind blind_fresh fun _ => blind_pure
    · exact .bind blind_slot fun _ => .ite blind_pure (.bind blind_fresh fun _ => blind_pure)
    · exact .bind blind_fresh fun _ => blind_pure

theorem blind_arguments {args : List (Value × Ty)} : (arguments args).Blind := by
  induction args with
  | nil => exact blind_pure
  | cons _ _ ih =>
    exact .bind blind_value fun _ => .bind blind_decision fun _ => .bind blind_coerce fun _ =>
      ih.bind fun _ => blind_pure

theorem blind_receiverOf : (receiverOf call).Blind := by
  unfold receiverOf
  cases call.base with
  | none => exact blind_pure
  | some base =>
    exact .ite (.bind blind_dereference fun _ => blind_pure) (.bind blind_value fun _ => blind_pure)

theorem blind_intrinsic : (intrinsic which call target).Blind := by
  cases which with
  | exit => exact .bind blind_methodName fun _ => .bind blind_log fun _ => blind_leave
  | stringLength =>
    unfold intrinsic
    cases call.base with
    | none => exact blind_refuse
    | some base =>
      refine .bind blind_dereference fun _ => ?_
      cases target with
      | none => exact blind_pure
      | some v => exact blind_assignTo

theorem blind_perform :
    (perform n call callee receiver actuals result captured).Blind := by
  refine .ite ?_ (.bind blind_directCall fun _ => blind_pure)
  split
  · exact blind_dynamicCall
  · exact .bind blind_frame fun _ => blind_refuse

theorem blind_invoke : (invoke n call target).Blind := by
  refine .bind blind_frame fun F => .bind blind_promise fun callee => ?_
  dsimp only
  split
  · exact blind_intrinsic
  · refine .check fun _ => .check fun _ => .bind blind_receiverOf fun receiver =>
      .bind blind_arguments fun args => .bind blind_destination fun d =>
        .bind blind_perform fun thrown => .bind blind_exceptionContinuation fun _ => ?_
    split
    · exact blind_assignTo
    · exact blind_pure

theorem blind_jumpTo : (jumpTo n).Blind := .bind blind_label fun _ => blind_pure

theorem blind_cascade {cases : List (Int × Nat)} {st : Stmt} : (cascade key cases st).Blind := by
  induction cases generalizing st with
  | nil => exact blind_pure
  | cons _ _ ih => exact .bind blind_jumpTo fun _ => ih

theorem blind_switch : (switch n key cases d).Blind :=
  .bind blind_jumpTo fun _ => .ite
    (.bind blind_methodName fun _ => (blind_diagnose (by decide)).bind fun _ => blind_emit)
    (.bind blind_value fun _ => .bind blind_coerce fun _ => .bind blind_cascade fun _ => blind_emit)

theorem blind_catchJumps {ids : List ClassId} : (catchJumps h ids).Blind := by
  induction ids with
  | nil => exact blind_pure
  | cons _ _ ih =>
    exact .bind blind_frame fun _ => .bind blind_catches fun _ => .bind blind_jumpTo fun _ =>
      .bind blind_emit fun _ => ih

theorem blind_handlerJumps {hs : List Nat} : (handlerJumps traps hs).Blind := by
  induction hs with
  | nil => exact blind_pure
  | cons _ _ ih => exact .bind blind_catchJumps fun _ => ih

theorem blind_raise : (raise n v).Blind := by
  refine .bind blind_frame fun F => .bind blind_value fun _ => .bind blind_coerce fun _ =>
    .bind blind_emit fun _ => ?_
  dsimp only
  split
  · exact blind_refuse
  · split
    · exact blind_leave
    · exact .bind blind_jumpTo fun _ => blind_emit
    · exact .bind blind_handlerJumps fun _ => blind_emit

theorem blind_dropSizes {sizes : List Value} : (dropSizes sizes).Blind := by
  induction sizes with
  | nil => exact blind_pure
  | cons _ _ ih => exact .bind blind_value fun _ => .bind blind_log fun _ => ih

theorem blind_identity : (identity index v).Blind := by
  have hbind : ∀ x : Ident, (do emit (.assign x (← coerce (← value v) x.ty)) : Lower Unit).Blind :=
    fun x => .bind blind_value fun _ => .bind blind_coerce fun _ => blind_emit
  refine .bind blind_slot fun x => .bind blind_frame fun F => ?_
  cases v with
  | receiver => exact .bind blind_bindReceiver fun _ => hbind x
  | param => exact hbind x
  | caught => exact .bind blind_emit fun _ => blind_emit
  | _ => exact blind_refuse

theorem blind_instr (h : i.makesGlobal = false) : (instr n i).Blind := by
  cases i with
  | assign target v =>
    cases v with
    | invoke => exact blind_invoke
    | new => exact .bind blind_allocate fun _ => blind_assignTo
    | newArray =>
      exact .bind blind_value fun _ => .bind blind_coerce fun _ => .bind blind_allocate fun _ =>
        .bind blind_emit fun _ => blind_assignTo
    | newMultiArray => cases h
    | _ => exact .bind blind_value fun _ => blind_assignTo
  | identity => exact blind_identity
  | invoke => exact blind_invoke
  | goto => exact .bind blind_jumpTo fun _ => blind_emit
  | branch =>
    exact .bind blind_value fun _ => .bind blind_coerce fun _ => .bind blind_jumpTo fun _ =>
      blind_emit
  | lookupSwitch => exact blind_switch
  | tableSwitch => exact .bind blind_promise fun _ => blind_switch
  | ret =>
    refine .bind blind_frame fun F => ?_
    split
    · exact blind_refuse
    · exact .bind blind_value fun _ => .bind blind_coerce fun _ => .bind blind_emit fun _ =>
        blind_leave
  | retVoid => exact blind_leave
  | raise => exact blind_raise
  | nop => exact blind_log
  | breakpoint => exact blind_log
  | enterMonitor => exact .bind blind_dereference fun _ => blind_pure
  | exitMonitor => exact .bind blind_dereference fun _ => blind_pure
  | retSubroutine => exact .bind blind_methodName fun _ => .bind blind_warn fun _ => blind_oblige

end Lower

end Verilower
