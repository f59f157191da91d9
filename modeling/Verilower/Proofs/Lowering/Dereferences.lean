import Verilower.Proofs.ControlFlow
import Verilower.Proofs.Lowering.Emission

namespace Verilower
set_option autoImplicit true

open Ivl

/-- The values that are dereferenced to evaluate a value, in order. -/
def Value.derefs : Value → List Value
  | .instanceField base _ | .length base => base.derefs ++ [base]
  | .element base index => base.derefs ++ [base] ++ index.derefs
  | .binary _ lhs rhs => lhs.derefs ++ rhs.derefs
  | .neg arg | .cast arg _ | .instanceOf arg _ => arg.derefs
  | _ => []

/-- The values that a call dereferences and then, to store its result, the target. -/
def Call.derefs (p : Program) (call : Call) (target : Option Value) : List Value :=
  match p.methods[call.method]?.bind p.intrinsic? with
  | some .exit => []
  | some .stringLength =>
    call.base.toList.flatMap (fun base => base.derefs ++ [base]) ++
      target.toList.flatMap Value.derefs
  | none =>
    call.base.toList.flatMap (fun base =>
        base.derefs ++ if call.kind.isDynamic then [base] else []) ++
      call.args.flatMap Value.derefs ++ target.toList.flatMap Value.derefs

/-- The values that an instruction dereferences, in order. -/
def Instr.derefs (p : Program) : Instr → List Value
  | .assign target (.invoke kind m base args) => Call.derefs p ⟨kind, m, base, args⟩ (some target)
  | .assign target (.newArray _ size) => size.derefs ++ target.derefs
  | .assign target (.newMultiArray _ sizes) => sizes.flatMap Value.derefs ++ target.derefs
  | .assign target v => v.derefs ++ target.derefs
  | .invoke call => call.derefs p none
  | .branch v _ | .ret v | .raise v => v.derefs
  | .lookupSwitch key cases _ => if cases.isEmpty then [] else key.derefs
  | .tableSwitch key _ targets _ => if targets.isEmpty then [] else key.derefs
  | .enterMonitor v | .exitMonitor v => v.derefs ++ [v]
  | .identity _ _ | .goto _ | .retVoid | .nop | .breakpoint | .retSubroutine _ => []

/-- Code with one check per dereference, in order. The receiver and the exempt locals have none. -/
inductive NullChecked (enc : Encoding) (vars : List Ident) (exempt : Nat → Prop) :
    List Value → List Stmt → Prop
  | done : NullChecked enc vars exempt [] ss
  | skip (h : NullChecked enc vars exempt bases ss) : NullChecked enc vars exempt bases (ts ++ ss)
  | receiver (h : NullChecked enc vars exempt bases ss) :
      NullChecked enc vars exempt (.receiver :: bases) ss
  | exempt (hi : exempt index) (h : NullChecked enc vars exempt bases ss) :
      NullChecked enc vars exempt (.slot index :: bases) ss
  | checked (hb : base ≠ .receiver)
      (hi : ∀ index, base = .slot index → ¬ exempt index ∧
        ∃ x, vars[index]? = some x ∧ e = x.expr)
      (h : NullChecked enc vars exempt bases ss) :
      NullChecked enc vars exempt (base :: bases) (enc.obligation (.nonNull e) ++ ss)

namespace NullChecked

variable {enc : Encoding} {exempt exempt' : Nat → Prop}

theorem append (h : NullChecked enc vars exempt bases ss)
    (h' : NullChecked enc vars exempt bases' ts) :
    NullChecked enc vars exempt (bases ++ bases') (ss ++ ts) := by
  induction h with
  | done => exact h'.skip
  | skip _ ih =>
    rw [List.append_assoc]
    exact ih.skip
  | receiver _ ih => exact .receiver ih
  | exempt hi _ ih => exact .exempt hi ih
  | checked hb hi _ ih =>
    rw [List.append_assoc]
    exact .checked hb hi ih

theorem congr (h : NullChecked enc vars exempt bases ss) (he : ∀ i, exempt i ↔ exempt' i) :
    NullChecked enc vars exempt' bases ss := by
  induction h with
  | done => exact .done
  | skip _ ih => exact ih.skip
  | receiver _ ih => exact .receiver ih
  | exempt hi _ ih => exact .exempt ((he _).1 hi) ih
  | checked hb hi _ ih =>
    exact .checked hb (fun i hbase => (hi i hbase).imp_left (mt (he i).2)) ih

end NullChecked

/-- The state has the same source locals, and the same of them are bound to the receiver. -/
structure Scratch.Keeps (s s' : Scratch) : Prop where
  slots : s'.pool.slots = s.pool.slots
  receivers : s'.receivers = s.receivers

namespace Scratch.Keeps

theorem refl (s : Scratch) : s.Keeps s := ⟨rfl, rfl⟩

theorem trans (h : Keeps s s') (h' : Keeps s' s'') : Keeps s s'' :=
  ⟨h'.slots.trans h.slots, h'.receivers.trans h.receivers⟩

theorem grown (s : Scratch) (ty : Ivl.Ty) : s.Keeps (s.grown ty) := ⟨rfl, rfl⟩

theorem globalized (s : Scratch) : s.Keeps s.globalized := ⟨rfl, rfl⟩

end Scratch.Keeps

theorem LocalPool.getElem?_of_slot {pool : LocalPool} (h : pool.slot i = .ok x) :
    pool.slots[i]? = some x := by
  unfold slot at h
  split at h
  · cases h
    assumption
  · cases h

namespace Lower

theorem Operand.keeps (h : Operand F s v r j) : s.Keeps r.scratch := by
  induction h with
  | slot | literal | param | receiver | caught | staticField => exact .refl _
  | string => exact .grown _ _
  | instanceField _ _ _ ih | length _ ih | neg _ ih | convert _ _ _ _ ih | cast _ _ _ ih
  | instanceOf _ _ ih => exact ih
  | element _ _ _ _ iha ihi => exact iha.trans ihi
  | binary _ _ _ ihl ihr => exact ihl.trans ihr

theorem Stored.keeps (h : Stored F s target e r j) : s.Keeps r.scratch := by
  cases h with
  | slot => exact .refl _
  | field _ hl | element hl => exact hl.keeps

theorem Arguments.keeps (h : Arguments F s args r j) : s.Keeps r.scratch := by
  induction h with
  | nil => exact .refl _
  | cons ha _ _ _ ih => exact ha.keeps.trans ih

theorem ReceiverOf.keeps (h : ReceiverOf F s call r j) : s.Keeps r.scratch := by
  cases h with
  | none => exact .refl _
  | dynamic _ _ ho | direct _ _ ho => exact ho.keeps

theorem Destined.keeps (h : Destined F s callee target d s') : s.Keeps s' := by
  cases h with
  | void | «local» => exact .refl _
  | dropped | other => exact .grown _ _

theorem WrittenBack.keeps (h : WrittenBack F s w r j) : s.Keeps r.scratch := by
  cases h with
  | none => exact .refl _
  | some h => exact h.keeps

theorem Invoked.keeps {call : Call} (h : Invoked F n call target s r j) : s.Keeps r.scratch := by
  cases h with
  | exit => exact .refl _
  | stringLengthDropped _ _ _ ho => exact ho.keeps
  | stringLength _ _ _ ho _ hst => exact ho.keeps.trans hst.keeps
  | call _ _ _ _ hr ha hd _ _ hw =>
    exact hr.keeps.trans (ha.keeps.trans (hd.keeps.trans hw.keeps))

theorem Dropped.keeps (h : Dropped F s vs r j) : s.Keeps r.scratch := by
  induction h with
  | nil => exact .refl _
  | cons ho _ ih => exact ho.keeps.trans ih

theorem Assigned.keeps (h : Assigned F n target s v r j) : s.Keeps r.scratch := by
  cases h with
  | invoke h => exact h.keeps
  | new _ hst => exact (Scratch.Keeps.grown _ _).trans hst.keeps
  | newArray ho _ _ hst => exact ho.keeps.trans ((Scratch.Keeps.grown _ _).trans hst.keeps)
  | newMultiArray hd _ hst =>
    exact hd.keeps.trans ((Scratch.Keeps.globalized _).trans hst.keeps)
  | value ho hst => exact ho.keeps.trans hst.keeps

/-- Only binding the receiver to a local adds to the locals that hold it. -/
theorem Executed.slots_receivers (h : Executed F n s i r j) :
    r.scratch.pool.slots = s.pool.slots ∧
      ∀ index, index ∈ r.scratch.receivers ↔
        index ∈ s.receivers ∨ i = .identity index .receiver := by
  have kept (hk : s.Keeps r.scratch) (hi : ∀ index, i ≠ .identity index .receiver) :
      r.scratch.pool.slots = s.pool.slots ∧
        ∀ index, index ∈ r.scratch.receivers ↔
          index ∈ s.receivers ∨ i = .identity index .receiver := by
    refine ⟨hk.slots, fun index => ?_⟩
    simp [hk.receivers, hi index]
  cases h with
  | assign h => exact kept h.keeps nofun
  | identity h =>
    cases h with
    | receiver =>
      refine ⟨rfl, fun index => ?_⟩
      simp [Scratch.bound, or_comm, eq_comm]
    | param | caught => exact kept (.refl _) nofun
  | invoke h => exact kept h.keeps nofun
  | branch ho | ret _ ho | raise ho | enterMonitor ho | exitMonitor ho =>
    exact kept ho.keeps nofun
  | lookupSwitch h | tableSwitch _ h =>
    cases h with
    | empty => exact kept (.refl _) nofun
    | cascade _ ho => exact kept ho.keeps nofun
  | goto | retVoid | nop | breakpoint | retSubroutine => exact kept (.refl _) nofun

end Lower

/-- An identifier that no source local has: its name begins with a dollar sign. -/
def Ivl.Ident.IsReserved (x : Ident) : Prop := x.name.toList.head? = some '$'

instance (x : Ident) : Decidable x.IsReserved := inferInstanceAs (Decidable (_ = _))

theorem Ivl.Ident.IsReserved.numbered {start : String} (h : start.toList.head? = some '$') (n : Nat)
    (ty : Ivl.Ty) : IsReserved ⟨start ++ toString n, ty⟩ := by
  obtain ⟨cs, hcs⟩ := List.head?_eq_some_iff.1 h
  rw [IsReserved, String.toList_append, hcs]
  rfl

theorem Scratch.next_isReserved (s : Scratch) (ty : Ivl.Ty) : (s.next ty).IsReserved :=
  .numbered (by decide) _ ty

theorem arrays_isReserved (h : Prelude.arrays? ty = some x) : x.IsReserved := by
  cases ty <;> cases h <;> decide

theorem globalIdent_isReserved (n : Nat) (ty : Ivl.Ty) : (globalIdent n ty).IsReserved :=
  .numbered (by decide) n ty

namespace Lower

/-- Code that evaluates operands: it checks what it dereferences, and it assigns no source local. -/
structure Evaluates (F : Frame) (enc : Encoding) (s : Scratch) (bases : List Value)
    (code : List Outline) : Prop where
  checked : NullChecked enc s.pool.slots (· ∈ s.receivers) bases (enc.encodeAll code)
  emits : ∃ ts, Emits F Ident.IsReserved ts code

namespace Evaluates

variable {enc : Encoding}

theorem of_emits (h : Emits F Ident.IsReserved ts code) : Evaluates F enc s [] code :=
  ⟨.done, ts, h⟩

theorem append (h : Evaluates F enc s bases code) (h' : Evaluates F enc s bases' code') :
    Evaluates F enc s (bases ++ bases') (code ++ code') := by
  obtain ⟨hc, ts, ht⟩ := h
  obtain ⟨hc', ts', ht'⟩ := h'
  refine ⟨?_, _, ht.append ht'⟩
  rw [Encoding.encodeAll_append]
  exact hc.append hc'

theorem trail (h : Evaluates F enc s bases code) (h' : Emits F Ident.IsReserved ts code') :
    Evaluates F enc s bases (code ++ code') :=
  List.append_nil bases ▸ h.append (.of_emits h')

theorem earlier (h : Evaluates F enc s' bases code) (hs : s.Keeps s') :
    Evaluates F enc s bases code := by
  obtain ⟨hc, ht⟩ := h
  rw [hs.slots, hs.receivers] at hc
  exact ⟨hc, ht⟩

end Evaluates

variable (enc : Encoding)

theorem knownReceiver_eq_true (h : knownReceiver s base = true) :
    base = .receiver ∨ ∃ index ∈ s.receivers, base = .slot index := by
  unfold knownReceiver at h
  split at h
  · exact .inl rfl
  · exact .inr ⟨_, List.contains_iff_mem.1 h, rfl⟩
  · cases h

theorem Operand.nullGuard_evaluates (h : Operand F s base ⟨e, s', code⟩ j) :
    Evaluates F enc s [base] (nullGuard s' base e) := by
  suffices hs : Evaluates F enc s' [base] (nullGuard s' base e) from hs.earlier h.keeps
  refine ⟨?_, [], emits_nullGuard⟩
  unfold nullGuard
  split
  · rename_i hk
    obtain rfl | ⟨index, hi, rfl⟩ := knownReceiver_eq_true hk
    · exact .receiver .done
    · exact .exempt hi .done
  · rename_i hk
    rw [Encoding.encodeAll_oblige, ← List.append_nil (enc.obligation _)]
    apply NullChecked.checked
    · rintro rfl
      exact hk rfl
    · rintro index rfl
      refine ⟨fun hi => hk (List.contains_iff_mem.2 hi), ?_⟩
      cases h with
      | slot hx => exact ⟨_, LocalPool.getElem?_of_slot hx, rfl⟩
    · exact .done

theorem Operand.evaluates (h : Operand F s v r j) : Evaluates F enc s v.derefs r.code := by
  induction h with
  | slot | literal | param | receiver | caught | staticField => exact .of_emits .nil
  | string ht =>
    exact .of_emits ((Emits.object (Scratch.next_isReserved _ _) ht).trail (.assign rfl))
  | instanceField hb _ _ ih | length hb ih => exact ih.append (hb.nullGuard_evaluates enc)
  | element _ ha _ _ iha ihi =>
    have harray := iha.append (ha.nullGuard_evaluates enc)
    exact (harray.append (ihi.earlier ha.keeps)).trail (.oblige _ _)
  | binary hl _ _ ihl ihr => exact ihl.append (ihr.earlier hl.keeps)
  | neg _ ih => exact ih
  | convert _ _ _ _ ih => exact ih
  | cast _ _ _ ih => exact ih.trail (.oblige _ _)
  | instanceOf _ _ ih => exact ih

/-- Code that evaluates operands and then assigns no source local but those in `V`. -/
def Splits (F : Frame) (enc : Encoding) (s : Scratch) (bases : List Value) (V : Ident → Prop)
    (code : List Outline) : Prop :=
  ∃ front back ts, code = front ++ back ∧ Evaluates F enc s bases front ∧
    Emits F (fun x => x.IsReserved ∨ V x) ts back

variable {V : Ident → Prop}

theorem Evaluates.splits (h : Evaluates F enc s bases code) : Splits F enc s bases V code :=
  ⟨code, [], [], (List.append_nil _).symm, h, .nil⟩

theorem Splits.of_emits (h : Emits F (fun x => x.IsReserved ∨ V x) ts code) :
    Splits F enc s [] V code :=
  ⟨[], code, ts, rfl, .of_emits .nil, h⟩

theorem Splits.after (h' : Splits F enc s' bases' V code') (h : Evaluates F enc s bases code)
    (hs : s.Keeps s') : Splits F enc s (bases ++ bases') V (code ++ code') := by
  obtain ⟨front, back, ts, rfl, hf, hb⟩ := h'
  exact ⟨_, back, ts, (List.append_assoc ..).symm, h.append (hf.earlier hs), hb⟩

theorem Evaluates.follow (h : Evaluates F enc s bases code)
    (h' : Emits F (fun x => x.IsReserved ∨ V x) ts code') :
    Splits F enc s bases V (code ++ code') :=
  ⟨code, code', ts, rfl, h, h'⟩

end Lower

def Value.Denotes (p : Program) (vars : List Ident) : Value → Ident → Prop
  | .slot index, x => vars[index]? = some x
  | .staticField i, x => p.fieldIdent i = .ok x
  | _, _ => False

/-- The variables of source locals and static fields that an instruction assigns. -/
def Instr.Sets (p : Program) (vars : List Ident) (x : Ident) : Instr → Prop
  | .assign target _ => target.Denotes p vars x
  | .identity index _ => vars[index]? = some x
  | _ => False

namespace Lower

variable (enc : Encoding) {V : Ident → Prop}

theorem Stored.splits (h : Stored F s target e r j) (hv : s.pool.slots = vars) :
    Splits F enc s target.derefs (target.Denotes F.program vars) r.code := by
  subst hv
  cases h with
  | slot hx => exact .of_emits enc (.assign (.inr (LocalPool.getElem?_of_slot hx)))
  | field hi hl _ _ _ hs =>
    have hlocation := hl.evaluates enc
    cases hl with
    | instanceField _ hx ht =>
      cases hs
      exact (hlocation.trail emits_storeGuard).follow enc (.fieldStore hx ht)
    | staticField hx ht =>
      cases hs
      exact (hlocation.trail emits_storeGuard).follow enc (.assign (.inr hx))
    | _ => cases hi
  | element hl _ _ hs =>
    have hlocation := hl.evaluates enc
    cases hl with
    | element hh =>
      obtain ⟨ty, elem, -, -, hheap⟩ := hh
      cases hs
      exact hlocation.follow enc (.assign (.inl (arrays_isReserved hheap)))

theorem Arguments.evaluates (h : Arguments F s args r j) :
    Evaluates F enc s ((args.map Prod.fst).flatMap Value.derefs) r.code := by
  induction h with
  | nil => exact .of_emits .nil
  | cons ha _ _ _ ih => exact (ha.evaluates enc).append (ih.earlier ha.keeps)

theorem ReceiverOf.evaluates {call : Call} (h : ReceiverOf F s call r j) :
    Evaluates F enc s (call.base.toList.flatMap fun base =>
      base.derefs ++ if call.kind.isDynamic then [base] else []) r.code := by
  cases h with
  | none hb => simpa [hb] using Evaluates.of_emits .nil
  | dynamic hb hk ho =>
    simpa [hb, hk] using (ho.evaluates enc).append (ho.nullGuard_evaluates enc)
  | direct hb hk ho => simpa [hb, hk] using ho.evaluates enc

theorem Dropped.evaluates (h : Dropped F s vs r j) :
    Evaluates F enc s (vs.flatMap Value.derefs) r.code := by
  induction h with
  | nil => exact .of_emits .nil
  | cons ho _ ih => exact (ho.evaluates enc).append (ih.earlier ho.keeps)

/-- A result that is not written back goes to the target itself, to nowhere, or to a temporary. -/
theorem Destined.direct (h : Destined F s callee target d s') (hw : d.writeBack = none) :
    target.toList.flatMap Value.derefs = [] ∧ ∀ x, d.result = some x →
      x.IsReserved ∨ ∃ v, target = some v ∧ v.Denotes F.program s.pool.slots x := by
  cases h with
  | void => exact ⟨rfl, nofun⟩
  | dropped =>
    refine ⟨rfl, fun x hx => .inl ?_⟩
    cases hx
    exact Scratch.next_isReserved _ _
  | «local» _ _ hslot =>
    refine ⟨rfl, fun x hx => .inr ⟨_, rfl, ?_⟩⟩
    cases hx
    exact LocalPool.getElem?_of_slot hslot
  | other => cases hw

theorem Destined.indirect (h : Destined F s callee target d s') (hw : d.writeBack = some (v, y)) :
    target = some v ∧ ∀ x, d.result = some x → x.IsReserved := by
  cases h with
  | other =>
    cases hw
    refine ⟨rfl, fun x hx => ?_⟩
    cases hx
    exact Scratch.next_isReserved _ _
  | _ => cases hw

theorem intrinsic_of_method {p : Program} (h : p.method? m = .ok callee) :
    p.methods[m]?.bind p.intrinsic? = p.intrinsic? callee := by
  rw [entry_eq_ok.1 h]
  rfl

/-- A call evaluates its operands. A target that is not a local of the type of the result is
evaluated after the call, which then assigns a temporary. -/
theorem Invoked.splits {call : Call} (h : Invoked F n call target s r j)
    (he : F.signature.exception.IsReserved) : Splits F enc s (call.derefs F.program target)
      (fun x => ∃ v, target = some v ∧ v.Denotes F.program s.pool.slots x) r.code := by
  cases h with
  | exit hm hi =>
    simpa [Call.derefs, intrinsic_of_method hm, hi] using Splits.of_emits enc emits_exitCode
  | stringLengthDropped hm hi hb ho ht =>
    subst ht
    simpa [Call.derefs, intrinsic_of_method hm, hi, hb] using
      ((ho.evaluates enc).append (ho.nullGuard_evaluates enc)).splits enc
  | stringLength hm hi hb ho ht hst =>
    subst ht
    have hbase := (ho.evaluates enc).append (ho.nullGuard_evaluates enc)
    simpa [Call.derefs, intrinsic_of_method hm, hi, hb] using
      (hst.splits enc ho.keeps.slots).after enc hbase ho.keeps
  | call hm hi _ hargs hr ha hd hp hx hw =>
    have hoperands := (hr.evaluates enc).append ((ha.evaluates enc).earlier hr.keeps)
    have hkeeps := hr.keeps.trans ha.keeps
    rw [List.map_fst_zip (Nat.le_of_eq hargs)] at hoperands
    have hderefs : call.derefs F.program target = call.base.toList.flatMap (fun base =>
        base.derefs ++ if call.kind.isDynamic then [base] else []) ++
          call.args.flatMap Value.derefs ++ target.toList.flatMap Value.derefs := by
      simp [Call.derefs, intrinsic_of_method hm, hi]
    rw [hderefs]
    generalize hback : Destination.writeBack _ = w at hw
    cases hw with
    | none =>
      obtain ⟨htarget, hres⟩ := hd.direct hback
      rw [hkeeps.slots] at hres
      have hcall := (hp.emits (V := fun x => x.IsReserved ∨ _) (.inl he) hres).trail hx.emits
      simpa [htarget] using hoperands.follow enc hcall
    | some hst =>
      obtain ⟨rfl, hres⟩ := hd.indirect hback
      have hcall := (hoperands.trail (hp.emits he hres)).trail hx.emits
      have hkeeps' := hkeeps.trans hd.keeps
      simpa using (hst.splits enc hkeeps'.slots).after enc hcall hkeeps'

theorem Assigned.splits (h : Assigned F n target s v r j)
    (he : F.signature.exception.IsReserved) :
    Splits F enc s ((Instr.assign target v).derefs F.program)
      (target.Denotes F.program s.pool.slots) r.code := by
  cases h with
  | invoke h => simpa [Instr.derefs] using h.splits enc he
  | new ht hst =>
    have hobject := Emits.object (F := F) (Scratch.next_isReserved s .ref) ht
    exact (hst.splits enc rfl).after enc (.of_emits hobject) (.grown _ _)
  | @newArray _ _ _ s₁ _ _ _ _ _ _ _ _ ho _ ht hst =>
    have hkeeps := ho.keeps.trans (.grown _ .ref)
    have hobject := Emits.object (F := F) (Scratch.next_isReserved s₁ .ref) ht
    have hsize : Prelude.arraySize.IsReserved := by decide
    exact (hst.splits enc hkeeps.slots).after enc
      (((ho.evaluates enc).trail hobject).trail (.assign hsize)) hkeeps
  | @newMultiArray _ _ s₁ _ _ _ _ _ _ _ hd ht hst =>
    have hkeeps := hd.keeps.trans (.globalized _)
    have hobject := Emits.object (F := F) (globalIdent_isReserved s₁.globals .ref) ht
    exact (hst.splits enc hkeeps.slots).after enc ((hd.evaluates enc).trail hobject) hkeeps
  | value ho hst =>
    have hderefs : (Instr.assign target v).derefs F.program = v.derefs ++ target.derefs := by
      cases ho <;> rfl
    rw [hderefs]
    exact (hst.splits enc ho.keeps.slots).after enc (ho.evaluates enc) ho.keeps

theorem Switched.splits (h : Switched F n key cases other s r j) :
    Splits F enc s (if cases.isEmpty then [] else key.derefs) V r.code := by
  cases h with
  | empty hc =>
    rw [if_pos (List.isEmpty_iff.2 hc)]
    exact .of_emits enc (.passive .goto)
  | cascade hne ho =>
    rw [if_neg (mt List.isEmpty_iff.1 hne)]
    exact (ho.evaluates enc).follow enc (.passive (passive_cascaded .goto))

/-- The code of an instruction evaluates operands and then assigns no source local but the one that
the instruction assigns. -/
theorem Executed.splits (h : Executed F n s i r j) (he : F.signature.exception.IsReserved)
    (hr : ∀ x, F.signature.result = some x → x.IsReserved) :
    Splits F enc s (i.derefs F.program) (fun x => i.Sets F.program s.pool.slots x) r.code := by
  cases h with
  | assign h => exact h.splits enc he
  | invoke h =>
    obtain ⟨front, back, ts, hcode, hf, hb⟩ := h.splits enc he
    exact ⟨front, back, ts, hcode, hf, by simpa [Instr.Sets] using hb⟩
  | identity h =>
    cases h with
    | receiver hx | param hx =>
      exact .of_emits enc (.assign (.inr (LocalPool.getElem?_of_slot hx)))
    | caught hx =>
      exact .of_emits enc
        ((Emits.assign (.inr (LocalPool.getElem?_of_slot hx))).cons (.assign (.inl he)))
  | goto => exact .of_emits enc (.passive .goto)
  | branch ho => exact (ho.evaluates enc).follow enc emits_jumpWhen
  | lookupSwitch h => exact h.splits enc
  | @tableSwitch _ targets cases _ _ _ _ _ ht h =>
    have hempty : cases.isEmpty = targets.isEmpty := by
      rw [← tableCases_targets ht, List.isEmpty_map]
    rw [Instr.derefs, ← hempty]
    exact h.splits enc
  | ret hx ho =>
    rw [List.append_assoc]
    exact (ho.evaluates enc).follow enc ((Emits.assign (.inl (hr _ hx))).trail emits_exitCode)
  | raise ho _ _ hh =>
    rw [List.append_assoc]
    exact (ho.evaluates enc).follow enc ((Emits.assign (.inl he)).trail hh.emits)
  | retVoid => exact .of_emits enc emits_exitCode
  | nop | breakpoint => exact .of_emits enc .nil
  | enterMonitor ho | exitMonitor ho =>
    exact ((ho.evaluates enc).append (ho.nullGuard_evaluates enc)).splits enc
  | retSubroutine => exact .of_emits enc .unexpected

/-- Every node is lowered with the source locals of the body, and those of them count as the
receiver that nodes before it have bound to it. -/
theorem Segments.node (h : Segments F s nodes s' segs j) {k : Nat} {nd : Node × Nat}
    (hk : nodes[k]? = some nd) :
    ∃ t r j', Executed F nd.2 t nd.1.instr r j' ∧ segs[k]? = some (entryCode F nd.2 ++ r.code) ∧
      t.pool.slots = s.pool.slots ∧ ∀ index, index ∈ t.receivers ↔ index ∈ s.receivers ∨
        ∃ (m : Nat) (nd' : Node × Nat), m < k ∧ nodes[m]? = some nd' ∧
          nd'.1.instr = .identity index .receiver := by
  induction h generalizing k with
  | nil => cases hk
  | @cons _ _ first _ _ _ _ _ _ _ hn _ ih =>
    cases k with
    | zero =>
      cases hk
      exact ⟨_, _, _, hn, rfl, rfl, by simp⟩
    | succ k =>
      obtain ⟨t, r, j', hx, hseg, hslots, hreceivers⟩ := ih hk
      obtain ⟨hslots', hreceivers'⟩ := hn.slots_receivers
      refine ⟨t, r, j', hx, hseg, hslots.trans hslots', fun index => ?_⟩
      rw [hreceivers, hreceivers', or_assoc]
      refine or_congr_right ⟨?_, ?_⟩
      · rintro (hfirst | ⟨m, nd', hm, hnd', hi⟩)
        · exact ⟨0, _, Nat.succ_pos k, rfl, hfirst⟩
        · exact ⟨m + 1, nd', Nat.succ_lt_succ hm, hnd', hi⟩
      · rintro ⟨m, nd', hm, hnd', hi⟩
        cases m with
        | zero =>
          cases hnd'
          exact .inl hi
        | succ m => exact .inr ⟨m, nd', Nat.lt_of_succ_lt_succ hm, hnd', hi⟩

end Lower

end Verilower
