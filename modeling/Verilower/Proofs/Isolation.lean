import Verilower.Proofs.Assembly
import Verilower.Proofs.NonInterference
import Verilower.Run

namespace Verilower
set_option autoImplicit true

open Ivl (Implementation)

namespace Lower

/-- Whatever its result is, the computation reports no error. -/
def Calm (x : Lower α) : Prop := ∀ F s, (x F s).Records fun e => e.isError = false

theorem Calm.bind {x : Lower α} {f : α → Lower β} (hx : x.Calm) (hf : ∀ a, (f a).Calm) :
    (x >>= f).Calm := fun F s => by
  rw [bind_apply]
  exact (hx F s).bind fun r => (hf r.value F r.scratch).bind fun _ => Trace.records_pure

theorem Calm.ite {c : Prop} [Decidable c] {x y : Lower α} (hx : x.Calm) (hy : y.Calm) :
    (if c then x else y).Calm := by
  split
  · exact hx
  · exact hy

theorem Blind.calm {x : Lower α} (hx : x.Blind) : x.Calm := fun F s e he => (hx.quiet F s e he).2

theorem calm_freshGlobal : (freshGlobal ty).Calm := by
  intro F s e he
  obtain rfl := List.mem_singleton.1 he
  rfl

theorem calm_instr : (instr n i).Calm := by
  cases hm : i.makesGlobal with
  | false => exact (blind_instr hm).calm
  | true =>
    obtain ⟨target, ty, sizes, rfl⟩ := Instr.makesGlobal_eq_true.1 hm
    exact blind_dropSizes.calm.bind fun _ => calm_freshGlobal.bind fun _ =>
      blind_allocateInto.calm.bind fun _ => blind_assignTo.calm

theorem calm_node : (node n nd).Calm :=
  blind_frame.calm.bind fun _ => .ite (blind_label.calm.bind fun _ =>
    blind_emit.calm.bind fun _ => calm_instr) calm_instr

theorem calm_segments : (segments nodes F s).Records fun e => e.isError = false := by
  induction nodes generalizing s with
  | nil => exact Trace.records_pure
  | cons head rest ih =>
    exact Trace.Records.bind (calm_node F s) fun _ => ih.bind fun _ => Trace.records_pure

end Lower

/-- Lowering a body reports no error of its own, also if the body is refused. -/
theorem lowerBody_calm : (lowerBody p q k b).Records fun e => e.isError = false := by
  have hsig : (Trace.signature p q b.method).Records fun e => e.isError = false :=
    fun e he => (Trace.quiet_signature e he).2
  have hlog : ∀ record, (Trace.emit (.log record)).Records fun e => e.isError = false :=
    fun _ => Trace.records_emit rfl
  exact Trace.records_ofExcept.bind fun _ => hsig.bind fun _ =>
    Trace.Records.bind Trace.records_ofExcept fun _ => (hlog _).bind fun _ =>
      Lower.calm_segments.bind fun _ => Trace.records_pure

def refusal? : Except Failure α → Option Refusal
  | .error (.refused cause) => some cause
  | _ => none

/-- The error about a field whose type has no representation. -/
def Program.fieldError? (p : Program) (id : FieldId) : Option Diagnostic :=
  (p.fields[id]?).bind fun f =>
    match f.ty.lowered with
    | .ok _ => none
    | .error cause => some ⟨.error, (p.classes[f.owner]?).bind ClassDecl.loc,
        "cannot translate field `" ++ p.fieldName f ++ "`: " ++ cause.message⟩

def Program.signatureError? (p : Program) (q : Prelude) (id : MethodId) : Option Diagnostic :=
  (p.methods[id]?).bind fun m => (refusal? (Signature.build p q id).result).map fun cause =>
    ⟨.error, m.loc,
      "cannot build signature of `" ++ p.methodName m ++ "`: " ++ cause.message⟩

theorem Program.fieldIdent_refused {p : Program} {i : FieldId} (hf : p.fields[i]? = some f)
    (ht : f.ty.lowered = .error cause) : p.fieldIdent i = .error (.refused cause) := by
  rw [Program.fieldIdent, Program.field?, entry_eq_ok.2 hf]
  change (f.ty.lowered.mapError Failure.refused >>= _) = _
  rw [ht]
  rfl

namespace Session

/-- Whether the class of a body is in scope. -/
def admits (s : Session) (b : Body) : Bool :=
  (s.program.methods[b.method]?).any fun m => s.options.inScope (s.program.className m.owner)

/-- The error about a body in scope that is refused. -/
def bodyError? (s : Session) (b : Body) : Option Diagnostic :=
  (s.program.methods[b.method]?).bind fun m =>
    if s.admits b then (refusal? (s.lower b).1).map fun cause =>
      ⟨.error, m.loc, "cannot translate `" ++ s.program.methodName m ++ "`: " ++ cause.message⟩
    else none

/-- The errors about all that is refused: fields, signatures and bodies. -/
def failures (s : Session) : List Diagnostic :=
  (List.range s.program.fields.length).filterMap s.program.fieldError? ++
    (List.range s.program.methods.length).filterMap (s.program.signatureError? s.prelude) ++
    s.bodies.filterMap s.bodyError?

/-- The errors that a session has reported. -/
def errors (s : Session) : List Diagnostic :=
  s.registry.diagnostics.toList.filter Diagnostic.isError

theorem hasErrors_iff : Registry.hasErrors (registry s) = true ↔ s.errors ≠ [] := by
  rw [Registry.hasErrors, ← Array.any_toList, errors, List.any_eq_true, ne_eq,
    List.filter_eq_nil_iff]
  simp

theorem errors_after : errors (after s j) =
    s.errors ++ (j.filterMap Event.diagnostic?).filter Diagnostic.isError := by
  rw [errors, after, Registry.replay_diagnostics s.coherent, List.filter_append]
  rfl

theorem filter_isError_of_calm {j : List Event} (h : ∀ e ∈ j, e.isError = false) :
    (j.filterMap Event.diagnostic?).filter Diagnostic.isError = [] := by
  refine List.filter_eq_nil_iff.2 fun d hd => ?_
  obtain ⟨e, he, hed⟩ := List.mem_filterMap.1 hd
  have hcalm := h e he
  cases e <;> cases hed
  exact Bool.eq_false_iff.1 hcalm

theorem errors_after_of_calm (h : ∀ e ∈ j, e.isError = false) : errors (after s j) = s.errors := by
  rw [errors_after, filter_isError_of_calm h, List.append_nil]

theorem errors_diagnose : (diagnose s .error loc text).errors = s.errors ++ [⟨.error, loc, text⟩] :=
  errors_after (j := [.diagnostic ⟨.error, loc, text⟩])

theorem errors_log : (log s level text).errors = s.errors :=
  errors_after_of_calm (j := [.log ⟨level, text⟩]) fun _ he => List.mem_singleton.1 he ▸ rfl

theorem errors_declareTags : (declareTags s).errors = s.errors := by
  have htag : ∀ (s : Session) id, (s.tag (.cls id)).2.errors = s.errors := by
    intro s id
    rw [tag_eq_run]
    exact errors_after_of_calm fun e he => (Trace.quiet_tag e he).2
  have key : ∀ (ids : List ClassId) (s : Session),
      (ids.foldl (fun s id => (s.tag (.cls id)).2) s).errors = s.errors := by
    intro ids
    induction ids with
    | nil => exact fun s => rfl
    | cons id ids ih => exact fun s => (ih _).trans (htag s id)
  exact key _ s

theorem errors_declareField (hi : i < s.program.fields.length) :
    (declareField s i).errors = s.errors ++ (s.program.fieldError? i).toList := by
  have hf := List.getElem?_eq_getElem hi
  generalize s.program.fields[i] = f at hf
  cases ht : f.ty.lowered with
  | ok t =>
    have hnone : s.program.fieldError? i = none := by
      simp only [Program.fieldError?, hf, Option.bind_some, ht]
    rw [declareField_eq (Program.fieldIdent_eq_ok.2 ⟨f, t, hf, ht, rfl⟩), hnone, Option.toList_none,
      List.append_nil]
    exact errors_after_of_calm fun _ he => List.mem_singleton.1 he ▸ rfl
  | error cause =>
    have hrun : s.field i = (.error (.refused cause), s) := by
      rw [field_eq_run, Trace.field, Program.fieldIdent_refused hf ht]
      rfl
    rw [declareField, hrun, hf]
    simp only [Program.fieldError?, hf, Option.bind_some, ht]
    exact errors_diagnose

theorem errors_declareFields : (declareFields s).errors =
    s.errors ++ (List.range s.program.fields.length).filterMap s.program.fieldError? := by
  have key : ∀ (ids : List FieldId) (s : Session), (∀ i ∈ ids, i < s.program.fields.length) →
      (ids.foldl declareField s).errors = s.errors ++ ids.filterMap s.program.fieldError? := by
    intro ids
    induction ids with
    | nil => simp
    | cons i ids ih =>
      intro s hids
      obtain ⟨hi, hids⟩ := List.forall_mem_cons.1 hids
      have hsame : (s.declareField i).program = s.program := by
        obtain ⟨j, hj⟩ := (extends_declareField (s := s) (i := i)).journal
        rw [hj, after_program]
      rw [List.foldl_cons, ih _ (hsame ▸ hids), errors_declareField hi, hsame, List.filterMap_cons]
      cases s.program.fieldError? i <;> simp
  exact key _ s fun i hi => List.mem_range.1 hi

/-- A method has a signature, or its refusal is reported; only a fault is passed on. -/
theorem declareSignature_cases (hi : i < s.program.methods.length) :
    (∃ fault t, declareSignature s i = (.error (.fault fault), t)) ∨
    ∃ t, declareSignature s i = (.ok (), t) ∧
      t.errors = s.errors ++ (s.program.signatureError? s.prelude i).toList := by
  have hm := List.getElem?_eq_getElem hi
  generalize s.program.methods[i] = m at hm
  have hrun : s.signature i =
      ((Signature.build s.program s.prelude i).result, s.after [.signature i]) := signature_eq_run
  have hcalm : (s.after [.signature i]).errors = s.errors :=
    errors_after_of_calm fun _ he => List.mem_singleton.1 he ▸ rfl
  rw [declareSignature, hrun, hm, Program.signatureError?, hm, Option.bind_some]
  generalize (Signature.build s.program s.prelude i).result = r
  obtain (cause | fault) | sig := r
  · refine .inr ⟨_, rfl, ?_⟩
    rw [errors_diagnose, hcalm]
    rfl
  · exact .inl ⟨fault, _, rfl⟩
  · refine .inr ⟨_, rfl, ?_⟩
    rw [hcalm]
    exact (List.append_nil _).symm

theorem declareSignatures_cases : ∀ {ids : List MethodId} {s : Session},
    (∀ i ∈ ids, i < s.program.methods.length) →
    (∃ fault t, s.declareSignatures ids = (.error (.fault fault), t)) ∨
    ∃ t, s.declareSignatures ids = (.ok (), t) ∧
      t.errors = s.errors ++ ids.filterMap (s.program.signatureError? s.prelude)
  | [], s, _ => .inr ⟨s, rfl, by simp⟩
  | i :: ids, s, hids => by
    obtain ⟨hi, hids⟩ := List.forall_mem_cons.1 hids
    have hext : Extends s (s.declareSignature i).2 := extends_declareSignature
    unfold declareSignatures
    obtain ⟨fault, t, ht⟩ | ⟨t, ht, herr⟩ := declareSignature_cases hi
    · rw [ht]
      exact .inl ⟨fault, t, rfl⟩
    · rw [ht] at hext ⊢
      obtain ⟨j, rfl⟩ := hext.journal
      obtain hfault | ⟨u, hu, herr'⟩ := declareSignatures_cases (s := s.after j) hids
      · exact .inl hfault
      · refine .inr ⟨u, hu, ?_⟩
        rw [herr', herr, List.filterMap_cons, after_program, after_prelude]
        cases s.program.signatureError? s.prelude i <;> simp

theorem errors_lower : (lower s b).2.errors = s.errors := by
  rw [errors, lower_diagnostics, List.filter_append, Trace.diagnostics,
    filter_isError_of_calm lowerBody_calm, List.append_nil]
  rfl

/-- What was asked before has no influence on whether a body is refused, and why. -/
theorem Extends.lower_alike (h : Extends s u) :
    Alike (fun _ _ => True) (s.lower b).1 (u.lower b).1 := by
  obtain ⟨j, rfl⟩ := h.journal
  obtain ⟨-, hresult⟩ : Trace.Agree _
      (lowerBody s.program s.prelude s.registry.globals.length b)
      (lowerBody s.program s.prelude (s.after j).registry.globals.length b) := lowerBody_agree
  rw [lower_fst, lower_fst, after_program, after_prelude, after_options]
  generalize (lowerBody s.program s.prelude s.registry.globals.length b).result = x at hresult
  generalize (lowerBody s.program s.prelude (s.after j).registry.globals.length b).result = y
    at hresult
  cases hresult with
  | error => exact .error
  | ok => exact .ok trivial

/-- Whether a body is in scope and can be lowered. -/
def yields (s : Session) (b : Body) : Bool := s.admits b && (s.lower b).1.isOk

theorem Extends.admits_eq (h : Extends s u) : u.admits b = s.admits b := by
  obtain ⟨j, rfl⟩ := h.journal
  rfl

theorem Extends.yields_eq (h : Extends s u) : u.yields b = s.yields b := by
  have halike : Alike _ (s.lower b).1 (u.lower b).1 := h.lower_alike
  rw [yields, yields, h.admits_eq]
  generalize (s.lower b).1 = x, (u.lower b).1 = y at halike
  cases halike <;> rfl

theorem Extends.bodyError?_eq (h : Extends s u) : u.bodyError? b = s.bodyError? b := by
  have halike : Alike _ (s.lower b).1 (u.lower b).1 := h.lower_alike
  have hrefusal : refusal? (u.lower b).1 = refusal? (s.lower b).1 := by
    generalize (s.lower b).1 = x, (u.lower b).1 = y at halike
    cases halike <;> rfl
  rw [bodyError?, bodyError?, hrefusal, h.admits_eq]
  obtain ⟨j, rfl⟩ := h.journal
  rfl

/-- A held body is out of scope or lowered, or its refusal is reported; only a fault is passed
on. -/
theorem lowerHeld_cases :
    (∃ fault t, lowerHeld s b = (.error (.fault fault), t)) ∨
    ∃ found t, lowerHeld s b = (.ok found, t) ∧
      t.errors = s.errors ++ (s.bodyError? b).toList ∧
      ((s.yields b = false ∧ found = none) ∨
        s.yields b = true ∧ ∃ i, found = some i ∧ (s.lower b).1 = .ok i) := by
  have hcalm : (s.lower b).2.errors = s.errors := errors_lower
  cases hm : s.program.methods[b.method]? with
  | none =>
    have hfault : s.program.method? b.method =
        .error (.outOfRange s.program.methods.length b.method) := by
      rw [Program.method?, entry, hm]
    rw [lowerHeld, hfault]
    exact .inl ⟨_, _, rfl⟩
  | some m =>
    rw [lowerHeld, show s.program.method? b.method = .ok m from entry_eq_ok.2 hm]
    cases hscope : s.options.inScope (s.program.className m.owner) with
    | false =>
      have hadmits : s.admits b = false := by simp [admits, hm, hscope]
      simp only [hscope, Bool.not_false, if_true]
      refine .inr ⟨none, _, rfl, ?_, .inl ⟨by simp [yields, hadmits], rfl⟩⟩
      simp [errors_log, bodyError?, hm, hadmits]
    | true =>
      have hadmits : s.admits b = true := by simp [admits, hm, hscope]
      simp only [hscope, Bool.not_true, Bool.false_eq_true, if_false, yields, bodyError?, hm,
        hadmits, Option.bind_some, if_true, Bool.true_and]
      generalize s.lower b = r at hcalm ⊢
      obtain ⟨(cause | fault) | i, t⟩ := r
      · refine .inr ⟨none, _, rfl, ?_, .inl ⟨rfl, rfl⟩⟩
        rw [errors_diagnose, hcalm]
        rfl
      · exact .inl ⟨fault, t, rfl⟩
      · refine .inr ⟨some i, t, rfl, ?_, .inr ⟨rfl, i, rfl, rfl⟩⟩
        rw [hcalm]
        exact (List.append_nil _).symm

/-- The implementation was lowered from the body in a later session. -/
def Lowers (s : Session) (b : Body) (i : Implementation) : Prop :=
  ∃ u, Extends s u ∧ (u.lower b).1 = .ok i

theorem lowerAll_cases {s₀ : Session} : ∀ (bodies : List Body) {s : Session}, Extends s₀ s →
    (∃ fault t, s.lowerAll bodies = (.error (.fault fault), t)) ∨
    ∃ is t, s.lowerAll bodies = (.ok is, t) ∧
      t.errors = s.errors ++ bodies.filterMap s₀.bodyError? ∧
      List.Forall₂ s₀.Lowers (bodies.filter s₀.yields) is
  | [], s, _ => .inr ⟨[], s, rfl, by simp, .nil⟩
  | b :: bodies, s, h => by
    have hext : Extends s (s.lowerHeld b).2 := extends_lowerHeld
    unfold lowerAll
    obtain ⟨fault, t, ht⟩ | ⟨found, t, ht, herr, hfound⟩ := lowerHeld_cases (s := s) (b := b)
    · rw [ht]
      exact .inl ⟨fault, t, rfl⟩
    · rw [ht] at hext ⊢
      obtain ⟨fault, u, hu⟩ | ⟨is, u, hu, herr', his⟩ :=
        lowerAll_cases bodies (h.trans hext)
      · exact .inl ⟨fault, u, by simp only [hu]⟩
      · refine .inr ⟨found.toList ++ is, u, by simp only [hu], ?_, ?_⟩
        · rw [herr', herr, h.bodyError?_eq, List.filterMap_cons]
          cases s₀.bodyError? b <;> simp
        · rw [h.yields_eq] at hfound
          obtain ⟨hno, rfl⟩ | ⟨hyes, i, rfl, hi⟩ := hfound
          · rw [List.filter_cons_of_neg (by simp [hno])]
            exact his
          · rw [List.filter_cons_of_pos hyes]
            exact .cons ⟨s, h, hi⟩ his

/-- Generation ends unless there is a fault. It reports what is refused, and it lowers the rest. -/
theorem generate_cases {s : Session} :
    (∃ fault t, s.generate = (.error (.fault fault), t)) ∨
    ∃ prog t, s.generate = (.ok prog, t) ∧ t.errors = s.errors ++ s.failures ∧
      List.Forall₂ s.Lowers (s.bodies.filter s.yields) prog.implementations := by
  have hfields : Extends s s.declareTags.declareFields :=
    extends_declareTags.trans extends_declareFields
  have herr : s.declareTags.declareFields.errors =
      s.errors ++ (List.range s.program.fields.length).filterMap s.program.fieldError? := by
    obtain ⟨j, hj⟩ := (extends_declareTags (s := s)).journal
    rw [errors_declareFields, errors_declareTags, hj, after_program]
  rw [generate_eq]
  generalize s.declareTags.declareFields = u at hfields herr
  have hsigs : Extends u (u.declareSignatures (List.range u.program.methods.length)).2 :=
    extends_declareSignatures
  obtain ⟨fault, t, ht⟩ | ⟨t, ht, herr'⟩ :=
    declareSignatures_cases (s := u) fun i hi => List.mem_range.1 hi
  · rw [ht]
    exact .inl ⟨fault, t, rfl⟩
  · rw [ht] at hsigs ⊢
    have hst := hfields.trans hsigs
    obtain ⟨fault, v, hv⟩ | ⟨is, v, hv, herr'', his⟩ := lowerAll_cases t.bodies hst
    · simp only [hv]
      exact .inl ⟨fault, v, rfl⟩
    · simp only [hv]
      obtain ⟨j, rfl⟩ := hfields.journal
      obtain ⟨k, rfl⟩ := hsigs.journal
      refine .inr ⟨_, _, rfl, ?_, ?_⟩
      · rw [errors_log, herr'', herr', herr, failures]
        simp
      · rw [implementations_assemble]
        exact his

end Session

namespace CodeBase

/-- Code bases that hold bodies for a program. -/
inductive Held : CodeBase → Prop
  | ofProgram : Held (.ofProgram p)
  | hold (h : Held c) : Held (c.hold b)

theorem mem_insert (h : b ∈ insert a bs) : b = a ∨ b ∈ bs := by
  induction bs with
  | nil => exact .inl (List.mem_singleton.1 h)
  | cons c bs ih =>
    unfold insert at h
    split at h
    · exact (List.mem_cons.1 h).imp_right (List.mem_cons_of_mem c)
    · split at h
      · exact List.mem_cons.1 h
      · obtain rfl | h := List.mem_cons.1 h
        · exact .inr List.mem_cons_self
        · exact (ih h).imp_right (List.mem_cons_of_mem c)

theorem insert_increasing (h : bs.Pairwise fun a b : Body => a.method < b.method) :
    (insert a bs).Pairwise fun a b => a.method < b.method := by
  induction bs with
  | nil => exact List.pairwise_singleton ..
  | cons c bs ih =>
    obtain ⟨hc, hbs⟩ := List.pairwise_cons.1 h
    unfold insert
    split
    · rename_i he
      exact List.pairwise_cons.2 ⟨fun b hb => he ▸ hc b hb, hbs⟩
    · split
      · rename_i hlt
        refine List.pairwise_cons.2 ⟨fun b hb => ?_, h⟩
        obtain rfl | hb := List.mem_cons.1 hb
        · exact hlt
        · exact Nat.lt_trans hlt (hc b hb)
      · rename_i hne hle
        refine List.pairwise_cons.2 ⟨fun b hb => ?_, ih hbs⟩
        obtain rfl | hb := mem_insert hb
        · exact Nat.lt_of_le_of_ne (Nat.not_lt.1 hle) (Ne.symm hne)
        · exact hc b hb

/-- Each method has one body at most, and they stand in the order of methods. -/
theorem Held.increasing (h : Held c) : c.bodies.Pairwise fun a b => a.method < b.method := by
  induction h with
  | ofProgram => exact .nil
  | hold _ ih => exact insert_increasing ih

end CodeBase

/-- Failures are isolated and reported. Without a fault, a generated program has one implementation
for each held body in scope that can be lowered, in the order of methods, and no other. The errors
are those about what is refused, one each. A run gives the text of the program if nothing is. -/
theorem CodeBase.Held.isolated {code : CodeBase} {q : Prelude} {o : Options} {s : Session}
    (hcode : code.Held) (hs : s = .start code q o)
    (hfault : ∀ fault, s.generate.1 ≠ .error (.fault fault)) :
    ∃ prog t, s.generate = (.ok prog, t) ∧
      code.bodies.Pairwise (fun a b => a.method < b.method) ∧
      List.Forall₂ s.Lowers (code.bodies.filter s.yields) prog.implementations ∧
      t.errors = s.failures ∧
      (q = .standard → (t.report .warning).fileMissing = false →
        ∃ r, run code o = .ok r ∧
          ∀ text, r.outcome = .ok text ↔ text = prog.render ∧ s.failures = []) := by
  obtain ⟨fault, t, ht⟩ | ⟨prog, t, ht, herr, his⟩ := s.generate_cases
  · exact (hfault fault (by rw [ht])).elim
  · subst hs
    refine ⟨prog, t, ht, hcode.increasing, his, herr, ?_⟩
    rintro rfl hfile
    have hfail : t.registry.hasErrors = true ↔ (Session.start code .standard o).failures ≠ [] :=
      Session.hasErrors_iff.trans (by rw [herr]; rfl)
    unfold run
    simp only [ht, hfile, Bool.false_eq_true, if_false]
    cases he : t.registry.hasErrors with
    | true =>
      refine ⟨_, rfl, fun text => ⟨nofun, fun h => ?_⟩⟩
      exact (hfail.1 he h.2).elim
    | false =>
      have hnone : (Session.start code .standard o).failures = [] := by
        simpa [he] using hfail
      refine ⟨_, rfl, fun text => ⟨fun h => ⟨(Except.ok.inj h).symm, hnone⟩, fun h => ?_⟩⟩
      rw [h.1]

/-- A program in which a field, a signature and a body are refused. -/
def patchy : Program := .declaring [
  .addClass "A",
  .addClass "B",
  .addField 3 { name := "nothing", ty := .void },
  .addMethod 3 { name := "take", params := [.void], isStatic := true },
  .addMethod 3 { name := "give", isStatic := true },
  .addMethod 3 { name := "rest", isStatic := true },
  .addMethod 4 { name := "rest", isStatic := true }] (by decide +kernel)

def givingBody : Body where
  method := 1
  nodes := [{ instr := .ret (.constant (.int 1)) }]
  sound := by decide

def restingBody (method : MethodId) : Body where
  method
  nodes := [{ instr := .retVoid }]
  sound := rfl

/-- The bodies are held out of order. -/
def patchyCode : CodeBase :=
  ((((CodeBase.ofProgram patchy).hold (restingBody 3)).hold (restingBody 2)).hold givingBody).hold
    (restingBody 0)

/-- A session over that code in which only the bodies of `A` are in scope. -/
def patchySession : Session := .start patchyCode .standard { scope := some "A" }

def patchyMessages : List String := [
  "cannot translate field `A.nothing`: void has no value representation",
  "cannot build signature of `A.take`: void has no value representation",
  "cannot translate `A.take`: void has no value representation",
  "cannot translate `A.give`: while translating `A.give` at node 0 (<unknown>): " ++
    "value returned from a void method"]

/-- One of four bodies is lowered: one has no signature, one is refused, one is out of scope. -/
theorem isolated_patchy :
    ∃ prog t, patchySession.generate = (.ok prog, t) ∧
      prog.implementations.length = 1 ∧
      t.errors.map Diagnostic.message = patchyMessages ∧
      ∃ r, run patchyCode { scope := some "A" } = .ok r ∧ ∀ text, r.outcome ≠ .ok text := by
  have hok : patchySession.generate.1.isOk = true := by decide +kernel
  have hfile : (patchySession.generate.2.report .warning).fileMissing = false := by decide +kernel
  have hone : (patchyCode.bodies.filter patchySession.yields).length = 1 := by decide +kernel
  have hmessages : patchySession.failures.map Diagnostic.message = patchyMessages := by
    decide +kernel
  have hheld : patchyCode.Held := .hold (.hold (.hold (.hold .ofProgram)))
  have hfault : ∀ fault, patchySession.generate.1 ≠ .error (.fault fault) := by
    intro fault he
    rw [he] at hok
    cases hok
  obtain ⟨prog, t, ht, -, his, herr, hrun⟩ :=
    hheld.isolated (s := patchySession) rfl hfault
  rw [ht] at hfile
  obtain ⟨r, hr, htext⟩ := hrun rfl hfile
  refine ⟨prog, t, ht, his.length_eq ▸ hone, herr ▸ hmessages, r, hr, fun text he => ?_⟩
  rw [((htext text).1 he).2] at hmessages
  cases hmessages

end Verilower
