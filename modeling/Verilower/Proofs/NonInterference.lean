import Verilower.Proofs.History
import Verilower.Proofs.Lowering.Twins

namespace Verilower
set_option autoImplicit true

open Ivl (Ident Expr Stmt Implementation)

namespace Registry

theorem recordBasic_diagnostics : (recordBasic p r e).diagnostics.toList =
    r.diagnostics.toList ++ e.diagnostic?.toList := by
  cases e with
  | label m n =>
    simp only [recordBasic, label]
    split <;> simp [Event.diagnostic?]
  | tag | field | signature | global | log =>
    simp [recordBasic, tag, field, addRecord, Event.diagnostic?]
  | diagnostic d => simp [recordBasic, addDiagnostic, addRecord, Event.diagnostic?]

theorem signature_diagnostics {r : Registry} (h : r.Coherent p q) :
    (r.signature p q i).2.diagnostics.toList = r.diagnostics.toList := by
  have hfold : ∀ (j : List Event) (r : Registry), (∀ e ∈ j, e.diagnostic? = none) →
      (j.foldl (recordBasic p) r).diagnostics.toList = r.diagnostics.toList := by
    intro j
    induction j with
    | nil => exact fun r _ => rfl
    | cons e j ih =>
      intro r h
      rw [List.foldl_cons, ih _ fun e he => h e (List.mem_cons_of_mem _ he),
        recordBasic_diagnostics, h e List.mem_cons_self]
      simp
  rw [signature_snd h]
  split
  · rfl
  · have hquiet : (Signature.build p q i).Records fun e => e.diagnostic? = none :=
      Signature.build_records (fun _ => rfl) fun _ => rfl
    have hj := hfold _ r hquiet
    dsimp only
    split <;> exact hj

theorem record_diagnostics {r : Registry} (h : r.Coherent p q) :
    (r.record p q e).diagnostics.toList = r.diagnostics.toList ++ e.diagnostic?.toList := by
  cases e with
  | signature i => simp [record, signature_diagnostics h, Event.diagnostic?]
  | _ => exact recordBasic_diagnostics

theorem replay_diagnostics {r : Registry} (h : r.Coherent p q) :
    (r.replay p q j).diagnostics.toList =
      r.diagnostics.toList ++ j.filterMap Event.diagnostic? := by
  induction j generalizing r with
  | nil => simp [replay]
  | cons e j ih =>
    have hcons : replay p q r (e :: j) = replay p q (record p q r e) j := rfl
    rw [hcons, ih (h.record e), record_diagnostics h, List.filterMap_cons]
    cases e.diagnostic? <;> simp

theorem lower_diagnostics {r : Registry} (h : r.Coherent p q) :
    (r.lower p q o b).2.diagnostics.toList =
      r.diagnostics.toList ++ (lowerBody p q r.globals.length b).diagnostics := by
  obtain ⟨record, hlower⟩ := lower_eq (o := o) (b := b) h
  rw [hlower]
  obtain ⟨j, e | l⟩ := lowerBody p q r.globals.length b <;> exact replay_diagnostics h

end Registry

theorem Trace.agree_self {t : Trace α} : Agree (fun a b => a = b ∧ t.result = .ok a) t t := by
  refine ⟨rfl, ?_⟩
  cases h : t.result with
  | error => exact .error
  | ok a => exact .ok ⟨rfl, rfl⟩

/-- Two lowered bodies that differ in the names of global variables. -/
structure Lowered.Paired (p : Program) (q : Prelude) (k₁ k₂ : Nat) (l l' : Lowered) : Prop where
  signature : l'.signature = l.signature
  pool : l'.pool = l.pool
  segments : q.Unmoved k₁ k₂ → l'.segments = l.segments.map (Outline.renameAll (shift k₁ k₂))
  built : ∃ i j, Signature.Built p q i l.signature j
  vars : ∀ x ∈ l.pool.vars, shift k₁ k₂ x = x

theorem lowerBody_agree : Trace.Agree (Lowered.Paired p q k₁ k₂) (lowerBody p q k₁ b)
    (lowerBody p q k₂ b) := by
  refine Trace.agree_self.bind fun m m' ⟨hm, _⟩ => ?_
  subst hm
  refine Trace.agree_self.bind fun sig sig' ⟨hsig, hs⟩ => ?_
  subst hsig
  refine Trace.agree_self.bind fun pool pool' ⟨hpool, hp⟩ => ?_
  subst hpool
  refine Trace.agree_self.bind fun _ _ _ => ?_
  have hbuilt := Signature.build_gives (Trace.gives_of_result
    (Trace.gives_signature.1 (Trace.gives_of_result hs)).1)
  have hslots : LocalPool.ofSlots b.slots = .ok pool :=
    (Trace.gives_decision.1 (Trace.gives_within.1 (Trace.gives_of_result hp))).1
  have hapart : Scratch.Apart k₁ k₂ { pool, globals := k₁ } { pool, globals := k₂ } :=
    ⟨⟨0, rfl, rfl⟩, fun x hx => movesGlobals_shift.slots hslots hx⟩
  have hF : Lower.Proper ⟨p, q, b, m, sig⟩ := ⟨_, _, hbuilt⟩
  refine (Lower.agree_segments hF hapart).bind fun r r' hr => Trace.agree_pure ?_
  obtain ⟨n, -, ht⟩ := hr.scratch.globals
  exact ⟨rfl, by rw [ht], hr.value, ⟨_, _, hbuilt⟩, hr.scratch.pool⟩

namespace Lowered.Paired

variable {p : Program} {q : Prelude} {k₁ k₂ : Nat} {l l' : Lowered}

theorem fixed (h : Lowered.Paired p q k₁ k₂ l l') (hq : q.Unmoved k₁ k₂) (o : Options) :
    (l.encoding o).Fixed (shift k₁ k₂) := by
  obtain ⟨i, j, hb⟩ := h.built
  apply movesGlobals_shift.encoding
  exact hb.out_fixed movesGlobals_shift hq (by simp [encoding, Signature.encoding])

theorem encoding_eq (h : Lowered.Paired p q k₁ k₂ l l') (o : Options) :
    l'.encoding o = l.encoding o := by
  unfold encoding
  rw [h.signature]

theorem usesFlag_eq (h : Lowered.Paired p q k₁ k₂ l l') (hq : q.Unmoved k₁ k₂) (o : Options) :
    l'.usesFlag o = l.usesFlag o := by
  unfold usesFlag
  rw [h.encoding_eq, h.segments hq, List.any_map]
  congr 1
  funext seg
  exact Encoding.raisesAny_rename

theorem prologue_eq (h : Lowered.Paired p q k₁ k₂ l l') (hq : q.Unmoved k₁ k₂) (o : Options) :
    l'.prologue o = Stmt.renameAll (shift k₁ k₂) (l.prologue o) := by
  have hflag := h.usesFlag_eq hq o
  obtain ⟨i, j, hb⟩ := h.built
  have hnull : shift k₁ k₂ Prelude.null = Prelude.null := movesGlobals_shift.null
  have hexc : shift k₁ k₂ l.signature.exception = l.signature.exception :=
    hb.out_fixed movesGlobals_shift hq (by simp)
  have hwithin : Stmt.AllWithin (.fixed (shift k₁ k₂)) (l.prologue o) := by
    unfold prologue Signature.prologue
    refine Ivl.Stmt.allWithin_append.2 ⟨Ivl.Stmt.allWithin_append.2 ⟨?_, ⟨hexc, hnull⟩, trivial⟩, ?_⟩
    · refine Ivl.Stmt.allWithin_iff.2 fun st hst => ?_
      obtain ⟨this, hthis, rfl⟩ := List.mem_map.1 hst
      refine ⟨hb.formal_fixed movesGlobals_shift hq ?_, hnull⟩
      exact List.mem_append_left _ hthis
    · split
      · exact ⟨⟨(h.fixed hq o).flag, trivial⟩, trivial⟩
      · trivial
  rw [hwithin.rename]
  unfold prologue
  rw [h.signature, hflag]

theorem locals_eq (h : Lowered.Paired p q k₁ k₂ l l') (hq : q.Unmoved k₁ k₂) (o : Options) :
    (l'.implementation o).locals = (l.implementation o).locals.map (shift k₁ k₂) := by
  have hfixed : ∀ x ∈ (l.implementation o).locals, shift k₁ k₂ x = x := by
    intro x hx
    obtain hx | hx := List.mem_append.1 hx
    · exact h.vars x hx
    · split at hx
      · obtain rfl := List.mem_singleton.1 hx
        exact (h.fixed hq o).flag
      · cases hx
  rw [Ivl.map_eq_self_iff.2 hfixed]
  unfold implementation
  rw [h.pool, h.usesFlag_eq hq]

theorem body_eq (h : Lowered.Paired p q k₁ k₂ l l') (hq : q.Unmoved k₁ k₂) (o : Options) :
    (l'.implementation o).body = Stmt.renameAll (shift k₁ k₂) (l.implementation o).body := by
  have hcode : ∀ segs : List (List Outline),
      (segs.map (Outline.renameAll (shift k₁ k₂))).flatMap (l.encoding o).encodeAll =
        Stmt.renameAll (shift k₁ k₂) (segs.flatMap (l.encoding o).encodeAll) := by
    intro segs
    induction segs with
    | nil => rfl
    | cons seg segs ih =>
      rw [List.map_cons, List.flatMap_cons, List.flatMap_cons, ih, (h.fixed hq o).encodeAll,
        Ivl.Stmt.renameAll_append]
  show l'.prologue o ++ _ = Stmt.renameAll _ (l.prologue o ++ _)
  rw [Ivl.Stmt.renameAll_append, h.prologue_eq hq, h.encoding_eq, h.segments hq, hcode]

theorem implementation_eq (h : Lowered.Paired p q k₁ k₂ l l') (hq : q.Unmoved k₁ k₂)
    (o : Options) : l'.implementation o = (l.implementation o).rename (shift k₁ k₂) := by
  obtain ⟨i, j, hb⟩ := h.built
  have hproc : (l'.implementation o).procedure =
      (l.implementation o).procedure.rename (shift k₁ k₂) :=
    (congrArg Signature.procedure h.signature).trans
      (hb.rename_procedure movesGlobals_shift hq).symm
  calc l'.implementation o
      = ⟨(l'.implementation o).procedure, (l'.implementation o).locals,
          (l'.implementation o).body⟩ := rfl
    _ = (l.implementation o).rename (shift k₁ k₂) := by
        rw [hproc, h.locals_eq hq, h.body_eq hq]
        rfl

end Lowered.Paired

/-- Two registries whose entries are those that would be computed lower a body alike, whatever else
they hold. -/
theorem Registry.lower_alike {r₁ r₂ : Registry} (h₁ : r₁.Coherent p q) (h₂ : r₂.Coherent p q) :
    Alike (fun i₁ i₂ => q.Unmoved r₁.globals.length r₂.globals.length →
        i₂ = i₁.rename (shift r₁.globals.length r₂.globals.length))
      (r₁.lower p q o b).1 (r₂.lower p q o b).1 := by
  have hagree : Trace.Agree (Lowered.Paired p q r₁.globals.length r₂.globals.length)
      (lowerBody p q r₁.globals.length b) (lowerBody p q r₂.globals.length b) := lowerBody_agree
  have hres := hagree.result
  rw [lower_fst h₁, lower_fst h₂]
  generalize (lowerBody p q r₁.globals.length b).result = x at hres
  generalize (lowerBody p q r₂.globals.length b).result = y at hres
  cases hres with
  | error => exact .error
  | ok hl => exact .ok fun hu => hl.implementation_eq hu _

namespace Session

theorem lower_diagnostics : (lower s b).2.registry.diagnostics.toList =
    s.registry.diagnostics.toList ++
      (lowerBody s.program s.prelude s.registry.globals.length b).diagnostics :=
  Registry.lower_diagnostics s.coherent

theorem Reachable.lower_fst (h : Reachable p q o s) :
    (s.lower b).1 = (s.registry.lower p q o b).1 := by
  obtain ⟨rfl, rfl, rfl⟩ := h.setting
  rfl

theorem Reachable.lower_diagnostics (h : Reachable p q o s) :
    (s.lower b).2.registry.diagnostics.toList = s.registry.diagnostics.toList ++
      (lowerBody p q s.registry.globals.length b).diagnostics := by
  obtain ⟨rfl, rfl, rfl⟩ := h.setting
  exact Session.lower_diagnostics

/-- Two sessions over one program lower a body alike, whatever their tables hold from what they were
asked for before. -/
theorem lower_noninterference (h₁ : Reachable p q o s₁) (h₂ : Reachable p q o s₂) (b : Body)
    (hk₁ : s₁.registry.globals.length = k₁) (hk₂ : s₂.registry.globals.length = k₂) :
    Alike (fun i₁ i₂ => q.Unmoved k₁ k₂ → i₂ = i₁.rename (shift k₁ k₂))
        (s₁.lower b).1 (s₂.lower b).1 ∧
      (∃ reported : List Diagnostic,
        (s₁.lower b).2.registry.diagnostics.toList =
          s₁.registry.diagnostics.toList ++ reported ∧
        (s₂.lower b).2.registry.diagnostics.toList =
          s₂.registry.diagnostics.toList ++ reported) ∧
      (k₁ = k₂ → (s₁.lower b).1 = (s₂.lower b).1) := by
  subst hk₁ hk₂
  refine ⟨?_, ⟨_, h₁.lower_diagnostics, ?_⟩, fun hk => ?_⟩
  · rw [h₁.lower_fst, h₂.lower_fst]
    exact Registry.lower_alike h₁.coherent h₂.coherent
  · have hagree : Trace.Agree (Lowered.Paired p q s₁.registry.globals.length
        s₂.registry.globals.length) (lowerBody p q s₁.registry.globals.length b)
        (lowerBody p q s₂.registry.globals.length b) := lowerBody_agree
    rw [h₂.lower_diagnostics, hagree.diagnostics]
  · rw [h₁.lower_fst, h₂.lower_fst, Registry.lower_fst h₁.coherent, Registry.lower_fst h₂.coherent,
      hk]

end Session

theorem Prelude.unmoved_standard : standard.Unmoved k₁ k₂ := by
  intro f hf
  obtain rfl := List.mem_singleton.1 hf
  have hfix : ∀ x : Ident, ¬ globalPrefix <+: x.name.toList → shift k₁ k₂ x = x := fun x hx =>
    movesGlobals_shift.of_prefix hx
  have hnull := hfix null (by decide)
  refine Ivl.Procedure.rename_eq_iff.2 ⟨fun x hx => hfix x ?_, fun c hc => ?_⟩
  · revert x
    decide
  · obtain rfl | hc := List.mem_cons.1 hc
    · exact ⟨hfix ⟨"$this", .ref⟩ (by decide), hnull⟩
    · obtain rfl := List.mem_singleton.1 hc
      exact ⟨hfix ⟨"$return", .ref⟩ (by decide), hnull⟩

/-- A class with a static method that takes an object. -/
def grid : Program := .declaring [
  .addClass "A",
  .addMethod 3 { name := "make", params := [.cls 3], isStatic := true }] (by decide +kernel)

def gridBody : Body where
  method := 0
  slots := [⟨"x", .array (.array .int)⟩]
  nodes := [
    { instr := .assign (.slot 0) (.newMultiArray (.array (.array .int)) [.constant (.int 2)]) },
    { instr := .retVoid }]
  sound := by decide

def gridSession (q : Prelude) : Session := .start (.ofProgram grid) q {}

def gridAgain (q : Prelude) : Session := ((gridSession q).lower gridBody).2

theorem gridSession_reachable : (gridSession q).Reachable grid q {} := .start rfl

theorem gridAgain_reachable : (gridAgain q).Reachable grid q {} := gridSession_reachable.step .lower

theorem lower_noninterference_grid :
    ∃ i₁ i₂, ((gridSession .standard).lower gridBody).1 = .ok i₁ ∧
      ((gridAgain .standard).lower gridBody).1 = .ok i₂ ∧ i₂ = i₁.rename (shift 0 1) := by
  obtain ⟨i₁, h₁⟩ := exists_of_isOk (x := ((gridSession .standard).lower gridBody).1)
    (by decide +kernel)
  obtain ⟨halike, -, -⟩ := Session.lower_noninterference (gridSession_reachable (q := .standard))
    gridAgain_reachable gridBody (by decide +kernel : _ = 0) (by decide +kernel : _ = 1)
  rw [h₁] at halike
  generalize ((gridAgain .standard).lower gridBody).1 = r at halike
  cases halike with
  | ok h => exact ⟨i₁, _, h₁, rfl, h Prelude.unmoved_standard⟩

/-- A prelude whose procedure for the method has a parameter with the name of a global variable. -/
def capturing : Prelude := Prelude.bare.add
  { name := "A$void$make$A"
    ins := [⟨"$freshglobal_0", .ref⟩]
    outs := [⟨"$exception", .ref⟩] }

/-- Under that prelude the second lowering is not the first with its global variable renamed. -/
theorem capturing_interferes :
    (gridSession capturing).Reachable grid capturing {} ∧
      (gridAgain capturing).Reachable grid capturing {} ∧
      (gridSession capturing).registry.globals.length = 0 ∧
      (gridAgain capturing).registry.globals.length = 1 ∧
      ∃ i₁ i₂, ((gridSession capturing).lower gridBody).1 = .ok i₁ ∧
        ((gridAgain capturing).lower gridBody).1 = .ok i₂ ∧ i₂ ≠ i₁.rename (shift 0 1) := by
  obtain ⟨i₁, h₁⟩ := exists_of_isOk (x := ((gridSession capturing).lower gridBody).1)
    (by decide +kernel)
  obtain ⟨i₂, h₂⟩ := exists_of_isOk (x := ((gridAgain capturing).lower gridBody).1)
    (by decide +kernel)
  refine ⟨gridSession_reachable, gridAgain_reachable, by decide +kernel, by decide +kernel,
    i₁, i₂, h₁, h₂, fun h => ?_⟩
  have hins₁ : (((gridSession capturing).lower gridBody).1.toOption.map fun i =>
      i.procedure.ins) = some [⟨"$freshglobal_0", .ref⟩] := by decide +kernel
  have hins₂ : (((gridAgain capturing).lower gridBody).1.toOption.map fun i =>
      i.procedure.ins) = some [⟨"$freshglobal_0", .ref⟩] := by decide +kernel
  simp only [h₁, h₂, Except.toOption, Option.map_some, Option.some.injEq] at hins₁ hins₂
  have hmoved : [Ident.mk "$freshglobal_0" .ref].map (shift 0 1) =
      [Ident.mk "$freshglobal_0" .ref] :=
    calc [Ident.mk "$freshglobal_0" .ref].map (shift 0 1)
        = i₁.procedure.ins.map (shift 0 1) := by rw [hins₁]
      _ = i₂.procedure.ins := by rw [h]; rfl
      _ = [Ident.mk "$freshglobal_0" .ref] := hins₂
  revert hmoved
  decide +kernel

end Verilower
