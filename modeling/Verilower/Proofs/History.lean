import Verilower.Proofs.Lowering.Counting
import Verilower.Proofs.Lowering.Node
import Verilower.Proofs.Lowering.Refinement
import Verilower.Session

namespace Verilower
set_option autoImplicit true

open Ivl (Implementation)

namespace Session

def after (s : Session) (j : List Event) : Session :=
  { s with
    registry := s.registry.replay s.program s.prelude j
    coherent := s.coherent.replay j }

@[simp] theorem after_program : (after s j).program = s.program := rfl

@[simp] theorem after_prelude : (after s j).prelude = s.prelude := rfl

@[simp] theorem after_options : (after s j).options = s.options := rfl

@[simp] theorem after_bodies : (after s j).bodies = s.bodies := rfl

theorem after_append : after s (j ++ k) = (s.after j).after k := by
  simp only [after, Registry.replay_append]

/-- A session that takes the result of a trace and replays its journal. -/
def run (s : Session) (t : Trace α) : Except Failure α × Session := (t.result, s.after t.journal)

theorem eq_run {s : Session} {t : Trace α} {x : Except Failure α × Registry}
    {hc : x.2.Coherent s.program s.prelude}
    (hx : x = (t.result, s.registry.replay s.program s.prelude t.journal)) :
    (x.1, { s with registry := x.2, coherent := hc }) = s.run t := by
  subst hx
  rfl

theorem tag_eq_run : tag s ty = s.run (Trace.tag s.program ty) := by
  have hrun := (Request.tag ty).run_eq s.coherent
  rw [Request.replay_journal (q := s.prelude)] at hrun
  exact eq_run hrun

theorem field_eq_run : field s i = s.run (Trace.field s.program i) := by
  have hrun := (Request.field i).run_eq s.coherent
  rw [Request.replay_journal (q := s.prelude)] at hrun
  exact eq_run hrun

theorem signature_eq_run : signature s i = s.run (Trace.signature s.program s.prelude i) :=
  Prod.ext (Registry.signature_fst s.coherent) rfl

theorem label_eq_run : label s m n = s.run (Trace.label m n) :=
  Prod.ext (congrArg Except.ok (s.coherent.label m n).1) rfl

theorem lower_eq : ∃ record, lower s b =
    match lowerBody s.program s.prelude s.registry.globals.length b with
    | ⟨j, .error e⟩ => (.error e, s.after j)
    | ⟨j, .ok l⟩ => (.ok (l.implementation s.options), s.after (j ++ [.log record])) := by
  obtain ⟨record, hlower⟩ := Registry.lower_eq (o := s.options) (b := b) s.coherent
  refine ⟨record, ?_⟩
  rcases ht : lowerBody s.program s.prelude s.registry.globals.length b with ⟨j, e | l⟩
  · rw [ht] at hlower
    exact eq_run (t := ⟨j, .error e⟩) hlower
  · rw [ht] at hlower
    have hreplay : s.registry.replay s.program s.prelude (j ++ [.log record]) =
        (s.registry.replay s.program s.prelude j).addRecord record := by
      rw [Registry.replay_append]
      rfl
    exact eq_run (t := ⟨j ++ [.log record], .ok _⟩) (hlower.trans (congrArg (Prod.mk _) hreplay.symm))

theorem lower_fst : (lower s b).1 =
    (lowerBody s.program s.prelude s.registry.globals.length b).result.map
      (·.implementation s.options) := Registry.lower_fst s.coherent

/-- The second session comes out of the first by a journal, which numbers its global variables from
those on that the first has. -/
def Extends (s t : Session) : Prop :=
  ∃ j n, Counted s.registry.globals.length j n ∧ t = s.after j

theorem Extends.journal (h : Extends s t) : ∃ j, t = s.after j := by
  obtain ⟨j, -, -, ht⟩ := h
  exact ⟨j, ht⟩

theorem Extends.refl (s : Session) : s.Extends s := ⟨[], _, .nil, rfl⟩

theorem Extends.trans (h : Extends s t) (h' : Extends t u) : Extends s u := by
  obtain ⟨j, n, hj, rfl⟩ := h
  obtain ⟨k, m, hk, rfl⟩ := h'
  have hn : (s.after j).registry.globals.length = n := (Registry.replay_counted hj rfl).1
  exact ⟨j ++ k, m, hj.append (hn ▸ hk), after_append.symm⟩

theorem extends_run {t : Trace α} (h : t.Counts s.registry.globals.length P) :
    Extends s (s.run t).2 := by
  obtain ⟨n, hn, -⟩ := h
  exact ⟨t.journal, n, hn, rfl⟩

theorem extends_diagnose : Extends s (s.diagnose severity loc message) :=
  ⟨[.diagnostic _], _, .skip rfl .nil, rfl⟩

theorem extends_log : Extends s (s.log level message) := ⟨[.log _], _, .skip rfl .nil, rfl⟩

theorem extends_foldl {f : Session → α → Session} (hf : ∀ s a, Extends s (f s a)) :
    ∀ {xs : List α} {s : Session}, Extends s (xs.foldl f s)
  | [], s => .refl s
  | a :: _, s => (hf s a).trans (extends_foldl hf)

/-- A step of a fold is taken in a session between the first and the last. -/
theorem foldl_gives {f : Session → α → Session} (hf : ∀ s a, Extends s (f s a)) {s : Session} :
    ∀ {xs : List α}, a ∈ xs → ∃ u, Extends s u ∧ Extends (f u a) (xs.foldl f s)
  | b :: xs, ha => by
    obtain rfl | ha := List.mem_cons.1 ha
    · exact ⟨s, .refl s, extends_foldl hf⟩
    · obtain ⟨u, hu, hrest⟩ := foldl_gives hf (s := f s b) ha
      exact ⟨u, (hf s b).trans hu, hrest⟩

theorem extends_tag : Extends s (s.tag ty).2 := by
  rw [tag_eq_run]
  exact extends_run Trace.quiet_tag.counts

theorem extends_field : Extends s (s.field i).2 := by
  rw [field_eq_run]
  exact extends_run Trace.quiet_field.counts

theorem extends_signature : Extends s (s.signature i).2 := by
  rw [signature_eq_run]
  exact extends_run Trace.quiet_signature.counts

theorem extends_label : Extends s (s.label m n).2 := by
  rw [label_eq_run]
  exact extends_run Trace.quiet_label.counts

theorem extends_declareTags : Extends s s.declareTags := extends_foldl fun _ _ => extends_tag

theorem extends_declareField : Extends s (s.declareField i) := by
  have hrun : Extends s (s.field i).2 := extends_field
  unfold declareField
  generalize s.field i = r at hrun ⊢
  obtain ⟨e | x, t⟩ := r
  · cases s.program.fields[i]? with
    | none => exact hrun
    | some f => exact hrun.trans extends_diagnose
  · exact hrun

theorem extends_declareSignature : Extends s (s.declareSignature i).2 := by
  have hrun : Extends s (s.signature i).2 := extends_signature
  unfold declareSignature
  generalize s.signature i = r at hrun ⊢
  obtain ⟨(cause | fault) | sig, t⟩ := r
  · cases s.program.methods[i]? with
    | none => exact hrun
    | some m => exact hrun.trans extends_diagnose
  · exact hrun
  · exact hrun

theorem extends_declareSignatures : ∀ {ids : List MethodId} {s : Session},
    Extends s (s.declareSignatures ids).2
  | [], s => .refl s
  | i :: ids, s => by
    have hi : Extends s (s.declareSignature i).2 := extends_declareSignature
    unfold declareSignatures
    split
    · rename_i hd
      rwa [hd] at hi
    · rename_i hd
      rw [hd] at hi
      exact hi.trans extends_declareSignatures

theorem extends_logged : Extends (after s j) (s.after (j ++ [.log record])) :=
  ⟨[.log record], _, .skip rfl .nil, after_append⟩

/-- An implementation comes from a lowered body, whose journal is replayed. -/
theorem lower_result {s : Session} (h : (s.lower b).1 = .ok i) :
    ∃ l j, (lowerBody s.program s.prelude s.registry.globals.length b).Gives l j ∧
      i = l.implementation s.options ∧ Extends (s.after j) (s.lower b).2 := by
  obtain ⟨record, hlower⟩ := lower_eq (s := s) (b := b)
  rcases ht : lowerBody s.program s.prelude s.registry.globals.length b with ⟨j, e | l⟩
  all_goals
    rw [ht] at hlower
    rw [hlower] at h ⊢
    cases h
  exact ⟨l, j, rfl, rfl, extends_logged⟩

theorem extends_lower : Extends s (s.lower b).2 := by
  obtain ⟨record, hlower⟩ := lower_eq (s := s) (b := b)
  have hrun : Extends s (s.run (lowerBody s.program s.prelude s.registry.globals.length b)).2 :=
    extends_run lowerBody_counts
  rw [hlower]
  rcases ht : lowerBody s.program s.prelude s.registry.globals.length b with ⟨j, e | l⟩
  all_goals rw [ht] at hrun
  · exact hrun
  · exact hrun.trans extends_logged

theorem lower_gives {s : Session} (h : (s.lower b).1 = .ok i) :
    ∃ l j, BodyLowered s.program s.prelude s.registry.globals.length b l j ∧
      i = l.implementation s.options ∧ Extends (s.after j) (s.lower b).2 := by
  obtain ⟨l, j, hl, hi, hj⟩ := lower_result h
  exact ⟨l, j, lowerBody_gives hl, hi, hj⟩

theorem extends_lowerHeld : Extends s (s.lowerHeld b).2 := by
  have hl : Extends s (s.lower b).2 := extends_lower
  unfold lowerHeld
  split
  · exact .refl s
  · dsimp only
    split
    · exact extends_log
    · split
      · rename_i h
        rwa [h] at hl
      · rename_i h
        rw [h] at hl
        exact hl.trans extends_diagnose
      · rename_i h
        rwa [h] at hl

theorem lowerHeld_gives (h : lowerHeld s b = (.ok (some i), t)) : s.lower b = (.ok i, t) := by
  unfold lowerHeld at h
  split at h
  · cases h
  · dsimp only at h
    split at h
    · cases h
    · split at h
      · rename_i hl
        cases h
        exact hl
      · cases h
      · cases h

theorem extends_lowerAll : ∀ {bodies : List Body} {s : Session}, Extends s (s.lowerAll bodies).2
  | [], s => .refl s
  | b :: bodies, s => by
    have hb : Extends s (s.lowerHeld b).2 := extends_lowerHeld
    unfold lowerAll
    split
    · rename_i h
      rwa [h] at hb
    · rename_i i t h
      rw [h] at hb
      have hall : Extends t (t.lowerAll bodies).2 := extends_lowerAll
      split
      · rename_i h'
        rw [h'] at hall
        exact hb.trans hall
      · rename_i h'
        rw [h'] at hall
        exact hb.trans hall

/-- Every implementation was lowered in a session between the first and the last. -/
theorem lowerAll_gives : ∀ {bodies : List Body} {s t : Session} {is : List Implementation},
    s.lowerAll bodies = (.ok is, t) → i ∈ is →
    ∃ u b, Extends s u ∧ (u.lower b).1 = .ok i ∧ Extends (u.lower b).2 t
  | [], _, _, _, h, hi => by
    cases h
    cases hi
  | b :: bodies, s, t, is, h, hi => by
    have hheld : Extends s (s.lowerHeld b).2 := extends_lowerHeld
    unfold lowerAll at h
    split at h
    · cases h
    · rename_i found u hu
      rw [hu] at hheld
      have hall : Extends u (u.lowerAll bodies).2 := extends_lowerAll
      split at h
      · cases h
      · rename_i rest v hv
        cases h
        rw [hv] at hall
        obtain hi | hi := List.mem_append.1 hi
        · obtain rfl := Option.mem_toList.1 hi
          have hl := lowerHeld_gives hu
          exact ⟨s, b, .refl s, by rw [hl], by rw [hl]; exact hall⟩
        · obtain ⟨w, b', hw, hl, hv'⟩ := lowerAll_gives hv hi
          exact ⟨w, b', hheld.trans hw, hl, hv'⟩

def declareFields (s : Session) : Session :=
  (List.range s.program.fields.length).foldl declareField s

theorem extends_declareFields : Extends s s.declareFields :=
  extends_foldl fun _ _ => extends_declareField

theorem declareField_eq (h : s.program.fieldIdent i = .ok x) :
    declareField s i = s.after [.field i] := by
  have hrun : s.field i = (.ok x, s.after [.field i]) := by
    have ht : Trace.field s.program i = ⟨[.field i], .ok x⟩ := Trace.gives_field.2 ⟨h, rfl⟩
    rw [field_eq_run, ht]
    rfl
  unfold declareField
  rw [hrun]

theorem declareFields_gives (h : s.program.fieldIdent i = .ok x) :
    ∃ u, Extends s u ∧ Extends (u.after [.field i]) s.declareFields := by
  obtain ⟨f, t, hf, -, -⟩ := Program.fieldIdent_eq_ok.1 h
  have hi := List.mem_range.2 (List.getElem?_eq_some_iff.1 hf).1
  obtain ⟨u, hu, hrest⟩ := foldl_gives (f := declareField) (s := s)
    (fun _ _ => extends_declareField) hi
  have hx : u.program.fieldIdent i = .ok x := by
    obtain ⟨j, rfl⟩ := hu.journal
    exact h
  exact ⟨u, hu, declareField_eq hx ▸ hrest⟩

theorem declareTags_gives {i : ClassId} (hi : i < s.program.classes.length)
    (h : s.program.tag (.cls i) = .ok x) :
    ∃ u, Extends s u ∧ Extends (u.after [.tag (.cls i)]) s.declareTags := by
  obtain ⟨u, hu, hrest⟩ := foldl_gives (f := fun s id => (s.tag (.cls id)).2) (s := s)
    (fun _ _ => extends_tag) (List.mem_range.2 hi)
  have hx : u.program.tag (.cls i) = .ok x := by
    obtain ⟨j, rfl⟩ := hu.journal
    exact h
  have ht : Trace.tag u.program (.cls i) = ⟨[.tag (.cls i)], .ok x⟩ := Trace.gives_tag.2 ⟨hx, rfl⟩
  rw [tag_eq_run, ht] at hrest
  exact ⟨u, hu, hrest⟩

/-- Generation in stages: tags and fields, signatures, bodies. -/
theorem generate_eq : generate s =
    match s.declareTags.declareFields.declareSignatures
      (List.range s.declareTags.declareFields.program.methods.length) with
    | (.error e, t) => (.error e, t)
    | (.ok _, t) =>
      match t.lowerAll t.bodies with
      | (.error e, u) => (.error e, u)
      | (.ok is, u) =>
        let u := u.log .info ("translated " ++ toString is.length ++ " procedure bodies")
        (.ok (u.assemble is), u) := rfl

theorem extends_generate : Extends s s.generate.2 := by
  have hfields : Extends s s.declareTags.declareFields :=
    extends_declareTags.trans extends_declareFields
  have hsigs : Extends s (s.declareTags.declareFields.declareSignatures
      (List.range s.declareTags.declareFields.program.methods.length)).2 :=
    hfields.trans extends_declareSignatures
  rw [generate_eq]
  split
  · rename_i h
    rwa [h] at hsigs
  · rename_i t h
    rw [h] at hsigs
    have hall : Extends s (t.lowerAll t.bodies).2 := hsigs.trans extends_lowerAll
    split
    · rename_i h'
      rwa [h'] at hall
    · rename_i h'
      rw [h'] at hall
      exact hall.trans extends_log

/-- The session after all tags, fields and signatures have been declared. -/
def declared (s : Session) : Session :=
  (s.declareTags.declareFields.declareSignatures
    (List.range s.declareTags.declareFields.program.methods.length)).2

theorem extends_declared {s : Session} : Extends s.declareTags.declareFields s.declared :=
  extends_declareSignatures

/-- A generated program is assembled in the last session from what all bodies were lowered to. -/
theorem generate_gives (h : generate s = (.ok prog, t)) :
    ∃ is u, s.declared.lowerAll s.declared.bodies = (.ok is, u) ∧ Extends u t ∧
      prog = t.assemble is := by
  unfold declared
  rw [generate_eq] at h
  split at h
  · cases h
  · rename_i hu
    rw [hu]
    split at h
    · cases h
    · rename_i is v hv
      cases h
      exact ⟨is, v, hv, extends_log, rfl⟩

/-- What can be asked of a session. -/
inductive Step : Session → Session → Prop
  | tag : Step s (s.tag ty).2
  | field : Step s (s.field i).2
  | signature : Step s (s.signature i).2
  | label : Step s (s.label m n).2
  | freshGlobal : Step s (s.freshGlobal ty).2
  | diagnose : Step s (s.diagnose severity loc message)
  | lower : Step s (s.lower b).2
  | generate : Step s s.generate.2

/-- The sessions over a program with a prelude and options. -/
inductive Reachable (p : Program) (q : Prelude) (o : Options) : Session → Prop
  | start (h : code.program = p) : Reachable p q o (start code q o)
  | step (h : Reachable p q o s) (hs : Step s t) : Reachable p q o t

theorem Step.extends (h : Step s t) : Extends s t := by
  cases h with
  | tag => exact extends_tag
  | field => exact extends_field
  | signature => exact extends_signature
  | label => exact extends_label
  | freshGlobal => exact extends_run Trace.counts_freshGlobal
  | diagnose => exact extends_diagnose
  | lower => exact extends_lower
  | generate => exact extends_generate

theorem Reachable.setting (h : Reachable p q o s) :
    s.program = p ∧ s.prelude = q ∧ s.options = o := by
  induction h with
  | start h => exact ⟨h, rfl, rfl⟩
  | step _ hs ih =>
    obtain ⟨j, rfl⟩ := hs.extends.journal
    exact ih

/-- In every session that can be reached, what is stored is what would be computed. -/
theorem Reachable.coherent (h : Reachable p q o s) : s.registry.Coherent p q := by
  obtain ⟨rfl, rfl, -⟩ := h.setting
  exact s.coherent

theorem Reachable.generated (h : Reachable p q o s) (hg : s.generate = (r, t)) :
    Reachable p q o t := by
  have hstep : Reachable p q o s.generate.2 := h.step .generate
  rwa [hg] at hstep

/-- The made-up global variables of a session have the numbers from zero on. -/
theorem Reachable.numbered (h : Reachable p q o s) : s.registry.Numbered := by
  induction h with
  | start => rfl
  | step _ hs ih =>
    obtain ⟨j, n, hj, rfl⟩ := hs.extends
    exact (Registry.replay_counted hj rfl).2 ih

end Session

end Verilower
