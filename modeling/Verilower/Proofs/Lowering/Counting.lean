import Verilower.Proofs.Lowering.Blind
import Verilower.Proofs.Lowering.Signature
import Verilower.Registry

namespace Verilower
set_option autoImplicit true

/-- Starting at `k`, the journal numbers its global variables one by one and ends at `n`. -/
inductive Counted : Nat → List Event → Nat → Prop
  | nil : Counted k [] k
  | skip (he : e.isGlobal = false) (h : Counted k j n) : Counted k (e :: j) n
  | make (h : Counted (k + 1) j n) : Counted k (.global (globalIdent k ty) :: j) n

theorem Counted.append (h : Counted k j m) (h' : Counted m j' n) : Counted k (j ++ j') n := by
  induction h with
  | nil => exact h'
  | skip he _ ih => exact .skip he (ih h')
  | make _ ih => exact .make (ih h')

theorem counted_of_quiet (h : ∀ e ∈ j, e.isGlobal = false) : Counted k j k := by
  induction j with
  | nil => exact .nil
  | cons e j ih =>
    have hj : ∀ e ∈ j, e.isGlobal = false := fun e he => h e (List.mem_cons_of_mem _ he)
    exact .skip (h e List.mem_cons_self) (ih hj)

/-- The journal is counted from `k`; a value and the number at the end are related by `P`. -/
def Trace.Counts (k : Nat) (P : α → Nat → Prop) (t : Trace α) : Prop :=
  ∃ n, Counted k t.journal n ∧ ∀ a, t.result = .ok a → P a n

namespace Trace

theorem Counts.bind {x : Trace α} {f : α → Trace β} (hx : x.Counts k P)
    (hf : ∀ a n, P a n → (f a).Counts n Q) : (x >>= f).Counts k Q := by
  obtain ⟨j, e | a⟩ := x
  · obtain ⟨n, hn, -⟩ := hx
    exact ⟨n, hn, nofun⟩
  · obtain ⟨n, hn, ha⟩ := hx
    obtain ⟨m, hm, hb⟩ := hf a n (ha a rfl)
    exact ⟨m, hn.append hm, hb⟩

theorem counts_pure {a : α} (h : P a k) : (Pure.pure a : Trace α).Counts k P := by
  refine ⟨k, .nil, fun b hb => ?_⟩
  cases hb
  exact h

theorem Quiet.counts {t : Trace α} (h : t.Quiet) : t.Counts k fun _ n => n = k :=
  ⟨k, counted_of_quiet fun e he => (h e he).1, fun _ _ => rfl⟩

theorem Counts.within {t : Trace α} (h : t.Counts k P) : (t.within c).Counts k P := by
  obtain ⟨j, e | a⟩ := t
  · obtain ⟨n, hn, -⟩ := h
    exact ⟨n, hn, nofun⟩
  · exact h

theorem counts_freshGlobal : (freshGlobal k ty).Counts k fun _ n => n = k + 1 :=
  ⟨k + 1, .make .nil, fun _ _ => rfl⟩

end Trace

namespace Lower

/-- The state always has the number of the next global variable. -/
def Counting (x : Lower α) : Prop :=
  ∀ F s, (x F s).Counts s.globals fun r n => r.scratch.globals = n

theorem Counting.bind {x : Lower α} {f : α → Lower β} (hx : x.Counting)
    (hf : ∀ a, (f a).Counting) : (x >>= f).Counting := fun F s => by
  rw [bind_apply]
  exact (hx F s).bind fun r _ hr => (hr ▸ hf r.value F r.scratch).bind fun _ _ hr' =>
    Trace.counts_pure hr'

theorem Counting.ite {c : Prop} [Decidable c] {x y : Lower α} (hx : x.Counting)
    (hy : y.Counting) : (if c then x else y).Counting := by
  split
  · exact hx
  · exact hy

theorem Blind.counting {x : Lower α} (hx : x.Blind) : x.Counting := fun F s =>
  ⟨s.globals, counted_of_quiet fun e he => (hx.quiet F s e he).1, fun _ h => hx.globals_eq h⟩

theorem counting_freshGlobal : (freshGlobal ty).Counting := fun F s => by
  rw [freshGlobal, command_apply]
  exact Trace.counts_freshGlobal.bind fun _ _ h => Trace.counts_pure h.symm

theorem counting_instr : (instr n i).Counting := by
  cases hm : i.makesGlobal with
  | false => exact (blind_instr hm).counting
  | true =>
    obtain ⟨target, ty, sizes, rfl⟩ := Instr.makesGlobal_eq_true.1 hm
    exact blind_dropSizes.counting.bind fun _ => counting_freshGlobal.bind fun _ =>
      blind_allocateInto.counting.bind fun _ => blind_assignTo.counting

theorem counting_node : (node n nd).Counting :=
  blind_frame.counting.bind fun _ => .ite (blind_label.counting.bind fun _ =>
    blind_emit.counting.bind fun _ => counting_instr) counting_instr

theorem counts_segments : ∀ {nodes : List (Node × Nat)} {s : Scratch},
    (segments nodes F s).Counts s.globals fun r n => r.scratch.globals = n
  | [], _ => Trace.counts_pure rfl
  | _ :: _, s => (counting_node F s).within.bind fun _ _ hr =>
    (hr ▸ counts_segments).bind fun _ _ hr' => Trace.counts_pure hr'

end Lower

/-- The journal of a body goes on with the numbers, also if the body is refused. -/
theorem lowerBody_counts : (lowerBody p q k b).Counts k fun _ _ => True := by
  have hread : ∀ {α} {x : Except Failure α}, (Trace.ofExcept x).Quiet := Trace.records_ofExcept
  refine hread.counts.bind ?_
  rintro m _ rfl
  refine Trace.quiet_signature.counts.bind ?_
  rintro sig _ rfl
  refine hread.counts.within.bind ?_
  rintro pool _ rfl
  refine (Trace.quiet_emit rfl rfl).counts.bind ?_
  rintro _ _ rfl
  exact (Lower.counts_segments (s := { pool, globals := _ })).bind fun _ _ _ =>
    Trace.counts_pure trivial

namespace Registry

/-- The made-up global variables have the numbers from zero on. -/
def Numbered (r : Registry) : Prop :=
  r.globals.map Ivl.Ident.name =
    (List.range r.globals.length).map fun i => (globalIdent i .ref).name

theorem record_globals (he : e.isGlobal = false) : (record p q r e).globals = r.globals := by
  cases e with
  | signature i => exact signature_globals
  | label m n => exact Request.run_globals (x := .label m n) (p := p)
  | global => cases he
  | tag | field | diagnostic | log => rfl

/-- A journal that is counted from the number of global variables ends at their new number, and they
stay numbered from zero on. -/
theorem replay_counted {r : Registry} (h : Counted k j n) (hk : r.globals.length = k) :
    (replay p q r j).globals.length = n ∧ (r.Numbered → (replay p q r j).Numbered) := by
  induction h generalizing r with
  | nil => exact ⟨hk, id⟩
  | skip he _ ih =>
    have hsame := record_globals (p := p) (q := q) (r := r) he
    obtain ⟨hn, hrest⟩ := ih (hsame ▸ hk)
    refine ⟨hn, fun hr => hrest ?_⟩
    unfold Numbered
    rw [hsame]
    exact hr
  | @make k _ _ ty _ ih =>
    have hnew : (record p q r (.global (globalIdent k ty))).globals =
      r.globals ++ [globalIdent k ty] := rfl
    obtain ⟨hn, hrest⟩ := ih (by rw [hnew, List.length_append, hk]; rfl)
    refine ⟨hn, fun hr => hrest ?_⟩
    unfold Numbered at hr ⊢
    rw [hnew, List.map_append, hr, List.length_append, List.length_singleton, List.range_succ,
      List.map_append, hk]
    rfl

end Registry

end Verilower
