import Verilower.Proofs.Lowering.Blind
import Verilower.Proofs.Lowering.Hygiene

namespace Verilower
set_option autoImplicit true

open Ivl (Ident Expr Stmt Scope)

def Event.diagnostic? : Event → Option Diagnostic
  | .diagnostic d => some d
  | _ => none

def Trace.diagnostics (t : Trace α) : List Diagnostic := t.journal.filterMap Event.diagnostic?

/-- The same failure, or related values. -/
inductive Alike (R : α → β → Prop) : Except Failure α → Except Failure β → Prop
  | error : Alike R (.error e) (.error e)
  | ok (h : R a b) : Alike R (.ok a) (.ok b)

structure Trace.Agree (R : α → β → Prop) (t : Trace α) (u : Trace β) : Prop where
  diagnostics : t.diagnostics = u.diagnostics
  result : Alike R t.result u.result

namespace Trace

variable {R : α → β → Prop} {R' : γ → δ → Prop}

theorem agree_pure (h : R a b) : Agree R (Pure.pure a) (Pure.pure b) := ⟨rfl, .ok h⟩

theorem agree_fail : Agree R (fail e) (fail e) := ⟨rfl, .error⟩

theorem Agree.bind {t : Trace α} {u : Trace β} {f : α → Trace γ} {g : β → Trace δ}
    (h : Agree R t u) (hf : ∀ a b, R a b → Agree R' (f a) (g b)) :
    Agree R' (t >>= f) (u >>= g) := by
  obtain ⟨j, x⟩ := t
  obtain ⟨k, y⟩ := u
  obtain ⟨hd, hr⟩ := h
  cases hr with
  | error => exact ⟨hd, .error⟩
  | ok hab =>
    obtain ⟨hd', hr'⟩ := hf _ _ hab
    refine ⟨?_, hr'⟩
    simp only [Trace.diagnostics, Bind.bind, Trace.bind, after, List.filterMap_append] at hd hd' ⊢
    rw [hd, hd']

theorem Agree.mono {t : Trace α} {u : Trace β} {S : α → β → Prop} (h : Agree R t u)
    (hRS : ∀ a b, R a b → S a b) : Agree S t u := by
  obtain ⟨hd, hr⟩ := h
  refine ⟨hd, ?_⟩
  generalize t.result = x, u.result = y at hr
  cases hr with
  | error => exact .error
  | ok hab => exact .ok (hRS _ _ hab)

theorem Agree.within {t : Trace α} {u : Trace β} (h : Agree R t u) :
    Agree R (t.within c) (u.within c) := by
  obtain ⟨j, x⟩ := t
  obtain ⟨k, y⟩ := u
  obtain ⟨hd, hr⟩ := h
  refine ⟨hd, ?_⟩
  cases hr with
  | error => exact .error
  | ok hab => exact .ok hab

end Trace

def Prelude.Unmoved (k₁ k₂ : Nat) (q : Prelude) : Prop :=
  ∀ f ∈ q.procedures, f.rename (shift k₁ k₂) = f

/-- The states differ in the number of global variables, which grew by the same amount. -/
structure Scratch.Apart (k₁ k₂ : Nat) (s t : Scratch) : Prop where
  globals : ∃ i, s.globals = k₁ + i ∧ t = { s with globals := k₂ + i }
  pool : ∀ x ∈ s.pool.vars, shift k₁ k₂ x = x

namespace Lower

/-- The frame has the signature of its method. -/
def Proper (F : Frame) : Prop := ∃ i j, Signature.Built F.program F.prelude i F.signature j

/-- What the two lowerings emit, with the values related by `V`. -/
structure Paired (F : Frame) (k₁ k₂ : Nat) (V : α → β → Prop) (r : Emitted α) (r' : Emitted β) :
    Prop where
  value : V r.value r'.value
  scratch : Scratch.Apart k₁ k₂ r.scratch r'.scratch
  code : F.prelude.Unmoved k₁ k₂ → r'.code = Outline.renameAll (shift k₁ k₂) r.code

/-- From states that differ in the number of global variables only, two computations agree. -/
def Twin (F : Frame) (k₁ k₂ : Nat) (V : α → β → Prop) (x : Lower α) (y : Lower β) : Prop :=
  ∀ s t, Scratch.Apart k₁ k₂ s t → Trace.Agree (Paired F k₁ k₂ V) (x F s) (y F t)

section Combinators

variable {F : Frame} {k₁ k₂ : Nat} {V : α → β → Prop} {W : γ → δ → Prop}

theorem Twin.bind {x : Lower α} {y : Lower β} {f : α → Lower γ} {g : β → Lower δ}
    (h : Twin F k₁ k₂ V x y) (hf : ∀ a b, V a b → Twin F k₁ k₂ W (f a) (g b)) :
    Twin F k₁ k₂ W (x >>= f) (y >>= g) := by
  intro s t hst
  rw [bind_apply, bind_apply]
  refine (h s t hst).bind fun r r' hr => (hf _ _ hr.value _ _ hr.scratch).bind fun u u' hu => ?_
  refine Trace.agree_pure ⟨hu.value, hu.scratch, fun hq => ?_⟩
  simp only [Emitted.after]
  rw [hr.code hq, hu.code hq, Outline.renameAll_append]

theorem twin_pure (h : V a b) : Twin F k₁ k₂ V (Pure.pure a) (Pure.pure b) := fun _ _ hst =>
  Trace.agree_pure ⟨h, hst, fun _ => rfl⟩

theorem twin_fail : Twin F k₁ k₂ V (fail e) (fail e) := fun _ _ _ => Trace.agree_fail

theorem twin_refuse : Twin F k₁ k₂ V (refuse c) (refuse c) := twin_fail

theorem twin_ofExcept {x : Except Failure α} {y : Except Failure β} (h : Alike V x y) :
    Twin F k₁ k₂ V (ofExcept x) (ofExcept y) := by
  cases h with
  | error => exact twin_fail
  | ok hab => exact twin_pure hab

theorem twin_promise (t : Except Fault α) : Twin F k₁ k₂ Eq (promise t) (promise t) := by
  apply twin_ofExcept
  cases t with
  | error => exact .error
  | ok => exact .ok rfl

theorem twin_command {c : Command α} {c' : Command β}
    (h : ∀ s t, Scratch.Apart k₁ k₂ s t →
      Trace.Agree (Paired F k₁ k₂ V) (c.trace F s) (c'.trace F t)) :
    Twin F k₁ k₂ V (command c) (command c') := fun s t hst => by
  rw [command_apply, command_apply]
  exact h s t hst

theorem twin_frame : Twin F k₁ k₂ (fun a b => a = F ∧ b = F) frame frame :=
  twin_command fun _ _ hst => Trace.agree_pure ⟨⟨rfl, rfl⟩, hst, fun _ => rfl⟩

theorem twin_emit (h : F.prelude.Unmoved k₁ k₂ → st' = st.rename (shift k₁ k₂)) :
    Twin F k₁ k₂ (fun _ _ => True) (emit st) (emit st') :=
  twin_command fun _ _ hst => Trace.agree_pure ⟨trivial, hst, fun hq => by rw [h hq]; rfl⟩

theorem twin_oblige
    (h : F.prelude.Unmoved k₁ k₂ → Outline.oblige o' = (Outline.oblige o).rename (shift k₁ k₂)) :
    Twin F k₁ k₂ (fun _ _ => True) (oblige o) (oblige o') :=
  twin_command fun _ _ hst =>
    Trace.agree_pure ⟨trivial, hst, fun hq => congrArg (List.cons · []) (h hq)⟩

theorem Twin.ite {c : Prop} [Decidable c] {x x' : Lower α} {y y' : Lower β}
    (h : Twin F k₁ k₂ V x y) (h' : Twin F k₁ k₂ V x' y') :
    Twin F k₁ k₂ V (if c then x else x') (if c then y else y') := by
  by_cases hc : c
  · simpa only [if_pos hc] using h
  · simpa only [if_neg hc] using h'

theorem Twin.mono {x : Lower α} {y : Lower β} {W : α → β → Prop} (h : Twin F k₁ k₂ V x y)
    (hVW : ∀ a b, V a b → W a b) : Twin F k₁ k₂ W x y := fun s t hst =>
  (h s t hst).mono fun _ _ hr => ⟨hVW _ _ hr.value, hr.scratch, hr.code⟩

end Combinators

/-- A blind computation agrees with itself, if it stays in the scope that it is offered. -/
theorem Blind.twin {x : Lower α} {P : α → Prop} (hx : x.Blind) (hF : Proper F)
    (hpool : ∀ s r j, x.Gives F s r j → (∀ v ∈ s.pool.vars, shift k₁ k₂ v = v) →
      ∀ v ∈ r.scratch.pool.vars, shift k₁ k₂ v = v)
    (hcode : ∀ s r j, x.Gives F s r j → (Scope.fixed (shift k₁ k₂)).Serves F r.scratch j →
      P r.value ∧ Outline.AllWithin (.fixed (shift k₁ k₂)) r.code) :
    Twin F k₁ k₂ (fun a b => a = b ∧ (F.prelude.Unmoved k₁ k₂ → P a)) x x := by
  rintro s t ⟨⟨n, hs, rfl⟩, hv⟩
  rw [hx.run F s (k₂ + n)]
  refine ⟨rfl, ?_⟩
  cases hr : (x F s).result with
  | error e =>
    simp only [Trace.map, hr, Except.map]
    exact .error
  | ok r =>
    have hgives : x.Gives F s r (x F s).journal := Trace.gives_of_result hr
    have hkept : r.scratch.globals = k₁ + n := (hx.globals_eq hr).trans hs
    have hin := hpool s r _ hgives hv
    have hserves (hq : F.prelude.Unmoved k₁ k₂) :
        (Scope.fixed (shift k₁ k₂)).Serves F r.scratch (x F s).journal := by
      obtain ⟨i, j, hb⟩ := hF
      refine ⟨movesGlobals_shift.covers hq hb, fun e he => movesGlobals_shift.knows hq ?_, hin⟩
      rintro v rfl
      cases (hx.quiet F s _ he).1
    have hres : ((x F s).map (Emitted.at (k₂ + n))).result = .ok (r.at (k₂ + n)) := by
      simp [Trace.map, hr, Except.map]
    rw [hres]
    refine .ok ⟨⟨rfl, fun hq => (hcode s r _ hgives (hserves hq)).1⟩, ⟨⟨n, hkept, rfl⟩, hin⟩, ?_⟩
    exact fun hq => (hcode s r _ hgives (hserves hq)).2.rename.symm

section Instructions

variable {F : Frame} {k₁ k₂ : Nat} {x y : Ident} (hF : Proper F)
include hF

theorem twin_value : Twin F k₁ k₂
    (fun a b => a = b ∧ (F.prelude.Unmoved k₁ k₂ → a.Within (.fixed (shift k₁ k₂))))
    (value v) (value v) :=
  blind_value.twin hF (fun _ _ _ h => (value_gives h).pool movesGlobals_shift.stable)
    fun _ _ _ h => (value_gives h).within

theorem twin_slot : Twin F k₁ k₂
    (fun a b => a = b ∧ (F.prelude.Unmoved k₁ k₂ → shift k₁ k₂ a = a)) (slot i) (slot i) := by
  refine blind_slot.twin hF (fun s r j h => ?_) fun s r j h hS => ?_
  · obtain ⟨x, -, rfl, -⟩ := gives_slot.1 h
    exact id
  · obtain ⟨x, hx, rfl, -⟩ := gives_slot.1 h
    exact ⟨hS.pool x (LocalPool.slot_mem hx), trivial⟩

theorem twin_tag : Twin F k₁ k₂
    (fun a b => a = b ∧ (F.prelude.Unmoved k₁ k₂ → a.Within (.fixed (shift k₁ k₂))))
    (tag ty) (tag ty) := by
  refine blind_tag.twin hF (fun s r j h => ?_) fun s r j h hS => ?_
  · obtain ⟨τ, -, rfl, -⟩ := gives_tag.1 h
    exact id
  · obtain ⟨τ, ht, rfl, -⟩ := gives_tag.1 h
    exact ⟨movesGlobals_shift.tag ht, trivial⟩

omit hF in
theorem twin_freshGlobal : Twin F k₁ k₂
    (fun x y => x.ty = .ref ∧ y.ty = .ref ∧ shift k₁ k₂ x = y)
    (freshGlobal .ref) (freshGlobal .ref) := by
  have hrun : ∀ s, freshGlobal .ref F s = ⟨[.global (globalIdent s.globals .ref)],
      .ok ⟨globalIdent s.globals .ref, { s with globals := s.globals + 1 }, []⟩⟩ := fun s =>
    gives_freshGlobal.2 ⟨rfl, rfl⟩
  rintro s t ⟨⟨n, hs, rfl⟩, hv⟩
  rw [hrun, hrun, hs]
  exact ⟨rfl, .ok ⟨⟨rfl, rfl, shift_globalIdent⟩, ⟨⟨n + 1, rfl, rfl⟩, hv⟩, fun _ => rfl⟩⟩

theorem twin_allocateInto (h : shift k₁ k₂ x = y) :
    Twin F k₁ k₂ (fun _ _ => True) (allocateInto x ty) (allocateInto y ty) := by
  have hρ : MovesGlobals (shift k₁ k₂) := movesGlobals_shift
  refine (twin_tag hF).bind fun e e' ⟨he, hτ⟩ => ?_
  subst he
  refine (twin_emit fun _ => ?_).bind fun _ _ _ => (twin_emit fun _ => ?_).bind fun _ _ _ =>
    (twin_emit fun _ => ?_).bind fun _ _ _ => (twin_emit fun _ => ?_).bind fun _ _ _ =>
      twin_emit fun hq => ?_
  · simp [Stmt.rename, h]
  · simp [Stmt.rename, Expr.not, Prelude.read, h, hρ.heap, hρ.alloc]
  · simp [Stmt.rename, Prelude.write, h, hρ.heap, hρ.alloc]
  · simp [Stmt.rename, Prelude.isNonNull, Expr.neq, h, hρ.null]
  · simp [Stmt.rename, Prelude.write, h, hρ.heap, hρ.typeField, Ivl.Expr.rename_eq_iff.2 (hτ hq)]

omit hF in
theorem twin_coerce (hx : x.ty = .ref) (hy : y.ty = .ref) :
    Twin F k₁ k₂ (fun e e' => e = x.expr ∧ e' = y.expr) (coerce x.expr ty) (coerce y.expr ty) := by
  have hty : Twin F k₁ k₂ (fun a b => a = Ivl.Ty.ref ∧ b = Ivl.Ty.ref) (typeOf x.expr)
      (typeOf y.expr) := twin_ofExcept (.ok ⟨hx, hy⟩)
  have hconvert (e : Expr) : Prelude.convert .ref ty e = if ty = .ref then some e else none := by
    cases ty <;> simp [Prelude.convert]
  refine hty.bind fun a b h => ?_
  obtain ⟨rfl, rfl⟩ := h
  rw [hconvert, hconvert]
  by_cases ht : ty = .ref
  · simp only [if_pos ht]
    exact twin_pure ⟨rfl, rfl⟩
  · simp only [if_neg ht]
    exact twin_refuse

omit hF in
/-- Whether an expression can be stored at a location does not depend on the expression. -/
theorem storeInto_alike {U : Prop} : ∀ (location : Expr) {e e' : Expr},
    (U → location.Within (.fixed (shift k₁ k₂))) → (U → e' = e.rename (shift k₁ k₂)) →
    Alike (fun st st' => U → st' = st.rename (shift k₁ k₂))
      ((storeInto location e).mapError .refused) ((storeInto location e').mapError .refused)
  | .ident v, e, e', hl, he => by
    refine .ok fun hU => ?_
    rw [Stmt.rename, he hU, show shift k₁ k₂ v = v from hl hU]
  | .select map indices, e, e', hl, he => by
    refine storeInto_alike map (fun hU => (hl hU).1) fun hU => ?_
    rw [Ivl.Expr.rename_store, he hU, Ivl.Expr.rename_eq_iff.2 (hl hU).1,
      (Ivl.Expr.renameAll_eq_iff indices).2 (hl hU).2]
  | .bool _, _, _, _, _ | .int _, _, _, _, _ | .real _, _, _, _, _ | .binary _ _ _, _, _, _, _
  | .unary _ _, _, _, _, _ | .store _ _ _, _, _, _, _ | .apply _ _ _, _, _, _, _ => .error

theorem twin_assignTo (hx : x.ty = .ref) (hy : y.ty = .ref) (h : shift k₁ k₂ x = y) :
    Twin F k₁ k₂ (fun _ _ => True) (assignTo target x.expr) (assignTo target y.expr) := by
  have hexpr : y.expr = x.expr.rename (shift k₁ k₂) := by simp [h]
  -- Whether a store is refused depends on the location, and the two differ by the renaming only.
  have hstore {location : Expr} (hl : F.prelude.Unmoved k₁ k₂ →
      location.Within (.fixed (shift k₁ k₂))) : Twin F k₁ k₂ (fun _ _ => True)
      (do emit (← decision (storeInto location x.expr)))
      (do emit (← decision (storeInto location y.expr))) :=
    (twin_ofExcept (storeInto_alike location hl fun _ => hexpr)).bind fun _ _ hst => twin_emit hst
  have hnull : shift k₁ k₂ Prelude.null = Prelude.null := movesGlobals_shift.null
  cases target with
  | slot index =>
    refine (twin_slot hF).bind fun v v' ⟨hv, hfix⟩ => ?_
    subst hv
    refine (twin_coerce hx hy).bind fun e e' ⟨he, he'⟩ => twin_emit fun hq => ?_
    rw [he, he', Stmt.rename, hfix hq, hexpr]
  | element =>
    refine (twin_value hF).bind fun l l' ⟨hl, hfix⟩ => ?_
    subst hl
    refine (twin_promise _).bind fun ty ty' hty => ?_
    subst hty
    refine (twin_coerce hx hy).bind fun e e' ⟨he, he'⟩ => ?_
    subst he he'
    exact hstore hfix
  | instanceField | staticField =>
    refine (twin_value hF).bind fun l l' ⟨hl, hfix⟩ => ?_
    subst hl
    refine (twin_promise _).bind fun ty ty' hty => ?_
    subst hty
    refine (twin_coerce hx hy).bind fun e e' ⟨he, he'⟩ => ?_
    subst he he'
    refine twin_frame.bind fun G G' ⟨hG, hG'⟩ => ?_
    subst hG hG'
    refine (twin_promise _).bind fun f f' hf => ?_
    subst hf
    refine .ite ((twin_oblige fun _ => ?_).bind fun _ _ _ => hstore hfix) (hstore hfix)
    simp [Outline.rename, Obligation.nonNull, Prelude.isNonNull, Expr.neq, h, hnull]
  | _ => exact twin_refuse

theorem twin_dropSizes : Twin F k₁ k₂ (fun _ _ => True) (dropSizes sizes) (dropSizes sizes) :=
  (blind_dropSizes.twin (P := fun _ => True) hF
    (fun _ _ _ h => (dropSizes_gives h).pool movesGlobals_shift.stable)
    fun _ _ _ h hS => ⟨trivial, (dropSizes_gives h).within hS⟩).mono fun _ _ _ => trivial

theorem twin_label : Twin F k₁ k₂ Eq (label n) (label n) := by
  refine (blind_label.twin (P := fun _ => True) hF (fun s r j h => ?_)
    fun s r j h _ => ⟨trivial, ?_⟩).mono fun _ _ h => h.1
  · obtain ⟨rfl, -⟩ := gives_label.1 h
    exact id
  · obtain ⟨rfl, -⟩ := gives_label.1 h
    trivial

/-- One instruction: only the allocation of an array of several dimensions makes a difference. -/
theorem twin_instr : Twin F k₁ k₂ (fun _ _ => True) (instr n i) (instr n i) := by
  cases hm : i.makesGlobal with
  | false =>
    exact ((blind_instr hm).twin (P := fun _ => True) hF
      (fun _ _ _ h => (instr_gives h).pool movesGlobals_shift.stable)
      fun _ _ _ h hS => ⟨trivial, (instr_gives h).within hS⟩).mono fun _ _ _ => trivial
  | true =>
    obtain ⟨target, ty, sizes, rfl⟩ := Instr.makesGlobal_eq_true.1 hm
    refine (twin_dropSizes hF).bind fun _ _ _ => twin_freshGlobal.bind fun x y ⟨hx, hy, hxy⟩ => ?_
    exact (twin_allocateInto hF hxy).bind fun _ _ _ => twin_assignTo hF hx hy hxy

theorem twin_node : Twin F k₁ k₂ (fun _ _ => True) (node n nd) (node n nd) := by
  refine twin_frame.bind fun G G' ⟨hG, hG'⟩ => ?_
  subst hG hG'
  refine .ite ((twin_label hF).bind fun l l' hl => (twin_emit fun _ => ?_).bind fun _ _ _ =>
    twin_instr hF) (twin_instr hF)
  subst hl
  rfl

theorem agree_segments (hst : Scratch.Apart k₁ k₂ s t) :
    Trace.Agree (Paired F k₁ k₂ fun segs segs' => F.prelude.Unmoved k₁ k₂ →
      segs' = segs.map (Outline.renameAll (shift k₁ k₂)))
      (segments nodes F s) (segments nodes F t) := by
  induction nodes generalizing s t with
  | nil => exact Trace.agree_pure ⟨fun _ => rfl, hst, fun _ => rfl⟩
  | cons head rest ih =>
    refine (twin_node hF s t hst).within.bind fun r r' hr => (ih hr.scratch).bind fun u u' hu => ?_
    exact Trace.agree_pure ⟨fun hq => by simp [hr.code hq, hu.value hq], hu.scratch, fun _ => rfl⟩

end Instructions

end Lower

end Verilower
