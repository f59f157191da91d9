import Verilower.Proofs.Indexing

namespace Verilower
set_option autoImplicit true

open Ivl (Ident Expr Stmt)

/-- The trace ends in no fault, and its value has the property. -/
structure Trace.Safe (t : Trace α) (Q : α → Prop) : Prop where
  faultless : ∀ f, t.result ≠ .error (.fault f)
  value : ∀ a, t.result = .ok a → Q a

/-- The computation ends in no fault, and its value has the property. -/
def Lower.Safe (F : Frame) (x : Lower α) (Q : α → Prop) : Prop :=
  ∀ s, (x F s).Safe fun r => Q r.value

namespace Trace

variable {Q : α → Prop} {R : β → Prop}

theorem safe_pure (h : Q a) : (Pure.pure a : Trace α).Safe Q where
  faultless _ := nofun
  value b hb := by
    cases hb
    exact h

theorem safe_refuse : (refuse c : Trace α).Safe Q := ⟨nofun, nofun⟩

theorem Safe.bind {x : Trace α} {f : α → Trace β} (hx : x.Safe Q) (hf : ∀ a, Q a → (f a).Safe R) :
    (x >>= f).Safe R := by
  obtain ⟨j, e | a⟩ := x
  · exact ⟨fun g h => hx.faultless g (by simpa [Bind.bind, Trace.bind] using h), nofun⟩
  · obtain ⟨hfault, hvalue⟩ := hf a (hx.value a rfl)
    exact ⟨hfault, hvalue⟩

theorem Safe.mono {x : Trace α} {R : α → Prop} (hx : x.Safe Q) (h : ∀ a, Q a → R a) : x.Safe R :=
  ⟨hx.faultless, fun a ha => h a (hx.value a ha)⟩

theorem Safe.within {x : Trace α} (hx : x.Safe Q) : (x.within c).Safe Q := by
  obtain ⟨j, (cause | fault) | a⟩ := x
  · exact ⟨nofun, nofun⟩
  · exact absurd rfl (hx.faultless fault)
  · exact hx

end Trace

namespace Signature

end Signature

def Ivl.Expr.Typed (e : Expr) : Prop := ∃ t, e.ty = .ok t

theorem Ivl.Expr.Typed.binary {lhs rhs : Expr} (h : lhs.Typed) :
    (Expr.binary op lhs rhs).Typed := by
  obtain ⟨t, ht⟩ := h
  unfold Typed Expr.ty
  split
  · exact ⟨_, rfl⟩
  · split
    · exact ⟨_, rfl⟩
    · exact ⟨t, ht⟩

theorem Prelude.ty_read {base : Expr} {x : Ident} (hx : x.ty = .field t) :
    (Prelude.read base x).ty = .ok t := by
  simp [read, Expr.ty, Expr.secondTy, Ident.expr, heap, hx, bind, Except.bind, pure, Except.pure]

namespace Lower

variable {F : Frame} {Q : α → Prop} {R : β → Prop}

theorem Safe.bind {x : Lower α} {f : α → Lower β} (hx : x.Safe F Q)
    (hf : ∀ a, Q a → (f a).Safe F R) : (x >>= f).Safe F R := by
  intro s
  rw [bind_apply]
  apply (hx s).bind
  intro r hr
  apply (hf r.value hr r.scratch).bind
  intro r' hr'
  exact Trace.safe_pure hr'

theorem Safe.mono {x : Lower α} {R : α → Prop} (hx : x.Safe F Q) (h : ∀ a, Q a → R a) :
    x.Safe F R := fun s => (hx s).mono fun r => h r.value

theorem safe_pure {a : α} (h : Q a) : (Pure.pure a : Lower α).Safe F Q := fun _ =>
  Trace.safe_pure h

theorem safe_refuse : (refuse c : Lower α).Safe F Q := fun _ => Trace.safe_refuse

theorem Safe.when {x : Lower Unit} {c : Lower Expr} {Q : Unit → Prop} {R : Expr → Prop}
    (hx : x.Safe F Q) (hc : c.Safe F R) : (when x c).Safe F fun _ => True := fun s => by
  rw [when_apply]
  exact (hx s).bind fun r _ => (hc r.scratch).bind fun _ _ => Trace.safe_pure trivial

theorem Safe.ite {c : Prop} [Decidable c] {x y : Lower α} (hx : x.Safe F Q) (hy : y.Safe F Q) :
    (if c then x else y).Safe F Q := by
  split
  · exact hx
  · exact hy

theorem Safe.check {c : Prop} [Decidable c] {cause : Refusal} {f : Unit → Lower α}
    (hf : ∀ u, (f u).Safe F Q) : (if c then refuse cause >>= f else f ()).Safe F Q :=
  .ite ((safe_refuse (Q := fun _ => True)).bind fun u _ => hf u) (hf ())

section Operators

variable {l r : Expr} (hl : l.Typed) (hr : r.Typed)
include hl hr

end Operators

theorem mem_insertId {i : ClassId} : c ∈ insertId i ids ↔ c = i ∨ c ∈ ids := by
  induction ids with
  | nil => simp [insertId]
  | cons other ids ih =>
    rw [insertId]
    split
    · exact List.mem_cons
    · split
      · simp_all
      · simp [ih, or_left_comm]

theorem mem_sortIds : c ∈ sortIds ids ↔ c ∈ ids := by
  induction ids with
  | nil => exact Iff.rfl
  | cons i ids ih => exact mem_insertId.trans ((or_congr_right ih).trans List.mem_cons.symm)

end Lower

end Verilower
