import Verilower.Proofs.CallSites

namespace Verilower
set_option autoImplicit true

open Ivl

/-- Quotient and remainder of `a` by `b` when the quotient is rounded toward zero. -/
structure Truncated (a b q r : Int) : Prop where
  eq : a = b * q + r
  small : r.natAbs < b.natAbs
  sign : r = 0 ∨ r.sign = a.sign

theorem truncated_iff (hb : b ≠ 0) : Truncated a b q r ↔ q = a.tdiv b ∧ r = a.tmod b := by
  have hpos := Int.natAbs_pos.2 hb
  constructor
  · rintro ⟨heq, hsmall, hsign⟩
    have hsum : r + b * q = a := by omega
    obtain ha | ha := Int.le_total 0 a
    · have hr : 0 ≤ r := by
        obtain rfl | hs := hsign
        · exact Int.le_refl 0
        · exact Int.sign_nonneg_iff.1 (hs ▸ Int.sign_nonneg_iff.2 ha)
      obtain ⟨hq, hr⟩ := (Int.tdiv_tmod_unique ha hb).2 ⟨hsum, hr, by omega⟩
      exact ⟨hq.symm, hr.symm⟩
    · have hr : r ≤ 0 := by
        obtain rfl | hs := hsign
        · exact Int.le_refl 0
        · exact Int.sign_nonpos_iff.1 (hs ▸ Int.sign_nonpos_iff.2 ha)
      obtain ⟨hq, hr⟩ := (Int.tdiv_tmod_unique' ha hb).2 ⟨hsum, by omega, hr⟩
      exact ⟨hq.symm, hr.symm⟩
  · rintro ⟨rfl, rfl⟩
    refine ⟨(Int.mul_tdiv_add_tmod a b).symm, ?_, ?_⟩
    · rw [Int.natAbs_tmod]
      exact Nat.mod_lt _ hpos
    · rw [Int.sign_tmod]
      split
      · exact .inl (Int.tmod_eq_zero_of_dvd ‹_›)
      · exact .inr rfl

/-- The quotient with a remainder that is not negative is rounded toward zero only if the dividend
is not negative or a multiple of the divisor. -/
theorem ediv_eq_tdiv_iff {a b : Int} (hb : b ≠ 0) : a / b = a.tdiv b ↔ 0 ≤ a ∨ b ∣ a := by
  rw [Int.tdiv_eq_ediv]
  split
  · rename_i hround
    exact iff_of_true (Int.add_zero _).symm hround
  · rename_i hround
    have hsign : b.sign ≠ 0 := fun h => hb (Int.sign_eq_zero_iff_zero.1 h)
    exact iff_of_false (by omega) hround

theorem truncated_ediv_iff (hb : b ≠ 0) : Truncated a b (a / b) (a.tmod b) ↔ 0 ≤ a ∨ b ∣ a := by
  rw [truncated_iff hb, ediv_eq_tdiv_iff hb]
  exact and_iff_left rfl

/-- Integers are what they are, `div` leaves a remainder that is not negative, and `$remInt` is the
remainder of a division that rounds toward zero. -/
structure Ivl.Interp.Arithmetic (I : Interp) : Prop where
  int_injective : Function.Injective I.int
  div : ∀ a b, b ≠ 0 → I.binary .div (I.int a) (I.int b) = I.int (a / b)
  rem : ∀ a b, b ≠ 0 → I.apply "$remInt" [I.int a, I.int b] .int = I.int (a.tmod b)

namespace Lower

theorem gives_align_of_ty (hl : l.ty = .ok t) (hr : r.ty = .ok t) {f : Expr × Expr → Lower α} :
    (align l r >>= f).Gives F s q j ↔ (f (l, r)).Gives F s q j := by
  have halign : ∀ q j, (align l r).Gives F s q j ↔ ∃ a, a = (l, r) ∧ q = ⟨a, s, []⟩ ∧ j = [] := by
    simp [align, hl, hr]
  rw [gives_silent_bind halign]
  simp

theorem gives_div_int (hl : l.ty = .ok .int) (hr : r.ty = .ok .int) :
    (binary .div l r).Gives F s q j ↔ q = ⟨.binary .div l r, s, []⟩ ∧ j = [] := by
  simp [binary, gives_align_of_ty hl hr, hl, and_comm]

theorem gives_rem_int (hl : l.ty = .ok .int) (hr : r.ty = .ok .int) :
    (binary .rem l r).Gives F s q j ↔ q = ⟨.apply "$remInt" [l, r] .int, s, []⟩ ∧ j = [] := by
  simp [binary, gives_align_of_ty hl hr, hl, hr, Prelude.coerce_eq_ok, Prelude.convert]

theorem gives_operation (ha : (value a).Gives F s ⟨l, t, code⟩ j)
    (hb : (value b).Gives F t ⟨r, u, code'⟩ j')
    (ho : (binary op l r).Gives F u ⟨e, u, []⟩ []) :
    (value (.binary op a b)).Gives F s ⟨e, u, code ++ code'⟩ (j ++ j') := by
  rw [value]
  refine gives_bind.2 ⟨_, _, _, _, ha, gives_bind.2 ⟨_, _, _, _, hb, ho, rfl, rfl⟩, ?_, ?_⟩
  all_goals simp

end Lower

/-- Wherever two operands are lowered to integers, so are their quotient and their remainder, with
the code of the operands and nothing else. For a divisor that is not zero the remainder is the one
that the source has. The quotient is, and the two belong together, if and only if the dividend is
not negative or a multiple of the divisor. -/
theorem Lower.value_division (ha : (value a).Gives F s ⟨l, t, code⟩ j) (hl : l.ty = .ok .int)
    (hb : (value b).Gives F t ⟨r, u, code'⟩ j') (hr : r.ty = .ok .int) :
    ∃ quotient remainder,
      (value (.binary .div a b)).Gives F s ⟨quotient, u, code ++ code'⟩ (j ++ j') ∧
      (value (.binary .rem a b)).Gives F s ⟨remainder, u, code ++ code'⟩ (j ++ j') ∧
      ∀ (I : Interp) (σ : I.State) x y, I.Arithmetic → l.eval I σ = I.int x →
        r.eval I σ = I.int y → y ≠ 0 →
        ∃ k n, quotient.eval I σ = I.int k ∧ remainder.eval I σ = I.int n ∧
          Truncated x y (x.tdiv y) n ∧ (k = x.tdiv y ↔ 0 ≤ x ∨ y ∣ x) ∧
          (Truncated x y k n ↔ 0 ≤ x ∨ y ∣ x) := by
  refine ⟨_, _, gives_operation ha hb ((gives_div_int hl hr).2 ⟨rfl, rfl⟩),
    gives_operation ha hb ((gives_rem_int hl hr).2 ⟨rfl, rfl⟩), ?_⟩
  intro I σ x y hI hx hy hne
  refine ⟨x / y, x.tmod y, ?_, ?_, (truncated_iff hne).2 ⟨rfl, rfl⟩, ediv_eq_tdiv_iff hne,
    truncated_ediv_iff hne⟩
  · rw [Expr.eval, hx, hy, hI.div x y hne]
  · rw [Expr.eval, Expr.evalAll, Expr.evalAll, Expr.evalAll, hx, hy, hI.rem x y hne]

def halving : Program := .declaring [
  .addClass "Halving",
  .addMethod 3 { name := "split", isStatic := true }] (by decide +kernel)

def halvingBody : Body where
  method := 0
  slots := [⟨"q", .int⟩, ⟨"r", .int⟩]
  nodes := [
    { instr := .assign (.slot 0) (.binary .div (.constant (.int (-7))) (.constant (.int 2))) },
    { instr := .assign (.slot 1) (.binary .rem (.constant (.int (-7))) (.constant (.int 2))) },
    { instr := .retVoid }]
  sound := by decide

def halvingSession : Session := Session.start (.ofProgram halving) .standard {}

/-- Free values with the division of integers and the remainder that rounds toward zero. -/
noncomputable abbrev Ivl.Interp.exact : Interp :=
  { Interp.free with
    binary
      | .div, .int a, .int b => .int (a / b)
      | op, a, b => Interp.free.binary op a b
    apply
      | "$remInt", [.int a, .int b], _ => .int (a.tmod b)
      | f, args, ty => Interp.free.apply f args ty
    holds_eq := Interp.free.holds_eq
    holds_neq := Interp.free.holds_neq
    holds_and := Interp.free.holds_and
    holds_or := Interp.free.holds_or }

theorem Ivl.Interp.arithmetic_exact : Interp.exact.Arithmetic where
  int_injective _ _ := Free.int.inj
  div _ _ _ := rfl
  rem _ _ _ := rfl

/-- The constants of the body where its first node is lowered: the remainder is the right one, and
the quotient is one too small. -/
theorem value_division_halving :
    ∃ (low : Lowered) (F : Frame) (t : Scratch) (quotient remainder : Expr),
      F = halvingSession.frame halvingBody halving.methods[0] low ∧ Lower.Reaches F 0 0 t ∧
      (Lower.value (.binary .div (.constant (.int (-7))) (.constant (.int 2)))).Gives F t
        ⟨quotient, t, []⟩ [] ∧
      (Lower.value (.binary .rem (.constant (.int (-7))) (.constant (.int 2)))).Gives F t
        ⟨remainder, t, []⟩ [] ∧
      Interp.exact.Arithmetic ∧
      ∃ k n, quotient.eval Interp.exact Free.name = .int k ∧
        remainder.eval Interp.exact Free.name = .int n ∧ Truncated (-7) 2 (-3) n ∧ k ≠ -3 ∧
        ¬ Truncated (-7) 2 k n := by
  obtain ⟨i, hi⟩ :=
    exists_of_isOk (x := (halvingSession.lower halvingBody).1) (by decide +kernel)
  obtain ⟨low, j, hlow, -, -⟩ := Session.lower_result hi
  obtain ⟨caller, hcaller, hat⟩ := lowerBody_node hlow
  cases hcaller
  obtain ⟨t, r, j', ht, -⟩ := hat 0 _ rfl
  obtain ⟨quotient, remainder, hq, hr, heval⟩ := Lower.value_division
    (a := .constant (.int (-7))) (b := .constant (.int 2))
    (F := halvingSession.frame halvingBody halving.methods[0] low) (s := t)
    (Lower.gives_pure.2 ⟨rfl, rfl⟩) rfl (Lower.gives_pure.2 ⟨rfl, rfl⟩) rfl
  obtain ⟨k, n, hk, hn, hrem, hquot, hboth⟩ :=
    heval Interp.exact Free.name (-7) 2 Interp.arithmetic_exact rfl rfl (by decide)
  have hneg : ¬ ((0 : Int) ≤ -7 ∨ (2 : Int) ∣ -7) := by decide
  exact ⟨low, _, t, quotient, remainder, rfl, ht, hq, hr, Interp.arithmetic_exact, k, n, hk, hn,
    hrem, fun h => hneg (hquot.1 h), fun h => hneg (hboth.1 h)⟩

/-- The implementation of the body assigns the two operations. With arithmetic as it is, the
quotient of `-7` by `2` is `-4`, and with the remainder `-1` it does not make up the dividend. -/
theorem halving_rounds_down : ∃ i, (halvingSession.lower halvingBody).1 = .ok i ∧
    i.body.filterMap (fun | .assign x e => some (x.name, e) | _ => none) =
      [("$exception", Prelude.null.expr), ("q", .binary .div (.int (-7)) (.int 2)),
        ("r", .apply "$remInt" [.int (-7), .int 2] .int)] ∧
    ∀ (I : Interp) (σ : I.State), I.Arithmetic →
      (Expr.binary .div (.int (-7)) (.int 2)).eval I σ = I.int (-4) ∧
      (Expr.apply "$remInt" [.int (-7), .int 2] .int).eval I σ = I.int (-1) ∧
      I.int (-4) ≠ I.int (Int.tdiv (-7) 2) ∧ (-7 : Int) ≠ 2 * (-4) + (-1) := by
  have hcode : (halvingSession.lower halvingBody).1.toOption.map (fun i =>
      i.body.filterMap fun | .assign x e => some (x.name, e) | _ => none) =
      some [("$exception", Prelude.null.expr), ("q", .binary .div (.int (-7)) (.int 2)),
        ("r", .apply "$remInt" [.int (-7), .int 2] .int)] := by
    decide +kernel
  obtain ⟨i, hi, hassigned⟩ := exists_of_toOption_map hcode
  refine ⟨i, hi, hassigned, fun I σ hI => ?_⟩
  refine ⟨hI.div _ _ (by decide), hI.rem _ _ (by decide), fun h => ?_, by decide⟩
  exact absurd (hI.int_injective h) (by decide)

end Verilower
