import Verilower.Proofs.Ivl.Renaming
import Verilower.Proofs.LocalNames
import Verilower.Proofs.Lowering.Signature
import Verilower.Proofs.Lowering.Sources

namespace Verilower
set_option autoImplicit true

open Ivl (Ident Expr Scope Procedure)

def globalPrefix : List Char := ['$', 'f', 'r', 'e', 's', 'h', 'g', 'l', 'o', 'b', 'a', 'l', '_']

theorem globalIdent_toList :
    (globalIdent n ty).name.toList = globalPrefix ++ Nat.toDigits 10 n := by
  have hp : "$freshglobal_".toList = globalPrefix := by decide
  rw [globalIdent, String.toList_append, hp, Nat.toString_eq_ofList_toDigits, String.toList_ofList]

def globalIndex? (x : Ident) : Option Nat :=
  let n := Nat.ofDigitChars 10 (x.name.toList.drop globalPrefix.length) 0
  if globalIdent n x.ty = x then some n else none

theorem globalIndex?_eq_some : globalIndex? x = some n ↔ globalIdent n x.ty = x := by
  constructor
  · intro h
    unfold globalIndex? at h
    dsimp only at h
    split at h
    · obtain rfl := Option.some.inj h
      assumption
    · cases h
  · intro h
    have hn : Nat.ofDigitChars 10 (x.name.toList.drop globalPrefix.length) 0 = n := by
      rw [← h, globalIdent_toList, List.drop_left, Nat.ofDigitChars_ten_toDigits]
    simp only [globalIndex?, hn, h, if_true]

/-- Moves the numbers of global variables from `k₁` on to those from `k₂` on. -/
def shift (k₁ k₂ : Nat) (x : Ident) : Ident :=
  match globalIndex? x with
  | some n => if k₁ ≤ n then globalIdent (k₂ + (n - k₁)) x.ty else x
  | none => x

theorem shift_globalIdent : shift k₁ k₂ (globalIdent (k₁ + i) ty) = globalIdent (k₂ + i) ty := by
  have hn : globalIndex? (globalIdent (k₁ + i) ty) = some (k₁ + i) := globalIndex?_eq_some.2 rfl
  simp only [shift, hn, Nat.le_add_right, if_true, Nat.add_sub_cancel_left]
  rfl

/-- The renaming concerns global variables only. -/
def MovesGlobals (ρ : Ident → Ident) : Prop := ∀ x, (∀ n, globalIdent n x.ty ≠ x) → ρ x = x

theorem movesGlobals_shift : MovesGlobals (shift k₁ k₂) := by
  intro x hx
  unfold shift
  split
  · exact absurd (globalIndex?_eq_some.1 ‹_›) (hx _)
  · rfl

section Names

variable {ρ : Ident → Ident} (hρ : MovesGlobals ρ)
include hρ

theorem MovesGlobals.of_prefix (h : ¬ globalPrefix <+: x.name.toList) : ρ x = x := by
  refine hρ x fun n hn => h ?_
  rw [← hn, globalIdent_toList]
  exact List.prefix_append _ _

theorem MovesGlobals.of_mem (h : c ∈ x.name.toList) (hp : c ∉ globalPrefix)
    (hd : c.isDigit = false) : ρ x = x := by
  refine hρ x fun n hn => ?_
  rw [← hn, globalIdent_toList] at h
  obtain h | h := List.mem_append.1 h
  · exact hp h
  · simp [Nat.isDigit_of_mem_toDigits (by decide) (by decide) h] at hd

theorem MovesGlobals.tag (h : Program.tag p ty = .ok x) : ρ x = x := by
  obtain ⟨name, hn, h₁⟩ := except_bind_eq_ok.1 h
  obtain ⟨f, -, h₂⟩ := except_bind_eq_ok.1 hn
  cases h₁
  cases h₂
  refine hρ.of_prefix ?_
  rw [String.toList_append, show "$type_".toList = ['$', 't', 'y', 'p', 'e', '_'] by decide]
  simp [globalPrefix]

theorem MovesGlobals.field {i : FieldId} (h : Program.fieldIdent p i = .ok x) : ρ x = x := by
  exact hρ.of_mem (Program.dot_mem_fieldIdent h) (by decide) (by decide)

theorem MovesGlobals.vocabulary (h : x ∈ Prelude.vocabulary) : ρ x = x := by
  have hnames : ∀ x ∈ Prelude.vocabulary, ¬ globalPrefix <+: x.name.toList := by decide
  exact hρ.of_prefix (hnames x h)

theorem MovesGlobals.null : ρ Prelude.null = Prelude.null :=
  hρ.vocabulary (by simp [Prelude.vocabulary])

theorem MovesGlobals.heap : ρ Prelude.heap = Prelude.heap :=
  hρ.vocabulary (by simp [Prelude.vocabulary, Prelude.globals])

theorem MovesGlobals.alloc : ρ Prelude.alloc = Prelude.alloc :=
  hρ.vocabulary (by simp [Prelude.vocabulary])

theorem MovesGlobals.typeField : ρ Prelude.typeField = Prelude.typeField :=
  hρ.vocabulary (by simp [Prelude.vocabulary])

theorem MovesGlobals.encoding (h : ρ enc.slot = enc.slot) : Encoding.Fixed ρ enc where
  flag := hρ.of_prefix (by decide)
  slot := h
  witness v := hρ.of_prefix (by cases v <;> decide)

theorem MovesGlobals.param {index : Nat} (h : x.name = "$in_parameter__" ++ toString index) :
    ρ x = x := by
  have hp : "$in_parameter__".toList = ['$', 'i'] ++ "n_parameter__".toList := by decide
  refine hρ.of_prefix ?_
  rw [h, String.toList_append, hp]
  simp [globalPrefix]

end Names

theorem ofSlots_vars {slots : List Slot} (h : LocalPool.ofSlots slots = .ok pool)
    (hx : x ∈ pool.vars) : (∃ c cs, x.name.toList = c :: cs ∧ c ≠ '$') ∧
      ∃ slot ∈ slots, slot.ty.lowered = .ok x.ty := by
  obtain ⟨tys, htys, h₁⟩ := except_bind_eq_ok.1 h
  cases h₁
  simp only [LocalPool.vars, List.append_nil] at hx
  obtain ⟨i, hi⟩ := List.mem_iff_getElem?.1 hx
  obtain ⟨name, ty, hn, hty, rfl⟩ := List.getElem?_zipWith_eq_some.1 hi
  exact ⟨slotNames_head name (List.mem_of_getElem? hn),
    mem_of_mapM_eq_ok htys (List.mem_of_getElem? hty)⟩

theorem MovesGlobals.slots {slots : List Slot} (hρ : MovesGlobals ρ)
    (h : LocalPool.ofSlots slots = .ok pool)
    (hx : x ∈ pool.vars) : ρ x = x := by
  obtain ⟨⟨c, cs, hc, hne⟩, -⟩ := ofSlots_vars h hx
  refine hρ.of_prefix ?_
  simp [hc, globalPrefix, hne.symm]

theorem MovesGlobals.stable (hρ : MovesGlobals ρ) :
    LocalPool.Stable fun pool => ∀ x ∈ pool.vars, ρ x = x := by
  intro pool ty h x hx
  simp only [LocalPool.vars, LocalPool.fresh, List.mem_append, List.mem_singleton] at h hx
  obtain hx | hx | rfl := hx
  · exact h x (.inl hx)
  · exact h x (.inr hx)
  · have hp : "$fakelocal_".toList = ['$', 'f', 'a'] ++ "kelocal_".toList := by decide
    refine hρ.of_prefix ?_
    rw [String.toList_append, hp]
    simp [globalPrefix]

section Prelude

variable {ρ : Ident → Ident} (hρ : MovesGlobals ρ) {q : Prelude}
  (hq : ∀ f ∈ q.procedures, f.rename ρ = f)
include hρ hq

theorem Signature.Built.rename_procedure (h : Built p q i sig j) :
    sig.procedure.rename ρ = sig.procedure := by
  cases h with
  | adopted _ _ hfind ha =>
    rw [ha.procedure]
    exact hq _ (List.mem_of_find?_eq_some hfind)
  | declared hm hn hfind hnr hps hr hs =>
    rename_i m n out statics ps
    have hparam : ∀ x ∈ ps, ρ x = x := by
      intro x hx
      obtain ⟨⟨ty, index⟩, -, hp⟩ := mem_of_mapM_eq_ok hps hx
      exact hρ.param (name_of_param hp)
    have hreturn : ∀ x, out = some x → ρ x = x := by
      rintro x rfl
      exact hρ.of_prefix (by rw [name_of_resultOf hr]; decide)
    have hthis : ∀ x, receiverIdent m = some x → ρ x = x := by
      intro x hx
      unfold receiverIdent at hx
      split at hx <;> cases hx
      exact hρ.of_prefix (by decide)
    have hexception : ρ ⟨"$exception", .ref⟩ = ⟨"$exception", .ref⟩ := hρ.of_prefix (by decide)
    have hglobal : ∀ x ∈ Prelude.globals, ρ x = x := fun x hx =>
      hρ.vocabulary (List.mem_append_right _ hx)
    have hstatic : ∀ x ∈ statics, ρ x = x := fun x hx =>
      have ⟨_, _, _, _, _, hi⟩ := hs.mem_iff.1 hx
      hρ.field hi
    have hnonNull : ∀ x, ρ x = x → (Prelude.isNonNull x.expr).Within (.fixed ρ) := fun x hx =>
      ⟨hx, hρ.null⟩
    refine Procedure.rename_eq_iff.2 ⟨fun x hx => ?_, fun c hc => ?_⟩
    · simp only [Signature.declared, List.mem_append, Option.mem_toList,
        List.mem_singleton] at hx
      obtain ((hx | hx) | (hx | rfl)) | (hx | hx) := hx
      · exact hthis x hx
      · exact hparam x hx
      · exact hreturn x hx
      · exact hexception
      · exact hglobal x hx
      · exact hstatic x hx
    · obtain hc | hc := List.mem_append.1 hc
      · obtain ⟨x, hx, hf⟩ := formula_of_requires hc
        exact hf ▸ hnonNull x (hparam x hx)
      · obtain ⟨x, hx, hf⟩ := formula_of_ensures hc
        exact hf ▸ hnonNull x (hreturn x hx)

theorem Signature.Built.formal_fixed (h : Built p q i sig j) (hx : x ∈ sig.formals) : ρ x = x := by
  have hall := (Procedure.rename_eq_iff.1 (h.rename_procedure hρ hq)).1
  refine hall x (List.mem_append_left _ (List.mem_append_left _ ?_))
  rwa [h.ins_eq]

theorem Signature.Built.out_fixed (h : Built p q i sig j)
    (hx : x ∈ sig.result.toList ++ [sig.exception]) : ρ x = x := by
  have hall := (Procedure.rename_eq_iff.1 (h.rename_procedure hρ hq)).1
  refine hall x (List.mem_append_left _ (List.mem_append_right _ ?_))
  rwa [h.outs_eq]

theorem Signature.Built.checked_fixed (h : Built p q i sig j)
    (he : e ∈ sig.procedure.checked kind) : e.Within (.fixed ρ) := by
  obtain ⟨c, hc, rfl⟩ := List.mem_map.1 he
  exact (Procedure.rename_eq_iff.1 (h.rename_procedure hρ hq)).2 c (List.mem_filter.1 hc).1

end Prelude

section Frame

variable {ρ : Ident → Ident} (hρ : MovesGlobals ρ) {F : Frame}
  (hq : ∀ f ∈ F.prelude.procedures, f.rename ρ = f)
include hρ hq

/-- The fixed variables are a scope for all of a frame whose prelude is left alone. -/
theorem MovesGlobals.covers (hb : Signature.Built F.program F.prelude i F.signature j) :
    (Scope.fixed ρ).Covers F where
  vocabulary x hx := hρ.vocabulary hx
  function _ _ _ _ _ _ := trivial
  formal x hx := hb.formal_fixed hρ hq hx
  result x hx := hb.out_fixed hρ hq (by simp [hx])
  exception := hb.out_fixed hρ hq (by simp)
  postcondition e he := hb.checked_fixed hρ hq he

theorem MovesGlobals.knows (h : ∀ x, e ≠ Event.global x) : (Scope.fixed ρ).Knows F e := by
  cases e with
  | tag ty => exact fun τ hτ => hρ.tag hτ
  | field i => exact fun x hx => hρ.field hx
  | global x => exact absurd rfl (h x)
  | signature m =>
    intro sig hs
    refine ⟨trivial, fun actuals _ ha e he => ?_⟩
    have hb := Signature.build_gives (Trace.gives_of_result hs)
    refine Expr.Within.substitute Scope.loose_fixed (fun x a hx => ?_) (hb.checked_fixed hρ hq he)
    exact ha a (List.of_mem_zip (Ivl.Subst.mem_of_ofPairs hx)).2
  | label | diagnostic | log => trivial

end Frame

end Verilower
