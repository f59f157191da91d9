import Verilower.Proofs.Lowering.Encoding

namespace Verilower
set_option autoImplicit true

namespace Ivl

structure Scope where
  ident : Ident → Prop
  /-- Applications by their arguments and the type of the result. -/
  function : String → List Expr → Ty → Prop
  procedure : String → Prop

mutual

/-- The expression mentions only what is in the scope. -/
def Expr.Within (S : Scope) : Expr → Prop
  | .ident x => S.ident x
  | .bool _ | .int _ | .real _ => True
  | .binary _ lhs rhs => lhs.Within S ∧ rhs.Within S
  | .unary _ arg => arg.Within S
  | .select map indices => map.Within S ∧ Expr.AllWithin S indices
  | .store map indices value => map.Within S ∧ Expr.AllWithin S indices ∧ value.Within S
  | .apply function args result => S.function function args result ∧ Expr.AllWithin S args

def Expr.AllWithin (S : Scope) : List Expr → Prop
  | [] => True
  | e :: es => e.Within S ∧ Expr.AllWithin S es

end

mutual

def Stmt.Within (S : Scope) : Stmt → Prop
  | .assign x e => S.ident x ∧ e.Within S
  | .assert e | .assume e => e.Within S
  | .havoc xs => ∀ x ∈ xs, S.ident x
  | .label _ | .goto _ | .ret => True
  | .ite c t e => c.Within S ∧ Stmt.AllWithin S t ∧ Stmt.AllWithin S e
  | .call procedure args outs =>
    S.procedure procedure ∧ Expr.AllWithin S args ∧ ∀ x ∈ outs, S.ident x

def Stmt.AllWithin (S : Scope) : List Stmt → Prop
  | [] => True
  | s :: ss => s.Within S ∧ Stmt.AllWithin S ss

end

variable {S : Scope}

theorem Expr.allWithin_iff : Expr.AllWithin S es ↔ ∀ e ∈ es, e.Within S := by
  induction es with
  | nil => simp [Expr.AllWithin]
  | cons e es ih => simp [Expr.AllWithin, ih]

theorem Stmt.allWithin_iff : Stmt.AllWithin S ss ↔ ∀ s ∈ ss, s.Within S := by
  induction ss with
  | nil => simp [Stmt.AllWithin]
  | cons s ss ih => simp [Stmt.AllWithin, ih]

theorem Stmt.allWithin_append : Stmt.AllWithin S (ss ++ ts) ↔
    Stmt.AllWithin S ss ∧ Stmt.AllWithin S ts := by
  simp only [Stmt.allWithin_iff, List.mem_append, or_imp, forall_and]

@[simp] theorem Expr.within_ident : (Ident.expr x).Within S ↔ S.ident x := Iff.rfl

@[simp] theorem Expr.within_eq : (Expr.eq a b).Within S ↔ a.Within S ∧ b.Within S := Iff.rfl

@[simp] theorem Expr.within_neq : (Expr.neq a b).Within S ↔ a.Within S ∧ b.Within S := Iff.rfl

@[simp] theorem Expr.within_and : (Expr.and a b).Within S ↔ a.Within S ∧ b.Within S := Iff.rfl

@[simp] theorem Expr.within_or : (Expr.or a b).Within S ↔ a.Within S ∧ b.Within S := Iff.rfl

@[simp] theorem Expr.within_subtype : (Expr.subtype a b).Within S ↔ a.Within S ∧ b.Within S :=
  Iff.rfl

@[simp] theorem Expr.within_not : (Expr.not a).Within S ↔ a.Within S := Iff.rfl

/-- Whether an application is in the scope does not depend on its arguments. -/
def Scope.Loose (S : Scope) : Prop := ∀ f as bs ty, S.function f as ty → S.function f bs ty

mutual

theorem Expr.Within.substitute {σ : Subst} (hf : S.Loose)
    (hσ : ∀ x e, σ x = some e → e.Within S) :
    ∀ {e : Expr}, e.Within S → (e.substitute σ).Within S
  | .ident x, h => by
    rw [Expr.substitute]
    cases hx : σ x with
    | none => exact h
    | some e => exact hσ x e hx
  | .bool _, h | .int _, h | .real _, h => h
  | .binary _ _ _, h => ⟨Expr.Within.substitute hf hσ h.1, Expr.Within.substitute hf hσ h.2⟩
  | .unary _ arg, h => Expr.Within.substitute hf hσ (e := arg) h
  | .select _ _, h => ⟨Expr.Within.substitute hf hσ h.1, Expr.AllWithin.substitute hf hσ h.2⟩
  | .store _ _ _, h =>
    ⟨Expr.Within.substitute hf hσ h.1, Expr.AllWithin.substitute hf hσ h.2.1,
      Expr.Within.substitute hf hσ h.2.2⟩
  | .apply _ _ _, h => ⟨hf _ _ _ _ h.1, Expr.AllWithin.substitute hf hσ h.2⟩

theorem Expr.AllWithin.substitute {σ : Subst} (hf : S.Loose)
    (hσ : ∀ x e, σ x = some e → e.Within S) :
    ∀ {es : List Expr}, Expr.AllWithin S es → Expr.AllWithin S (Expr.substituteAll σ es)
  | [], _ => trivial
  | _ :: _, h => ⟨Expr.Within.substitute hf hσ h.1, Expr.AllWithin.substitute hf hσ h.2⟩

end

theorem Subst.mem_of_ofPairs {pairs : List (Ident × Expr)} (h : Subst.ofPairs pairs x = some e) :
    (x, e) ∈ pairs := by
  have key : ∀ (found : Option Expr), pairs.foldl
      (fun found pair => if pair.1 = x then some pair.2 else found) found = some e →
      found = some e ∨ (x, e) ∈ pairs := by
    clear h
    induction pairs with
    | nil => exact fun found h => .inl h
    | cons pair pairs ih =>
      intro found h
      obtain h | h := ih _ h
      · dsimp only at h
        split at h
        · rename_i hx
          cases h
          exact .inr (hx ▸ List.mem_cons_self)
        · exact .inl h
      · exact .inr (List.mem_cons_of_mem _ h)
  obtain h | h := key none h
  · cases h
  · exact h

theorem Subst.exists_of_mem {pairs : List (Ident × Expr)} (h : (x, e) ∈ pairs) :
    ∃ e', Subst.ofPairs pairs x = some e' := by
  have key : ∀ (found : Option Expr), (found.isSome ∨ ∃ e, (x, e) ∈ pairs) → (pairs.foldl
      (fun found pair => if pair.1 = x then some pair.2 else found) found).isSome := by
    clear h
    induction pairs with
    | nil => simp
    | cons pair pairs ih =>
      intro found h
      apply ih
      by_cases hx : pair.1 = x
      · exact .inl (by simp [hx])
      · obtain h | ⟨e, he⟩ := h
        · exact .inl (by simpa [hx] using h)
        · obtain rfl | he := List.mem_cons.1 he
          · exact absurd rfl hx
          · exact .inr ⟨e, he⟩
  exact Option.isSome_iff_exists.1 (key none (.inr ⟨e, h⟩))

end Ivl

open Ivl

mutual

def Outline.Within (S : Scope) : Outline → Prop
  | .plain s => s.Within S
  | .oblige o => ∀ e, o.guard = some e → e.Within S
  | .when c body => c.Within S ∧ Outline.AllWithin S body

def Outline.AllWithin (S : Scope) : List Outline → Prop
  | [] => True
  | o :: os => o.Within S ∧ Outline.AllWithin S os

end

variable {S : Scope}

theorem Outline.allWithin_iff : Outline.AllWithin S os ↔ ∀ o ∈ os, o.Within S := by
  induction os with
  | nil => simp [Outline.AllWithin]
  | cons o os ih => simp [Outline.AllWithin, ih]

@[simp] theorem Outline.allWithin_nil : Outline.AllWithin S [] := trivial

@[simp] theorem Outline.allWithin_cons :
    Outline.AllWithin S (o :: os) ↔ o.Within S ∧ Outline.AllWithin S os := Iff.rfl

@[simp] theorem Outline.allWithin_append : Outline.AllWithin S (os ++ ps) ↔
    Outline.AllWithin S os ∧ Outline.AllWithin S ps := by
  simp only [Outline.allWithin_iff, List.mem_append, or_imp, forall_and]

@[simp] theorem Outline.within_plain : (Outline.plain s).Within S ↔ s.Within S := Iff.rfl

@[simp] theorem Outline.within_oblige :
    (Outline.oblige ⟨v, some e⟩).Within S ↔ e.Within S := by
  simp [Outline.Within]

@[simp] theorem Outline.within_when :
    (Outline.when c body).Within S ↔ c.Within S ∧ Outline.AllWithin S body := Iff.rfl

namespace Encoding

variable {enc : Encoding} {o : Obligation}

theorem within_raise (hflag : S.ident LocalPool.flag) (hslot : S.ident enc.slot)
    (hw : S.ident (Prelude.witness v)) : Stmt.AllWithin S (enc.raise v) :=
  ⟨⟨hflag, trivial⟩, ⟨hslot, hw⟩, trivial, trivial⟩

theorem within_obligation (ho : ∀ e, o.guard = some e → e.Within S)
    (hflag : enc.flags o = true → S.ident LocalPool.flag) (hslot : S.ident enc.slot)
    (hw : ∀ v, S.ident (Prelude.witness v)) : Stmt.AllWithin S (enc.obligation o) := by
  unfold obligation
  split
  · trivial
  · rename_i hd
    split
    · rename_i e hm hg
      have hraise := within_raise (hflag (by simp [flags, hm, hd])) hslot (hw o.violation)
      exact ⟨⟨ho e hg, hraise, trivial⟩, trivial⟩
    · rename_i hm hg
      exact within_raise (hflag (by simp [flags, hm, hd])) hslot (hw o.violation)
    · rename_i e _ hg
      exact ⟨ho e hg, trivial⟩
    · exact ⟨trivial, trivial⟩

mutual

theorem within_encode (hslot : S.ident enc.slot) (hw : ∀ v, S.ident (Prelude.witness v)) :
    ∀ {o : Outline}, o.Within S → (enc.raises o = true → S.ident LocalPool.flag) →
      Stmt.AllWithin S (enc.encode o)
  | .plain _, h, _ => ⟨h, trivial⟩
  | .oblige _, h, hflag => within_obligation h hflag hslot hw
  | .when _ _, h, hflag => ⟨⟨h.1, within_encodeAll hslot hw h.2 hflag, trivial⟩, trivial⟩

theorem within_encodeAll (hslot : S.ident enc.slot) (hw : ∀ v, S.ident (Prelude.witness v)) :
    ∀ {os : List Outline}, Outline.AllWithin S os →
      (enc.raisesAny os = true → S.ident LocalPool.flag) → Stmt.AllWithin S (enc.encodeAll os)
  | [], _, _ => trivial
  | o :: os, h, hflag => by
    have ho := within_encode hslot hw h.1 fun hr => hflag (by simp [raisesAny, hr])
    have hos := within_encodeAll hslot hw h.2 fun hr => hflag (by simp [raisesAny, hr])
    exact Stmt.allWithin_append.2 ⟨ho, hos⟩

end

end Encoding

end Verilower
