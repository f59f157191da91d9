import Verilower.Proofs.Ivl.Scope

namespace Verilower
set_option autoImplicit true

namespace Ivl

def Expr.rename (ρ : Ident → Ident) (e : Expr) : Expr := e.substitute fun x => some (.ident (ρ x))

def Expr.renameAll (ρ : Ident → Ident) (es : List Expr) : List Expr :=
  Expr.substituteAll (fun x => some (.ident (ρ x))) es

mutual

def Stmt.rename (ρ : Ident → Ident) : Stmt → Stmt
  | .assign x e => .assign (ρ x) (e.rename ρ)
  | .assert e => .assert (e.rename ρ)
  | .assume e => .assume (e.rename ρ)
  | .havoc xs => .havoc (xs.map ρ)
  | .label l => .label l
  | .goto ls => .goto ls
  | .ite c t e => .ite (c.rename ρ) (Stmt.renameAll ρ t) (Stmt.renameAll ρ e)
  | .call p args outs => .call p (Expr.renameAll ρ args) (outs.map ρ)
  | .ret => .ret

def Stmt.renameAll (ρ : Ident → Ident) : List Stmt → List Stmt
  | [] => []
  | s :: ss => s.rename ρ :: Stmt.renameAll ρ ss

end

def Procedure.rename (ρ : Ident → Ident) (p : Procedure) : Procedure where
  name := p.name
  ins := p.ins.map ρ
  outs := p.outs.map ρ
  modifies := p.modifies.map ρ
  clauses := p.clauses.map fun c => { c with formula := c.formula.rename ρ }

def Implementation.rename (ρ : Ident → Ident) (i : Implementation) : Implementation where
  procedure := i.procedure.rename ρ
  locals := i.locals.map ρ
  body := Stmt.renameAll ρ i.body

/-- The scope of the variables that a renaming leaves alone. -/
def Scope.fixed (ρ : Ident → Ident) : Scope where
  ident x := ρ x = x
  function _ _ _ := True
  procedure _ := True

theorem Scope.loose_fixed : (Scope.fixed ρ).Loose := fun _ _ _ _ _ => trivial

section

variable {ρ : Ident → Ident}

@[simp] theorem Expr.rename_ident : (Expr.ident x).rename ρ = .ident (ρ x) := rfl

@[simp] theorem Expr.rename_expr : (Ident.expr x).rename ρ = (ρ x).expr := rfl

@[simp] theorem Expr.rename_bool : (Expr.bool b).rename ρ = .bool b := rfl

@[simp] theorem Expr.rename_int : (Expr.int i).rename ρ = .int i := rfl

@[simp] theorem Expr.rename_real : (Expr.real r).rename ρ = .real r := rfl

@[simp] theorem Expr.rename_binary :
    (Expr.binary op l r).rename ρ = .binary op (l.rename ρ) (r.rename ρ) := rfl

@[simp] theorem Expr.rename_unary : (Expr.unary op e).rename ρ = .unary op (e.rename ρ) := rfl

@[simp] theorem Expr.rename_select :
    (Expr.select m is).rename ρ = .select (m.rename ρ) (Expr.renameAll ρ is) := rfl

@[simp] theorem Expr.rename_store : (Expr.store m is v).rename ρ =
    .store (m.rename ρ) (Expr.renameAll ρ is) (v.rename ρ) := rfl

@[simp] theorem Expr.rename_apply :
    (Expr.apply f args t).rename ρ = .apply f (Expr.renameAll ρ args) t := rfl

@[simp] theorem Expr.renameAll_nil : Expr.renameAll ρ [] = [] := rfl

@[simp] theorem Expr.renameAll_cons :
    Expr.renameAll ρ (e :: es) = e.rename ρ :: Expr.renameAll ρ es := rfl

end

mutual

theorem Expr.rename_eq_iff : ∀ {e : Expr}, e.rename ρ = e ↔ e.Within (.fixed ρ)
  | .ident x => by simp [Expr.Within, Scope.fixed]
  | .bool _ | .int _ | .real _ => by simp [Expr.Within]
  | .binary _ l r => by simp [Expr.Within, Expr.rename_eq_iff (e := l), Expr.rename_eq_iff (e := r)]
  | .unary _ e => by simp [Expr.Within, Expr.rename_eq_iff (e := e)]
  | .select m is => by simp [Expr.Within, Expr.rename_eq_iff (e := m), Expr.renameAll_eq_iff is]
  | .store m is v => by
    simp [Expr.Within, Expr.rename_eq_iff (e := m), Expr.renameAll_eq_iff is,
      Expr.rename_eq_iff (e := v)]
  | .apply _ args _ => by
    simp only [Expr.rename_apply, Expr.apply.injEq, Expr.renameAll_eq_iff args, Expr.Within]
    simp [Scope.fixed]

theorem Expr.renameAll_eq_iff :
    ∀ es : List Expr, Expr.renameAll ρ es = es ↔ Expr.AllWithin (.fixed ρ) es
  | [] => by simp [Expr.AllWithin]
  | e :: es => by simp [Expr.AllWithin, Expr.rename_eq_iff (e := e), Expr.renameAll_eq_iff es]

end

theorem map_eq_self_iff {f : α → α} {xs : List α} : xs.map f = xs ↔ ∀ x ∈ xs, f x = x := by
  simpa using List.map_inj_left (l := xs) (f := f) (g := id)

mutual

theorem Stmt.Within.rename : ∀ {s : Stmt}, s.Within (.fixed ρ) → s.rename ρ = s
  | .assign x e, h => by rw [Stmt.rename, Expr.rename_eq_iff.2 h.2, show ρ x = x from h.1]
  | .assert e, h | .assume e, h => by rw [Stmt.rename, Expr.rename_eq_iff.2 h]
  | .havoc xs, h => by rw [Stmt.rename, map_eq_self_iff.2 h]
  | .label _, _ | .goto _, _ | .ret, _ => rfl
  | .ite c t e, h => by
    rw [Stmt.rename, Expr.rename_eq_iff.2 h.1, Stmt.AllWithin.rename h.2.1,
      Stmt.AllWithin.rename h.2.2]
  | .call p args outs, h => by
    rw [Stmt.rename, (Expr.renameAll_eq_iff args).2 h.2.1, map_eq_self_iff.2 h.2.2]

theorem Stmt.AllWithin.rename :
    ∀ {ss : List Stmt}, Stmt.AllWithin (.fixed ρ) ss → Stmt.renameAll ρ ss = ss
  | [], _ => rfl
  | s :: ss, h => by rw [Stmt.renameAll, Stmt.Within.rename h.1, Stmt.AllWithin.rename h.2]

end

theorem Stmt.renameAll_append {ss ts : List Stmt} :
    Stmt.renameAll ρ (ss ++ ts) = Stmt.renameAll ρ ss ++ Stmt.renameAll ρ ts := by
  induction ss with
  | nil => rfl
  | cons s ss ih => simp [Stmt.renameAll, ih]

theorem Procedure.rename_eq_iff {p : Procedure} : p.rename ρ = p ↔
    (∀ x ∈ p.ins ++ p.outs ++ p.modifies, ρ x = x) ∧
      ∀ c ∈ p.clauses, c.formula.Within (.fixed ρ) := by
  obtain ⟨name, ins, outs, modifies, clauses⟩ := p
  have hc : (∀ c ∈ clauses, { c with formula := c.formula.rename ρ } = c) ↔
      ∀ c ∈ clauses, c.formula.Within (.fixed ρ) := by
    refine forall₂_congr fun c _ => ?_
    obtain ⟨contract, free, formula⟩ := c
    rw [← Expr.rename_eq_iff, Clause.mk.injEq]
    simp
  simp only [Procedure.rename, Procedure.mk.injEq, true_and, map_eq_self_iff, hc, List.mem_append,
    or_imp, forall_and, and_assoc]

end Ivl

open Ivl

mutual

def Outline.rename (ρ : Ident → Ident) : Outline → Outline
  | .plain s => .plain (s.rename ρ)
  | .oblige o => .oblige { o with guard := o.guard.map (Expr.rename ρ) }
  | .when c body => .when (c.rename ρ) (Outline.renameAll ρ body)

def Outline.renameAll (ρ : Ident → Ident) : List Outline → List Outline
  | [] => []
  | o :: os => o.rename ρ :: Outline.renameAll ρ os

end

mutual

theorem Outline.Within.rename : ∀ {o : Outline}, o.Within (.fixed ρ) → o.rename ρ = o
  | .plain s, h => by rw [Outline.rename, Stmt.Within.rename h]
  | .oblige ⟨v, none⟩, _ => rfl
  | .oblige ⟨v, some e⟩, h => by
    rw [Outline.rename, Option.map_some, Expr.rename_eq_iff.2 (h e rfl)]
  | .when c body, h => by
    rw [Outline.rename, Expr.rename_eq_iff.2 h.1, Outline.AllWithin.rename h.2]

theorem Outline.AllWithin.rename :
    ∀ {os : List Outline}, Outline.AllWithin (.fixed ρ) os → Outline.renameAll ρ os = os
  | [], _ => rfl
  | o :: os, h => by rw [Outline.renameAll, Outline.Within.rename h.1, Outline.AllWithin.rename h.2]

end

theorem Outline.renameAll_append {os ps : List Outline} :
    Outline.renameAll ρ (os ++ ps) = Outline.renameAll ρ os ++ Outline.renameAll ρ ps := by
  induction os with
  | nil => rfl
  | cons o os ih => simp [Outline.renameAll, ih]

namespace Encoding

variable {enc : Encoding}

mutual

theorem raises_rename : ∀ {o : Outline}, enc.raises (o.rename ρ) = enc.raises o
  | .plain _ | .oblige _ => rfl
  | .when _ _ => raisesAny_rename

theorem raisesAny_rename :
    ∀ {os : List Outline}, enc.raisesAny (Outline.renameAll ρ os) = enc.raisesAny os
  | [] => rfl
  | o :: os => by
    rw [Outline.renameAll, raisesAny, raisesAny, raises_rename, raisesAny_rename]

end

/-- What encoding adds is left alone by the renaming. -/
structure Fixed (ρ : Ident → Ident) (enc : Encoding) : Prop where
  flag : ρ LocalPool.flag = LocalPool.flag
  slot : ρ enc.slot = enc.slot
  witness : ∀ v, ρ (Prelude.witness v) = Prelude.witness v

theorem Fixed.raise (h : enc.Fixed ρ) : Stmt.renameAll ρ (enc.raise v) = enc.raise v :=
  Stmt.AllWithin.rename (within_raise h.flag h.slot (h.witness v))

theorem Fixed.obligation (h : enc.Fixed ρ) {o : Obligation} :
    enc.obligation { o with guard := o.guard.map (Expr.rename ρ) } =
      Stmt.renameAll ρ (enc.obligation o) := by
  obtain ⟨v, g⟩ := o
  have hdrop : enc.drops ⟨v, g.map (Expr.rename ρ)⟩ = enc.drops ⟨v, g⟩ := rfl
  unfold Encoding.obligation
  rw [hdrop]
  split
  · rfl
  · cases enc.model with
    | exception =>
      cases g with
      | none => exact h.raise.symm
      | some e => simp [Stmt.renameAll, Stmt.rename, Stmt.when, Expr.not, h.raise]
    | assertion => cases g <;> rfl

mutual

theorem Fixed.encode (h : enc.Fixed ρ) :
    ∀ {o : Outline}, enc.encode (o.rename ρ) = Stmt.renameAll ρ (enc.encode o)
  | .plain _ => rfl
  | .oblige _ => h.obligation
  | .when c body => by
    rw [Outline.rename, Encoding.encode, h.encodeAll]
    rfl

theorem Fixed.encodeAll (h : enc.Fixed ρ) :
    ∀ {os : List Outline},
      enc.encodeAll (Outline.renameAll ρ os) = Stmt.renameAll ρ (enc.encodeAll os)
  | [] => rfl
  | o :: os => by
    rw [Outline.renameAll, Encoding.encodeAll, Encoding.encodeAll, h.encode, h.encodeAll,
      Stmt.renameAll_append]

end

end Encoding

end Verilower
