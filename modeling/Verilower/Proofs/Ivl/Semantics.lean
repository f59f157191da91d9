import Mathlib.Tactic.Common
import Verilower.Ivl.Stmt

namespace Verilower.Ivl
set_option autoImplicit true

/-- Values and what the operators do with them. -/
structure Interp where
  Val : Type
  /-- Whether a value counts as true. -/
  Holds : Val → Prop
  bool : Bool → Val
  int : Int → Val
  real : String → Val
  unary : UnOp → Val → Val
  binary : BinOp → Val → Val → Val
  select : Val → List Val → Val
  store : Val → List Val → Val → Val
  apply : String → List Val → Ty → Val
  holds_bool : Holds (bool b) ↔ b = true
  holds_not : Holds (unary .not a) ↔ ¬ Holds a
  holds_eq : Holds (binary .eq a b) ↔ a = b
  holds_neq : Holds (binary .neq a b) ↔ a ≠ b
  holds_and : Holds (binary .and a b) ↔ Holds a ∧ Holds b
  holds_or : Holds (binary .or a b) ↔ Holds a ∨ Holds b
  select_store_same : select (store m is v) is = v
  select_store_ne : is ≠ js → select (store m is v) js = select m js

abbrev Interp.State (I : Interp) : Type := Ident → I.Val

mutual

def Expr.eval (I : Interp) (σ : I.State) : Expr → I.Val
  | .ident x => σ x
  | .bool value => I.bool value
  | .int value => I.int value
  | .real text => I.real text
  | .binary op lhs rhs => I.binary op (lhs.eval I σ) (rhs.eval I σ)
  | .unary op arg => I.unary op (arg.eval I σ)
  | .select map indices => I.select (map.eval I σ) (Expr.evalAll I σ indices)
  | .store map indices value =>
    I.store (map.eval I σ) (Expr.evalAll I σ indices) (value.eval I σ)
  | .apply function args result => I.apply function (Expr.evalAll I σ args) result

def Expr.evalAll (I : Interp) (σ : I.State) : List Expr → List I.Val
  | [] => []
  | e :: es => e.eval I σ :: Expr.evalAll I σ es

end

mutual

def Expr.idents : Expr → List Ident
  | .ident x => [x]
  | .bool _ | .int _ | .real _ => []
  | .binary _ lhs rhs => lhs.idents ++ rhs.idents
  | .unary _ arg => arg.idents
  | .select map indices => map.idents ++ Expr.identsAll indices
  | .store map indices value => map.idents ++ Expr.identsAll indices ++ value.idents
  | .apply _ args _ => Expr.identsAll args

def Expr.identsAll : List Expr → List Ident
  | [] => []
  | e :: es => e.idents ++ Expr.identsAll es

end

mutual

/-- The value of an expression depends on its own variables only. -/
theorem Expr.eval_congr {I : Interp} {σ σ' : I.State} : ∀ {e : Expr},
    (∀ x ∈ e.idents, σ x = σ' x) → e.eval I σ = e.eval I σ'
  | .ident x, h => h x List.mem_cons_self
  | .bool _, _ | .int _, _ | .real _, _ => rfl
  | .binary op lhs rhs, h => by
    have hl := Expr.eval_congr fun x hx => h x (List.mem_append_left _ hx)
    have hr := Expr.eval_congr fun x hx => h x (List.mem_append_right _ hx)
    simp only [Expr.eval, hl, hr]
  | .unary op arg, h => by
    have ha : arg.eval I σ = arg.eval I σ' := Expr.eval_congr h
    simp only [Expr.eval, ha]
  | .select map indices, h => by
    have hm := Expr.eval_congr fun x hx => h x (List.mem_append_left _ hx)
    have hi := Expr.evalAll_congr fun x hx => h x (List.mem_append_right _ hx)
    simp only [Expr.eval, hm, hi]
  | .store map indices value, h => by
    have hm := Expr.eval_congr fun x hx =>
      h x (List.mem_append_left _ (List.mem_append_left _ hx))
    have hi := Expr.evalAll_congr fun x hx =>
      h x (List.mem_append_left _ (List.mem_append_right _ hx))
    have hv := Expr.eval_congr fun x hx => h x (List.mem_append_right _ hx)
    simp only [Expr.eval, hm, hi, hv]
  | .apply _ args _, h => by
    have ha : Expr.evalAll I σ args = Expr.evalAll I σ' args := Expr.evalAll_congr h
    simp only [Expr.eval, ha]

theorem Expr.evalAll_congr {I : Interp} {σ σ' : I.State} : ∀ {es : List Expr},
    (∀ x ∈ Expr.identsAll es, σ x = σ' x) → Expr.evalAll I σ es = Expr.evalAll I σ' es
  | [], _ => rfl
  | e :: es, h => by
    have he := Expr.eval_congr fun x hx => h x (List.mem_append_left _ hx)
    have hes := Expr.evalAll_congr fun x hx => h x (List.mem_append_right _ hx)
    simp only [Expr.evalAll, he, hes]

end

/-- Whether names of the type are constants: tags and fields. -/
def Ty.isConstant : Ty → Bool
  | .tag | .field _ => true
  | _ => false

/-- An interpretation together with the effects of calls. -/
structure World extends Interp where
  /-- Whether a variable is global, so that any callee may assign it. -/
  isGlobal : Ident → Bool
  isGlobal_constant : x.ty.isConstant = true → isGlobal x = false
  /-- What a callee leaves in the variables that it may assign. -/
  callee : String → List Val → (Ident → Val) → Ident → Val

namespace World

abbrev State (W : World) : Type := W.toInterp.State

/-- The state after a call: the callee decides about the variables that take its results and about
the global ones. -/
def after (W : World) (procedure : String) (args : List W.Val) (outs : List Ident) (σ : W.State) :
    W.State :=
  fun x => if x ∈ outs ∨ W.isGlobal x = true then W.callee procedure args σ x else σ x

theorem after_of_notMem {W : World} {args : List W.Val} {σ : W.State} (ho : x ∉ outs)
    (hg : W.isGlobal x = false) : W.after f args outs σ x = σ x := by
  simp [after, ho, hg]

def Sat (W : World) (σ : W.State) (e : Expr) : Prop := W.Holds (e.eval W.toInterp σ)

/-- One step, with the procedure that it calls. -/
inductive Step (W : World) : W.State → List Stmt → List String → W.State → List Stmt → Prop
  | assign : Step W σ (.assign x e :: ss) []
      (fun y => if y = x then e.eval W.toInterp σ else σ y) ss
  | assert (h : W.Sat σ e) : Step W σ (.assert e :: ss) [] σ ss
  | assume (h : W.Sat σ e) : Step W σ (.assume e :: ss) [] σ ss
  | havoc (h : ∀ x ∉ xs, σ' x = σ x) : Step W σ (.havoc xs :: ss) [] σ' ss
  | label : Step W σ (.label name :: ss) [] σ ss
  | thenBranch (h : W.Sat σ c) : Step W σ (.ite c a b :: ss) [] σ (a ++ ss)
  | elseBranch (h : ¬ W.Sat σ c) : Step W σ (.ite c a b :: ss) [] σ (b ++ ss)
  | call : Step W σ (.call f args outs :: ss) [f]
      (W.after f (Expr.evalAll W.toInterp σ args) outs σ) ss

/-- Steps one after the other, with the procedures that they call in order. -/
inductive Exec (W : World) : W.State → List Stmt → List String → W.State → List Stmt → Prop
  | refl : Exec W σ ss [] σ ss
  | step (h : Step W σ ss cs σ₁ ss₁) (hrest : Exec W σ₁ ss₁ cs' σ₂ ss₂) :
      Exec W σ ss (cs ++ cs') σ₂ ss₂

theorem Exec.trans (h₁ : Exec W σ ss cs σ₁ ss₁) (h₂ : Exec W σ₁ ss₁ cs' σ₂ ss₂) :
    Exec W σ ss (cs ++ cs') σ₂ ss₂ := by
  induction h₁ with
  | refl => exact h₂
  | step h _ ih => simpa using Exec.step h (ih h₂)

/-- What follows does not change a step. -/
theorem Step.append (h : Step W σ ss cs σ' ss') (ts : List Stmt) :
    Step W σ (ss ++ ts) cs σ' (ss' ++ ts) := by
  cases h with
  | thenBranch h => simpa using Step.thenBranch h
  | elseBranch h => simpa using Step.elseBranch h
  | assign => exact .assign
  | assert h => exact .assert h
  | assume h => exact .assume h
  | havoc h => exact .havoc h
  | label => exact .label
  | call => exact .call

theorem Exec.append (h : Exec W σ ss cs σ' ss') (ts : List Stmt) :
    Exec W σ (ss ++ ts) cs σ' (ss' ++ ts) := by
  induction h with
  | refl => exact .refl
  | step h _ ih => exact .step (h.append ts) ih

/-- A step of statements in a row is a step of the first of them. -/
theorem Step.of_append (h : Step W σ (s :: as ++ bs) cs σ' ss) :
    ∃ as', ss = as' ++ bs ∧ Step W σ (s :: as) cs σ' as' := by
  cases h with
  | thenBranch h => exact ⟨_, (List.append_assoc ..).symm, .thenBranch h⟩
  | elseBranch h => exact ⟨_, (List.append_assoc ..).symm, .elseBranch h⟩
  | assign => exact ⟨_, rfl, .assign⟩
  | assert h => exact ⟨_, rfl, .assert h⟩
  | assume h => exact ⟨_, rfl, .assume h⟩
  | havoc h => exact ⟨_, rfl, .havoc h⟩
  | label => exact ⟨_, rfl, .label⟩
  | call => exact ⟨_, rfl, .call⟩

/-- An execution of two lists in a row stays in the first one, or ends it and goes on with the
second one. -/
theorem Exec.of_append (h : Exec W σ (as ++ bs) cs σ' ss) :
    (∃ as', as' ≠ [] ∧ ss = as' ++ bs ∧ Exec W σ as cs σ' as') ∨
    ∃ σ₁ cs₁ cs₂, cs = cs₁ ++ cs₂ ∧ Exec W σ as cs₁ σ₁ [] ∧ Exec W σ₁ bs cs₂ σ' ss := by
  generalize hss : as ++ bs = ss₀ at h
  induction h generalizing as with
  | refl =>
    cases as with
    | nil => exact .inr ⟨_, [], [], rfl, .refl, hss ▸ .refl⟩
    | cons a as => exact .inl ⟨_, List.cons_ne_nil _ _, hss.symm, .refl⟩
  | @step σ _ _ _ _ _ _ _ h hrest ih =>
    cases as with
    | nil =>
      obtain rfl : bs = _ := hss
      exact .inr ⟨σ, [], _, rfl, .refl, .step h hrest⟩
    | cons a as =>
      subst hss
      obtain ⟨as', rfl, hstep⟩ := h.of_append
      obtain ⟨as₂, hne, rfl, hexec⟩ | ⟨σ₁, cs₁, cs₂, rfl, hexec, hlast⟩ := ih rfl
      · exact .inl ⟨as₂, hne, rfl, .step hstep hexec⟩
      · exact .inr ⟨σ₁, _, cs₂, by simp, .step hstep hexec, hlast⟩

theorem Exec.of_nil (h : Exec W σ [] cs σ' ss) : cs = [] ∧ σ' = σ ∧ ss = [] := by
  cases h with
  | refl => exact ⟨rfl, rfl, rfl⟩
  | step h _ => cases h

end World

end Verilower.Ivl
