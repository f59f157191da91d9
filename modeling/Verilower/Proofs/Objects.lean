import Mathlib.Data.List.Nodup
import Mathlib.Data.Set.Basic
import Verilower.Proofs.Lowering.Variables

namespace Verilower
set_option autoImplicit true

open Ivl

/-- The fields of objects: those of the prelude and the instance fields of the program. -/
inductive Program.IsField (p : Program) : Ident → Prop
  | alloc : IsField p Prelude.alloc
  | typeField : IsField p Prelude.typeField
  | declared (h : p.fieldIdent i = .ok x) (ht : x.ty = .field t) : IsField p x

/-- The constants that lowered code relies on. -/
inductive Program.IsConstant (p : Program) : Ident → Prop
  | null : IsConstant p Prelude.null
  | field (h : p.IsField x) : IsConstant p x
  | tag (h : p.tag ty = .ok x) : IsConstant p x

/-- Fields with distinct names are distinct in the state. -/
def Program.FieldsDistinct (p : Program) (σ : Ident → α) : Prop :=
  ∀ x y, p.IsField x → p.IsField y → x.name ≠ y.name → σ x ≠ σ y

namespace Program

variable {p : Program}

theorem FieldsDistinct.alloc_ne_typeField {σ : Ident → α} (h : p.FieldsDistinct σ) :
    σ Prelude.alloc ≠ σ Prelude.typeField :=
  h _ _ .alloc .typeField (by decide)

theorem FieldsDistinct.declared_ne {σ : Ident → α} (h : p.FieldsDistinct σ)
    (hx : p.fieldIdent i = .ok x) (ht : x.ty = .field t) :
    σ x ≠ σ Prelude.alloc ∧ σ x ≠ σ Prelude.typeField := by
  have hdot := dot_mem_fieldIdent hx
  constructor
  · apply h x _ (.declared hx ht) .alloc
    intro hn
    rw [hn] at hdot
    revert hdot
    decide
  · apply h x _ (.declared hx ht) .typeField
    intro hn
    rw [hn] at hdot
    revert hdot
    decide

theorem IsConstant.eq_null_or_ty (h : p.IsConstant x) :
    x = Prelude.null ∨ x.ty.isConstant = true := by
  cases h with
  | null => exact .inl rfl
  | field h =>
    cases h with
    | alloc | typeField => exact .inr rfl
    | declared _ ht => exact .inr (ht ▸ rfl)
  | tag h => exact .inr (tag_ty h ▸ rfl)

theorem IsConstant.ne_heap (h : p.IsConstant x) : x ≠ Prelude.heap := by
  rintro rfl
  rcases h.eq_null_or_ty with h | h
  · revert h
    decide
  · cases h

theorem IsConstant.not_settable (h : p.IsConstant x) : ¬ x.Settable := by
  intro hx
  cases h with
  | null => exact hx.ne (y := Prelude.null) (by decide) rfl
  | field h =>
    cases h with
    | alloc => exact hx.ne (y := Prelude.alloc) (by decide) rfl
    | typeField => exact hx.ne (y := Prelude.typeField) (by decide) rfl
    | declared hi ht => exact hx.ne_field hi ht
  | tag h => exact hx.ne_tag h

end Program

/-- The object whose allocation flag a statement writes. -/
def Ivl.Stmt.allocated? : Stmt → Option Expr
  | .assign x (.store (.ident m) [e, .ident f] _) =>
    if x = Prelude.heap ∧ m = Prelude.heap ∧ f = Prelude.alloc then some e else none
  | _ => none

/-- Whether an execution ends in front of the statements: there are none, or a jump or a return. -/
def Ivl.isEnd : List Stmt → Bool
  | [] | .goto _ :: _ | .ret :: _ => true
  | _ => false

theorem Ivl.isEnd_append (ha : as ≠ []) : isEnd (as ++ bs) = isEnd as := by
  cases as with
  | nil => exact absurd rfl ha
  | cons s as => cases s <;> rfl

theorem Ivl.Stmt.allocated?_assign (hx : x ≠ Prelude.heap) :
    (Stmt.assign x e).allocated? = none := by
  unfold Stmt.allocated?
  split
  · rename_i heq
    cases heq
    simp [hx]
  · rfl

theorem Ivl.Stmt.allocated?_assume : (Stmt.assume e).allocated? = none := rfl

theorem Ivl.Stmt.allocated?_write :
    (Prelude.write e f e').allocated? = if f = Prelude.alloc then some e else none := by
  simp [Prelude.write, Ident.expr, Stmt.allocated?]

namespace Ivl.World

variable {W : World}

/-- Whether the flag of an object is set. -/
def Allocated (W : World) (σ : W.State) (o : W.Val) : Prop :=
  W.Holds (W.select (σ Prelude.heap) [o, σ Prelude.alloc])

def tagOf (W : World) (σ : W.State) (o : W.Val) : W.Val :=
  W.select (σ Prelude.heap) [o, σ Prelude.typeField]

/-- Callees keep allocated objects as they are, and the null reference is not a variable. -/
structure Preserves (W : World) : Prop where
  null : W.isGlobal Prelude.null = false
  allocated : ∀ f args σ o, W.Allocated σ o →
    W.Holds (W.select (W.callee f args σ Prelude.heap) [o, σ Prelude.alloc])
  tag : ∀ f args σ o, W.Allocated σ o →
    W.select (W.callee f args σ Prelude.heap) [o, σ Prelude.typeField] = W.tagOf σ o

def written (W : World) (σ : W.State) : List Stmt → List W.Val
  | [] => []
  | s :: _ => (s.allocated?.map fun e => e.eval W.toInterp σ).toList

def called (W : World) (cs : List String) (σ σ' : W.State) : Set W.Val :=
  { o | cs ≠ [] ∧ ¬ W.Allocated σ o ∧ W.Allocated σ' o }

@[simp] theorem called_nil {σ σ' : W.State} : W.called [] σ σ' = ∅ := by simp [called]

/-- Steps one after the other, with the objects whose flags they write, in order, and with the
objects that calls allocate. -/
inductive Run (W : World) :
    W.State → List Stmt → List W.Val → Set W.Val → W.State → List Stmt → Prop
  | refl : Run W σ ss [] ∅ σ ss
  | step (h : W.Step σ ss cs σ₁ ss₁) (hrest : Run W σ₁ ss₁ os A σ₂ ss₂) :
      Run W σ ss (W.written σ ss ++ os) (W.called cs σ σ₁ ∪ A) σ₂ ss₂

/-- Every execution is a run. -/
theorem Exec.run (h : W.Exec σ ss cs σ' ss') : ∃ os A, W.Run σ ss os A σ' ss' := by
  induction h with
  | refl => exact ⟨_, _, .refl⟩
  | step h _ ih =>
    obtain ⟨os, A, hrest⟩ := ih
    exact ⟨_, _, .step h hrest⟩

theorem Run.of_nil (h : W.Run σ [] os A σ' ss) : os = [] ∧ A = ∅ ∧ σ' = σ ∧ ss = [] := by
  cases h with
  | refl => exact ⟨rfl, rfl, rfl, rfl⟩
  | step h _ => cases h

/-- A run through two lists in a row stays in the first one, or ends it and goes on with the second
one. -/
theorem Run.of_append (h : W.Run σ (as ++ bs) os A σ' ss) :
    (∃ as', as' ≠ [] ∧ ss = as' ++ bs ∧ W.Run σ as os A σ' as') ∨
    ∃ σ₁ os₁ os₂ A₁ A₂, os = os₁ ++ os₂ ∧ A = A₁ ∪ A₂ ∧
      W.Run σ as os₁ A₁ σ₁ [] ∧ W.Run σ₁ bs os₂ A₂ σ' ss := by
  generalize hss : as ++ bs = ss₀ at h
  induction h generalizing as with
  | refl =>
    cases as with
    | nil => exact .inr ⟨_, [], [], ∅, ∅, rfl, (Set.empty_union _).symm, .refl, hss ▸ .refl⟩
    | cons a as => exact .inl ⟨_, List.cons_ne_nil _ _, hss.symm, .refl⟩
  | @step σ _ _ _ _ _ _ _ _ h hrest ih =>
    cases as with
    | nil =>
      obtain rfl : bs = _ := hss
      exact .inr ⟨σ, [], _, ∅, _, rfl, (Set.empty_union _).symm, .refl, .step h hrest⟩
    | cons a as =>
      subst hss
      obtain ⟨as', rfl, hstep⟩ := h.of_append
      obtain ⟨as₂, hne, rfl, hrun⟩ | ⟨σ₁, os₁, os₂, A₁, A₂, rfl, rfl, hrun, hlast⟩ := ih rfl
      · exact .inl ⟨as₂, hne, rfl, .step hstep hrun⟩
      · refine .inr ⟨σ₁, _, os₂, _, A₂, ?_, ?_, .step hstep hrun, hlast⟩
        · rw [← List.append_assoc]
          rfl
        · rw [Set.union_assoc]

end Ivl.World

namespace Allocation

/-- The type tag of the object is the one of the type. -/
def HasType (W : World) (p : Program) (σ : W.State) (o : W.Val) (ty : Ty) : Prop :=
  ∃ τ, p.tag ty = .ok τ ∧ W.tagOf σ o = σ τ

/-- Allocated objects stay as they are, and so do the constants. -/
structure Keeps (W : World) (p : Program) (σ σ' : W.State) : Prop where
  constant : ∀ x, p.IsConstant x → σ' x = σ x
  allocated : ∀ o, W.Allocated σ o → W.Allocated σ' o
  tag : ∀ o, W.Allocated σ o → W.tagOf σ' o = W.tagOf σ o

/-- Between the states just the objects of `os`, one by one, and those of `A` have been allocated.
The former are of types from `ts`, in that order. -/
structure Makes (W : World) (p : Program) (ts : List Ty) (σ σ' : W.State) (os : List W.Val)
    (A : Set W.Val) : Prop where
  nodup : os.Nodup
  fresh : ∀ o ∈ os, ¬ W.Allocated σ o
  called : ∀ o ∈ A, ¬ W.Allocated σ o ∧ o ∉ os
  allocated : ∀ o, W.Allocated σ' o ↔ W.Allocated σ o ∨ o ∈ os ∨ o ∈ A
  nonNull : ∀ o ∈ os, o ≠ σ' Prelude.null
  typed : ∃ us, us.Sublist ts ∧ List.Forall₂ (HasType W p σ') os us

/-- What statements do to objects in every run from a state: allocated ones stay as they are, and
where the run ends just the objects have been allocated whose flags have been written, and those of
calls. -/
def OrderlyFrom (W : World) (p : Program) (ts : List Ty) (σ : W.State) (ss : List Stmt) : Prop :=
  ∀ os A σ' ss', W.Run σ ss os A σ' ss' →
    Keeps W p σ σ' ∧ (isEnd ss' = true → Makes W p ts σ σ' os A)

/-- The same from every state in which distinct fields are distinct. -/
def Orderly (W : World) (p : Program) (ts : List Ty) (ss : List Stmt) : Prop :=
  ∀ σ, p.FieldsDistinct σ → OrderlyFrom W p ts σ ss

variable {W : World} {p : Program}

namespace Keeps

theorem refl (p : Program) (σ : W.State) : Keeps W p σ σ where
  constant _ _ := rfl
  allocated _ h := h
  tag _ _ := rfl

theorem trans (h : Keeps W p σ σ₁) (h' : Keeps W p σ₁ σ₂) : Keeps W p σ σ₂ where
  constant x hx := (h'.constant x hx).trans (h.constant x hx)
  allocated o ho := h'.allocated o (h.allocated o ho)
  tag o ho := (h'.tag o (h.allocated o ho)).trans (h.tag o ho)

theorem fieldsDistinct (h : Keeps W p σ σ') (hσ : p.FieldsDistinct σ) : p.FieldsDistinct σ' := by
  intro x y hx hy hne
  rw [h.constant x (.field hx), h.constant y (.field hy)]
  exact hσ x y hx hy hne

theorem hasType (h : Keeps W p σ σ') (ho : W.Allocated σ o) (hty : HasType W p σ o ty) :
    HasType W p σ' o ty := by
  obtain ⟨τ, hτ, htag⟩ := hty
  refine ⟨τ, hτ, ?_⟩
  rw [h.tag o ho, htag, h.constant τ (.tag hτ)]

end Keeps

namespace Makes

theorem refl (p : Program) (σ : W.State) : Makes W p [] σ σ [] ∅ where
  nodup := List.nodup_nil
  fresh := nofun
  called := nofun
  allocated o := by simp
  nonNull := nofun
  typed := ⟨[], .slnil, .nil⟩

theorem weaken (h : Makes W p ts σ σ' os A) (hs : ts.Sublist us) : Makes W p us σ σ' os A := by
  obtain ⟨vs, hvs, hty⟩ := h.typed
  exact { h with typed := ⟨vs, hvs.trans hs, hty⟩ }

theorem append (h : Makes W p ts σ σ₁ os A) (h' : Makes W p us σ₁ σ₂ os' A')
    (hk : Keeps W p σ₁ σ₂) : Makes W p (ts ++ us) σ σ₂ (os ++ os') (A ∪ A') := by
  have hlater : ∀ o, ¬ W.Allocated σ₁ o → ¬ W.Allocated σ o ∧ o ∉ os ∧ o ∉ A := by
    intro o ho
    rw [h.allocated o] at ho
    push Not at ho
    exact ho
  constructor
  case nodup =>
    refine List.nodup_append.2 ⟨h.nodup, h'.nodup, ?_⟩
    rintro o ho o' ho' rfl
    exact (hlater o (h'.fresh o ho')).2.1 ho
  case fresh =>
    intro o ho
    rcases List.mem_append.1 ho with ho | ho
    · exact h.fresh o ho
    · exact (hlater o (h'.fresh o ho)).1
  case called =>
    rintro o (ho | ho)
    · obtain ⟨hn, hos⟩ := h.called o ho
      have hos' : o ∉ os' := fun ho' => (hlater o (h'.fresh o ho')).2.2 ho
      exact ⟨hn, by simp [hos, hos']⟩
    · obtain ⟨hn, hos'⟩ := h'.called o ho
      obtain ⟨hn₁, hos, -⟩ := hlater o hn
      exact ⟨hn₁, by simp [hos, hos']⟩
  case allocated =>
    intro o
    rw [h'.allocated o, h.allocated o, List.mem_append, Set.mem_union]
    tauto
  case nonNull =>
    intro o ho
    rcases List.mem_append.1 ho with ho | ho
    · rw [hk.constant _ .null]
      exact h.nonNull o ho
    · exact h'.nonNull o ho
  case typed =>
    obtain ⟨vs, hvs, hty⟩ := h.typed
    obtain ⟨ws, hws, hty'⟩ := h'.typed
    have hall : ∀ o ∈ os, W.Allocated σ₁ o := fun o ho => (h.allocated o).2 (.inr (.inl ho))
    have hmoved : List.Forall₂ (HasType W p σ₂) os vs :=
      ((List.forall₂_and_left os vs).2 ⟨hall, hty⟩).imp fun o ty ho => hk.hasType ho.1 ho.2
    exact ⟨vs ++ ws, hvs.append hws, List.rel_append hmoved hty'⟩

end Makes

/-- The state after a field of an object has been written. -/
def put (W : World) (σ : W.State) (o : W.Val) (f : Ident) (v : W.Val) : W.State :=
  fun x => if x = Prelude.heap then W.store (σ Prelude.heap) [o, σ f] v else σ x

section Put

variable {σ : W.State} {o o' v d : W.Val}

theorem put_of_ne (hx : x ≠ Prelude.heap) : put W σ o f v x = σ x := if_neg hx

theorem put_constant (hx : p.IsConstant x) : put W σ o f v x = σ x := put_of_ne hx.ne_heap

theorem select_put_same : W.select (put W σ o f v Prelude.heap) [o, σ f] = v := by
  rw [put, if_pos rfl, W.select_store_same]

theorem select_put_ne (h : o ≠ o' ∨ σ f ≠ d) :
    W.select (put W σ o f v Prelude.heap) [o', d] = W.select (σ Prelude.heap) [o', d] := by
  rw [put, if_pos rfl, W.select_store_ne]
  intro heq
  rcases h with h | h
  · exact h (List.cons.inj heq).1
  · exact h (List.cons.inj (List.cons.inj heq).2).1

theorem allocated_put (h : o ≠ o' ∨ σ f ≠ σ Prelude.alloc) :
    W.Allocated (put W σ o f v) o' ↔ W.Allocated σ o' := by
  unfold World.Allocated
  rw [put_of_ne (x := Prelude.alloc) (by decide), select_put_ne h]

theorem tagOf_put (h : o ≠ o' ∨ σ f ≠ σ Prelude.typeField) :
    W.tagOf (put W σ o f v) o' = W.tagOf σ o' := by
  unfold World.tagOf
  rw [put_of_ne (x := Prelude.typeField) (by decide), select_put_ne h]

theorem allocated_put_same (hv : W.Holds v) : W.Allocated (put W σ o Prelude.alloc v) o := by
  unfold World.Allocated
  rwa [put_of_ne (x := Prelude.alloc) (by decide), select_put_same]

theorem tagOf_put_same : W.tagOf (put W σ o Prelude.typeField v) o = v := by
  unfold World.tagOf
  rw [put_of_ne (x := Prelude.typeField) (by decide), select_put_same]

/-- The state with a new object of the type with the tag. -/
def create (W : World) (σ : W.State) (o : W.Val) (τ : Ident) : W.State :=
  put W (put W σ o Prelude.alloc (W.bool true)) o Prelude.typeField (σ τ)

theorem keeps_put_alloc (hσ : p.FieldsDistinct σ) (ho : ¬ W.Allocated σ o) :
    Keeps W p σ (put W σ o Prelude.alloc (W.bool true)) where
  constant _ hx := put_constant hx
  allocated o' ho' := by
    by_cases heq : o = o'
    · exact absurd (heq ▸ ho') ho
    · exact (allocated_put (.inl heq)).2 ho'
  tag _ _ := tagOf_put (.inr hσ.alloc_ne_typeField)

theorem allocated_create (hσ : p.FieldsDistinct σ) :
    W.Allocated (create W σ o τ) o' ↔ W.Allocated σ o' ∨ o' = o := by
  have hne : put W σ o Prelude.alloc (W.bool true) Prelude.typeField ≠
      put W σ o Prelude.alloc (W.bool true) Prelude.alloc := by
    rw [put_of_ne (by decide), put_of_ne (by decide)]
    exact hσ.alloc_ne_typeField.symm
  rw [create, allocated_put (.inr hne)]
  by_cases heq : o' = o
  · subst heq
    exact iff_of_true (allocated_put_same (W.holds_bool.2 rfl)) (.inr rfl)
  · rw [allocated_put (.inl (Ne.symm heq))]
    simp [heq]

theorem keeps_create (hσ : p.FieldsDistinct σ) (ho : ¬ W.Allocated σ o) :
    Keeps W p σ (create W σ o τ) where
  constant x hx := by rw [create, put_constant hx, put_constant hx]
  allocated o' ho' := (allocated_create hσ).2 (.inl ho')
  tag o' ho' := by
    have heq : o ≠ o' := by
      rintro rfl
      exact ho ho'
    rw [create, tagOf_put (.inl heq), tagOf_put (.inl heq)]

theorem makes_create (hσ : p.FieldsDistinct σ) (ho : ¬ W.Allocated σ o) (hn : o ≠ σ Prelude.null)
    (hτ : p.tag ty = .ok τ) :
    Makes W p [ty] σ (create W σ o τ) [o] ∅ where
  nodup := List.nodup_singleton o
  fresh o' ho' := List.mem_singleton.1 ho' ▸ ho
  called := nofun
  allocated o' := by simp [allocated_create hσ]
  nonNull o' ho' := by
    rw [List.mem_singleton.1 ho', (keeps_create hσ ho).constant _ .null]
    exact hn
  typed := by
    refine ⟨[ty], .refl _, .cons ⟨τ, hτ, ?_⟩ .nil⟩
    rw [(keeps_create hσ ho).constant τ (.tag hτ), create, tagOf_put_same]

end Put

/-- Nothing happens to objects or constants. -/
structure Leaves (W : World) (p : Program) (σ σ' : W.State) : Prop where
  constant : ∀ x, p.IsConstant x → σ' x = σ x
  allocated : ∀ o, W.Allocated σ' o ↔ W.Allocated σ o
  tag : ∀ o, W.tagOf σ' o = W.tagOf σ o

namespace Leaves

theorem refl (p : Program) (σ : W.State) : Leaves W p σ σ :=
  ⟨fun _ _ => rfl, fun _ => .rfl, fun _ => rfl⟩

theorem of_eq {σ σ' : W.State} (hheap : σ' Prelude.heap = σ Prelude.heap)
    (hc : ∀ x, p.IsConstant x → σ' x = σ x) : Leaves W p σ σ' where
  constant := hc
  allocated o := by rw [World.Allocated, World.Allocated, hheap, hc _ (.field .alloc)]
  tag o := by rw [World.tagOf, World.tagOf, hheap, hc _ (.field .typeField)]

theorem keeps (h : Leaves W p σ σ') : Keeps W p σ σ' :=
  ⟨h.constant, fun o => (h.allocated o).2, fun o _ => h.tag o⟩

theorem makes (h : Leaves W p σ σ₁) (hm : Makes W p ts σ₁ σ₂ os A) : Makes W p ts σ σ₂ os A :=
  { hm with
    fresh := fun o ho => (h.allocated o).not.1 (hm.fresh o ho)
    called := fun o ho => ⟨(h.allocated o).not.1 (hm.called o ho).1, (hm.called o ho).2⟩
    allocated := fun o => by rw [hm.allocated o, h.allocated o] }

end Leaves

theorem orderly_nil : Orderly W p [] [] := by
  intro σ hσ os A σ' ss' hrun
  obtain ⟨rfl, rfl, rfl, rfl⟩ := hrun.of_nil
  exact ⟨.refl p σ', fun _ => .refl p σ'⟩

theorem Orderly.weaken (h : Orderly W p ts ss) (hs : ts.Sublist us) : Orderly W p us ss := by
  intro σ hσ os A σ' ss' hrun
  obtain ⟨hk, hm⟩ := h σ hσ os A σ' ss' hrun
  exact ⟨hk, fun he => (hm he).weaken hs⟩

theorem Orderly.append (ha : Orderly W p ts as) (hb : Orderly W p us bs) :
    Orderly W p (ts ++ us) (as ++ bs) := by
  intro σ hσ os A σ' ss' hrun
  rcases hrun.of_append with
    ⟨as', hne, rfl, hstay⟩ | ⟨σ₁, os₁, os₂, A₁, A₂, rfl, rfl, hfirst, hlast⟩
  · obtain ⟨hk, hm⟩ := ha σ hσ _ _ _ _ hstay
    refine ⟨hk, fun he => ?_⟩
    rw [isEnd_append hne] at he
    exact (hm he).weaken (List.sublist_append_left _ _)
  · obtain ⟨hk₁, hm₁⟩ := ha σ hσ _ _ _ _ hfirst
    obtain ⟨hk₂, hm₂⟩ := hb σ₁ (hk₁.fieldsDistinct hσ) _ _ _ _ hlast
    exact ⟨hk₁.trans hk₂, fun he => (hm₁ rfl).append (hm₂ he) hk₂⟩

end Allocation

end Verilower
