import Verilower.Proofs.Lowering.Dereferences

namespace Verilower
set_option autoImplicit true

open Ivl

mutual

def Ivl.Expr.parts : Expr → List Expr
  | .binary op lhs rhs => .binary op lhs rhs :: (lhs.parts ++ rhs.parts)
  | .unary op arg => .unary op arg :: arg.parts
  | .select map indices => .select map indices :: (map.parts ++ Expr.partsAll indices)
  | .store map indices value =>
    .store map indices value :: (map.parts ++ Expr.partsAll indices ++ value.parts)
  | .apply function args result => .apply function args result :: Expr.partsAll args
  | e => [e]

def Ivl.Expr.partsAll : List Expr → List Expr
  | [] => []
  | e :: es => e.parts ++ Expr.partsAll es

end

mutual

/-- The expressions of an outline, with those of the statements inside it. -/
def Outline.expressions : Outline → List Expr
  | .plain s => s.nested.flatMap Stmt.expressions
  | .oblige o => o.guard.toList
  | .when c body => c :: Outline.expressionsAll body

def Outline.expressionsAll : List Outline → List Expr
  | [] => []
  | o :: os => o.expressions ++ Outline.expressionsAll os

end

/-- The first expression reads or stores at the object that the second one stands for. -/
inductive Dereferences (p : Program) : Expr → Expr → Prop
  | field (hx : p.fieldIdent i = .ok x) : Dereferences p (Prelude.read b x) b
  | fieldStore (hx : p.fieldIdent i = .ok x) :
      Dereferences p (.store Prelude.heap.expr [b, x.expr] v) b
  | arraySize : Dereferences p (.select Prelude.arraySize.expr [b]) b
  | stringSize : Dereferences p (.select Prelude.stringSize.expr [b]) b
  | row (hh : Prelude.arrays? ty = some heap) : Dereferences p (.select heap.expr [b]) b
  | rowStore (hh : Prelude.arrays? ty = some heap) : Dereferences p (.store heap.expr [b] v) b

/-- The expression reads or stores the element of an array at an index. -/
inductive Indexes : Expr → Expr → Expr → Prop
  | element (hh : Prelude.arrays? ty = some heap) :
      Indexes (.select (.select heap.expr [a]) [i]) a i
  | elementStore (hh : Prelude.arrays? ty = some heap) :
      Indexes (.store (.select heap.expr [a]) [i] v) a i

/-- The expression stores the length of an array. -/
inductive Resizes : Expr → Expr → Prop
  | intro : Resizes (.store Prelude.arraySize.expr [b] v) b

/-- The object needs no check, or the code in front has its check at the top level. Expressions in
`X` need none. -/
def Checked (X : Expr → Prop) (front : List Outline) (b : Expr) : Prop :=
  X b ∨ .oblige (.nonNull b) ∈ front

/-- What an expression accesses is guarded by the code in front of it. -/
structure Protected (p : Program) (X : Expr → Prop) (front : List Outline) (e : Expr) : Prop where
  nonNull : ∀ b, Dereferences p e b → Checked X front b
  bounds : ∀ b i, Indexes e b i → Lower.boundsGuard b i ∈ front
  fresh : ∀ b, Resizes e b → ∃ x τ, b = x.expr ∧ Lower.newObject x τ <:+: front

def Covered (p : Program) (X : Expr → Prop) (front : List Outline) (e : Expr) : Prop :=
  ∀ a ∈ e.parts, Protected p X front a

/-- Code whose accesses are guarded, each by what is in front of it at the top level. -/
def Guarded (p : Program) (X : Expr → Prop) : List Outline → List Outline → Prop
  | _, [] => True
  | front, o :: os => (∀ e ∈ o.expressions, Covered p X front e) ∧ Guarded p X (front ++ [o]) os

def Ivl.Expr.isAccess : Expr → Bool
  | .select _ _ | .store _ _ _ => true
  | _ => false

theorem Ivl.Expr.forall_mem_partsAll {P : Expr → Prop} :
    (∀ a ∈ partsAll es, P a) ↔ ∀ e ∈ es, ∀ a ∈ e.parts, P a := by
  induction es with
  | nil => simp [partsAll]
  | cons e es ih => simp [partsAll, or_imp, forall_and, ih]

section Expressions

variable {p : Program} {X : Expr → Prop}

theorem Checked.append (h : Checked X front b) (code : List Outline) :
    Checked X (front ++ code) b := h.imp_right (List.mem_append_left _)

theorem Protected.append (h : Protected p X front e) (code : List Outline) :
    Protected p X (front ++ code) e where
  nonNull b hb := (h.nonNull b hb).append code
  bounds b i hi := List.mem_append_left _ (h.bounds b i hi)
  fresh b hb := by
    obtain ⟨x, τ, hx, hobject⟩ := h.fresh b hb
    exact ⟨x, τ, hx, hobject.trans (List.prefix_append front code).isInfix⟩

theorem Covered.append (h : Covered p X front e) (code : List Outline) :
    Covered p X (front ++ code) e := fun a ha => (h a ha).append code

theorem protected_of_isAccess (h : e.isAccess = false) : Protected p X front e where
  nonNull b hb := by cases hb <;> cases h
  bounds b i hi := by cases hi <;> cases h
  fresh b hb := by cases hb; cases h

theorem covered_cons (h : e.isAccess = false) (he : e.parts = e :: rest) :
    Covered p X front e ↔ ∀ a ∈ rest, Protected p X front a := by
  rw [Covered, he, List.forall_mem_cons, and_iff_right (protected_of_isAccess h)]

@[simp] theorem covered_ident : Covered p X front (.ident x) := (covered_cons rfl rfl).2 nofun

@[simp] theorem covered_expr {x : Ident} : Covered p X front x.expr := covered_ident

@[simp] theorem covered_bool : Covered p X front (.bool b) := (covered_cons rfl rfl).2 nofun

@[simp] theorem covered_int : Covered p X front (.int n) := (covered_cons rfl rfl).2 nofun

@[simp] theorem covered_real : Covered p X front (.real t) := (covered_cons rfl rfl).2 nofun

@[simp] theorem covered_binary : Covered p X front (.binary op l r) ↔
    Covered p X front l ∧ Covered p X front r :=
  (covered_cons rfl rfl).trans List.forall_mem_append

@[simp] theorem covered_unary : Covered p X front (.unary op e) ↔ Covered p X front e :=
  covered_cons rfl rfl

@[simp] theorem covered_apply : Covered p X front (.apply f args ty) ↔
    ∀ e ∈ args, Covered p X front e :=
  (covered_cons rfl rfl).trans Expr.forall_mem_partsAll

theorem covered_select : Covered p X front (.select m is) ↔
    Protected p X front (.select m is) ∧ Covered p X front m ∧ ∀ e ∈ is, Covered p X front e := by
  simp only [Covered, Expr.parts, List.forall_mem_cons, List.forall_mem_append,
    Expr.forall_mem_partsAll]

theorem covered_store : Covered p X front (.store m is v) ↔
    Protected p X front (.store m is v) ∧ Covered p X front m ∧
      (∀ e ∈ is, Covered p X front e) ∧ Covered p X front v := by
  simp only [Covered, Expr.parts, List.forall_mem_cons, List.forall_mem_append,
    Expr.forall_mem_partsAll, and_assoc]

theorem covered_isNonNull (h : Covered p X front e) : Covered p X front (Prelude.isNonNull e) := by
  simp [Prelude.isNonNull, Expr.neq, Ident.expr, h]

theorem Dereferences.eq_of_select (h : Dereferences p (.select m (b :: is)) b') : b' = b := by
  generalize he : Expr.select m (b :: is) = e at h
  cases h <;> cases he <;> rfl

theorem Dereferences.eq_of_store (h : Dereferences p (.store m (b :: is) v) b') : b' = b := by
  generalize he : Expr.store m (b :: is) v = e at h
  cases h <;> cases he <;> rfl

theorem Dereferences.ident_of_select (h : Dereferences p (.select m is) b) :
    ∃ x : Ident, m = x.expr := by
  generalize he : Expr.select m is = e at h
  cases h <;> cases he <;> exact ⟨_, rfl⟩

theorem Dereferences.ident_of_store (h : Dereferences p (.store m is v) b) :
    ∃ x : Ident, m = x.expr := by
  generalize he : Expr.store m is v = e at h
  cases h <;> cases he <;> exact ⟨_, rfl⟩

theorem Resizes.of_store (h : Resizes (.store m is v) b) :
    m = Prelude.arraySize.expr ∧ is = [b] := by
  cases h
  exact ⟨rfl, rfl⟩

theorem not_dereferences_read (hx : '.' ∉ x.name.toList) :
    ¬ Dereferences p (Prelude.read e x) b := by
  intro hd
  generalize he : Prelude.read e x = a at hd
  cases hd with
  | field hf =>
    obtain ⟨-, rfl⟩ : e = b ∧ x = _ := by simpa [Prelude.read, Ident.expr] using he
    exact hx (Program.dot_mem_fieldIdent hf)
  | _ => simp [Prelude.read] at he

theorem not_dereferences_write {x : Ident} (hx : '.' ∉ x.name.toList) :
    ¬ Dereferences p (.store Prelude.heap.expr [e, x.expr] v) b := by
  intro hd
  generalize he : Expr.store Prelude.heap.expr [e, x.expr] v = a at hd
  cases hd with
  | fieldStore hf =>
    obtain ⟨-, rfl, -⟩ : e = b ∧ x = _ ∧ v = _ := by simpa [Ident.expr, and_assoc] using he
    exact hx (Program.dot_mem_fieldIdent hf)
  | _ => simp [Prelude.read] at he

theorem covered_access {m : Ident} (hb : Checked X front b)
    (his : ∀ e ∈ b :: is, Covered p X front e) :
    Covered p X front (.select m.expr (b :: is)) := by
  refine covered_select.2 ⟨⟨fun b' hd => ?_, nofun, nofun⟩, covered_ident, his⟩
  rw [hd.eq_of_select]
  exact hb

theorem covered_update {m : Ident} (hm : m ≠ Prelude.arraySize)
    (hb : Checked X front b) (his : ∀ e ∈ b :: is, Covered p X front e)
    (hv : Covered p X front v) : Covered p X front (.store m.expr (b :: is) v) := by
  refine covered_store.2 ⟨⟨fun b' hd => ?_, nofun, fun b' hr => ?_⟩, covered_ident, his, hv⟩
  · rw [hd.eq_of_store]
    exact hb
  · exact absurd (Expr.ident.inj hr.of_store.1) hm

theorem covered_special (hx : '.' ∉ x.name.toList) (h : Covered p X front e) :
    Covered p X front (Prelude.read e x) := by
  refine covered_select.2 ⟨⟨fun b hd => ?_, nofun, nofun⟩, covered_ident, ?_⟩
  · exact (not_dereferences_read hx hd).elim
  · simp [h, Ident.expr]

theorem covered_specialStore {x : Ident} (hx : '.' ∉ x.name.toList) (h : Covered p X front e)
    (hv : Covered p X front v) :
    Covered p X front (.store Prelude.heap.expr [e, x.expr] v) := by
  refine covered_store.2 ⟨⟨fun b hd => ?_, nofun, fun b hr => ?_⟩, covered_ident, ?_, hv⟩
  · exact (not_dereferences_write hx hd).elim
  · cases hr.of_store.2
  · simp [h, Ident.expr]

theorem covered_element {m : Ident} (ha : Covered p X front a) (hi : Covered p X front i)
    (hb : Checked X front a) (hg : Lower.boundsGuard a i ∈ front) :
    Covered p X front (.select (.select m.expr [a]) [i]) := by
  have hrow : Covered p X front (.select m.expr [a]) := covered_access hb (by simpa using ha)
  refine covered_select.2 ⟨⟨fun b hd => ?_, fun b k hk => ?_, nofun⟩, hrow, by simpa using hi⟩
  · obtain ⟨x, hx⟩ := hd.ident_of_select
    cases hx
  · cases hk
    exact hg

theorem arrays_ne_sizes (h : Prelude.arrays? ty = some heap) :
    heap ≠ Prelude.stringSize ∧ heap ≠ Prelude.arraySize := by
  cases ty <;> cases h <;> decide

theorem not_dereferences_sizeStore {m : Ident}
    (hm : m = Prelude.stringSize ∨ m = Prelude.arraySize) :
    ¬ Dereferences p (.store m.expr [e] v) b := by
  intro hd
  generalize he : Expr.store m.expr [e] v = a at hd
  cases hd with
  | fieldStore => simp at he
  | rowStore hh =>
    obtain ⟨rfl, -⟩ : m = _ ∧ _ := by simpa [Ident.expr] using he
    obtain ⟨hstring, harray⟩ := arrays_ne_sizes hh
    exact hm.elim hstring harray
  | _ => cases he

theorem covered_stringStore (h : Covered p X front e) (hv : Covered p X front v) :
    Covered p X front (.store Prelude.stringSize.expr [e] v) := by
  refine covered_store.2 ⟨⟨fun b hd => ?_, nofun, fun b hr => ?_⟩, covered_ident, by simpa, hv⟩
  · exact (not_dereferences_sizeStore (.inl rfl) hd).elim
  · exact absurd (Expr.ident.inj hr.of_store.1) (by decide)

theorem covered_sizeStore {x : Ident} (hf : Lower.newObject x τ <:+: front)
    (hv : Covered p X front v) :
    Covered p X front (.store Prelude.arraySize.expr [x.expr] v) := by
  refine covered_store.2 ⟨⟨fun b hd => ?_, nofun, fun b hr => ?_⟩, covered_ident, ?_, hv⟩
  · exact (not_dereferences_sizeStore (.inr rfl) hd).elim
  · obtain rfl := List.singleton_inj.1 hr.of_store.2
    exact ⟨x, τ, rfl, hf⟩
  · simp [Ident.expr]

theorem expressions_flat (hs : s.isFlat = true) :
    (Outline.plain s).expressions = s.expressions := by
  rw [Outline.expressions, Stmt.nested_flat hs, List.flatMap_singleton]

@[simp] theorem expressions_assign : (Outline.plain (.assign x e)).expressions = [e] :=
  expressions_flat rfl

@[simp] theorem expressions_assume : (Outline.plain (.assume e)).expressions = [e] :=
  expressions_flat rfl

@[simp] theorem expressions_havoc : (Outline.plain (.havoc xs)).expressions = [] :=
  expressions_flat rfl

@[simp] theorem expressions_call : (Outline.plain (.call f args outs)).expressions = args :=
  expressions_flat rfl

@[simp] theorem expressions_label : (Outline.plain (.label l)).expressions = [] :=
  expressions_flat rfl

@[simp] theorem expressions_jump : (Outline.plain (.jump l)).expressions = [] :=
  expressions_flat rfl

theorem expressions_ite : (Outline.plain (.ite c as bs)).expressions =
    c :: (as.flatMap (fun s => (Outline.plain s).expressions) ++
      bs.flatMap fun s => (Outline.plain s).expressions) := by
  rw [Outline.expressions, Stmt.nested_ite, List.flatMap_cons, List.flatMap_append,
    List.flatMap_assoc, List.flatMap_assoc]
  rfl

@[simp] theorem expressions_jumpWhen :
    (Outline.plain (.when c [.jump l])).expressions = [c] := by
  simp [Stmt.when, expressions_ite]

@[simp] theorem expressions_ret : (Outline.plain .ret).expressions = [] := expressions_flat rfl

@[simp] theorem expressions_oblige : (Outline.oblige ⟨v, some e⟩).expressions = [e] := rfl

theorem guarded_append : Guarded p X front (as ++ bs) ↔
    Guarded p X front as ∧ Guarded p X (front ++ as) bs := by
  induction as generalizing front with
  | nil => simp [Guarded]
  | cons o as ih => simp [Guarded, ih, and_assoc]

theorem guarded_singleton : Guarded p X front [o] ↔ ∀ e ∈ o.expressions, Covered p X front e := by
  simp [Guarded]

/-- Code that is guarded by what is in front of all of it. -/
def Settled (p : Program) (X : Expr → Prop) (front code : List Outline) : Prop :=
  ∀ e ∈ Outline.expressionsAll code, Covered p X front e

@[simp] theorem settled_nil : Settled p X front [] := nofun

@[simp] theorem settled_cons : Settled p X front (o :: os) ↔
    (∀ e ∈ o.expressions, Covered p X front e) ∧ Settled p X front os := List.forall_mem_append

theorem settled_iff : Settled p X front os ↔
    ∀ o ∈ os, ∀ e ∈ o.expressions, Covered p X front e := by
  induction os with
  | nil => simp
  | cons o os ih => simp [ih]

@[simp] theorem settled_append : Settled p X front (as ++ bs) ↔
    Settled p X front as ∧ Settled p X front bs := by
  simp [settled_iff, or_imp, forall_and]

theorem Settled.guarded (h : Settled p X front os) : Guarded p X front os := by
  induction os generalizing front with
  | nil => trivial
  | cons o os ih =>
    obtain ⟨ho, hos⟩ := settled_cons.1 h
    exact ⟨ho, ih fun e he => (hos e he).append [o]⟩

end Expressions

namespace Lower

variable {p : Program} {X : Expr → Prop}

theorem Converts.covered (h : Converts e ty e') (he : Covered p X front e) :
    Covered p X front e' := by
  have hc := h.converted
  clear h
  induction hc with
  | refl => exact he
  | apply _ _ _ ih => simpa using ih

theorem Aligned.covered (h : Aligned l r l' r') (hl : Covered p X front l)
    (hr : Covered p X front r) : Covered p X front l' ∧ Covered p X front r' := by
  cases h with
  | right _ hc => exact ⟨hl, hc.covered hr⟩
  | left _ hc => exact ⟨hc.covered hl, hr⟩

theorem Combined.covered (h : Combined op l r e) (hl : Covered p X front l)
    (hr : Covered p X front r) : Covered p X front e := by
  cases h with
  | direct _ ha | div ha _ => exact covered_binary.2 (ha.covered hl hr)
  | remReal ha => simpa using ha.covered hl hr
  | remInt ha hcl hcr =>
    obtain ⟨hl', hr'⟩ := ha.covered hl hr
    simpa using ⟨hcl.covered hl', hcr.covered hr'⟩
  | connective => exact covered_binary.2 ⟨hl, hr⟩
  | function _ hcl hcr => simpa using ⟨hcl.covered hl, hcr.covered hr⟩

theorem guarded_newObject {x τ : Ident} : Guarded p X front (newObject x τ) := by
  have hread : Covered p X front (Prelude.read x.expr Prelude.alloc) :=
    covered_special (by decide) covered_ident
  have halloc : Covered p X front
      (.store Prelude.heap.expr [x.expr, Prelude.alloc.expr] (.bool true)) :=
    covered_specialStore (by decide) covered_ident covered_bool
  have htag : Covered p X front
      (.store Prelude.heap.expr [x.expr, Prelude.typeField.expr] τ.expr) :=
    covered_specialStore (by decide) covered_ident covered_ident
  have hnull : Covered p X front (Prelude.isNonNull x.expr) := covered_isNonNull covered_ident
  apply Settled.guarded
  simp [newObject, Prelude.write, Expr.not, hread, halloc, htag, hnull]

theorem guarded_nullGuard (h : Covered p X front e) :
    Guarded p X front (nullGuard s base e) := by
  unfold nullGuard
  split
  · trivial
  · apply guarded_singleton.2
    simpa [Obligation.nonNull] using covered_isNonNull h

/-- Expressions that need no check: those of the receiver and of the locals that hold it. -/
structure Exempts (X : Expr → Prop) (F : Frame) (s : Scratch) : Prop where
  receiver : ∀ x, F.signature.receiver = some x → X x.expr
  slot : ∀ index ∈ s.receivers, ∀ x, s.pool.slots[index]? = some x → X x.expr

theorem Exempts.later (h : Exempts X F s) (hs : s.Keeps s') : Exempts X F s' :=
  ⟨h.receiver, hs.receivers ▸ hs.slots ▸ h.slot⟩

/-- Guarded code after which an expression is guarded. -/
structure Yields (p : Program) (X : Expr → Prop) (front code : List Outline) (e : Expr) : Prop where
  guarded : Guarded p X front code
  covered : Covered p X (front ++ code) e

theorem Operand.checked (h : Operand F s base ⟨e, s', code⟩ j) (hX : Exempts X F s)
    (front : List Outline) : Checked X (front ++ (code ++ nullGuard s' base e)) e := by
  unfold nullGuard
  split
  · rename_i hk
    left
    have hX' := hX.later h.keeps
    obtain rfl | ⟨index, hi, rfl⟩ := knownReceiver_eq_true hk
    · cases h with
      | receiver hx => exact hX'.receiver _ hx
    · cases h with
      | slot hx => exact hX'.slot index hi _ (LocalPool.getElem?_of_slot hx)
  · right
    simp

theorem Operand.dereferenced (h : Operand F s base ⟨e, s', code⟩ j) (hX : Exempts X F s)
    (hy : Yields p X front code e) :
    Yields p X front (code ++ nullGuard s' base e) e ∧
      Checked X (front ++ (code ++ nullGuard s' base e)) e := by
  refine ⟨⟨guarded_append.2 ⟨hy.guarded, guarded_nullGuard hy.covered⟩, ?_⟩, h.checked hX front⟩
  rw [← List.append_assoc]
  exact hy.covered.append _

theorem guarded_boundsGuard (ha : Covered p X front a) (hi : Covered p X front i)
    (hb : Checked X front a) : Guarded p X front [boundsGuard a i] := by
  have hsize : Covered p X front (.select Prelude.arraySize.expr [a]) :=
    covered_access hb (by simpa using ha)
  simpa [guarded_singleton, boundsGuard, Expr.and] using ⟨hi, hsize⟩

theorem guarded_castGuard (h : Covered p X front e) : Guarded p X front [castGuard e τ] := by
  have htype : Covered p X front (Prelude.typeOf e) := covered_special (by decide) h
  simpa [guarded_singleton, castGuard, Expr.or, Expr.eq, Expr.subtype] using ⟨h, htype⟩

/-- Operands are guarded: every value that is dereferenced on the way to another one is checked
before the other one is used. -/
theorem Operand.yields (h : Operand F s v r j) (hX : Exempts X F s) (front : List Outline) :
    Yields F.program X front r.code r.value := by
  -- Any code may stand in front: that of the operands to the left is there for those to the right.
  induction h generalizing front with
  | slot | param | receiver | caught | staticField => exact ⟨trivial, covered_ident⟩
  | literal hc =>
    refine ⟨trivial, ?_⟩
    cases hc <;> simp
  | string =>
    refine ⟨guarded_append.2 ⟨guarded_newObject, guarded_singleton.2 ?_⟩, covered_ident⟩
    simpa using covered_stringStore covered_expr covered_int
  | instanceField hb hx _ ih | length hb ih =>
    obtain ⟨hbase, hchecked⟩ := hb.dereferenced hX (ih hX front)
    exact ⟨hbase.guarded, covered_access hchecked (by simpa using hbase.covered)⟩
  | @element base _ _ a s₁ c₁ _ _ _ _ c₂ _ _ _ ha _ hc iha ihi =>
    obtain ⟨hbase, hchecked⟩ := ha.dereferenced hX (iha hX front)
    have hindex := ihi (hX.later ha.keeps) (front ++ (c₁ ++ nullGuard s₁ base a))
    have hguarded := guarded_append.2 ⟨hbase.guarded, hindex.guarded⟩
    have harray := hbase.covered.append c₂
    have hi' := hc.covered hindex.covered
    replace hchecked := hchecked.append c₂
    rw [List.append_assoc] at harray hchecked hi'
    refine ⟨guarded_append.2 ⟨hguarded, guarded_boundsGuard harray hi' hchecked⟩, ?_⟩
    rw [← List.append_assoc]
    apply covered_element (harray.append _) (hi'.append _) (hchecked.append _)
    simp
  | @binary _ _ _ _ c₁ _ _ _ _ _ _ _ _ hl _ he ihl ihr =>
    have hleft := ihl hX front
    have hright := ihr (hX.later hl.keeps) (front ++ c₁)
    refine ⟨guarded_append.2 ⟨hleft.guarded, hright.guarded⟩, ?_⟩
    rw [← List.append_assoc]
    exact he.covered (hleft.covered.append _) hright.covered
  | neg _ ih =>
    obtain ⟨hcode, hvalue⟩ := ih hX front
    exact ⟨hcode, covered_unary.2 hvalue⟩
  | convert _ _ _ hc ih =>
    obtain ⟨hcode, hvalue⟩ := ih hX front
    exact ⟨hcode, hc.covered hvalue⟩
  | cast _ _ _ ih =>
    obtain ⟨hcode, hvalue⟩ := ih hX front
    refine ⟨guarded_append.2 ⟨hcode, guarded_castGuard hvalue⟩, ?_⟩
    rw [← List.append_assoc]
    exact hvalue.append _
  | instanceOf _ _ ih =>
    obtain ⟨hcode, hvalue⟩ := ih hX front
    have htype := covered_special (x := Prelude.typeField) (by decide) hvalue
    exact ⟨hcode, covered_binary.2 ⟨covered_isNonNull hvalue, covered_binary.2 ⟨htype, covered_ident⟩⟩⟩

theorem covered_fieldStore (hx : p.fieldIdent i = .ok x)
    (h : Covered p X front (Prelude.read b x)) (hv : Covered p X front v) :
    Covered p X front (.store Prelude.heap.expr [b, x.expr] v) := by
  obtain ⟨hp, -, his⟩ := covered_select.1 h
  exact covered_update (by decide) (hp.nonNull b (.field hx)) his hv

theorem covered_elementStore {heap : Ident} (hh : Prelude.arrays? ty = some heap)
    (h : Covered p X front (.select (.select heap.expr [a]) [i])) (hv : Covered p X front v) :
    Covered p X front (.store heap.expr [a] (.store (.select heap.expr [a]) [i] v)) := by
  obtain ⟨hp, hrow, hi⟩ := covered_select.1 h
  obtain ⟨hp', -, ha⟩ := covered_select.1 hrow
  have hstore : Protected p X front (.store (.select heap.expr [a]) [i] v) := by
    refine ⟨fun b hd => ?_, fun b k hk => ?_, fun b hr => ?_⟩
    · obtain ⟨x, hx⟩ := hd.ident_of_store
      cases hx
    · cases hk
      exact hp.bounds a i (.element hh)
    · cases hr.of_store.1
  exact covered_update (arrays_ne_sizes hh).2 (hp'.nonNull a (.row hh)) ha
    (covered_store.2 ⟨hstore, hrow, hi, hv⟩)

theorem guarded_storeGuard (h : Covered p X front e) : Guarded p X front (storeGuard f e) := by
  unfold storeGuard
  split
  · apply guarded_singleton.2
    simpa [Obligation.nonNull] using covered_isNonNull h
  · trivial

theorem guarded_assign (h : Covered p X front e) : Guarded p X front [.plain (.assign x e)] := by
  simpa [guarded_singleton] using h

theorem Stored.guarded (h : Stored F s target e r j) (hX : Exempts X F s)
    (he : Covered F.program X front e) : Guarded F.program X front r.code := by
  cases h with
  | slot _ hc => exact guarded_assign (hc.covered he)
  | @field _ _ _ _ _ code _ _ _ e' f _ hi hl _ hc _ hs =>
    have hlocation := hl.yields hX front
    have he' := hc.covered (he.append code)
    have hguarded := guarded_append.2 ⟨hlocation.guarded, guarded_storeGuard (f := f) he'⟩
    refine guarded_append.2 ⟨hguarded, ?_⟩
    have hvalue := he'.append (storeGuard f e')
    have hcovered := hlocation.covered.append (storeGuard f e')
    rw [List.append_assoc] at hvalue hcovered
    cases hl with
    | instanceField _ hx =>
      cases hs
      exact guarded_assign (covered_fieldStore hx hcovered hvalue)
    | staticField =>
      cases hs
      exact guarded_assign hvalue
    | _ => cases hi
  | @element _ _ _ _ _ code _ _ _ _ _ hl _ hc hs =>
    have hlocation := hl.yields hX front
    have he' := hc.covered (he.append code)
    refine guarded_append.2 ⟨hlocation.guarded, ?_⟩
    have hcovered := hlocation.covered
    cases hl with
    | element hh =>
      obtain ⟨ty, elem, -, -, hheap⟩ := hh
      cases hs
      exact guarded_assign (covered_elementStore hheap hcovered he')

theorem settled_obligations {es : List Expr} {v : Violation} {f : Expr → Expr}
    (h : ∀ e ∈ es, Covered p X front (f e)) :
    Settled p X front (es.map fun e => .oblige ⟨v, some (f e)⟩) := by
  apply settled_iff.2
  intro o ho
  obtain ⟨e, he, rfl⟩ := List.mem_map.1 ho
  simpa using h e he

theorem covered_substitute {formals : List Ident} (h : ∀ a ∈ actuals, Covered p X front a)
    (x : Ident) :
    Covered p X front ((Prelude.isNonNull x.expr).substitute
      (Subst.ofPairs (formals.zip actuals))) := by
  have hident : ∀ y : Ident,
      Covered p X front (Expr.substitute (Subst.ofPairs (formals.zip actuals)) y.expr) := by
    intro y
    rw [Ident.expr, Expr.substitute]
    cases hy : Subst.ofPairs (formals.zip actuals) y with
    | none => exact covered_ident
    | some a => exact h a (List.of_mem_zip (Subst.mem_of_ofPairs hy)).2
  exact covered_binary.2 ⟨hident x, hident Prelude.null⟩

end Lower

theorem Signature.Built.precondition_standard (h : Built p .standard i sig j)
    (he : e ∈ sig.procedure.preconditions) : ∃ x : Ident, e = Prelude.isNonNull x.expr := by
  obtain hmem | ⟨x, -, rfl⟩ := h.precondition he
  · rw [List.mem_singleton.1 hmem] at he
    cases he
  · exact ⟨x, rfl⟩

theorem Signature.Built.postcondition_standard (h : Built p .standard i sig j)
    (he : e ∈ sig.procedure.postconditions) : ∃ x : Ident, e = Prelude.isNonNull x.expr := by
  obtain hmem | ⟨x, -, rfl⟩ := h.postcondition he
  · rw [List.mem_singleton.1 hmem] at he
    cases he
  · exact ⟨x, rfl⟩

namespace Lower

variable {X : Expr → Prop}

/-- The frame of a body that is lowered with the standard prelude. -/
structure Standard (F : Frame) : Prop where
  prelude : F.prelude = .standard
  postcondition : ∀ e ∈ F.signature.procedure.postconditions,
    ∃ x : Ident, e = Prelude.isNonNull x.expr

theorem Standard.exitCode (h : Standard F) : Settled p X front (exitCode F) := by
  refine settled_append.2 ⟨settled_obligations fun e he => ?_, by simp⟩
  obtain ⟨x, rfl⟩ := h.postcondition e he
  exact covered_isNonNull covered_expr

theorem Assumed.settled (h : Assumed F callee result captured code j) :
    Settled p X front code := by
  have htype : ∀ x : Ident, Covered p X front (Prelude.typeOf x.expr) := fun x =>
    covered_special (by decide) covered_expr
  have hnull : ∀ x : Ident, Covered p X front (Prelude.isNonNull x.expr) := fun x =>
    covered_isNonNull covered_expr
  cases h with
  | annotated =>
    unfold resultFacts
    split <;> simp [Expr.subtype, Expr.eq, htype, hnull]
  | plain => simp

theorem DirectCall.settled (h : DirectCall F m callee actuals result captured code j)
    (hF : Standard F) (ha : ∀ a ∈ actuals, Covered p X front a) : Settled p X front code := by
  obtain ⟨hs, -, -, hassumed⟩ := h
  rw [hF.prelude] at hs
  obtain ⟨_, hbuilt⟩ := Signature.built_of_result hs
  refine settled_append.2
    ⟨settled_append.2 ⟨settled_obligations fun e he => ?_, by simpa using ha⟩, hassumed.settled⟩
  obtain ⟨x, rfl⟩ := hbuilt.precondition_standard he
  exact covered_substitute ha x

theorem GuardedCalls.settled
    (h : GuardedCalls F receiver actuals result captured ts thrown code j) (hF : Standard F)
    (hr : Covered p X front receiver) (ha : ∀ a ∈ actuals, Covered p X front a) :
    Settled p X front code := by
  induction h with
  | nil => exact settled_nil
  | cons _ hd _ _ ih =>
    have htype : Covered p X front (Prelude.typeOf receiver) := covered_special (by decide) hr
    refine settled_cons.2 ⟨List.forall_mem_cons.2 ⟨?_, hd.settled hF ha⟩, ih⟩
    simp [Expr.eq, htype]

theorem Performed.settled
    (h : Performed F n call callee actuals result captured receiver thrown code j)
    (hF : Standard F) (hr : ∀ e, receiver = some e → Covered p X front e)
    (ha : ∀ a ∈ actuals, Covered p X front a) : Settled p X front code := by
  cases h with
  | direct _ hd | fallback _ _ _ _ hd => exact hd.settled hF ha
  | devirtualized _ _ _ _ _ hg => exact hg.settled hF (hr _ rfl) ha

theorem covered_caughtBy : Covered p X front (caughtBy F τ) := by
  have htype : Covered p X front (Prelude.typeOf F.signature.exception.expr) :=
    covered_special (by decide) covered_expr
  simp [caughtBy, Expr.subtype, htype]

theorem covered_caught : Covered p X front (.and (inFlight F) (caughtBy F τ)) :=
  covered_binary.2 ⟨covered_isNonNull covered_expr, covered_caughtBy⟩

theorem TrapJumps.settled (h : TrapJumps F ts code j) : Settled p X front code := by
  induction h with
  | nil => exact settled_nil
  | cons _ _ ih => exact settled_cons.2 ⟨by simpa using covered_caught, ih⟩

theorem EscapeExits.settled (h : EscapeExits F n fuel types code j) (hF : Standard F) :
    Settled p X front code := by
  induction h with
  | spent | done => exact settled_nil
  | step _ _ _ _ ih =>
    exact settled_cons.2 ⟨List.forall_mem_cons.2 ⟨covered_caught, hF.exitCode⟩, ih⟩

theorem Continued.settled (h : Continued F n thrown code j) (hF : Standard F) :
    Settled p X front code := by
  obtain ⟨hj, -, he⟩ := h
  exact settled_append.2 ⟨hj.settled, he.settled hF⟩

theorem CatchJumps.settled (h : CatchJumps F handler ids code j) : Settled p X front code := by
  induction h with
  | nil => exact settled_nil
  | cons _ _ ih => exact settled_cons.2 ⟨by simpa [jump] using covered_caughtBy, ih⟩

theorem HandlerJumps.settled (h : HandlerJumps F traps handlers code j) :
    Settled p X front code := by
  induction h with
  | nil => exact settled_nil
  | cons hc _ ih => exact settled_append.2 ⟨hc.settled, ih⟩

theorem Handed.settled (h : Handed F n code j) (hF : Standard F) : Settled p X front code := by
  cases h with
  | leave => exact hF.exitCode
  | single => simp [jump]
  | many _ hj => exact settled_append.2 ⟨hj.settled, by simp⟩

theorem Arguments.guarded (h : Arguments F s args r j) (hX : Exempts X F s)
    (front : List Outline) : Guarded F.program X front r.code ∧
      ∀ a ∈ r.value, Covered F.program X (front ++ r.code) a := by
  induction h generalizing front with
  | nil => exact ⟨trivial, nofun⟩
  | @cons _ _ _ _ c₁ _ _ _ _ _ _ _ _ _ ha _ hc _ ih =>
    have hfirst := ha.yields hX front
    obtain ⟨hcode, hrest⟩ := ih (hX.later ha.keeps) (front ++ c₁)
    refine ⟨guarded_append.2 ⟨hfirst.guarded, hcode⟩, ?_⟩
    rw [← List.append_assoc]
    exact List.forall_mem_cons.2 ⟨hc.covered (hfirst.covered.append _), hrest⟩

theorem ReceiverOf.guarded (h : ReceiverOf F s call r j) (hX : Exempts X F s)
    (front : List Outline) : Guarded F.program X front r.code ∧
      ∀ e, r.value = some e → Covered F.program X (front ++ r.code) e := by
  cases h with
  | none => exact ⟨trivial, nofun⟩
  | dynamic _ _ ho =>
    obtain ⟨hbase, -⟩ := ho.dereferenced hX (ho.yields hX front)
    exact ⟨hbase.guarded, fun e he => Option.some.inj he ▸ hbase.covered⟩
  | direct _ _ ho =>
    have hbase := ho.yields hX front
    exact ⟨hbase.guarded, fun e he => Option.some.inj he ▸ hbase.covered⟩

theorem WrittenBack.guarded (h : WrittenBack F s w r j) (hX : Exempts X F s) :
    Guarded F.program X front r.code := by
  cases h with
  | none => trivial
  | some hst => exact hst.guarded hX covered_expr

theorem Invoked.guarded {call : Call} (h : Invoked F n call target s r j) (hF : Standard F)
    (hX : Exempts X F s) (front : List Outline) : Guarded F.program X front r.code := by
  cases h with
  | exit => exact hF.exitCode.guarded
  | stringLengthDropped _ _ _ ho =>
    obtain ⟨hbase, -⟩ := ho.dereferenced hX (ho.yields hX front)
    exact hbase.guarded
  | stringLength _ _ _ ho _ hst =>
    obtain ⟨hbase, hchecked⟩ := ho.dereferenced hX (ho.yields hX front)
    refine guarded_append.2 ⟨hbase.guarded, hst.guarded (hX.later ho.keeps) ?_⟩
    exact covered_access hchecked (by simpa using hbase.covered)
  | @call _ _ receiver _ c₁ _ args _ c₂ _ _ _ _ c₃ _ c₄ _ _ c₅ _ _ _ _ _ hr ha hd hp hx hw =>
    obtain ⟨hc₁, hreceiver⟩ := hr.guarded hX front
    obtain ⟨hc₂, hargs⟩ := ha.guarded (hX.later hr.keeps) (front ++ c₁)
    have hactuals : ∀ a ∈ receiver.toList ++ args,
        Covered F.program X (front ++ c₁ ++ c₂) a := by
      apply List.forall_mem_append.2 ⟨fun a ha' => ?_, hargs⟩
      exact (hreceiver a (Option.mem_toList.1 ha')).append c₂
    -- The branches of a dynamic call need no checks of their own: all that they read are actuals,
    -- and the code of these stands in front.
    have hc₃ := hp.settled hF (fun e he => (hreceiver e he).append c₂) hactuals
    have hX₃ := ((hX.later hr.keeps).later ha.keeps).later hd.keeps
    simp only [guarded_append, ← List.append_assoc]
    exact ⟨⟨⟨⟨hc₁, hc₂⟩, hc₃.guarded⟩, (hx.settled hF).guarded⟩, hw.guarded hX₃⟩

theorem Dropped.guarded (h : Dropped F s vs r j) (hX : Exempts X F s) (front : List Outline) :
    Guarded F.program X front r.code := by
  induction h generalizing front with
  | nil => trivial
  | cons ho _ ih =>
    exact guarded_append.2 ⟨(ho.yields hX front).guarded, ih (hX.later ho.keeps) _⟩

theorem Assigned.guarded (h : Assigned F n target s v r j) (hF : Standard F)
    (hX : Exempts X F s) (front : List Outline) : Guarded F.program X front r.code := by
  cases h with
  | invoke h => exact h.guarded hF hX front
  | new _ hst =>
    exact guarded_append.2 ⟨guarded_newObject, hst.guarded (hX.later (.grown _ _)) covered_expr⟩
  | newArray ho hc _ hst =>
    have hsize := ho.yields hX front
    have hX' := hX.later (ho.keeps.trans (.grown _ .ref))
    simp only [guarded_append, ← List.append_assoc]
    refine ⟨⟨⟨hsize.guarded, guarded_newObject⟩, guarded_assign ?_⟩, hst.guarded hX' covered_expr⟩
    exact covered_sizeStore (List.suffix_append _ _).isInfix (hc.covered (hsize.covered.append _))
  | newMultiArray hd _ hst =>
    have hX' := hX.later (hd.keeps.trans (.globalized _))
    simp only [guarded_append]
    exact ⟨⟨hd.guarded hX front, guarded_newObject⟩, hst.guarded hX' covered_expr⟩
  | value ho hst =>
    have hvalue := ho.yields hX front
    exact guarded_append.2 ⟨hvalue.guarded, hst.guarded (hX.later ho.keeps) hvalue.covered⟩

theorem covered_cascaded {inner : Stmt} (hk : Covered p X front key)
    (hi : ∀ e ∈ (Outline.plain inner).expressions, Covered p X front e) :
    ∀ e ∈ (Outline.plain (cascaded F key cases inner)).expressions, Covered p X front e := by
  induction cases generalizing inner with
  | nil => exact hi
  | cons c cases ih =>
    apply ih
    simpa [expressions_ite, jump, Expr.eq, hk] using hi

theorem Switched.guarded (h : Switched F n key cases other s r j) (hX : Exempts X F s)
    (front : List Outline) : Guarded F.program X front r.code := by
  cases h with
  | empty => simp [guarded_singleton, jump]
  | cascade _ ho hc =>
    have hkey := ho.yields hX front
    refine guarded_append.2 ⟨hkey.guarded, guarded_singleton.2 ?_⟩
    exact covered_cascaded (hc.covered hkey.covered) (by simp [jump])

theorem Bound.guarded (h : Bound F s index v r) : Guarded p X front r.code := by
  cases h with
  | receiver _ _ hc | param _ _ hc => exact guarded_assign (hc.covered covered_expr)
  | caught => exact Settled.guarded (by simp)

/-- The code of an instruction is guarded. -/
theorem Executed.guarded (h : Executed F n s i r j) (hF : Standard F) (hX : Exempts X F s)
    (front : List Outline) : Guarded F.program X front r.code := by
  cases h with
  | assign h => exact h.guarded hF hX front
  | identity h => exact h.guarded
  | invoke h => exact h.guarded hF hX front
  | goto => simp [guarded_singleton, jump]
  | branch ho hc =>
    have hvalue := ho.yields hX front
    refine guarded_append.2 ⟨hvalue.guarded, guarded_singleton.2 ?_⟩
    simpa [jump] using hc.covered hvalue.covered
  | lookupSwitch h | tableSwitch _ h => exact h.guarded hX front
  | ret _ ho hc =>
    have hvalue := ho.yields hX front
    simp only [guarded_append]
    exact ⟨⟨hvalue.guarded, guarded_assign (hc.covered hvalue.covered)⟩, hF.exitCode.guarded⟩
  | retVoid => exact hF.exitCode.guarded
  | raise ho hc _ hh =>
    have hvalue := ho.yields hX front
    simp only [guarded_append]
    exact ⟨⟨hvalue.guarded, guarded_assign (hc.covered hvalue.covered)⟩, (hh.settled hF).guarded⟩
  | nop | breakpoint => trivial
  | enterMonitor ho | exitMonitor ho =>
    exact (ho.dereferenced hX (ho.yields hX front)).1.guarded
  | retSubroutine => simp [guarded_singleton, Outline.expressions]

theorem guarded_entryCode : Guarded p X front (entryCode F n) := by
  unfold entryCode
  split
  · simp [guarded_singleton]
  · trivial

end Lower

end Verilower
