import Verilower.Proofs.Lowering.Outcome

namespace Verilower
set_option autoImplicit true

open Ivl (Ident Expr Stmt)

def Scratch.grown (s : Scratch) (ty : Ivl.Ty) : Scratch := { s with pool := (s.pool.fresh ty).1 }

def Scratch.next (s : Scratch) (ty : Ivl.Ty) : Ident := (s.pool.fresh ty).2

/-- The operator that stands for an operation on aligned operands. -/
def BinaryOp.direct? : BinaryOp → Option Ivl.BinOp
  | .add => some .add
  | .sub => some .sub
  | .mul => some .mul
  | .eq => some .eq
  | .ne => some .neq
  | .lt => some .lt
  | .le => some .le
  | .gt => some .gt
  | .ge => some .ge
  | _ => none

/-- The connective that stands for an operation on truth values. -/
def BinaryOp.connective? : BinaryOp → Option Ivl.BinOp
  | .and => some .and
  | .or => some .or
  | .xor => some .neq
  | _ => none

/-- The function that stands for an operation, with the type of its operands and its result. -/
def BinaryOp.function? : BinaryOp → Option (String × Ivl.Ty × Ivl.Ty)
  | .and => some ("$bitAnd", .int, .int)
  | .or => some ("$bitOr", .int, .int)
  | .xor => some ("$bitXor", .int, .int)
  | .shl => some ("$shl", .int, .int)
  | .shr => some ("$shr", .int, .int)
  | .ushr => some ("$ushr", .int, .int)
  | .cmp => some ("$cmpInt", .int, .int)
  | .cmpl => some ("$cmplReal", .real, .int)
  | .cmpg => some ("$cmpgReal", .real, .int)
  | _ => none

namespace Lower

/-- `e` converts to `e'`, which has the type. -/
abbrev Converts (e : Expr) (ty : Ivl.Ty) (e' : Expr) : Prop := Prelude.coerce e ty = .ok (some e')

/-- Two operands brought to the type of one of them. -/
inductive Aligned : Expr → Expr → Expr → Expr → Prop
  | right (hl : l.ty = .ok t) (hr : Converts r t r') : Aligned l r l r'
  | left (hr : r.ty = .ok t) (hl : Converts l t l') : Aligned l r l' r

inductive Combined : BinaryOp → Expr → Expr → Expr → Prop
  | direct (hop : op.direct? = some op') (ha : Aligned l r l' r') :
      Combined op l r (.binary op' l' r')
  | div (ha : Aligned l r l' r') (ht : l'.ty = .ok t) :
      Combined .div l r (.binary (if t = .real then .realDiv else .div) l' r')
  | remReal (ha : Aligned l r l' r') (ht : l'.ty = .ok .real) :
      Combined .rem l r (.apply "$remReal" [l', r'] .real)
  | remInt (ha : Aligned l r l₁ r₁) (hl : Converts l₁ .int l₂) (hr : Converts r₁ .int r₂) :
      Combined .rem l r (.apply "$remInt" [l₂, r₂] .int)
  | connective (hop : op.connective? = some op') (hl : l.ty = .ok .bool) (hr : r.ty = .ok .bool) :
      Combined op l r (.binary op' l r)
  | function (hf : op.function? = some (name, operand, result)) (hl : Converts l operand l')
      (hr : Converts r operand r') : Combined op l r (.apply name [l', r'] result)

/-- Constants without an object of their own. -/
inductive Literal : Constant → Expr → Prop
  | int : Literal (.int n) (.int n)
  | long : Literal (.long n) (.int n)
  | float (h : v.isFinite = true) : Literal (.float v) (.real v.literal)
  | bool : Literal (.bool b) (.bool b)
  | null : Literal .null Prelude.null.expr

/-- The outlines that make `x` a new object with the tag. -/
def newObject (x tag : Ident) : List Outline := [
  .plain (.havoc [x]),
  .plain (.assume (.not (Prelude.read x.expr Prelude.alloc))),
  .plain (Prelude.write x.expr Prelude.alloc (.bool true)),
  .plain (.assume (Prelude.isNonNull x.expr)),
  .plain (Prelude.write x.expr Prelude.typeField tag.expr)]

def knownReceiver (s : Scratch) : Value → Bool
  | .receiver => true
  | .slot index => s.receivers.contains index
  | _ => false

/-- The obligation of dereferencing `base`, whose expression is `e`. -/
def nullGuard (s : Scratch) (base : Value) (e : Expr) : List Outline :=
  if knownReceiver s base then [] else [.oblige (.nonNull e)]

def boundsGuard (array index : Expr) : Outline :=
  .oblige ⟨.arrayBounds, some (.and (.binary .le (.int 0) index)
    (.binary .lt index (.select Prelude.arraySize.expr [array])))⟩

def castGuard (e : Expr) (tag : Ident) : Outline :=
  .oblige ⟨.classCast, some (.or (.eq e Prelude.null.expr)
    (.subtype (Prelude.typeOf e) tag.expr))⟩

def ElementHeap (F : Frame) (base : Value) (heap : Ident) : Prop :=
  ∃ ty elem, F.body.typeOf F.program base = .ok (some (.array ty)) ∧ ty.lowered = .ok elem ∧
    Prelude.arrays? elem = some heap

/-- What the lowering of an operand yields. -/
inductive Operand (F : Frame) : Scratch → Value → Emitted Expr → List Event → Prop
  | slot (hx : s.pool.slot index = .ok x) : Operand F s (.slot index) ⟨x.expr, s, []⟩ []
  | literal (hc : Literal c e) : Operand F s (.constant c) ⟨e, s, []⟩ []
  | string (ht : F.program.tag (.cls ClassId.string) = .ok τ) :
      Operand F s (.constant (.string text)) ⟨(s.next .ref).expr, s.grown .ref,
        newObject (s.next .ref) τ ++ [.plain (.assign Prelude.stringSize
          (.store Prelude.stringSize.expr [(s.next .ref).expr] (.int (Text.units16 text))))]⟩
        [.tag (.cls ClassId.string)]
  | param (hx : F.signature.params[index]? = some x) :
      Operand F s (.param index) ⟨x.expr, s, []⟩ []
  | receiver (hx : F.signature.receiver = some x) : Operand F s .receiver ⟨x.expr, s, []⟩ []
  | caught : Operand F s .caught ⟨F.signature.exception.expr, s, []⟩ []
  | instanceField (hb : Operand F s base ⟨b, s', code⟩ j)
      (hx : F.program.fieldIdent i = .ok x) (ht : x.ty = .field t) :
      Operand F s (.instanceField base i)
        ⟨Prelude.read b x, s', code ++ nullGuard s' base b⟩ (j ++ [.field i])
  | staticField (hx : F.program.fieldIdent i = .ok x) (ht : ∀ t, x.ty ≠ .field t) :
      Operand F s (.staticField i) ⟨x.expr, s, []⟩ [.field i]
  | element (hh : ElementHeap F base heap) (ha : Operand F s base ⟨a, s₁, c₁⟩ j₁)
      (hi : Operand F s₁ index ⟨i, s₂, c₂⟩ j₂) (hc : Converts i .int i') :
      Operand F s (.element base index) ⟨.select (.select heap.expr [a]) [i'], s₂,
        c₁ ++ nullGuard s₁ base a ++ c₂ ++ [boundsGuard a i']⟩ (j₁ ++ j₂)
  | length (ha : Operand F s base ⟨a, s', code⟩ j) :
      Operand F s (.length base)
        ⟨.select Prelude.arraySize.expr [a], s', code ++ nullGuard s' base a⟩ j
  | binary (hl : Operand F s lhs ⟨l, s₁, c₁⟩ j₁) (hr : Operand F s₁ rhs ⟨r, s₂, c₂⟩ j₂)
      (he : Combined op l r e) : Operand F s (.binary op lhs rhs) ⟨e, s₂, c₁ ++ c₂⟩ (j₁ ++ j₂)
  | neg (ha : Operand F s arg ⟨a, s', code⟩ j) :
      Operand F s (.neg arg) ⟨.unary .neg a, s', code⟩ j
  | convert (ha : Operand F s arg ⟨a, s', code⟩ j) (hr : ty.isReference = false)
      (ht : ty.lowered = .ok t) (hc : Converts a t e) :
      Operand F s (.cast arg ty) ⟨e, s', code⟩ j
  | cast (ha : Operand F s arg ⟨a, s', code⟩ j) (hr : ty.isReference = true)
      (ht : F.program.tag ty = .ok τ) :
      Operand F s (.cast arg ty) ⟨a, s', code ++ [castGuard a τ]⟩ (j ++ [.tag ty])
  | instanceOf (ha : Operand F s arg ⟨a, s', code⟩ j) (ht : F.program.tag ty = .ok τ) :
      Operand F s (.instanceOf arg ty)
        ⟨.and (Prelude.isNonNull a) (.subtype (Prelude.typeOf a) τ.expr), s', code⟩
        (j ++ [.tag ty])

@[simp] theorem gives_allocateInto : (allocateInto x ty).Gives F s r j ↔
    ∃ τ, F.program.tag ty = .ok τ ∧ r = ⟨(), s, newObject x τ⟩ ∧ j = [.tag ty] := by
  constructor
  · intro h
    simp [allocateInto] at h
    obtain ⟨τ, ⟨ht, rfl⟩, rfl⟩ := h
    exact ⟨τ, ht, rfl, rfl⟩
  · rintro ⟨τ, ht, rfl, rfl⟩
    simp [allocateInto, newObject, ht]

@[simp] theorem gives_allocate : (allocate ty).Gives F s r j ↔ ∃ τ, F.program.tag ty = .ok τ ∧
    r = ⟨s.next .ref, s.grown .ref, newObject (s.next .ref) τ⟩ ∧ j = [.tag ty] := by
  constructor
  · intro h
    simp [allocate] at h
    obtain ⟨τ, ht, rfl, rfl⟩ := h
    exact ⟨τ, ht, rfl, rfl⟩
  · rintro ⟨τ, ht, rfl, rfl⟩
    simp [allocate, Scratch.next, Scratch.grown, ht]

@[simp] theorem gives_isReceiver : (isReceiver base).Gives F s r j ↔
    r = ⟨knownReceiver s base, s, []⟩ ∧ j = [] := by
  cases base <;> simp [isReceiver, knownReceiver, and_comm]

@[simp] theorem gives_guardNonNull : (guardNonNull base e).Gives F s r j ↔
    r = ⟨e, s, nullGuard s base e⟩ ∧ j = [] := by
  cases hk : knownReceiver s base <;> simp [guardNonNull, nullGuard, hk, and_comm]

@[simp] theorem gives_guardBounds : (guardBounds a i).Gives F s r j ↔
    r = ⟨(), s, [boundsGuard a i]⟩ ∧ j = [] := by
  simp [guardBounds, boundsGuard]

theorem elementHeap_gives (h : (elementHeap base).Gives F s r j) :
    ∃ heap, ElementHeap F base heap ∧ r = ⟨heap, s, []⟩ ∧ j = [] := by
  simp only [elementHeap, gives_frame_bind, gives_promise_bind] at h
  obtain ⟨ty, ht, h⟩ := h
  split at h
  · simp at h
  · rename_i elem he
    have hty : ty = some (.array elem) := by
      cases ty with
      | none => cases he
      | some ty =>
        cases ty <;> cases he
        rfl
    simp only [gives_decision_bind] at h
    obtain ⟨t, hl, h⟩ := h
    split at h
    · rename_i heap hh
      exact ⟨heap, ⟨elem, t, hty ▸ ht, hl, hh⟩, gives_pure.1 h⟩
    · simp at h

theorem align_gives (h : (align l r).Gives F s q j) :
    ∃ l' r', Aligned l r l' r' ∧ q = ⟨(l', r'), s, []⟩ ∧ j = [] := by
  simp only [align, gives_typeOf_bind] at h
  obtain ⟨tl, hl, tr, hr, h⟩ := h
  have conv {e e' : Expr} {a b : Ivl.Ty} (he : e.ty = .ok a)
      (hc : Prelude.convert a b e = some e') : Converts e b e' :=
    Prelude.coerce_eq_ok.2 ⟨a, he, hc⟩
  split at h
  · rename_i ht
    subst ht
    exact ⟨l, r, .right hl (conv hr (by simp [Prelude.convert])), gives_pure.1 h⟩
  · split at h
    · rename_i r' hc
      exact ⟨l, r', .right hl (conv hr hc), gives_pure.1 h⟩
    · split at h
      · rename_i l' hc
        exact ⟨l', r, .left hr (conv hl hc), gives_pure.1 h⟩
      · simp at h

theorem gives_align_bind {f : Expr × Expr → Lower α} (h : (align l r >>= f).Gives F s q j) :
    ∃ l' r', Aligned l r l' r' ∧ (f (l', r')).Gives F s q j := by
  obtain ⟨_, _, _, _, ha, hf, rfl, rfl⟩ := gives_bind.1 h
  obtain ⟨l', r', hlr, rfl, rfl⟩ := align_gives ha
  exact ⟨l', r', hlr, hf⟩

@[simp] theorem gives_converted : (converted f operand result l r).Gives F s q j ↔
    ∃ l' r', Converts l operand l' ∧ Converts r operand r' ∧
      q = ⟨.apply f [l', r'] result, s, []⟩ ∧ j = [] := by
  simp [converted]

theorem aligned_gives (h : (aligned op' l r).Gives F s q j) (hop : op.direct? = some op') :
    ∃ e, Combined op l r e ∧ q = ⟨e, s, []⟩ ∧ j = [] := by
  obtain ⟨l', r', hlr, h⟩ := gives_align_bind h
  exact ⟨_, .direct hop hlr, gives_pure.1 h⟩

theorem bothBool_gives (h : (bothBool l r).Gives F s q j) :
    ∃ b, (b = true → l.ty = .ok .bool ∧ r.ty = .ok .bool) ∧ q = ⟨b, s, []⟩ ∧ j = [] := by
  simp only [bothBool, gives_typeOf_bind] at h
  obtain ⟨tl, hl, h⟩ := h
  split at h
  · rename_i htl
    simp only [gives_typeOf_bind, gives_pure] at h
    obtain ⟨tr, hr, hq⟩ := h
    refine ⟨decide (tr = .bool), ?_, hq⟩
    intro htr
    exact ⟨htl ▸ hl, of_decide_eq_true htr ▸ hr⟩
  · exact ⟨false, by simp, gives_pure.1 h⟩

theorem logical_gives (h : (logical op' f l r).Gives F s q j) (hop : op.connective? = some op')
    (hf : op.function? = some (f, .int, .int)) :
    ∃ e, Combined op l r e ∧ q = ⟨e, s, []⟩ ∧ j = [] := by
  obtain ⟨_, _, _, _, hb, h₁, rfl, rfl⟩ := gives_bind.1 h
  obtain ⟨b, ht, rfl, rfl⟩ := bothBool_gives hb
  cases b with
  | true =>
    obtain ⟨rfl, rfl⟩ := gives_pure.1 h₁
    exact ⟨_, .connective hop (ht rfl).1 (ht rfl).2, rfl, rfl⟩
  | false =>
    obtain ⟨l', r', hl, hr, rfl, rfl⟩ := gives_converted.1 h₁
    exact ⟨_, .function hf hl hr, rfl, rfl⟩

theorem binary_gives (h : (binary op l r).Gives F s q j) :
    ∃ e, Combined op l r e ∧ q = ⟨e, s, []⟩ ∧ j = [] := by
  cases op
  case add | sub | mul | eq | ne | lt | le | gt | ge => exact aligned_gives h rfl
  case and | or | xor => exact logical_gives h rfl rfl
  case shl | shr | ushr | cmp | cmpl | cmpg =>
    obtain ⟨l', r', hl, hr, hq⟩ := gives_converted.1 h
    exact ⟨_, .function rfl hl hr, hq⟩
  case div =>
    obtain ⟨l', r', hlr, h⟩ := gives_align_bind h
    obtain ⟨t, hl, h⟩ := gives_typeOf_bind.1 h
    exact ⟨_, .div hlr hl, gives_pure.1 h⟩
  case rem =>
    obtain ⟨l', r', hlr, h⟩ := gives_align_bind h
    obtain ⟨t, hl, h⟩ := gives_typeOf_bind.1 h
    split at h
    · rename_i hreal
      exact ⟨_, .remReal hlr (hreal ▸ hl), gives_pure.1 h⟩
    · obtain ⟨l₂, r₂, hl, hr, hq⟩ := gives_converted.1 h
      exact ⟨_, .remInt hlr hl hr, hq⟩

theorem constant_gives (h : (constant c).Gives F s r j) : Operand F s (.constant c) r j := by
  cases c with
  | int n | long n | bool b | null =>
    obtain ⟨rfl, rfl⟩ := gives_pure.1 h
    exact .literal (by constructor)
  | float v =>
    simp only [constant] at h
    split at h
    · rename_i hv
      obtain ⟨rfl, rfl⟩ := gives_pure.1 h
      exact .literal (.float hv)
    · simp at h
  | string text =>
    simp [constant] at h
    obtain ⟨τ, ⟨ht, rfl⟩, rfl⟩ := h
    exact .string ht

theorem cast_gives (h : (cast a ty).Gives F s r j) :
    (∃ t e, ty.isReference = false ∧ ty.lowered = .ok t ∧ Converts a t e ∧
      r = ⟨e, s, []⟩ ∧ j = []) ∨
    ∃ τ, ty.isReference = true ∧ F.program.tag ty = .ok τ ∧ r = ⟨a, s, [castGuard a τ]⟩ ∧
      j = [.tag ty] := by
  cases hr : ty.isReference with
  | false =>
    simp [cast, hr] at h
    obtain ⟨t, ht, e, he, rfl, rfl⟩ := h
    exact .inl ⟨t, e, rfl, ht, he, rfl, rfl⟩
  | true =>
    simp [cast, hr] at h
    obtain ⟨τ, ⟨ht, rfl⟩, rfl⟩ := h
    exact .inr ⟨τ, rfl, ht, rfl, rfl⟩

/-- Every successful lowering of an operand has a derivation. -/
theorem value_gives : ∀ {v : Value} {s : Scratch} {r : Emitted Expr} {j : List Event},
    (value v).Gives F s r j → Operand F s v r j
  | .slot index, s, r, j, h => by
    simp [value, and_assoc] at h
    obtain ⟨x, hx, rfl, rfl⟩ := h
    exact .slot hx
  | .constant c, s, r, j, h => constant_gives h
  | .param index, s, r, j, h => by
    simp only [value, gives_frame_bind] at h
    split at h
    · rename_i x hx
      obtain ⟨rfl, rfl⟩ := gives_pure.1 h
      exact .param hx
    · simp at h
  | .receiver, s, r, j, h => by
    simp only [value, gives_frame_bind] at h
    split at h
    · rename_i x hx
      obtain ⟨rfl, rfl⟩ := gives_pure.1 h
      exact .receiver hx
    · simp at h
  | .caught, s, r, j, h => by
    simp only [value, gives_frame_bind] at h
    obtain ⟨rfl, rfl⟩ := gives_pure.1 h
    exact .caught
  | .instanceField base i, s, r, j, h => by
    obtain ⟨b, jb, _, _, hb, h₁, rfl, rfl⟩ := gives_bind.1 h
    obtain ⟨_, _, _, _, hg, h₂, rfl, rfl⟩ := gives_bind.1 h₁
    obtain ⟨rfl, rfl⟩ := gives_guardNonNull.1 hg
    obtain ⟨_, _, _, _, hf, h₃, rfl, rfl⟩ := gives_bind.1 h₂
    obtain ⟨x, hx, rfl, rfl⟩ := gives_field.1 hf
    split at h₃
    · rename_i t ht
      obtain ⟨rfl, rfl⟩ := gives_pure.1 h₃
      simpa using (value_gives hb).instanceField hx ht
    · simp at h₃
  | .staticField i, s, r, j, h => by
    obtain ⟨_, _, _, _, hf, h₁, rfl, rfl⟩ := gives_bind.1 h
    obtain ⟨x, hx, rfl, rfl⟩ := gives_field.1 hf
    split at h₁
    · simp at h₁
    · rename_i ht
      obtain ⟨rfl, rfl⟩ := gives_pure.1 h₁
      exact .staticField hx ht
  | .element base index, s, r, j, h => by
    obtain ⟨_, _, _, _, hh, h₁, rfl, rfl⟩ := gives_bind.1 h
    obtain ⟨heap, helem, rfl, rfl⟩ := elementHeap_gives hh
    obtain ⟨a, ja, _, _, ha, h₂, rfl, rfl⟩ := gives_bind.1 h₁
    obtain ⟨_, _, _, _, hg, h₃, rfl, rfl⟩ := gives_bind.1 h₂
    obtain ⟨rfl, rfl⟩ := gives_guardNonNull.1 hg
    obtain ⟨i, ji, _, _, hi, h₄, rfl, rfl⟩ := gives_bind.1 h₃
    obtain ⟨i', hc, h₅⟩ := gives_coerce_bind.1 h₄
    obtain ⟨_, _, _, _, hb, h₆, rfl, rfl⟩ := gives_bind.1 h₅
    obtain ⟨rfl, rfl⟩ := gives_guardBounds.1 hb
    obtain ⟨rfl, rfl⟩ := gives_pure.1 h₆
    simpa using (value_gives ha).element helem (value_gives hi) hc
  | .length base, s, r, j, h => by
    obtain ⟨a, ja, _, _, ha, h₁, rfl, rfl⟩ := gives_bind.1 h
    obtain ⟨_, _, _, _, hg, h₂, rfl, rfl⟩ := gives_bind.1 h₁
    obtain ⟨rfl, rfl⟩ := gives_guardNonNull.1 hg
    obtain ⟨rfl, rfl⟩ := gives_pure.1 h₂
    simpa using (value_gives ha).length
  | .binary op lhs rhs, s, r, j, h => by
    obtain ⟨l, jl, _, _, hl, h₁, rfl, rfl⟩ := gives_bind.1 h
    obtain ⟨r, jr, _, _, hr, h₂, rfl, rfl⟩ := gives_bind.1 h₁
    obtain ⟨e, he, rfl, rfl⟩ := binary_gives h₂
    simpa using (value_gives hl).binary (value_gives hr) he
  | .neg arg, s, r, j, h => by
    obtain ⟨a, ja, _, _, ha, h₁, rfl, rfl⟩ := gives_bind.1 h
    obtain ⟨rfl, rfl⟩ := gives_pure.1 h₁
    simpa using (value_gives ha).neg
  | .cast arg ty, s, r, j, h => by
    obtain ⟨a, ja, _, _, ha, h₁, rfl, rfl⟩ := gives_bind.1 h
    obtain ⟨t, e, hr, ht, hc, rfl, rfl⟩ | ⟨τ, hr, ht, rfl, rfl⟩ := cast_gives h₁
    · simpa using (value_gives ha).convert hr ht hc
    · exact (value_gives ha).cast hr ht
  | .instanceOf arg ty, s, r, j, h => by
    obtain ⟨a, ja, _, _, ha, h₁, rfl, rfl⟩ := gives_bind.1 h
    obtain ⟨_, _, _, _, ht, h₂, rfl, rfl⟩ := gives_bind.1 h₁
    obtain ⟨τ, hτ, rfl, rfl⟩ := gives_tag.1 ht
    obtain ⟨rfl, rfl⟩ := gives_pure.1 h₂
    simpa using (value_gives ha).instanceOf hτ
  | .new _, _, _, _, h | .newArray _ _, _, _, _, h | .newMultiArray _ _, _, _, _, h
  | .invoke _ _ _ _, _, _, _, h => by simp [value] at h

theorem dereference_gives (h : (dereference base).Gives F s r j) :
    ∃ e s' code, Operand F s base ⟨e, s', code⟩ j ∧
      r = ⟨e, s', code ++ nullGuard s' base e⟩ := by
  simp only [dereference, gives_bind, gives_guardNonNull] at h
  obtain ⟨_, _, _, _, hb, ⟨rfl, rfl⟩, rfl, rfl⟩ := h
  exact ⟨_, _, _, by simpa using value_gives hb, rfl⟩

def fieldOf? : Value → Option FieldId
  | .instanceField _ i | .staticField i => some i
  | _ => none

/-- The obligation that a value stored in a field has, if the field is never null. -/
def storeGuard (f : Field) (e : Expr) : List Outline :=
  if f.isNonNull then [.oblige (.nonNull e)] else []

/-- What an assignment of an expression to a location yields. -/
inductive Stored (F : Frame) : Scratch → Value → Expr → Emitted Unit → List Event → Prop
  | slot (hx : s.pool.slot index = .ok x) (hc : Converts e x.ty e') :
      Stored F s (.slot index) e ⟨(), s, [.plain (.assign x e')]⟩ []
  | field (hi : fieldOf? target = some i) (hl : Operand F s target ⟨location, s', code⟩ j)
      (ht : location.ty = .ok t) (hc : Converts e t e') (hf : F.program.field? i = .ok f)
      (hs : storeInto location e' = .ok st) :
      Stored F s target e ⟨(), s', code ++ storeGuard f e' ++ [Outline.plain st]⟩ j
  | element (hl : Operand F s (.element base index) ⟨location, s', code⟩ j)
      (ht : location.ty = .ok t) (hc : Converts e t e') (hs : storeInto location e' = .ok st) :
      Stored F s (.element base index) e ⟨(), s', code ++ [Outline.plain st]⟩ j

theorem assignTo_gives (h : (assignTo target e).Gives F s r j) : Stored F s target e r j := by
  cases target
  case slot index =>
    obtain ⟨x, hx, h⟩ := gives_slot_bind.1 h
    obtain ⟨e', hc, h⟩ := gives_coerce_bind.1 h
    obtain ⟨rfl, rfl⟩ := gives_emit.1 h
    exact .slot hx hc
  case instanceField | staticField =>
    obtain ⟨l, jl, _, _, hl, h₁, rfl, rfl⟩ := gives_bind.1 h
    obtain ⟨t, ht, h₁⟩ := gives_typeOf_bind.1 h₁
    obtain ⟨e', hc, h₁⟩ := gives_coerce_bind.1 h₁
    obtain ⟨f, hf, h₁⟩ := gives_promise_bind.1 (gives_frame_bind.1 h₁)
    split at h₁ <;> rename_i hn
    · obtain ⟨_, _, _, _, ho, h₂, rfl, rfl⟩ := gives_bind.1 h₁
      obtain ⟨rfl, rfl⟩ := gives_oblige.1 ho
      obtain ⟨st, hs, h₃⟩ := gives_decision_bind.1 h₂
      obtain ⟨rfl, rfl⟩ := gives_emit.1 h₃
      simpa [storeGuard, hn] using Stored.field rfl (value_gives hl) ht hc hf hs
    · obtain ⟨st, hs, h₂⟩ := gives_decision_bind.1 h₁
      obtain ⟨rfl, rfl⟩ := gives_emit.1 h₂
      simpa [storeGuard, hn] using Stored.field rfl (value_gives hl) ht hc hf hs
  case element base index =>
    obtain ⟨l, jl, _, _, hl, h₁, rfl, rfl⟩ := gives_bind.1 h
    obtain ⟨t, ht, h₁⟩ := gives_typeOf_bind.1 h₁
    obtain ⟨e', hc, h₁⟩ := gives_coerce_bind.1 h₁
    obtain ⟨st, hs, h₁⟩ := gives_decision_bind.1 h₁
    obtain ⟨rfl, rfl⟩ := gives_emit.1 h₁
    simpa using Stored.element (value_gives hl) ht hc hs
  all_goals exact (not_gives_refuse h).elim

end Lower

end Verilower
