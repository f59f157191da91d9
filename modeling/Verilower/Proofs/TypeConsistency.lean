import Verilower.Proofs.Lowering.Guards
import Verilower.Proofs.Lowering.Statements

namespace Verilower
set_option autoImplicit true

open Ivl

/-- A value has the type of its variable, and a formula or a condition is a truth value. What a
conditional contains is left out. -/
def Ivl.Stmt.Typed : Stmt → Prop
  | .assign x e => e.ty = .ok x.ty
  | .assert e | .assume e | .ite e _ _ => e.ty = .ok .bool
  | .havoc _ | .label _ | .goto _ | .call .. | .ret => True

theorem LocalPool.lowered_of_ofSlots {slots : List Slot} {i : Nat} {x : Ident}
    (h : ofSlots slots = .ok pool) (hx : pool.slots[i]? = some x) :
    ∃ slot, slots[i]? = some slot ∧ slot.ty.lowered = .ok x.ty := by
  obtain ⟨tys, htys, h₁⟩ := except_bind_eq_ok.1 h
  cases h₁
  obtain ⟨name, ty, -, hty, rfl⟩ := List.getElem?_zipWith_eq_some.1 hx
  have hmap : tys.map Except.ok = slots.map fun slot => slot.ty.lowered :=
    mapM_eq_ok_map (fun _ _ hb => hb.symm) htys
  have hat : (slots.map fun slot => slot.ty.lowered)[i]? = some (.ok ty) := by
    rw [← hmap, List.getElem?_map, hty]
    rfl
  rw [List.getElem?_map] at hat
  exact Option.map_eq_some_iff.1 hat

/-- Locals that the caught exception is bound to have reference types. -/
def Code.CatchesReferences (body : Code) : Prop :=
  ∀ node ∈ body.nodes, ∀ index, node.instr = .identity index .caught →
    ∀ slot, body.slots[index]? = some slot → slot.ty.isReference = true

/-- With the standard prelude the clauses of signatures compare variables with null, so that they
are truth values under any substitution. -/
theorem Signature.Built.common_typed (h : Built p .standard i sig j) :
    Lower.Common Stmt.Typed p .standard sig where
  control st _ := by cases st <;> trivial
  assign _ _ he := he
  assert _ he := he
  ite _ _ _ hc := hc
  unallocated _ _ := rfl
  nonNull _ _ := rfl
  precondition m callee e σ hs he := by
    obtain ⟨_, hbuilt⟩ := Signature.built_of_result hs
    obtain ⟨x, rfl⟩ := hbuilt.precondition_standard he
    rfl
  postcondition e he := by
    obtain ⟨x, rfl⟩ := h.postcondition_standard he
    rfl

theorem Lower.ResultFact.ty_eq (h : ResultFact p method x e) : e.ty = .ok .bool := by
  obtain ⟨-, -, -, he⟩ := h
  unfold resultFacts at he
  split at he <;> simp only [List.cons_append, List.nil_append, List.append_nil, List.mem_cons,
    List.not_mem_nil, or_false, Outline.plain.injEq, Stmt.assume.injEq] at he
  · obtain rfl | rfl | rfl := he <;> rfl
  · obtain rfl | rfl := he <;> rfl

theorem BodyLowered.typed {body : Body} (h : BodyLowered p .standard g body low j)
    (hc : body.CatchesReferences) (o : Options) :
    AllNested Stmt.Typed (low.implementation o).body := by
  obtain ⟨_, hbuilt⟩ := Signature.built_of_result h.signature_eq
  obtain ⟨pool, hpool, hslots⟩ := h.slots_eq
  apply h.obeys hbuilt.common_typed
  case hc =>
    intro node hnode index x hinstr hx
    rw [hslots] at hx
    obtain ⟨slot, hslot, hlow⟩ := LocalPool.lowered_of_ofSlots hpool hx
    have href := hc node hnode index hinstr slot hslot
    rw [Ty.lowered_eq_ref.2 href, ← hbuilt.exception_ty] at hlow
    exact congrArg Except.ok (Except.ok.inj hlow)
  case hf => exact fun _ _ _ _ _ _ _ _ _ hfact => hfact.fact.ty_eq
  case hthis => exact fun _ _ => rfl

/-- The types that convert to each other. -/
def Ivl.Ty.isScalar : Ivl.Ty → Bool
  | .int | .bool | .real => true
  | _ => false

namespace Prelude

theorem convert_eq_none : convert source target e = none ↔
    source ≠ target ∧ (source.isScalar && target.isScalar) = false := by
  unfold convert
  split
  · simp_all
  · cases source <;> cases target <;> simp_all [Ivl.Ty.isScalar]

end Prelude

theorem Lower.coerce_eq_refuse (he : e.ty = .ok source)
    (h : Prelude.convert source target e = none) (F : Frame) (t : Scratch) :
    Lower.coerce e target F t = Trace.refuse (.noConversion source target) := by
  have hty : typeOf e = Lower.pure source := by
    rw [typeOf, he]
    rfl
  simp only [coerce, hty, Bind.bind, Lower.bind, h]
  rfl

/-- Lowered bodies are consistent: every value has the type of the variable that it is assigned to,
and every formula and every condition is a truth value. This is so for operands of all types, as an
expression is brought to a wanted type by functions of the prelude. Where they do not lead to that
type the expression is refused. -/
theorem Session.lower_consistent {s : Session} {body : Body} {i : Implementation}
    (hq : s.prelude = .standard) (hc : body.CatchesReferences) (h : (s.lower body).1 = .ok i) :
    (∀ st ∈ i.body.flatMap Stmt.nested, st.Typed) ∧
    ∀ (F : Frame) (t : Scratch) e source target, e.ty = .ok source →
      (∃ e', (Lower.coerce e target).Gives F t ⟨e', t, []⟩ [] ∧ Prelude.Converted e e' ∧
        e'.ty = .ok target) ∨
      (source ≠ target ∧ (source.isScalar && target.isScalar) = false ∧
        Lower.coerce e target F t = Trace.refuse (.noConversion source target)) := by
  obtain ⟨low, j, hlow, rfl, -⟩ := Session.lower_gives h
  rw [hq] at hlow
  refine ⟨hlow.typed hc s.options, ?_⟩
  intro F t e source target hty
  cases hconv : Prelude.convert source target e with
  | some e' =>
    have hconverts : Lower.Converts e target e' := Prelude.coerce_eq_ok.2 ⟨source, hty, hconv⟩
    exact .inl ⟨e', Lower.gives_coerce.2 ⟨e', hconverts, rfl, rfl⟩, hconverts.converted,
      hconverts.ty_eq⟩
  | none =>
    obtain ⟨hne, hscalar⟩ := Prelude.convert_eq_none.1 hconv
    exact .inr ⟨hne, hscalar, Lower.coerce_eq_refuse hty hconv F t⟩

/-- A program with one static method, which takes a truth value and returns a real. -/
def mixing : Program := .declaring [
  .addClass "Mixer",
  .addMethod 3 {
    name := "mix", params := [.bool, .array .int], returns := .double,
    isStatic := true }] (by decide +kernel)

/-- Truth values as numbers and as indices, a number as condition and as a real result, and a
handler that binds the exception. -/
def mixingBody : Body where
  method := 0
  slots := [⟨"n", .int⟩, ⟨"a", .array .int⟩, ⟨"e", .cls ClassId.throwable⟩]
  nodes := [
    { instr := .identity 0 (.param 0) },
    { instr := .identity 1 (.param 1) },
    { instr := .assign (.element (.slot 1) (.constant (.bool true))) (.constant (.bool false)) },
    { instr := .branch (.slot 0) 5 },
    { instr := .ret (.slot 0) },
    { instr := .identity 2 .caught },
    { instr := .raise (.slot 2) }]
  traps := [⟨2, 4, ClassId.throwable, 5⟩]
  sound := by decide

def mixingSession : Session := Session.start (.ofProgram mixing) .standard {}

theorem lower_consistent_mixing :
    ∃ i, (mixingSession.lower mixingBody).1 = .ok i ∧ mixingBody.CatchesReferences ∧
      .assign ⟨"n", .int⟩ (.apply "$boolToInt" [.ident ⟨"$in_parameter__0", .bool⟩] .int) ∈
        i.body ∧
      ∀ st ∈ i.body.flatMap Stmt.nested, st.Typed := by
  have hmem : ((mixingSession.lower mixingBody).1.toOption.map fun i => decide
      (.assign ⟨"n", .int⟩ (.apply "$boolToInt" [.ident ⟨"$in_parameter__0", .bool⟩] .int) ∈
        i.body)) = some true := by decide +kernel
  obtain ⟨i, hi, hassign⟩ := exists_of_toOption_map hmem
  have hc : mixingBody.CatchesReferences := by
    intro node hnode index hinstr slot hslot
    simp only [mixingBody, List.mem_cons, List.not_mem_nil, or_false] at hnode
    obtain rfl | rfl | rfl | rfl | rfl | rfl | rfl := hnode <;> cases hinstr
    cases hslot
    rfl
  exact ⟨i, hi, hc, of_decide_eq_true hassign, (Session.lower_consistent rfl hc hi).1⟩

end Verilower
