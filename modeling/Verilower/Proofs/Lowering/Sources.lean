import Verilower.Proofs.Ivl.Scope
import Verilower.Proofs.Lowering.Node

namespace Verilower
set_option autoImplicit true

open Ivl

/-- A property of pools that new temporaries keep. -/
def LocalPool.Stable (I : LocalPool → Prop) : Prop := ∀ pool ty, I pool → I (pool.fresh ty).1

/-- The variables of a pool but for the flag. -/
def LocalPool.vars (pool : LocalPool) : List Ident := pool.slots ++ pool.temps

theorem LocalPool.stable_mem (x : Ident) : Stable fun pool => x ∈ pool.vars := by
  intro pool ty h
  simp only [vars, fresh, List.mem_append] at h ⊢
  tauto

theorem LocalPool.slot_mem {pool : LocalPool} (h : pool.slot i = .ok x) : x ∈ pool.vars := by
  unfold slot at h
  split at h
  · cases h
    exact List.mem_append_left _ (List.mem_of_getElem? ‹_›)
  · cases h

theorem Scratch.next_mem (s : Scratch) (ty : Ivl.Ty) : s.next ty ∈ (s.grown ty).pool.vars := by
  simp [next, grown, LocalPool.vars, LocalPool.fresh]

namespace Lower

section Pool

variable {I : LocalPool → Prop} (hI : LocalPool.Stable I)
include hI

theorem Operand.pool (h : Operand F s v r j) (hs : I s.pool) : I r.scratch.pool := by
  induction h with
  | slot | literal | param | receiver | caught | staticField => exact hs
  | string => exact hI _ _ hs
  | instanceField _ _ _ ih | length _ ih | neg _ ih | convert _ _ _ _ ih | cast _ _ _ ih
  | instanceOf _ _ ih => exact ih hs
  | element _ _ _ _ iha ihi => exact ihi (iha hs)
  | binary _ _ _ ihl ihr => exact ihr (ihl hs)

theorem Stored.pool (h : Stored F s target e r j) (hs : I s.pool) : I r.scratch.pool := by
  cases h with
  | slot => exact hs
  | field _ hl | element hl => exact hl.pool hI hs

theorem Arguments.pool (h : Arguments F s args r j) (hs : I s.pool) : I r.scratch.pool := by
  induction h with
  | nil => exact hs
  | cons ha _ _ _ ih => exact ih (ha.pool hI hs)

theorem ReceiverOf.pool (h : ReceiverOf F s call r j) (hs : I s.pool) : I r.scratch.pool := by
  cases h with
  | none => exact hs
  | dynamic _ _ ho | direct _ _ ho => exact ho.pool hI hs

theorem Destined.pool (h : Destined F s callee target d s') (hs : I s.pool) : I s'.pool := by
  cases h with
  | void | «local» => exact hs
  | dropped | other => exact hI _ _ hs

theorem WrittenBack.pool (h : WrittenBack F s w r j) (hs : I s.pool) : I r.scratch.pool := by
  cases h with
  | none => exact hs
  | some h => exact h.pool hI hs

theorem Invoked.pool {call : Call} (h : Invoked F n call target s r j) (hs : I s.pool) :
    I r.scratch.pool := by
  cases h with
  | exit => exact hs
  | stringLengthDropped _ _ _ ho => exact ho.pool hI hs
  | stringLength _ _ _ ho _ hst => exact hst.pool hI (ho.pool hI hs)
  | call _ _ _ _ hr ha hd _ _ hw =>
    have h₁ := hr.pool hI hs
    have h₂ := ha.pool hI h₁
    exact hw.pool hI (hd.pool hI h₂)

theorem Dropped.pool (h : Dropped F s vs r j) (hs : I s.pool) : I r.scratch.pool := by
  induction h with
  | nil => exact hs
  | cons ho _ ih => exact ih (ho.pool hI hs)

theorem Assigned.pool (h : Assigned F n target s v r j) (hs : I s.pool) : I r.scratch.pool := by
  cases h with
  | invoke h => exact h.pool hI hs
  | new _ hst => exact hst.pool hI (hI _ _ hs)
  | newArray ho _ _ hst => exact hst.pool hI (hI _ _ (ho.pool hI hs))
  | newMultiArray hd _ hst => exact hst.pool hI (hd.pool hI hs)
  | value ho hst => exact hst.pool hI (ho.pool hI hs)

theorem Executed.pool (h : Executed F n s i r j) (hs : I s.pool) : I r.scratch.pool := by
  cases h with
  | assign h => exact h.pool hI hs
  | identity h => cases h <;> exact hs
  | invoke h => exact h.pool hI hs
  | branch ho | ret _ ho | raise ho | enterMonitor ho | exitMonitor ho => exact ho.pool hI hs
  | lookupSwitch h | tableSwitch _ h =>
    cases h with
    | empty => exact hs
    | cascade _ ho => exact ho.pool hI hs
  | goto | retVoid | nop | breakpoint | retSubroutine => exact hs

theorem Segments.pool (h : Segments F s nodes s' segs j) (hs : I s.pool) : I s'.pool := by
  induction h with
  | nil => exact hs
  | cons hn _ ih => exact ih (hn.pool hI hs)

end Pool

end Lower

def Prelude.vocabulary : List Ident :=
  [null, alloc, typeField] ++ globals

/-- The scope has the prelude and the signature of the method. -/
structure Ivl.Scope.Covers (S : Scope) (F : Frame) : Prop where
  vocabulary : ∀ x ∈ Prelude.vocabulary, S.ident x
  function : ∀ f tys ty args, Decl.function f tys ty ∈ Prelude.conversions ++ Prelude.operators →
    args.map Expr.ty = tys.map .ok → S.function f args ty
  formal : ∀ x ∈ F.signature.formals, S.ident x
  result : ∀ x, F.signature.result = some x → S.ident x
  exception : S.ident F.signature.exception
  postcondition : ∀ e ∈ F.signature.procedure.postconditions, e.Within S

/-- The scope has what an event asks for. A signature brings its procedure, and its preconditions
with actuals in the place of the formals. -/
def Ivl.Scope.Knows (S : Scope) (F : Frame) : Event → Prop
  | .tag ty => ∀ τ, F.program.tag ty = .ok τ → S.ident τ
  | .field i => ∀ x, F.program.fieldIdent i = .ok x → S.ident x
  | .global x => S.ident x
  | .signature m => ∀ sig, (Signature.build F.program F.prelude m).result = .ok sig →
    S.procedure sig.name ∧ ∀ actuals, actuals.length = sig.procedure.ins.length →
      (∀ a ∈ actuals, a.Within S) → ∀ e ∈ sig.procedure.preconditions,
        (e.substitute (Subst.ofPairs (sig.formals.zip actuals))).Within S
  | .label _ _ | .diagnostic _ | .log _ => True

/-- The scope has all that code with the journal and the final state can mention. -/
structure Ivl.Scope.Serves (S : Scope) (F : Frame) (s : Scratch) (j : List Event) : Prop where
  covers : S.Covers F
  knows : ∀ e ∈ j, S.Knows F e
  pool : ∀ x ∈ s.pool.vars, S.ident x

variable {S : Scope}

namespace Ivl.Scope

theorem Covers.null (h : S.Covers F) : S.ident Prelude.null :=
  h.vocabulary _ (by simp [Prelude.vocabulary])

theorem Covers.heap (h : S.Covers F) : S.ident Prelude.heap :=
  h.vocabulary _ (by simp [Prelude.vocabulary, Prelude.globals])

theorem Covers.alloc (h : S.Covers F) : S.ident Prelude.alloc :=
  h.vocabulary _ (by simp [Prelude.vocabulary])

theorem Covers.typeField (h : S.Covers F) : S.ident Prelude.typeField :=
  h.vocabulary _ (by simp [Prelude.vocabulary])

theorem Covers.arraySize (h : S.Covers F) : S.ident Prelude.arraySize :=
  h.vocabulary _ (by simp [Prelude.vocabulary, Prelude.globals])

theorem Covers.stringSize (h : S.Covers F) : S.ident Prelude.stringSize :=
  h.vocabulary _ (by simp [Prelude.vocabulary, Prelude.globals])

theorem Covers.arrays (h : S.Covers F) (hx : Prelude.arrays? ty = some x) : S.ident x := by
  refine h.vocabulary _ ?_
  cases ty <;> cases hx <;> simp [Prelude.vocabulary, Prelude.globals]

theorem Serves.left (h : S.Serves F s (j ++ j')) : S.Serves F s j :=
  ⟨h.covers, fun e he => h.knows e (List.mem_append_left _ he), h.pool⟩

theorem Serves.right (h : S.Serves F s (j ++ j')) : S.Serves F s j' :=
  ⟨h.covers, fun e he => h.knows e (List.mem_append_right _ he), h.pool⟩

theorem Serves.earlier (h : S.Serves F s' j) (hs : ∀ x ∈ s.pool.vars, x ∈ s'.pool.vars) :
    S.Serves F s j :=
  ⟨h.covers, h.knows, fun x hx => h.pool x (hs x hx)⟩

theorem Serves.tag (h : S.Serves F s j) (hj : .tag ty ∈ j) (ht : F.program.tag ty = .ok τ) :
    S.ident τ := h.knows _ hj τ ht

end Ivl.Scope

/-- An expression under conversion functions of the prelude, each applied to its parameter type. -/
inductive Prelude.Converted (e : Expr) : Expr → Prop
  | refl : Converted e e
  | apply (h : Converted e e') (ht : e'.ty = .ok a) (hf : .function f [a] b ∈ conversions) :
      Converted e (.apply f [e'] b)

namespace Lower

theorem within_read (hS : S.Covers F) (he : e.Within S) (hx : S.ident x) :
    (Prelude.read e x).Within S := ⟨hS.heap, he, hx, trivial⟩

theorem within_write (hS : S.Covers F) (he : e.Within S) (hx : S.ident x) (hv : v.Within S) :
    (Prelude.write e x v).Within S := ⟨hS.heap, hS.heap, ⟨he, hx, trivial⟩, hv⟩

theorem within_typeOf (hS : S.Covers F) (he : e.Within S) : (Prelude.typeOf e).Within S :=
  within_read hS he hS.typeField

theorem within_isNonNull (hS : S.Covers F) (he : e.Within S) : (Prelude.isNonNull e).Within S :=
  ⟨he, hS.null⟩

theorem Converts.ty_eq (h : Converts e ty e') : e'.ty = .ok ty := by
  obtain ⟨source, hs, hc⟩ := Prelude.coerce_eq_ok.1 h
  unfold Prelude.convert at hc
  dsimp only at hc
  split at hc
  · rename_i heq
    cases hc
    exact heq ▸ hs
  · split at hc <;> cases hc <;> rfl

theorem Converts.converted (h : Converts e ty e') : Prelude.Converted e e' := by
  obtain ⟨source, he, hc⟩ := Prelude.coerce_eq_ok.1 h
  unfold Prelude.convert at hc
  dsimp only at hc
  split at hc
  · cases hc
    exact .refl
  · split at hc <;> cases hc
    · exact .apply .refl he (by simp [Prelude.conversions])
    · exact .apply .refl he (by simp [Prelude.conversions])
    · exact .apply .refl he (by simp [Prelude.conversions])
    · exact .apply .refl he (by simp [Prelude.conversions])
    · exact .apply (.apply .refl he (by simp [Prelude.conversions])) rfl
        (by simp [Prelude.conversions])
    · exact .apply (.apply .refl he (by simp [Prelude.conversions])) rfl
        (by simp [Prelude.conversions])

theorem Converts.within (h : Converts e ty e') (hS : S.Covers F) (he : e.Within S) :
    e'.Within S := by
  have hc := h.converted
  clear h
  induction hc with
  | refl => exact he
  | apply _ ht hf ih =>
    exact ⟨hS.function _ _ _ _ (List.mem_append_left _ hf) (by simp [ht]), ih, trivial⟩

theorem Aligned.within (h : Aligned l r l' r') (hS : S.Covers F) (hl : l.Within S)
    (hr : r.Within S) : l'.Within S ∧ r'.Within S := by
  cases h with
  | right _ hc => exact ⟨hl, hc.within hS hr⟩
  | left _ hc => exact ⟨hc.within hS hl, hr⟩

theorem Aligned.ty_right (h : Aligned l r l' r') (ht : l'.ty = .ok t) : r'.ty = .ok t := by
  cases h with
  | right hl hc => exact (Except.ok.inj (ht.symm.trans hl)) ▸ hc.ty_eq
  | left hr hc => exact (Except.ok.inj (ht.symm.trans hc.ty_eq)) ▸ hr

theorem Combined.within (h : Combined op l r e) (hS : S.Covers F) (hl : l.Within S)
    (hr : r.Within S) : e.Within S := by
  have application {f : String} {a b : Ivl.Ty} {l r : Expr} (hl : l.Within S) (hr : r.Within S)
      (htl : l.ty = .ok a) (htr : r.ty = .ok a)
      (hf : Decl.function f [a, a] b ∈ Prelude.operators) : (Expr.apply f [l, r] b).Within S :=
    ⟨hS.function f [a, a] b [l, r] (List.mem_append_right _ hf) (by simp [htl, htr]), hl, hr, trivial⟩
  cases h with
  | direct _ ha | div ha _ => exact ha.within hS hl hr
  | remReal ha ht =>
    obtain ⟨hl', hr'⟩ := ha.within hS hl hr
    exact application hl' hr' ht (ha.ty_right ht) (by simp [Prelude.operators])
  | remInt ha hcl hcr =>
    obtain ⟨hl', hr'⟩ := ha.within hS hl hr
    exact application (hcl.within hS hl') (hcr.within hS hr') hcl.ty_eq hcr.ty_eq
      (by simp [Prelude.operators])
  | connective => exact ⟨hl, hr⟩
  | function hf hcl hcr =>
    refine application (hcl.within hS hl) (hcr.within hS hr) hcl.ty_eq hcr.ty_eq ?_
    cases op <;> cases hf <;> simp [Prelude.operators]

theorem within_newObject (hS : S.Covers F) (hx : S.ident x) (hτ : S.ident τ) :
    Outline.AllWithin S (newObject x τ) :=
  ⟨fun _ hy => List.mem_singleton.1 hy ▸ hx, within_read hS hx hS.alloc,
    within_write hS hx hS.alloc trivial, within_isNonNull hS hx,
    within_write hS hx hS.typeField hτ, trivial⟩

theorem within_nullGuard (hS : S.Covers F) (he : e.Within S) :
    Outline.AllWithin S (nullGuard s base e) := by
  unfold nullGuard
  split
  · trivial
  · exact ⟨Outline.within_oblige.2 (within_isNonNull hS he), trivial⟩

theorem within_boundsGuard (hS : S.Covers F) (ha : a.Within S) (hi : i.Within S) :
    (boundsGuard a i).Within S :=
  Outline.within_oblige.2 ⟨⟨trivial, hi⟩, hi, hS.arraySize, ha, trivial⟩

theorem within_castGuard (hS : S.Covers F) (he : e.Within S) (hτ : S.ident τ) :
    (castGuard e τ).Within S :=
  Outline.within_oblige.2 ⟨⟨he, hS.null⟩, within_typeOf hS he, hτ⟩

theorem within_exitCode (hS : S.Covers F) : Outline.AllWithin S (exitCode F) := by
  refine Outline.allWithin_append.2 ⟨Outline.allWithin_iff.2 fun o ho => ?_, trivial, trivial⟩
  obtain ⟨e, he, rfl⟩ := List.mem_map.1 ho
  exact Outline.within_oblige.2 (hS.postcondition e he)

theorem Literal.within (h : Literal c e) (hS : S.Covers F) : e.Within S := by
  cases h with
  | null => exact hS.null
  | _ => trivial

theorem Operand.within (h : Operand F s v r j) (hS : S.Serves F r.scratch j) :
    r.value.Within S ∧ Outline.AllWithin S r.code := by
  induction h with
  | slot hx => exact ⟨hS.pool _ (LocalPool.slot_mem hx), trivial⟩
  | literal hc => exact ⟨hc.within hS.covers, trivial⟩
  | string ht =>
    have hx := hS.pool _ (Scratch.next_mem _ .ref)
    have hτ := hS.tag List.mem_cons_self ht
    refine ⟨hx, Outline.allWithin_append.2 ⟨within_newObject hS.covers hx hτ, ?_⟩⟩
    exact ⟨⟨hS.covers.stringSize, hS.covers.stringSize, ⟨hx, trivial⟩, trivial⟩, trivial⟩
  | param hx =>
    exact ⟨hS.covers.formal _ (List.mem_append_right _ (List.mem_of_getElem? hx)), trivial⟩
  | receiver hx =>
    exact ⟨hS.covers.formal _ (List.mem_append_left _ (Option.mem_toList.2 hx)), trivial⟩
  | caught => exact ⟨hS.covers.exception, trivial⟩
  | instanceField _ hx _ ih =>
    obtain ⟨hb, hcode⟩ := ih hS.left
    have hfield := hS.right.knows _ List.mem_cons_self _ hx
    exact ⟨within_read hS.covers hb hfield,
      Outline.allWithin_append.2 ⟨hcode, within_nullGuard hS.covers hb⟩⟩
  | staticField hx _ => exact ⟨hS.knows _ List.mem_cons_self _ hx, trivial⟩
  | element hh _ hi hc iha ihi =>
    obtain ⟨ty, elem, -, -, heap⟩ := hh
    obtain ⟨ha, hcode₁⟩ := iha (hS.left.earlier fun x =>
      hi.pool (LocalPool.stable_mem x))
    obtain ⟨hi, hcode₂⟩ := ihi hS.right
    have hi' := hc.within hS.covers hi
    refine ⟨⟨⟨hS.covers.arrays heap, ha, trivial⟩, hi', trivial⟩, ?_⟩
    simp only [Outline.allWithin_append, Outline.allWithin_cons, Outline.allWithin_nil, and_true]
    exact ⟨⟨⟨hcode₁, within_nullGuard hS.covers ha⟩, hcode₂⟩, within_boundsGuard hS.covers ha hi'⟩
  | length _ ih =>
    obtain ⟨ha, hcode⟩ := ih hS
    exact ⟨⟨hS.covers.arraySize, ha, trivial⟩,
      Outline.allWithin_append.2 ⟨hcode, within_nullGuard hS.covers ha⟩⟩
  | binary _ hr he ihl ihr =>
    obtain ⟨hl, hcode₁⟩ := ihl (hS.left.earlier fun x =>
      hr.pool (LocalPool.stable_mem x))
    obtain ⟨hr, hcode₂⟩ := ihr hS.right
    exact ⟨he.within hS.covers hl hr, Outline.allWithin_append.2 ⟨hcode₁, hcode₂⟩⟩
  | neg _ ih => exact ih hS
  | convert _ _ _ hc ih =>
    obtain ⟨ha, hcode⟩ := ih hS
    exact ⟨hc.within hS.covers ha, hcode⟩
  | cast _ _ ht ih =>
    obtain ⟨ha, hcode⟩ := ih hS.left
    have hτ := hS.right.tag List.mem_cons_self ht
    exact ⟨ha, Outline.allWithin_append.2 ⟨hcode, within_castGuard hS.covers ha hτ, trivial⟩⟩
  | instanceOf _ ht ih =>
    obtain ⟨ha, hcode⟩ := ih hS.left
    have hτ := hS.right.tag List.mem_cons_self ht
    exact ⟨⟨within_isNonNull hS.covers ha, within_typeOf hS.covers ha, hτ⟩, hcode⟩

theorem storeInto_within : ∀ {location e : Expr} {st : Stmt}, storeInto location e = .ok st →
    location.Within S → e.Within S → st.Within S
  | .ident _, _, _, h, hl, he => by
    cases h
    exact ⟨hl, he⟩
  | .select map indices, e, st, h, hl, he => by
    have hmap : storeInto map (.store map indices e) = .ok st := h
    exact storeInto_within hmap hl.1 ⟨hl.1, hl.2, he⟩
  | .bool _, _, _, h, _, _ | .int _, _, _, h, _, _ | .real _, _, _, h, _, _
  | .binary _ _ _, _, _, h, _, _ | .unary _ _, _, _, h, _, _ | .store _ _ _, _, _, h, _, _
  | .apply _ _ _, _, _, h, _, _ => nomatch h

theorem Stored.within (h : Stored F s target e r j) (hS : S.Serves F r.scratch j)
    (he : e.Within S) : Outline.AllWithin S r.code := by
  cases h with
  | slot hx hc => exact ⟨⟨hS.pool _ (LocalPool.slot_mem hx), hc.within hS.covers he⟩, trivial⟩
  | field _ hl _ hc _ hs =>
    obtain ⟨hloc, hcode⟩ := hl.within hS
    have he' := hc.within hS.covers he
    refine Outline.allWithin_append.2 ⟨Outline.allWithin_append.2 ⟨hcode, ?_⟩,
      storeInto_within hs hloc he', trivial⟩
    unfold storeGuard
    split
    · exact ⟨Outline.within_oblige.2 (within_isNonNull hS.covers he'), trivial⟩
    · trivial
  | element hl _ hc hs =>
    obtain ⟨hloc, hcode⟩ := hl.within hS
    have he' := hc.within hS.covers he
    exact Outline.allWithin_append.2 ⟨hcode, storeInto_within hs hloc he', trivial⟩

theorem Assumed.within (h : Assumed F callee result captured code j) (hS : S.Serves F s j)
    (hr : ∀ x, result = some x → S.ident x) : Outline.AllWithin S code := by
  cases h with
  | annotated _ _ ht =>
    have hx := hr _ rfl
    have hτ := hS.tag List.mem_cons_self ht
    have htype := within_typeOf hS.covers (Expr.within_ident.2 hx)
    refine Outline.allWithin_append.2
      ⟨⟨within_isNonNull hS.covers hx, ⟨htype, hτ⟩, trivial⟩, ?_⟩
    split
    · exact ⟨⟨htype, hτ⟩, trivial⟩
    · trivial
  | plain => trivial

theorem DirectCall.within (h : DirectCall F m callee actuals result captured code j)
    (hS : S.Serves F s j) (ha : ∀ a ∈ actuals, a.Within S)
    (hr : ∀ x, result = some x → S.ident x) : Outline.AllWithin S code := by
  obtain ⟨hs, hin, -, hassume⟩ := h
  obtain ⟨hproc, hpre⟩ := hS.left.knows _ List.mem_cons_self _ hs
  refine Outline.allWithin_append.2
    ⟨Outline.allWithin_append.2 ⟨Outline.allWithin_iff.2 fun o ho => ?_, ?_⟩,
      hassume.within hS.right hr⟩
  · obtain ⟨e, he, rfl⟩ := List.mem_map.1 ho
    exact Outline.within_oblige.2 (hpre actuals hin ha e he)
  · refine ⟨⟨hproc, Expr.allWithin_iff.2 ha, fun x hx => ?_⟩, trivial⟩
    obtain hx | hx := List.mem_append.1 hx
    · exact hr x (Option.mem_toList.1 hx)
    · exact List.mem_singleton.1 hx ▸ hS.covers.exception

theorem GuardedCalls.within
    (h : GuardedCalls F receiver actuals result captured ts thrown code j) (hS : S.Serves F s j)
    (hrec : receiver.Within S) (ha : ∀ a ∈ actuals, a.Within S)
    (hr : ∀ x, result = some x → S.ident x) : Outline.AllWithin S code := by
  induction h with
  | nil => trivial
  | cons _ hd ht _ ih =>
    have hτ := hS.left.right.tag List.mem_cons_self ht
    exact ⟨⟨⟨within_typeOf hS.covers hrec, hτ⟩, hd.within hS.left.left ha hr⟩, ih hS.right⟩

theorem Performed.within
    (h : Performed F n call callee actuals result captured receiver thrown code j)
    (hS : S.Serves F s j) (hrec : ∀ e, receiver = some e → e.Within S)
    (ha : ∀ a ∈ actuals, a.Within S) (hr : ∀ x, result = some x → S.ident x) :
    Outline.AllWithin S code := by
  cases h with
  | direct _ hd => exact hd.within hS ha hr
  | fallback _ _ _ _ hd =>
    exact hd.within (Scope.Serves.right (j := [_]) hS) ha hr
  | devirtualized _ _ _ _ _ hg =>
    exact hg.within (Scope.Serves.right (j := [_]) hS) (hrec _ rfl) ha hr

theorem within_caughtBy (hS : S.Covers F) (hτ : S.ident τ) : (caughtBy F τ).Within S :=
  ⟨within_typeOf hS hS.exception, hτ⟩

theorem within_inFlight (hS : S.Covers F) : (inFlight F).Within S :=
  within_isNonNull hS hS.exception

theorem TrapJumps.within (h : TrapJumps F ts code j) (hS : S.Serves F s j) :
    Outline.AllWithin S code := by
  induction h with
  | nil => trivial
  | cons ht _ ih =>
    have hτ := hS.left.tag List.mem_cons_self ht
    refine ⟨⟨⟨within_inFlight hS.covers, within_caughtBy hS.covers hτ⟩, ?_, trivial⟩, ih hS.right⟩
    exact ⟨trivial, trivial⟩

theorem EscapeExits.within (h : EscapeExits F n fuel types code j) (hS : S.Serves F s j) :
    Outline.AllWithin S code := by
  induction h with
  | spent | done => trivial
  | step _ _ ht _ ih =>
    have hτ := hS.left.right.tag List.mem_cons_self ht
    exact ⟨⟨⟨within_inFlight hS.covers, within_caughtBy hS.covers hτ⟩,
      within_exitCode hS.covers⟩, ih hS.right⟩

theorem Continued.within (h : Continued F n thrown code j) (hS : S.Serves F s j) :
    Outline.AllWithin S code := by
  obtain ⟨hj, -, he⟩ := h
  exact Outline.allWithin_append.2 ⟨hj.within hS.left, he.within hS.right⟩

theorem Arguments.within (h : Arguments F s args r j) (hS : S.Serves F r.scratch j) :
    (∀ a ∈ r.value, a.Within S) ∧ Outline.AllWithin S r.code := by
  induction h with
  | nil => exact ⟨by simp, trivial⟩
  | cons ha _ hc hrest ih =>
    obtain ⟨he, hcode⟩ := ha.within (hS.left.earlier fun x => hrest.pool (LocalPool.stable_mem x))
    obtain ⟨hes, hcodes⟩ := ih hS.right
    exact ⟨List.forall_mem_cons.2 ⟨hc.within hS.covers he, hes⟩,
      Outline.allWithin_append.2 ⟨hcode, hcodes⟩⟩

theorem ReceiverOf.within (h : ReceiverOf F s call r j) (hS : S.Serves F r.scratch j) :
    (∀ e, r.value = some e → e.Within S) ∧ Outline.AllWithin S r.code := by
  cases h with
  | none => exact ⟨by simp, trivial⟩
  | dynamic _ _ ho =>
    obtain ⟨he, hcode⟩ := ho.within hS
    refine ⟨fun e' heq => Option.some.inj heq ▸ he, ?_⟩
    exact Outline.allWithin_append.2 ⟨hcode, within_nullGuard hS.covers he⟩
  | direct _ _ ho =>
    obtain ⟨he, hcode⟩ := ho.within hS
    exact ⟨fun e' heq => Option.some.inj heq ▸ he, hcode⟩

theorem Destined.within (h : Destined F s callee target d s')
    (hp : ∀ x ∈ s'.pool.vars, S.ident x) :
    (∀ x, d.result = some x → S.ident x) ∧
      ∀ v x, d.writeBack = some (v, x) → S.ident x := by
  cases h with
  | void => simp
  | dropped => simpa using hp _ (Scratch.next_mem s _)
  | «local» _ _ hx => simpa using hp _ (LocalPool.slot_mem hx)
  | other => simpa using hp _ (Scratch.next_mem s _)

theorem WrittenBack.within (h : WrittenBack F s w r j) (hS : S.Serves F r.scratch j)
    (hw : ∀ v x, w = Option.some (v, x) → S.ident x) : Outline.AllWithin S r.code := by
  cases h with
  | none => trivial
  | some hst => exact hst.within hS (Expr.within_ident.2 (hw _ _ rfl))

theorem Invoked.within {call : Call} (h : Invoked F n call target s r j)
    (hS : S.Serves F r.scratch j) : Outline.AllWithin S r.code := by
  cases h with
  | exit => exact within_exitCode hS.covers
  | stringLengthDropped _ _ _ ho =>
    obtain ⟨he, hcode⟩ := ho.within hS
    exact Outline.allWithin_append.2 ⟨hcode, within_nullGuard hS.covers he⟩
  | stringLength _ _ _ ho _ hst =>
    obtain ⟨he, hcode⟩ := ho.within (hS.left.earlier fun x => hst.pool (LocalPool.stable_mem x))
    have hlen : (Expr.select Prelude.stringSize.expr [_]).Within S :=
      ⟨hS.covers.stringSize, he, trivial⟩
    exact Outline.allWithin_append.2
      ⟨Outline.allWithin_append.2 ⟨hcode, within_nullGuard hS.covers he⟩,
        hst.within hS.right hlen⟩
  | call _ _ _ _ hr ha hd hp hx hw =>
    have h₃ := fun x => hw.pool (LocalPool.stable_mem x)
    have h₂ := fun x hx => h₃ x (hd.pool (LocalPool.stable_mem x) hx)
    have h₁ := fun x hx => h₂ x (ha.pool (LocalPool.stable_mem x) hx)
    obtain ⟨hrec, hc₁⟩ := hr.within (hS.left.left.left.left.earlier h₁)
    obtain ⟨hargs, hc₂⟩ := ha.within (hS.left.left.left.right.earlier h₂)
    obtain ⟨hres, hback⟩ := hd.within fun x hx => hS.pool x (h₃ x hx)
    have hactuals := fun a (hmem : a ∈ _ ++ _) => (List.mem_append.1 hmem).elim
      (fun h => hrec a (Option.mem_toList.1 h)) (hargs a)
    have hc₃ := hp.within hS.left.left.right hrec hactuals hres
    have hc₄ := hx.within hS.left.right
    have hc₅ := hw.within hS.right hback
    simp only [Outline.allWithin_append]
    exact ⟨⟨⟨⟨hc₁, hc₂⟩, hc₃⟩, hc₄⟩, hc₅⟩

theorem within_cascaded {inner : Stmt} (hk : key.Within S) (hi : inner.Within S) :
    (cascaded F key cases inner).Within S := by
  induction cases generalizing inner with
  | nil => exact hi
  | cons c cases ih => exact ih ⟨⟨hk, trivial⟩, ⟨trivial, trivial⟩, hi, trivial⟩

theorem Switched.within (h : Switched F n key cases other s r j) (hS : S.Serves F r.scratch j) :
    Outline.AllWithin S r.code := by
  cases h with
  | empty => exact ⟨trivial, trivial⟩
  | cascade _ ho hc =>
    obtain ⟨hk, hcode⟩ := ho.within hS.left.right
    exact Outline.allWithin_append.2
      ⟨hcode, within_cascaded (hc.within hS.covers hk) trivial, trivial⟩

theorem CatchJumps.within (h : CatchJumps F handler ids code j) (hS : S.Serves F s j) :
    Outline.AllWithin S code := by
  induction h with
  | nil => trivial
  | cons ht _ ih =>
    have hτ := hS.left.tag List.mem_cons_self ht
    exact ⟨⟨within_caughtBy hS.covers hτ, ⟨trivial, trivial⟩, trivial⟩, ih hS.right⟩

theorem HandlerJumps.within (h : HandlerJumps F traps handlers code j) (hS : S.Serves F s j) :
    Outline.AllWithin S code := by
  induction h with
  | nil => trivial
  | cons hc _ ih => exact Outline.allWithin_append.2 ⟨hc.within hS.left, ih hS.right⟩

theorem Handed.within (h : Handed F n code j) (hS : S.Serves F s j) :
    Outline.AllWithin S code := by
  cases h with
  | leave => exact within_exitCode hS.covers
  | single => exact ⟨trivial, trivial⟩
  | many _ hj => exact Outline.allWithin_append.2 ⟨hj.within hS, trivial, trivial⟩

theorem Dropped.within (h : Dropped F s vs r j) (hS : S.Serves F r.scratch j) :
    Outline.AllWithin S r.code := by
  induction h with
  | nil => trivial
  | cons ho hrest ih =>
    obtain ⟨-, hcode⟩ :=
      ho.within (hS.left.left.earlier fun x => hrest.pool (LocalPool.stable_mem x))
    exact Outline.allWithin_append.2 ⟨hcode, ih hS.right⟩

theorem Assigned.within (h : Assigned F n target s v r j) (hS : S.Serves F r.scratch j) :
    Outline.AllWithin S r.code := by
  cases h with
  | invoke h => exact h.within hS
  | new ht hst =>
    have hx := hS.pool _ (hst.pool (LocalPool.stable_mem _) (Scratch.next_mem s .ref))
    have hτ := hS.left.tag List.mem_cons_self ht
    exact Outline.allWithin_append.2
      ⟨within_newObject hS.covers hx hτ, hst.within hS.right (Expr.within_ident.2 hx)⟩
  | @newArray _ _ _ s₁ _ _ _ _ _ _ _ _ ho hc ht hst =>
    have hgrow := fun x => hst.pool (LocalPool.stable_mem x)
    obtain ⟨he, hcode⟩ := ho.within (hS.left.left.earlier fun x hx =>
      hgrow x (LocalPool.stable_mem x _ _ hx))
    have hx := hS.pool _ (hgrow _ (Scratch.next_mem s₁ .ref))
    have hτ := hS.left.right.tag List.mem_cons_self ht
    have hsize := hS.covers.arraySize
    simp only [Outline.allWithin_append]
    exact ⟨⟨⟨hcode, within_newObject hS.covers hx hτ⟩,
      ⟨hsize, hsize, ⟨hx, trivial⟩, hc.within hS.covers he⟩, trivial⟩,
      hst.within hS.right (Expr.within_ident.2 hx)⟩
  | newMultiArray hd ht hst =>
    have hcode := hd.within (hS.left.left.earlier fun x => hst.pool (LocalPool.stable_mem x))
    have hx := hS.left.right.knows _ List.mem_cons_self
    have hτ := hS.left.right.tag (List.mem_cons_of_mem _ List.mem_cons_self) ht
    simp only [Outline.allWithin_append]
    exact ⟨⟨hcode, within_newObject hS.covers hx hτ⟩,
      hst.within hS.right (Expr.within_ident.2 hx)⟩
  | value ho hst =>
    obtain ⟨he, hcode⟩ := ho.within (hS.left.earlier fun x => hst.pool (LocalPool.stable_mem x))
    exact Outline.allWithin_append.2 ⟨hcode, hst.within hS.right he⟩

theorem Bound.within (h : Bound F s index v r) (hS : S.Serves F r.scratch j) :
    Outline.AllWithin S r.code := by
  cases h with
  | receiver hx hr hc =>
    have hthis := hS.covers.formal _ (List.mem_append_left _ (Option.mem_toList.2 hr))
    exact ⟨⟨hS.pool _ (LocalPool.slot_mem hx), hc.within hS.covers hthis⟩, trivial⟩
  | param hx hp hc =>
    have hy := hS.covers.formal _ (List.mem_append_right _ (List.mem_of_getElem? hp))
    exact ⟨⟨hS.pool _ (LocalPool.slot_mem hx), hc.within hS.covers hy⟩, trivial⟩
  | caught hx =>
    exact ⟨⟨hS.pool _ (LocalPool.slot_mem hx), hS.covers.exception⟩,
      ⟨hS.covers.exception, hS.covers.null⟩, trivial⟩

theorem Executed.within (h : Executed F n s i r j) (hS : S.Serves F r.scratch j) :
    Outline.AllWithin S r.code := by
  cases h with
  | assign h => exact h.within hS
  | identity h => exact h.within hS
  | invoke h => exact h.within hS
  | goto => exact ⟨trivial, trivial⟩
  | branch ho hc =>
    obtain ⟨he, hcode⟩ := ho.within hS.left
    exact Outline.allWithin_append.2
      ⟨hcode, ⟨hc.within hS.covers he, ⟨trivial, trivial⟩, trivial⟩, trivial⟩
  | lookupSwitch h | tableSwitch _ h => exact h.within hS
  | ret hx ho hc =>
    obtain ⟨he, hcode⟩ := ho.within hS
    simp only [Outline.allWithin_append]
    exact ⟨⟨hcode, ⟨hS.covers.result _ hx, hc.within hS.covers he⟩, trivial⟩,
      within_exitCode hS.covers⟩
  | retVoid => exact within_exitCode hS.covers
  | raise ho hc _ hh =>
    obtain ⟨he, hcode⟩ := ho.within hS.left
    simp only [Outline.allWithin_append]
    exact ⟨⟨hcode, ⟨hS.covers.exception, hc.within hS.covers he⟩, trivial⟩, hh.within hS.right⟩
  | nop | breakpoint => trivial
  | enterMonitor ho | exitMonitor ho =>
    obtain ⟨he, hcode⟩ := ho.within hS
    exact Outline.allWithin_append.2 ⟨hcode, within_nullGuard hS.covers he⟩
  | retSubroutine =>
    refine ⟨?_, trivial⟩
    intro e he
    cases he

theorem Segments.within (h : Segments F s nodes s' segs j) (hS : S.Serves F s' j) :
    ∀ seg ∈ segs, Outline.AllWithin S seg := by
  induction h with
  | nil => simp
  | cons hn hrest ih =>
    have hcode := hn.within (hS.left.right.earlier fun x => hrest.pool (LocalPool.stable_mem x))
    refine List.forall_mem_cons.2 ⟨Outline.allWithin_append.2 ⟨?_, hcode⟩, ih hS.right⟩
    unfold entryCode
    split
    · exact ⟨trivial, trivial⟩
    · trivial

end Lower

end Verilower
