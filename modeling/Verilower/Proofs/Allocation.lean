import Verilower.Proofs.Devirtualization
import Verilower.Proofs.History
import Verilower.Proofs.Objects

namespace Verilower
set_option autoImplicit true

open Ivl

namespace Allocation

variable {W : World} {p : Program}

theorem orderlyFrom_cons (hs : s.allocated? = none)
    (h : ∀ cs σ₁ ss₁, W.Step σ (s :: ss) cs σ₁ ss₁ →
      cs = [] ∧ Leaves W p σ σ₁ ∧ OrderlyFrom W p ts σ₁ ss₁) :
    OrderlyFrom W p ts σ (s :: ss) := by
  intro os A σ' ss' hrun
  cases hrun with
  | refl => exact ⟨.refl p σ, fun _ => (Makes.refl p σ).weaken (List.nil_sublist _)⟩
  | step hstep hrest =>
    obtain ⟨rfl, hl, hss⟩ := h _ _ _ hstep
    obtain ⟨hk, hm⟩ := hss _ _ _ _ hrest
    simp only [World.written, hs, Option.map_none, Option.toList_none, List.nil_append,
      World.called_nil, Set.empty_union]
    exact ⟨hl.keeps.trans hk, fun he => hl.makes (hm he)⟩

theorem orderly_assume : Orderly W p [] [.assume e] := by
  intro σ hσ
  apply orderlyFrom_cons rfl
  intro cs σ₁ ss h
  cases h
  exact ⟨rfl, .refl p σ, orderly_nil σ hσ⟩

theorem orderly_assert : Orderly W p [] [.assert e] := by
  intro σ hσ
  apply orderlyFrom_cons rfl
  intro cs σ₁ ss h
  cases h
  exact ⟨rfl, .refl p σ, orderly_nil σ hσ⟩

theorem orderly_ite (ha : Orderly W p ts a) (hb : Orderly W p ts b) :
    Orderly W p ts [.ite c a b] := by
  intro σ hσ
  apply orderlyFrom_cons rfl
  intro cs σ₁ ss h
  cases h with
  | thenBranch => exact ⟨rfl, .refl p σ, (List.append_nil a).symm ▸ ha σ hσ⟩
  | elseBranch => exact ⟨rfl, .refl p σ, (List.append_nil b).symm ▸ hb σ hσ⟩

theorem orderly_passive (h : Stmt.Passive s) : Orderly W p [] [s] := by
  have hall : ∀ ss : List Stmt, (∀ s ∈ ss, Orderly W p [] [s]) → Orderly W p [] ss := by
    intro ss hss
    induction ss with
    | nil => exact orderly_nil
    | cons s ss ih =>
      have hs := hss s List.mem_cons_self
      exact hs.append (ih fun s hs => hss s (List.mem_cons_of_mem _ hs))
  induction h with
  | assume => exact orderly_assume
  | ite _ _ iha ihb => exact orderly_ite (hall _ iha) (hall _ ihb)
  | label =>
    intro σ hσ
    apply orderlyFrom_cons rfl
    intro cs σ₁ ss h
    cases h
    exact ⟨rfl, .refl p σ, orderly_nil σ hσ⟩
  | goto | ret =>
    intro σ hσ
    apply orderlyFrom_cons rfl
    intro cs σ₁ ss h
    cases h

theorem orderly_assign (hx : x ≠ Prelude.heap) (hc : ¬ p.IsConstant x) :
    Orderly W p [] [.assign x e] := by
  intro σ hσ
  apply orderlyFrom_cons (Stmt.allocated?_assign hx)
  intro cs σ₁ ss h
  cases h
  have hl : Leaves W p σ fun y => if y = x then e.eval W.toInterp σ else σ y := by
    apply Leaves.of_eq (if_neg hx.symm)
    intro y hy
    apply if_neg
    rintro rfl
    exact hc hy
  exact ⟨rfl, hl, orderly_nil _ (hl.keeps.fieldsDistinct hσ)⟩

theorem step_write (h : W.Step σ (Prelude.write e f e' :: ss) cs σ₁ ss₁) :
    cs = [] ∧ ss₁ = ss ∧ σ₁ = put W σ (e.eval W.toInterp σ) f (e'.eval W.toInterp σ) := by
  cases h
  exact ⟨rfl, rfl, rfl⟩

theorem orderly_fieldStore (hx : p.fieldIdent i = .ok x) (ht : x.ty = .field t) :
    Orderly W p [] [Prelude.write e x e'] := by
  have hs : (Prelude.write e x e').allocated? = none := by
    have hne : x ≠ Prelude.alloc := by
      rintro rfl
      have hdot := Program.dot_mem_fieldIdent hx
      revert hdot
      decide
    rw [Stmt.allocated?_write, if_neg hne]
  intro σ hσ
  apply orderlyFrom_cons hs
  intro cs σ₁ ss h
  obtain ⟨rfl, rfl, rfl⟩ := step_write h
  obtain ⟨halloc, htype⟩ := hσ.declared_ne hx ht
  have hl : Leaves W p σ (put W σ (e.eval W.toInterp σ) x (e'.eval W.toInterp σ)) :=
    ⟨fun x hx => put_constant hx, fun o => allocated_put (.inr halloc),
      fun o => tagOf_put (.inr htype)⟩
  exact ⟨rfl, hl, orderly_nil _ (hl.keeps.fieldsDistinct hσ)⟩

theorem after_constant (hW : W.Preserves) (ho : ∀ x ∈ outs, ¬ p.IsConstant x)
    (hx : p.IsConstant x) : W.after f args outs σ x = σ x := by
  apply World.after_of_notMem
  · exact fun hmem => ho x hmem hx
  · rcases hx.eq_null_or_ty with rfl | hty
    · exact hW.null
    · exact W.isGlobal_constant hty

theorem keeps_after (hW : W.Preserves) (ho : ∀ x ∈ outs, ¬ p.IsConstant x) :
    Keeps W p σ (W.after f args outs σ) := by
  have hc : ∀ x, p.IsConstant x → W.after f args outs σ x = σ x :=
    fun x hx => after_constant hW ho hx
  have hheap : W.after f args outs σ Prelude.heap = W.callee f args σ Prelude.heap ∨
      W.after f args outs σ Prelude.heap = σ Prelude.heap := by
    unfold World.after
    split
    · exact .inl rfl
    · exact .inr rfl
  constructor
  case constant => exact hc
  case allocated =>
    intro o ho
    rw [World.Allocated, hc _ (.field .alloc)]
    rcases hheap with hheap | hheap
    · rw [hheap]
      exact hW.allocated f args σ o ho
    · rw [hheap]
      exact ho
  case tag =>
    intro o ho
    rw [World.tagOf, hc _ (.field .typeField)]
    rcases hheap with hheap | hheap
    · rw [hheap]
      exact hW.tag f args σ o ho
    · rw [hheap]
      rfl

theorem orderly_call (hW : W.Preserves) (ho : ∀ x ∈ outs, ¬ p.IsConstant x) :
    Orderly W p [] [.call f args outs] := by
  intro σ hσ os A σ' ss' hrun
  cases hrun with
  | refl => exact ⟨.refl p σ, fun _ => .refl p σ⟩
  | step hstep hrest =>
    cases hstep
    obtain ⟨rfl, rfl, rfl, rfl⟩ := hrest.of_nil
    have hk : Keeps W p σ (W.after f (Expr.evalAll W.toInterp σ args) outs σ) := keeps_after hW ho
    refine ⟨hk, fun _ => ?_⟩
    rw [Set.union_empty]
    constructor
    case nodup => exact List.nodup_nil
    case fresh => exact fun o hmem => absurd hmem List.not_mem_nil
    case called => exact fun o ho => ⟨ho.2.1, List.not_mem_nil⟩
    case allocated =>
      intro o
      simp only [World.called, Set.mem_ofPred_eq]
      constructor
      · intro hnow
        by_cases hbefore : W.Allocated σ o
        · exact .inl hbefore
        · exact .inr (.inr ⟨List.cons_ne_nil _ _, hbefore, hnow⟩)
      · rintro (hbefore | hmem | hnew)
        · exact hk.allocated o hbefore
        · cases hmem
        · exact hnew.2.2
    case nonNull => exact fun o hmem => absurd hmem List.not_mem_nil
    case typed => exact ⟨[], .slnil, .nil⟩

/-- An object that is not allocated gets its flag and then its tag. -/
theorem orderlyFrom_create (hσ : p.FieldsDistinct σ) (hx : x ≠ Prelude.heap)
    (ho : ¬ W.Allocated σ (σ x)) (hτ : p.tag ty = .ok τ) :
    OrderlyFrom W p [ty] σ [Prelude.write x.expr Prelude.alloc (.bool true),
      .assume (Prelude.isNonNull x.expr), Prelude.write x.expr Prelude.typeField τ.expr] := by
  have hk := keeps_put_alloc hσ ho
  intro os A σ' ss' hrun
  cases hrun with
  | refl => exact ⟨.refl p σ, nofun⟩
  | step hflag hrun =>
    obtain ⟨rfl, rfl, rfl⟩ := step_write hflag
    cases hrun with
    | refl => exact ⟨hk, nofun⟩
    | step hassume hrun =>
      cases hassume with
      | assume hn =>
        cases hrun with
        | refl => exact ⟨hk, nofun⟩
        | step htag hrun =>
          obtain ⟨rfl, rfl, rfl⟩ := step_write htag
          obtain ⟨rfl, rfl, rfl, rfl⟩ := hrun.of_nil
          have hnull := W.holds_neq.1 hn
          simp only [Ident.expr, Expr.eval] at hnull ⊢
          rw [put_of_ne hx, put_of_ne (x := Prelude.null) (by decide)] at hnull
          rw [put_of_ne hx, put_constant (.tag hτ)]
          refine ⟨keeps_create hσ ho, fun _ => ?_⟩
          have hne : Prelude.typeField ≠ Prelude.alloc := by decide
          simpa [World.written, Stmt.allocated?_write, Stmt.allocated?_assume, hne, Expr.eval,
            create] using makes_create hσ ho hnull hτ

theorem orderly_newObject (hx : x ≠ Prelude.heap) (hc : ¬ p.IsConstant x)
    (hτ : p.tag ty = .ok τ) (enc : Encoding) :
    Orderly W p [ty] (enc.encodeAll (Lower.newObject x τ)) := by
  intro σ hσ
  apply orderlyFrom_cons rfl
  intro cs σ₁ ss h
  cases h with
  | havoc heq =>
    have hl : Leaves W p σ σ₁ := by
      apply Leaves.of_eq
      · exact heq _ (by simpa using hx.symm)
      · intro y hy
        apply heq
        rw [List.mem_singleton]
        rintro rfl
        exact hc hy
    refine ⟨rfl, hl, ?_⟩
    apply orderlyFrom_cons rfl
    intro cs σ₂ ss h
    cases h with
    | assume hfree =>
      have ho : ¬ W.Allocated σ₁ (σ₁ x) := W.holds_not.1 hfree
      exact ⟨rfl, .refl p σ₁, orderlyFrom_create (hl.keeps.fieldsDistinct hσ) hx ho hτ⟩

end Allocation

open Allocation

variable {W : World}

/-- An obligation sets the flag of exceptional returns and the exception slot, and leaves objects
alone. -/
theorem Encoding.orderly_obligation {enc : Encoding} {p : Program} (o : Obligation)
    (hx : enc.slot ≠ Prelude.heap) (hc : ¬ p.IsConstant enc.slot) :
    Orderly W p [] (enc.obligation o) := by
  have hflag : ¬ p.IsConstant LocalPool.flag := by
    intro h
    rcases h.eq_null_or_ty with h | h
    · revert h
      decide
    · cases h
  have hraise : ∀ v, Orderly W p [] (enc.raise v) := by
    intro v
    have hset : Orderly W p [] [.assign LocalPool.flag (.bool true)] :=
      orderly_assign (by decide) hflag
    have hslot : Orderly W p [] [.assign enc.slot (Prelude.witness v).expr] :=
      orderly_assign hx hc
    exact hset.append (hslot.append (orderly_passive .ret))
  rcases enc.obligation_cases o with h | ⟨g, -, h⟩ | ⟨-, h⟩ | ⟨g, -, h⟩ | ⟨-, h⟩
  all_goals rw [h]
  · exact orderly_nil
  · exact orderly_ite (hraise o.violation) orderly_nil
  · exact hraise o.violation
  · exact orderly_assert
  · exact orderly_passive .ret

/-- Encoded blocks treat objects as they should, if they assign neither the heap nor constants. -/
theorem Lower.Emits.orderly {V : Ident → Prop} {enc : Encoding} (h : Emits F V ts code)
    (hW : W.Preserves) (hV : ∀ x, V x → x ≠ Prelude.heap ∧ ¬ F.program.IsConstant x)
    (hslot : V enc.slot) : Orderly W F.program ts (enc.encodeAll code) := by
  have hobligation : ∀ o, Orderly W F.program [] (enc.encodeAll [.oblige o]) := by
    intro o
    obtain ⟨hx, hc⟩ := hV _ hslot
    rw [Encoding.encodeAll_oblige]
    exact Encoding.orderly_obligation o hx hc
  induction h with
  | nil => exact orderly_nil
  | append _ _ iha ihb =>
    rw [Encoding.encodeAll_append]
    exact iha.append ihb
  | weaken _ hs ih => exact ih.weaken hs
  | passive hs => exact orderly_passive hs
  | oblige v e => exact hobligation _
  | unexpected => exact hobligation _
  | assign hx =>
    obtain ⟨hx, hc⟩ := hV _ hx
    exact orderly_assign hx hc
  | fieldStore hx ht => exact orderly_fieldStore hx ht
  | object hx hτ =>
    obtain ⟨hx, hc⟩ := hV _ hx
    exact orderly_newObject hx hc hτ enc
  | call ho => exact orderly_call hW fun x hx => (hV x (ho x hx)).2
  | when _ _ ih => exact orderly_ite ih (orderly_nil.weaken (List.nil_sublist _))

/-- Segments of lowered bodies treat objects as they should, if no result of the method is the heap
or a constant. -/
theorem BodyLowered.orderly {enc : Encoding} (h : BodyLowered p q n b l j)
    (hslot : enc.slot = l.signature.exception)
    (hout : ∀ x ∈ l.signature.procedure.outs, x ≠ Prelude.heap ∧ ¬ p.IsConstant x)
    (hW : W.Preserves) :
    List.Forall₂ (fun node segment => Orderly W p node.instr.requests (enc.encodeAll segment))
      b.nodes l.segments := by
  cases h with
  | @intro _ sig _ _ _ _ hm hsig hpool hseg =>
    obtain ⟨k, hb⟩ := Signature.built_of_result hsig
    have hsettable : ∀ x : Ident, x.Settable → x ≠ Prelude.heap ∧ ¬ p.IsConstant x :=
      fun x hx => ⟨hx.ne_heap, fun hc => hc.not_settable hx⟩
    have hexception : sig.exception ∈ sig.procedure.outs := by simp [hb.outs_eq]
    have hresult : ∀ x, sig.result = some x → x ∈ sig.procedure.outs := by
      intro x hx
      simp [hb.outs_eq, hx]
    have hadmits := hseg.admits hpool hsettable (hout _ hexception)
      fun x hx => hout x (hresult x hx)
    have hslot' : enc.slot ≠ Prelude.heap ∧ ¬ p.IsConstant enc.slot := hslot ▸ hout _ hexception
    have hall : List.Forall₂ (fun node segment => Orderly W p node.instr.requests
        (enc.encodeAll segment)) (b.nodes.zipIdx.map Prod.fst) _ :=
      List.forall₂_map_left_iff.2 ((hseg.emits hadmits).imp fun nd seg hcode =>
        hcode.orderly hW (fun x hx => hx) hslot')
    rwa [List.zipIdx_map_fst] at hall

namespace Session

/-- Lowered segments keep allocated objects as they are, and what they allocate is new, distinct,
not null and of the types that are asked for. A prelude could make this fail: it may declare the heap
or a constant as a result of the procedure that is implemented. -/
theorem lower_orderly {s : Session} (h : (s.lower b).1 = .ok i)
    (hout : s.prelude = .standard ∨
      ∀ x ∈ i.procedure.outs, x ≠ Prelude.heap ∧ ¬ s.program.IsConstant x) :
    ∃ l, (lowerBody s.program s.prelude s.registry.globals.length b).result = .ok l ∧
      i = l.implementation s.options ∧
      ∀ W : World, W.Preserves → List.Forall₂ (fun node segment =>
        Orderly W s.program node.instr.requests ((l.encoding s.options).encodeAll segment))
          b.nodes l.segments := by
  obtain ⟨l, j, hl, rfl, -⟩ := lower_result h
  have hbody := lowerBody_gives hl
  refine ⟨l, congrArg Trace.result hl, rfl, fun W hW => hbody.orderly rfl ?_ hW⟩
  rcases hout with hq | hout
  · intro x hx
    rw [hq] at hbody
    cases hbody with
    | intro _ hsig =>
      obtain ⟨k, hb⟩ := Signature.built_of_result hsig
      have hset := hb.outs_settable hx
      exact ⟨hset.ne_heap, fun hc => hc.not_settable hset⟩
  · exact hout

end Session

def alarm : Program := .declaring [
  .addClass "A",
  .addMethod 3 { name := "fail", isStatic := true }] (by decide +kernel)

def alarmBody : Body where
  method := 0
  nodes := [{ instr := .raise (.constant (.string "x")) }]
  sound := by decide

def alarmSession (q : Prelude) : Session := Session.start (.ofProgram alarm) q {}

abbrev alarmVar : Ident := ⟨"$fakelocal_0", .ref⟩

/-- The only segment, which puts the new string into the exception slot. -/
abbrev alarmCode (slot : Ident) : List Stmt := [
  .havoc [alarmVar],
  .assume (.not (Prelude.read alarmVar.expr Prelude.alloc)),
  Prelude.write alarmVar.expr Prelude.alloc (.bool true),
  .assume (Prelude.isNonNull alarmVar.expr),
  Prelude.write alarmVar.expr Prelude.typeField (walkTag "java.lang.String").expr,
  .assign Prelude.stringSize (.store Prelude.stringSize.expr [alarmVar.expr] (.int 1)),
  .assign slot alarmVar.expr,
  .ret]

def alarmState (x : Ident) : Free := if x = Prelude.heap then .bool false else .name x

theorem alarmState_fieldsDistinct : alarm.FieldsDistinct alarmState := by
  intro x y hx hy hne heq
  rw [alarmState, alarmState, if_neg (Program.IsConstant.field hx).ne_heap,
    if_neg (Program.IsConstant.field hy).ne_heap] at heq
  exact hne (congrArg Ident.name (Free.name.inj heq))

theorem walkWorld_preserves : walkWorld.Preserves where
  null := by decide
  allocated f args σ o h := by simpa [Prelude.heap, World.Allocated] using h
  tag f args σ o h := by simp [Prelude.heap, World.tagOf]

/-- The method can run to its return, where the slot holds the new object. -/
theorem alarm_run (slot : Ident) : ∃ A σ',
    walkWorld.Run alarmState (alarmCode slot) [.int 1] A σ' [.ret] ∧ σ' slot = .int 1 := by
  let σ₁ : walkWorld.State := fun x => if x = alarmVar then .int 1 else alarmState x
  have hhavoc : ∀ x ∉ [alarmVar], σ₁ x = alarmState x := fun x hx => if_neg (by simpa using hx)
  have hfree : walkWorld.Sat σ₁ (.not (Prelude.read alarmVar.expr Prelude.alloc)) := by
    apply walkWorld.holds_not.2
    simp [σ₁, Expr.eval, Expr.evalAll, Prelude.read, Ident.expr, alarmState, Free.select,
      Prelude.heap]
  let σ₂ := put walkWorld σ₁ (.int 1) Prelude.alloc (.bool true)
  have hnull : walkWorld.Sat σ₂ (Prelude.isNonNull alarmVar.expr) := by
    apply walkWorld.holds_neq.2
    simp [σ₂, σ₁, put, Expr.eval, Ident.expr, alarmState, Prelude.heap, Prelude.null]
  have hrun : ∃ os A σ', walkWorld.Run alarmState (alarmCode slot) os A σ' [.ret] ∧
      os = [.int 1] ∧ σ' slot = .int 1 := by
    refine ⟨_, _, _, .step (.havoc hhavoc) <| .step (.assume hfree) <| .step .assign <|
      .step (.assume hnull) <| .step .assign <| .step .assign <| .step .assign .refl, ?_, ?_⟩
    · simp [World.written, Stmt.allocated?, Prelude.write, Expr.eval, Ident.expr, σ₁,
        Prelude.typeField, Prelude.alloc, Prelude.stringSize, Prelude.heap]
    · simp [Expr.eval, Ident.expr, σ₁, Prelude.heap, Prelude.stringSize]
  obtain ⟨os, A, σ', hrun, rfl, hslot⟩ := hrun
  exact ⟨A, σ', hrun, hslot⟩

theorem lower_orderly_alarm :
    ∃ (i : Implementation) (l : Lowered),
      ((alarmSession .standard).lower alarmBody).1 = .ok i ∧ i = l.implementation {} ∧
      l.segments.map (l.encoding {}).encodeAll = [alarmCode ⟨"$exception", .ref⟩] ∧
      walkWorld.Preserves ∧
      List.Forall₂ (fun node segment => Orderly walkWorld alarm node.instr.requests
        ((l.encoding {}).encodeAll segment)) alarmBody.nodes l.segments ∧
      ∃ A σ', walkWorld.Run alarmState (alarmCode ⟨"$exception", .ref⟩) [.int 1] A σ' [.ret] := by
  obtain ⟨i, hi⟩ := exists_of_isOk (x := ((alarmSession .standard).lower alarmBody).1)
    (by decide +kernel)
  obtain ⟨l, hl, hil, horderly⟩ := Session.lower_orderly hi (.inl rfl)
  have hcode : ((lowerBody alarm .standard 0 alarmBody).result.toOption.map fun l =>
      l.segments.map (l.encoding {}).encodeAll) = some [alarmCode ⟨"$exception", .ref⟩] := by
    decide +kernel
  obtain ⟨A, σ', hrun, -⟩ := alarm_run ⟨"$exception", .ref⟩
  have hl' : (lowerBody alarm .standard 0 alarmBody).result = .ok l := hl
  rw [hl'] at hcode
  exact ⟨i, l, hi, hil, Option.some.inj hcode, walkWorld_preserves,
    horderly walkWorld walkWorld_preserves, A, σ', hrun⟩

/-- A prelude whose procedure for the method throws into the null reference. -/
def nulling : Prelude := Prelude.bare.add { name := "A$void$fail", outs := [Prelude.null] }

/-- Under that prelude the new object is the null reference where the method returns. -/
theorem nulling_overwrites_null :
    ∃ (i : Implementation) (l : Lowered),
      ((alarmSession nulling).lower alarmBody).1 = .ok i ∧ i = l.implementation {} ∧
      l.segments.map (l.encoding {}).encodeAll = [alarmCode Prelude.null] ∧
      walkWorld.Preserves ∧ alarm.FieldsDistinct alarmState ∧
      ∃ A σ', walkWorld.Run alarmState (alarmCode Prelude.null) [.int 1] A σ' [.ret] ∧
        σ' Prelude.null = .int 1 := by
  obtain ⟨i, hi⟩ := exists_of_isOk (x := ((alarmSession nulling).lower alarmBody).1)
    (by decide +kernel)
  obtain ⟨l, j, hl, hil, -⟩ := Session.lower_result hi
  have hcode : ((lowerBody alarm nulling 0 alarmBody).result.toOption.map fun l =>
      l.segments.map (l.encoding {}).encodeAll) = some [alarmCode Prelude.null] := by
    decide +kernel
  have hl' : (lowerBody alarm nulling 0 alarmBody).result = .ok l := congrArg Trace.result hl
  rw [hl'] at hcode
  exact ⟨i, l, hi, hil, Option.some.inj hcode, walkWorld_preserves, alarmState_fieldsDistinct,
    alarm_run Prelude.null⟩

end Verilower
