import Mathlib.Data.List.Forall2
import Verilower.Proofs.Ivl.Semantics
import Verilower.Proofs.Lowering.Outcome

namespace Verilower
set_option autoImplicit true

open Ivl (Ident Expr)

theorem Ty.isConstant_of_lowered {ty : Ty} (h : ty.lowered = .ok t) : t.isConstant = false := by
  cases ty <;> cases h <;> rfl

namespace Signature

/-- The identifiers of the static fields among some, with the lookups. -/
inductive StaticFields (p : Program) : List FieldId → List Ident → List Event → Prop
  | nil : StaticFields p [] [] []
  | static {i : FieldId} (hf : p.fields[i]? = some f) (hs : f.isStatic = true)
      (hx : p.fieldIdent i = .ok x) (hrest : StaticFields p ids xs j) :
      StaticFields p (i :: ids) (x :: xs) ([.field i] ++ j)
  | skip {i : FieldId} (hn : ∀ f, p.fields[i]? = some f → f.isStatic = false)
      (hrest : StaticFields p ids xs j) : StaticFields p (i :: ids) xs j

/-- The signature of a method whose procedure the prelude declares. -/
structure Adopted (i : MethodId) (m : Method) (q : Ivl.Procedure) (sig : Signature) : Prop where
  method : sig.method = i
  procedure : sig.procedure = q
  outs : q.outs = sig.result.toList ++ [sig.exception]
  exception : sig.exception.ty = .ref
  result : sig.result.isNone = m.returns.isVoid
  split : splitFormals m.isStatic q.ins = .ok (sig.receiver, sig.params)
  fromPrelude : sig.fromPrelude = true
  count : q.ins.length = (if m.isStatic then 0 else 1) + m.params.length

def receiverIdent (m : Method) : Option Ident := if m.isStatic then none else some ⟨"$this", .ref⟩

def declared (i : MethodId) (m : Method) (n : String) (ps : List Ident) (out : Option Ident)
    (statics : List Ident) : Signature where
  method := i
  procedure := {
    name := n
    ins := (receiverIdent m).toList ++ ps
    outs := out.toList ++ [⟨"$exception", .ref⟩]
    modifies := Prelude.globals ++ statics
    clauses := requires m ps ++ ensures m out }
  receiver := receiverIdent m
  params := ps
  result := out
  exception := ⟨"$exception", .ref⟩
  fromPrelude := false

inductive Built (p : Program) (q : Prelude) (i : MethodId) : Signature → List Event → Prop
  | adopted (hm : p.method? i = .ok m) (hn : p.procedureName m = .ok n)
      (hq : q.find? n = some proc) (ha : Adopted i m proc sig) :
      Built p q i sig [.log ⟨.debug, "reusing prelude signature for `" ++ n ++ "`"⟩]
  | declared (hm : p.method? i = .ok m) (hn : p.procedureName m = .ok n)
      (hq : q.find? n = none) (hnr : Prelude.reserved.contains n = false)
      (hps : (m.params.zipIdx.mapM fun (ty, index) => param index ty) = .ok ps)
      (hr : resultOf m = .ok out)
      (hs : StaticFields p (List.range p.fields.length) statics j) :
      Built p q i (declared i m n ps out statics) j

theorem staticFields_gives : ∀ {ids : List FieldId} {xs : List Ident} {j : List Event},
    ((staticFields p ids).trace p).Gives xs j → StaticFields p ids xs j
  | [], xs, j, h => by
    obtain ⟨rfl, rfl⟩ := Trace.gives_pure.1 h
    exact .nil
  | i :: ids, xs, j, h => by
    unfold staticFields at h
    split at h
    · rename_i f hf
      split at h
      · rename_i hs
        simp only [Ask.trace_bind, Ask.trace_field] at h
        obtain ⟨x, _, _, hx, h₁, rfl⟩ := Trace.gives_bind.1 h
        obtain ⟨hf', rfl⟩ := Trace.gives_field.1 hx
        obtain ⟨ys, _, _, hr, h₂, rfl⟩ := Trace.gives_bind.1 h₁
        obtain ⟨rfl, rfl⟩ := Trace.gives_pure.1 h₂
        simpa using StaticFields.static hf hs hf' (staticFields_gives hr)
      · rename_i hs
        refine .skip (fun g hg => ?_) (staticFields_gives h)
        cases hf.symm.trans hg
        simpa using hs
    · rename_i hn
      exact .skip (fun g hg => by simp [hn] at hg) (staticFields_gives h)

theorem except_check_eq_ok {c : Prop} [Decidable c] {e : ε} {f : Unit → Except ε α} :
    (if c then (throw e : Except ε Unit) >>= f else f ()) = .ok a ↔ ¬ c ∧ f () = .ok a := by
  split <;> simp_all [Bind.bind, Except.bind, throw, throwThe, MonadExceptOf.throw]

theorem ofPrelude_adopted (h : ofPrelude p i m q = .ok sig) : Adopted i m q sig := by
  unfold ofPrelude at h
  dsimp only at h
  split at h
  · cases h
  · rename_i last others hrev
    obtain ⟨_, hx, h₀⟩ := except_bind_eq_ok.1 h
    cases hx
    obtain ⟨hslot, h₁⟩ := except_check_eq_ok.1 h₀
    obtain ⟨hcount, h₂⟩ := except_check_eq_ok.1 h₁
    obtain ⟨hres, h₃⟩ := except_check_eq_ok.1 h₂
    obtain ⟨⟨receiver, params⟩, hsplit, h₄⟩ := except_bind_eq_ok.1 h₃
    cases h₄
    simp only [Bool.or_eq_true, decide_eq_true_eq, not_or, not_not, Nat.not_lt] at hslot
    have houts : q.outs = others.reverse ++ [last] := by
      rw [← List.reverse_reverse q.outs, hrev, List.reverse_cons]
    have hresults : others.reverse = others.head?.toList := by
      match others, hslot.2 with
      | [], _ => rfl
      | [x], _ => rfl
    refine ⟨rfl, rfl, by rw [houts, hresults], hslot.1, ?_, mapError_eq_ok.1 hsplit, rfl,
      not_not.1 hcount⟩
    rw [← not_not.1 hres]
    cases others <;> rfl

theorem synthesize_gives (hm : p.method? i = .ok m) (hn : p.procedureName m = .ok n)
    (hq : q.find? n = none) (hnr : Prelude.reserved.contains n = false)
    (h : ((synthesize p i m n).trace p).Gives sig j) : Built p q i sig j := by
  simp only [synthesize, Ask.trace_bind, Ask.trace_decision] at h
  obtain ⟨ps, _, _, gp, h₁, rfl⟩ := Trace.gives_bind.1 h
  obtain ⟨hps, rfl⟩ := Trace.gives_decision.1 gp
  obtain ⟨out, _, _, gr, h₂, rfl⟩ := Trace.gives_bind.1 h₁
  obtain ⟨hr, rfl⟩ := Trace.gives_decision.1 gr
  obtain ⟨statics, _, _, gs, h₃, rfl⟩ := Trace.gives_bind.1 h₂
  obtain ⟨rfl, rfl⟩ := Trace.gives_pure.1 h₃
  have hd := Built.declared hm hn hq hnr hps hr (staticFields_gives gs)
  simpa [declared, receiverIdent] using hd

theorem build_gives (h : (build p q i).Gives sig j) : Built p q i sig j := by
  simp only [build, builder, Ask.trace_bind, Ask.trace_promise] at h
  obtain ⟨m, _, _, gm, h₁, rfl⟩ := Trace.gives_bind.1 h
  obtain ⟨hm, rfl⟩ := Trace.gives_promise.1 gm
  obtain ⟨n, _, _, gn, h₂, rfl⟩ := Trace.gives_bind.1 h₁
  obtain ⟨hn, rfl⟩ := Trace.gives_promise.1 gn
  split at h₂
  · rename_i proc hq
    simp only [Ask.trace_bind, Ask.trace_log, Ask.trace_ofExcept] at h₂
    obtain ⟨_, _, _, hl, h₃, rfl⟩ := Trace.gives_bind.1 h₂
    obtain ⟨-, rfl⟩ := Trace.gives_emit.1 hl
    obtain ⟨ha, rfl⟩ := Trace.gives_ofExcept.1 h₃
    exact .adopted hm hn hq (ofPrelude_adopted ha)
  · rename_i hq
    split at h₂
    · exact (Trace.not_gives_fail h₂).elim
    · rename_i hnr
      exact synthesize_gives hm hn hq (by simpa using hnr) h₂

theorem built_of_result (h : (build p q i).result = .ok sig) : ∃ j, Built p q i sig j :=
  ⟨_, build_gives (Trace.gives_of_result h)⟩

section Events

variable {P : Event → Prop} (hf : ∀ i, P (.field i))
include hf

theorem staticFields_records : ∀ {ids : List FieldId}, ((staticFields p ids).trace p).Records P
  | [] => Trace.records_pure
  | i :: ids => by
    unfold staticFields
    split
    · split
      · simp only [Ask.trace_bind, Ask.trace_field]
        exact (Trace.records_field (hf i)).bind fun _ => staticFields_records.bind fun _ =>
          Trace.records_pure
      · exact staticFields_records
    · exact staticFields_records

theorem build_records (hl : ∀ r, P (.log r)) : (build p q i).Records P := by
  simp only [build, builder, Ask.trace_bind, Ask.trace_promise]
  refine Trace.records_ofExcept.bind fun m => Trace.records_ofExcept.bind fun n => ?_
  split
  · simp only [Ask.trace_bind, Ask.trace_log, Ask.trace_ofExcept]
    exact (Trace.records_emit (hl _)).bind fun _ => Trace.records_ofExcept
  · split
    · exact Trace.records_ofExcept
    · simp only [synthesize, Ask.trace_bind, Ask.trace_decision]
      exact Trace.records_ofExcept.bind fun _ => Trace.records_ofExcept.bind fun _ =>
        (staticFields_records hf).bind fun _ => Trace.records_pure

end Events

/-- Cut parameters are those of the procedure in their order, and only a static method has no
receiver. -/
theorem splitFormals_eq (h : splitFormals static ins = .ok (this, ps)) :
    this.toList ++ ps = ins ∧ this.isNone = static := by
  unfold splitFormals at h
  split at h
  · rename_i hs
    cases h
    exact ⟨rfl, hs.symm⟩
  · rename_i hs
    split at h
    · cases h
    · cases h
      exact ⟨rfl, (Bool.eq_false_iff.2 hs).symm⟩

theorem Adopted.formals (h : Adopted i m q sig) : sig.formals = q.ins := (splitFormals_eq h.split).1

theorem Built.receiver_isNone (h : Built p q i sig j) (hm : p.method? i = .ok m) :
    sig.receiver.isNone = m.isStatic := by
  cases h with
  | adopted hm' _ _ ha =>
    cases hm.symm.trans hm'
    exact (splitFormals_eq ha.split).2
  | declared hm' =>
    cases hm.symm.trans hm'
    cases hs : m.isStatic <;> simp [Signature.declared, receiverIdent, hs]

theorem Built.exception_ty (h : Built p q i sig j) : sig.exception.ty = .ref := by
  cases h with
  | adopted _ _ _ ha => exact ha.exception
  | declared => rfl

theorem Built.method_eq (h : Built p q i sig j) : sig.method = i := by
  cases h with
  | adopted _ _ _ ha => exact ha.method
  | declared => rfl

/-- A signature has its procedure from the prelude or is marked as made from the declaration. -/
theorem Built.origin (h : Built p q i sig j) :
    sig.procedure ∈ q.procedures ∨ sig.fromPrelude = false := by
  cases h with
  | adopted _ _ hq ha => exact .inl (ha.procedure ▸ List.mem_of_find?_eq_some hq)
  | declared => exact .inr rfl

theorem Built.named (h : Built p q i sig j) (hown : sig.fromPrelude = false) :
    ∃ m, p.methods[i]? = some m ∧ p.procedureName m = .ok sig.name ∧ q.find? sig.name = none := by
  cases h with
  | adopted _ _ _ ha =>
    rw [ha.fromPrelude] at hown
    cases hown
  | declared hm hn hq => exact ⟨_, entry_eq_ok.1 hm, hn, hq⟩

theorem Built.ins_eq (h : Built p q i sig j) : sig.procedure.ins = sig.formals := by
  cases h with
  | adopted _ _ _ ha => rw [ha.procedure, ha.formals]
  | declared => rfl

theorem Built.outs_eq (h : Built p q i sig j) :
    sig.procedure.outs = sig.result.toList ++ [sig.exception] := by
  cases h with
  | adopted _ _ _ ha => rw [ha.procedure, ha.outs]
  | declared => rfl

theorem Built.declared_method (h : Built p q i sig j) : ∃ m, p.method? i = .ok m := by
  cases h with
  | adopted hm | declared hm => exact ⟨_, hm⟩

/-- A procedure takes the receiver, if there is one, and one argument per parameter. -/
theorem Built.ins_length (h : Built p q i sig j) (hm : p.method? i = .ok m) :
    sig.procedure.ins.length = (if m.isStatic then 0 else 1) + m.params.length := by
  cases h with
  | adopted hm' _ _ ha =>
    cases hm.symm.trans hm'
    rw [ha.procedure, ha.count]
  | declared hm' _ _ _ hps =>
    cases hm.symm.trans hm'
    have hlen := (forall₂_of_mapM_eq_ok hps).length_eq
    rw [List.length_zipIdx] at hlen
    rw [Signature.declared, List.length_append, ← hlen, receiverIdent]
    split <;> rfl

theorem Built.result_isSome (h : Built p q i sig j) (hm : p.method? i = .ok m) :
    sig.result.isSome = !m.returns.isVoid := by
  cases h with
  | adopted hm' _ _ ha =>
    cases hm.symm.trans hm'
    rw [← ha.result, Option.not_isNone]
  | declared hm' _ _ _ _ hr =>
    cases hm.symm.trans hm'
    unfold resultOf at hr
    split at hr <;> rename_i hv
    · cases hr
      rw [hv]
      rfl
    · obtain ⟨t, -, hr⟩ := except_bind_eq_ok.1 hr
      cases hr
      rw [Bool.eq_false_iff.2 hv]
      rfl

theorem StaticFields.mem_iff (h : StaticFields p ids xs j) : x ∈ xs ↔
    ∃ i ∈ ids, ∃ f, p.fields[i]? = some f ∧ f.isStatic = true ∧ p.fieldIdent i = .ok x := by
  induction h with
  | nil => simp
  | static hf hs hx _ ih =>
    simp only [List.mem_cons, ih, exists_eq_or_imp]
    refine or_congr_left ⟨?_, ?_⟩
    · rintro rfl
      exact ⟨_, hf, hs, hx⟩
    · rintro ⟨_, -, -, hx'⟩
      exact Except.ok.inj (hx'.symm.trans hx)
  | skip hn _ ih =>
    simp only [ih, List.mem_cons, exists_eq_or_imp]
    refine (or_iff_right ?_).symm
    rintro ⟨f, hf, hs, -⟩
    rw [hn f hf] at hs
    cases hs

/-- A procedure that is made from a declaration may assign the variables of the prelude and all
static fields. -/
theorem Built.mem_modifies (h : Built p q i sig j) (hown : sig.fromPrelude = false) :
    x ∈ sig.procedure.modifies ↔ x ∈ Prelude.globals ∨
      ∃ i f, p.fields[i]? = some f ∧ f.isStatic = true ∧ p.fieldIdent i = .ok x := by
  cases h with
  | adopted _ _ _ ha =>
    rw [ha.fromPrelude] at hown
    cases hown
  | declared _ _ _ _ _ _ hs =>
    refine List.mem_append.trans (or_congr_right (hs.mem_iff.trans ⟨?_, ?_⟩))
    · rintro ⟨i, -, f, hf⟩
      exact ⟨i, f, hf⟩
    · rintro ⟨i, f, hf, hrest⟩
      exact ⟨i, List.mem_range.2 (List.getElem?_eq_some_iff.1 hf).1, f, hf, hrest⟩

theorem name_of_param (h : param index ty = .ok x) :
    x.name = "$in_parameter__" ++ toString index := by
  obtain ⟨t, -, h₁⟩ := except_bind_eq_ok.1 h
  cases h₁
  rfl

theorem name_of_resultOf (h : resultOf m = .ok (some x)) : x.name = "$return" := by
  unfold resultOf at h
  split at h
  · cases h
  · obtain ⟨t, -, h₁⟩ := except_bind_eq_ok.1 h
    cases h₁
    rfl

theorem lowered_of_resultOf (h : resultOf m = .ok (some x)) : m.returns.lowered = .ok x.ty := by
  unfold resultOf at h
  split at h
  · cases h
  · obtain ⟨t, ht, h₁⟩ := except_bind_eq_ok.1 h
    cases h₁
    exact ht

theorem formula_of_requires (h : c ∈ requires m ps) :
    ∃ x ∈ ps, c.formula = Prelude.isNonNull x.expr := by
  obtain ⟨⟨⟨ty, x⟩, index⟩, hmem, hc⟩ := List.mem_filterMap.1 h
  have hx : x ∈ ps := (List.of_mem_zip (List.fst_mem_of_mem_zipIdx hmem)).2
  dsimp only at hc
  split at hc <;> cases hc
  exact ⟨x, hx, rfl⟩

theorem formula_of_ensures (h : c ∈ ensures m out) :
    ∃ x, out = some x ∧ c.formula = Prelude.isNonNull x.expr := by
  unfold ensures at h
  split at h
  · obtain ⟨x, hx, rfl⟩ := List.mem_map.1 h
    exact ⟨x, Option.mem_toList.1 hx, rfl⟩
  · cases h

theorem contract_of_requires (h : c ∈ requires m ps) : c.contract = .requires := by
  obtain ⟨_, -, hc⟩ := List.mem_filterMap.1 h
  dsimp only at hc
  split at hc <;> cases hc
  rfl

theorem contract_of_ensures (h : c ∈ ensures m out) : c.contract = .ensures := by
  unfold ensures at h
  split at h
  · obtain ⟨x, -, rfl⟩ := List.mem_map.1 h
    rfl
  · cases h

theorem mem_checked {f : Ivl.Procedure} (h : e ∈ f.checked kind) :
    ∃ c ∈ f.clauses, c.contract = kind ∧ c.free = false ∧ c.formula = e := by
  obtain ⟨c, hc, rfl⟩ := List.mem_map.1 h
  obtain ⟨hmem, hkind⟩ := List.mem_filter.1 hc
  simp only [Bool.and_eq_true, decide_eq_true_eq, Bool.not_eq_true'] at hkind
  exact ⟨c, hmem, hkind.1, hkind.2, rfl⟩

/-- A precondition is one of the prelude or says that a formal is not null. -/
theorem Built.precondition (h : Built p q i sig j) (he : e ∈ sig.procedure.preconditions) :
    sig.procedure ∈ q.procedures ∨ ∃ x ∈ sig.formals, e = Prelude.isNonNull x.expr := by
  cases h with
  | adopted _ _ hq ha =>
    rw [ha.procedure]
    exact .inl (List.mem_of_find?_eq_some hq)
  | declared =>
    obtain ⟨c, hc, hkind, -, rfl⟩ := mem_checked he
    obtain hc | hc := List.mem_append.1 hc
    · obtain ⟨x, hx, hf⟩ := formula_of_requires hc
      exact .inr ⟨x, List.mem_append_right _ hx, hf⟩
    · cases hkind.symm.trans (contract_of_ensures hc)

/-- A postcondition is one of the prelude or says that the result is not null. -/
theorem Built.postcondition (h : Built p q i sig j) (he : e ∈ sig.procedure.postconditions) :
    sig.procedure ∈ q.procedures ∨ ∃ x, sig.result = some x ∧ e = Prelude.isNonNull x.expr := by
  cases h with
  | adopted _ _ hq ha =>
    rw [ha.procedure]
    exact .inl (List.mem_of_find?_eq_some hq)
  | declared =>
    obtain ⟨c, hc, hkind, -, rfl⟩ := mem_checked he
    obtain hc | hc := List.mem_append.1 hc
    · cases hkind.symm.trans (contract_of_requires hc)
    · obtain ⟨x, hx, hf⟩ := formula_of_ensures hc
      exact .inr ⟨x, hx, hf⟩

end Signature

end Verilower
