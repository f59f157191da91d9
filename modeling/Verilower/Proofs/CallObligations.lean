import Verilower.Proofs.CallArity
import Verilower.Proofs.Lowering.Variables

namespace Verilower
set_option autoImplicit true

open Ivl

namespace Ivl.Subst

/-- A substitution by distinct variables puts in the place of each the expression next to it. -/
theorem ofPairs_of_mem {pairs : List (Ident × Expr)} (hn : (pairs.map Prod.fst).Nodup)
    (h : (x, e) ∈ pairs) : ofPairs pairs x = some e := by
  obtain ⟨e', he'⟩ := exists_of_mem h
  have heq := List.inj_on_of_nodup_map hn (mem_of_ofPairs he') h rfl
  rw [he', (Prod.mk.inj heq).2]

theorem ofPairs_of_notMem {pairs : List (Ident × Expr)} (h : x ∉ pairs.map Prod.fst) :
    ofPairs pairs x = none := by
  cases hx : ofPairs pairs x with
  | none => rfl
  | some e => exact absurd (List.mem_map_of_mem (mem_of_ofPairs hx)) h

end Ivl.Subst

namespace Method

/-- The positions of the reference parameters that are annotated as not null. -/
def nonNullParams (m : Method) : List Nat :=
  (List.range m.params.length).filter fun k =>
    m.params[k]?.any Ty.isReference && m.paramHasAnnotation k .nonNull

/-- What the method demands of actuals: those at these positions are not null. -/
def demands (m : Method) (args : List Expr) : List Expr :=
  m.nonNullParams.filterMap fun k => args[k]?.map Prelude.isNonNull

end Method

theorem filterMap_zipIdx {l : List α} {f : α × Nat → Option β} :
    l.zipIdx.filterMap f = (List.range l.length).filterMap fun k => l[k]?.bind fun a => f (a, k) := by
  induction l using List.reverseRecOn with
  | nil => rfl
  | append_singleton l a ih =>
    rw [List.zipIdx_append, List.filterMap_append, ih, List.length_append, List.length_singleton,
      List.range_succ, List.filterMap_append]
    congr 1
    · apply List.filterMap_congr
      intro k hk
      rw [List.getElem?_append_left (List.mem_range.1 hk)]
    · simp [List.filterMap_cons]

namespace Signature

/-- The preconditions of a method, changed so that formals become actuals, are its demands. -/
theorem map_requires {f : Expr → Expr} {ps : List Ident} {args : List Expr}
    (hps : ps.length = m.params.length) (hargs : args.length = m.params.length)
    (hf : ∀ (k : Nat) x a, ps[k]? = some x → args[k]? = some a →
      f (Prelude.isNonNull x.expr) = Prelude.isNonNull a) :
    (requires m ps).map (fun c => f c.formula) = m.demands args := by
  rw [requires, filterMap_zipIdx, List.map_filterMap, Method.demands, Method.nonNullParams,
    List.filterMap_filter, List.length_zip, hps, Nat.min_self]
  apply List.filterMap_congr
  intro k hk
  have hlt := List.mem_range.1 hk
  obtain ⟨ty, hty⟩ : ∃ ty, m.params[k]? = some ty := ⟨_, List.getElem?_eq_getElem hlt⟩
  obtain ⟨x, hx⟩ : ∃ x, ps[k]? = some x := ⟨_, List.getElem?_eq_getElem (hps ▸ hlt)⟩
  obtain ⟨a, ha⟩ : ∃ a, args[k]? = some a := ⟨_, List.getElem?_eq_getElem (hargs ▸ hlt)⟩
  have hzip : (m.params.zip ps)[k]? = some (ty, x) := List.getElem?_zip_eq_some.2 ⟨hty, hx⟩
  simp only [hzip, hty, ha, Option.bind_some, Option.any_some, Option.map_some]
  split
  · exact congrArg some (hf k x a hx ha)
  · rfl

theorem preconditions_declared : (declared i m n ps out statics).procedure.preconditions =
    (requires m ps).map Clause.formula := by
  have hreq : (requires m ps).filter (fun c => c.contract = .requires && !c.free) =
      requires m ps := by
    apply List.filter_eq_self.2
    intro c hc
    obtain ⟨_, -, hc⟩ := List.mem_filterMap.1 hc
    dsimp only at hc
    split at hc <;> cases hc
    rfl
  have hens : (ensures m out).filter (fun c => c.contract = .requires && !c.free) = [] := by
    apply List.filter_eq_nil_iff.2
    intro c hc
    simp [contract_of_ensures hc]
  rw [Procedure.preconditions, Procedure.checked, declared]
  dsimp only
  rw [List.filter_append, hreq, hens, List.append_nil]

theorem params_nodup {tys : List Ty} {ps : List Ident}
    (h : (tys.zipIdx.mapM fun (ty, index) => param index ty) = .ok ps) :
    (ps.map Ident.name).Nodup := by
  have hnames : ps.map Ident.name =
      (tys.zipIdx.map Prod.snd).map fun k => "$in_parameter__" ++ toString k := by
    rw [List.map_map]
    exact mapM_eq_ok_map (fun a b hb => name_of_param hb) h
  rw [hnames, List.zipIdx_map_snd]
  apply List.Nodup.map _ (List.nodup_range' 1)
  intro j k hjk
  exact toString_injective ((String.append_right_inj _).1 hjk)

theorem paramName_ne (index : Nat) {s : String} (h : s.toList[1]? ≠ some 'i') :
    "$in_parameter__" ++ toString index ≠ s := by
  rintro rfl
  rw [toList_paramName] at h
  exact h rfl

/-- The formals of a procedure that is made from a declaration are distinct, and none is null. -/
theorem formals_nodup (h : (m.params.zipIdx.mapM fun (ty, index) => param index ty) = .ok ps) :
    ((receiverIdent m).toList ++ ps).Nodup ∧ Prelude.null ∉ (receiverIdent m).toList ++ ps := by
  have hname : ∀ x ∈ ps, ∃ index : Nat, x.name = "$in_parameter__" ++ toString index := by
    intro x hx
    obtain ⟨⟨ty, index⟩, -, hp⟩ := mem_of_mapM_eq_ok h hx
    exact ⟨index, name_of_param hp⟩
  have hthis : ∀ x ∈ (receiverIdent m).toList, x = thisVar := by
    intro x hx
    unfold receiverIdent at hx
    split at hx
    · cases hx
    · exact List.mem_singleton.1 hx
  constructor
  · apply List.nodup_append.2
    have hone : (receiverIdent m).toList.Nodup := by
      cases receiverIdent m <;> simp
    refine ⟨hone, (params_nodup h).of_map _, fun x hx y hy hxy => ?_⟩
    obtain ⟨index, hy⟩ := hname y hy
    rw [← hxy, hthis x hx] at hy
    exact paramName_ne index (by decide) hy.symm
  · intro hnull
    obtain hx | hx := List.mem_append.1 hnull
    · exact absurd (hthis _ hx) (by decide)
    · obtain ⟨index, hy⟩ := hname _ hx
      exact paramName_ne index (by decide) hy.symm

end Signature

namespace Lower

/-- The preconditions at a call of a method are its demands on the actuals. -/
theorem preconditionCode_declared {o : Operands}
    (hps : (method.params.zipIdx.mapM fun (ty, index) => Signature.param index ty) = .ok ps)
    (hrec : o.receiver.isSome = !method.isStatic) (hargs : o.args.length = method.params.length) :
    preconditionCode (Signature.declared m method n ps out statics) o.actuals =
      (method.demands o.args).map fun e => .oblige (.precondition e) := by
  have hlen := (forall₂_of_mapM_eq_ok hps).length_eq
  rw [List.length_zipIdx] at hlen
  obtain ⟨hnodup, hnull⟩ := Signature.formals_nodup hps
  have hfront : (Signature.receiverIdent method).toList.length = o.receiver.toList.length := by
    rw [Signature.receiverIdent]
    cases hstatic : method.isStatic <;> cases hr : o.receiver <;> simp [hstatic, hr] at hrec ⊢
  generalize hpairs : ((Signature.receiverIdent method).toList ++ ps).zip o.actuals = pairs
  have hkeys : pairs.map Prod.fst = (Signature.receiverIdent method).toList ++ ps := by
    rw [← hpairs]
    apply List.map_fst_zip
    simp [Operands.actuals, hfront, hargs, hlen]
  have hparam : ∀ (k : Nat) x a, ps[k]? = some x → o.args[k]? = some a → (x, a) ∈ pairs := by
    intro k x a hx ha
    rw [← hpairs, Operands.actuals, List.zip_append hfront]
    have hzip : (ps.zip o.args)[k]? = some (x, a) := List.getElem?_zip_eq_some.2 ⟨hx, ha⟩
    exact List.mem_append_right _ (List.mem_of_getElem? hzip)
  have hsubst : ∀ (k : Nat) x a, ps[k]? = some x → o.args[k]? = some a →
      (Prelude.isNonNull x.expr).substitute (Subst.ofPairs pairs) = Prelude.isNonNull a := by
    intro k x a hx ha
    have hx' := Subst.ofPairs_of_mem (hkeys ▸ hnodup) (hparam k x a hx ha)
    have hnull' : Subst.ofPairs pairs Prelude.null = none :=
      Subst.ofPairs_of_notMem (hkeys ▸ hnull)
    simp [Prelude.isNonNull, Expr.neq, Ident.expr, Expr.substitute, hx', hnull']
  rw [← Signature.map_requires hlen.symm hargs hsubst, List.map_map, ← hpairs, preconditionCode,
    Signature.preconditions_declared, List.map_map]
  rfl

end Lower

theorem Encoding.encodeAll_obligations {enc : Encoding} {f : Expr → Obligation} {es : List Expr} :
    enc.encodeAll (es.map fun e => .oblige (f e)) = es.flatMap fun e => enc.obligation (f e) := by
  induction es with
  | nil => rfl
  | cons e es ih =>
    rw [List.map_cons, encodeAll_cons, ih]
    rfl

theorem Encoding.encodeAll_assumptions {enc : Encoding} {es : List Expr} :
    enc.encodeAll (es.map fun e => .plain (.assume e)) = es.map .assume := by
  induction es with
  | nil => rfl
  | cons e es ih =>
    rw [List.map_cons, encodeAll_cons, ih]
    rfl

/-- The statements of one call of `m`. If the procedure is made from the declaration of the method,
then the obligations in front of the call are those of its demands on the actuals, and nothing else
is there. -/
inductive ObligedCall (p : Program) (q : Prelude) (enc : Encoding) (o : Operands) (m : MethodId) :
    List Stmt → Prop
  | intro (hm : p.method? m = .ok method) (hs : (Signature.build p q m).result = .ok sig)
      (hfront : sig.fromPrelude = false →
        front = (method.demands o.args).flatMap fun e => enc.obligation (.precondition e))
      (facts : List Expr) :
      ObligedCall p q enc o m (front ++ [o.call sig.name] ++ facts.map .assume)

/-- The statements of the calls of what a call of `m` may run: of each target in a branch of its
own, or of `m` itself if there is no target. -/
inductive ObligedCalls (p : Program) (q : Prelude) (enc : Encoding) (o : Operands) (m : MethodId) :
    List Target → List Stmt → Prop
  | single (h : ObligedCall p q enc o m ss) : ObligedCalls p q enc o m [] ss
  | guarded (hne : ts ≠ []) (hr : o.receiver = some receiver)
      (h : List.Forall₂ (fun t st => ∃ τ ss, p.tag (.cls t.owner) = .ok τ ∧
        ObligedCall p q enc o t.method ss ∧
        st = .when (.eq (Prelude.typeOf receiver) τ.expr) ss) ts branches) :
      ObligedCalls p q enc o m ts branches

namespace CallSite

theorem Of.preconditionCode_eq (h : Of x s body low) (hm : m ∈ x.methods)
    (hmethod : s.program.method? m = .ok method)
    (hs : (Signature.build s.program s.prelude m).result = .ok sig)
    (hown : sig.fromPrelude = false) :
    Lower.preconditionCode sig x.operands.actuals =
      (method.demands x.operands.args).map fun e => .oblige (.precondition e) := by
  obtain ⟨_, hb⟩ := Signature.built_of_result hs
  obtain ⟨hstatic, hparams⟩ := h.alike hm hmethod
  obtain ⟨caller, t, front, -, -, heval, -⟩ := h.evaluated
  have hrec : x.operands.receiver.isSome = !method.isStatic := by
    rw [hstatic, ← heval.receiver_isNone, Option.not_isNone]
  have hargs : x.operands.args.length = method.params.length := by
    rw [heval.args_length, h.count, Nat.min_self, hparams]
  cases hb with
  | adopted _ _ _ ha =>
    rw [ha.fromPrelude] at hown
    cases hown
  | declared hm' _ _ _ hps =>
    cases hmethod.symm.trans hm'
    exact Lower.preconditionCode_declared hps hrec hargs

theorem Of.obligedCall (h : Of x s body low) (hm : m ∈ x.methods)
    (hc : Lower.Called s.program s.prelude x.operands m sig code) (enc : Encoding) :
    ObligedCall s.program s.prelude enc x.operands m (enc.encodeAll code) := by
  obtain ⟨hs, -, -, facts⟩ := hc
  obtain ⟨_, hb⟩ := Signature.built_of_result hs
  obtain ⟨method, hmethod⟩ := hb.declared_method
  rw [Encoding.encodeAll_append, Encoding.encodeAll_append, Encoding.encodeAll_plain,
    Encoding.encodeAll_assumptions]
  apply ObligedCall.intro hmethod hs
  intro hown
  rw [h.preconditionCode_eq hm hmethod hs hown, Encoding.encodeAll_obligations]

end CallSite

/-- If each call is obliged, then so are the calls of all that may run. -/
theorem Lower.Calls.obliged {enc : Encoding} (h : Lower.Calls p q o m ts code)
    (hc : ∀ m' ∈ Target.methodsOr m ts, ∀ sig part, Lower.Called p q o m' sig part →
      ObligedCall p q enc o m' (enc.encodeAll part)) :
    ObligedCalls p q enc o m ts (enc.encodeAll code) := by
  cases h with
  | single h => exact .single (hc m (List.mem_singleton_self m) _ _ h)
  | @guarded _ receiver _ hne hr h =>
    apply ObligedCalls.guarded hne hr
    rw [methodsOr_targets hne] at hc
    clear hne
    induction h with
    | nil => exact .nil
    | @cons t branch ts branches hb _ ih =>
      obtain ⟨τ, sig, part, hτ, hcalled, rfl⟩ := hb
      have hfirst := hc t.method List.mem_cons_self sig part hcalled
      apply List.Forall₂.cons ⟨τ, _, hτ, hfirst, rfl⟩
      exact ih fun m' hm' => hc m' (List.mem_cons_of_mem _ hm')

/-- The obligations at call sites are the annotations of the callee, with the actuals as they were
lowered. Only segments of calls call something. Such a segment evaluates the operands, which calls
nothing, and then calls what the call may run, each behind its own obligations. -/
theorem Session.lower_obligations {s : Session} {body : Body} {i : Implementation}
    (h : (s.lower body).1 = .ok i) :
    ∃ low : Lowered,
      (lowerBody s.program s.prelude s.registry.globals.length body).result = .ok low ∧
      i = low.implementation s.options ∧ callees (low.prologue s.options) = [] ∧
      ∀ (k : Nat) seg, low.segments[k]? = some seg →
        callees ((low.encoding s.options).encodeAll seg) = [] ∨
        ∃ (x : CallSite) (calls after : List Stmt), x.Of s body low ∧ x.node = k ∧
          (low.encoding s.options).encodeAll seg =
            (low.encoding s.options).encodeAll x.before ++ calls ++ after ∧
          callees ((low.encoding s.options).encodeAll x.before) = [] ∧ callees after = [] ∧
          ObligedCalls s.program s.prelude (low.encoding s.options) x.operands x.call.method
            x.targets calls := by
  obtain ⟨low, j, hgives, rfl, -⟩ := Session.lower_result h
  refine ⟨low, congrArg Trace.result hgives, rfl, low.callees_prologue s.options, ?_⟩
  intro k seg hseg
  obtain hquiet | ⟨x, hof, rfl⟩ := callFree_or_callSite hgives hseg
  · exact .inl (hquiet _)
  · obtain rfl := Option.some.inj (hseg.symm.trans hof.segment)
    have hcalls := hof.called.obliged fun m hm sig part hcalled =>
      hof.obligedCall hm hcalled (low.encoding s.options)
    refine .inr ⟨x, _, _, hof, rfl, ?_, hof.quietBefore _, hof.quietAfter (low.encoding s.options),
      hcalls⟩
    rw [Encoding.encodeAll_append, Encoding.encodeAll_append]

/-- A method that calls itself with its parameters in another order. -/
def swapping : Program := .declaring [
  .addClass "Pair",
  .addMethod 3 {
    name := "swap", params := [.cls 3, .cls 3, .int, .cls 3],
    paramAnnotations := [[.nonNull], [.nonNull], [.nonNull]] }] (by decide +kernel)

def swappingBody : Body where
  method := 0
  nodes := [
    { instr := .invoke ⟨.virtual, 0, some .receiver,
        [.param 1, .param 0, .constant (.int 1), .param 0]⟩ },
    { instr := .retVoid }]
  sound := by decide

def swappingSession : Session := .start (.ofProgram swapping) .standard { errorModel := .assertion }

abbrev swapVar (k : Nat) : Ident := ⟨"$in_parameter__" ++ toString k, .ref⟩

/-- The branch of the call: the two actuals that must not be null change places. -/
abbrev swapBranch : Stmt :=
  .when (.eq (Prelude.typeOf thisVar.expr) (.ident ⟨"$type_Pair", .tag⟩)) [
    .assert (Prelude.isNonNull (swapVar 1).expr), .assert (Prelude.isNonNull (swapVar 0).expr),
    .call "Pair$void$swap$Pair$Pair$int$Pair"
      [thisVar.expr, (swapVar 1).expr, (swapVar 0).expr, .int 1, (swapVar 0).expr]
      [⟨"$exception", .ref⟩]]

theorem lower_obligations_swapping :
    ∃ (i : Implementation) (low : Lowered) (x : CallSite) (calls : List Stmt),
      (swappingSession.lower swappingBody).1 = .ok i ∧ swapBranch ∈ i.body ∧
      x.Of swappingSession swappingBody low ∧ x.node = 0 ∧
      ObligedCalls swapping .standard (low.encoding swappingSession.options) x.operands
        x.call.method x.targets calls := by
  have hrun : ((swappingSession.lower swappingBody).1.toOption.map fun i =>
      decide (swapBranch ∈ i.body)) = some true := by decide +kernel
  have hfirst : ((lowerBody swapping .standard 0 swappingBody).result.toOption.map fun low =>
      low.segments[0]?.map fun seg =>
        callees ((low.encoding swappingSession.options).encodeAll seg)) =
      some (some ["Pair$void$swap$Pair$Pair$int$Pair"]) := by decide +kernel
  obtain ⟨i, hi, hbranch⟩ := exists_of_toOption_map hrun
  obtain ⟨low, hlow, -, -, hsegments⟩ := Session.lower_obligations hi
  obtain ⟨low', hlow', hcalls⟩ := exists_of_toOption_map hfirst
  cases hlow.symm.trans hlow'
  obtain ⟨seg, hseg, hcallees⟩ := Option.map_eq_some_iff.1 hcalls
  obtain hnone | ⟨x, calls, after, hof, hnode, -, -, -, hobliged⟩ := hsegments 0 seg hseg
  · rw [hnone] at hcallees
    cases hcallees
  · exact ⟨i, low, x, calls, hi, of_decide_eq_true hbranch, hof, hnode, hobliged⟩

end Verilower
