import Verilower.Proofs.CallObligations
import Verilower.Proofs.CallTyping
import Verilower.Proofs.Lowering.Statements

namespace Verilower
set_option autoImplicit true

open Ivl

/-- The formula compares a reference with null. -/
def Ivl.Expr.TestsReference (e : Expr) : Prop :=
  ∃ a : Expr, e = Prelude.isNonNull a ∧ a.ty = .ok .ref

theorem testsReference_isNonNull {a : Expr} :
    (Prelude.isNonNull a).TestsReference ↔ a.ty = .ok .ref := by
  constructor
  · rintro ⟨b, hb, hty⟩
    cases hb
    exact hty
  · exact fun hty => ⟨a, rfl, hty⟩

theorem Ty.eq_ref_iff {ty : Ty} (h : ty.lowered = .ok t) : t = .ref ↔ ty.isReference = true := by
  rw [← lowered_eq_ref, h, Except.ok.injEq]

/-- An expression is a reference if the type that it stands for is one. -/
theorem testsReference_iff {ty : Ty} {a : Expr} (ht : ty.lowered = .ok t) (ha : a.ty = .ok t) :
    (Prelude.isNonNull a).TestsReference ↔ ty.isReference = true := by
  rw [testsReference_isNonNull, ha, Except.ok.injEq, Ty.eq_ref_iff ht]

namespace Signature

theorem testsReference_of_requires {m : Method}
    (hps : (m.params.zipIdx.mapM fun (ty, index) => param index ty) = .ok ps)
    (hc : c ∈ requires m ps) : c.formula.TestsReference := by
  obtain ⟨⟨⟨ty, x⟩, index⟩, hmem, hclause⟩ := List.mem_filterMap.1 hc
  have hlow := List.forall₂_zip (params_ty hps) (List.fst_mem_of_mem_zipIdx hmem)
  dsimp only at hclause
  split at hclause <;> rename_i hcond <;> cases hclause
  rw [Bool.and_eq_true] at hcond
  exact (testsReference_iff hlow rfl).2 hcond.1

theorem testsReference_of_ensures (hr : resultOf m = .ok out) (hc : c ∈ ensures m out) :
    c.formula.TestsReference := by
  unfold ensures at hc
  split at hc <;> rename_i hcond
  · obtain ⟨x, hx, rfl⟩ := List.mem_map.1 hc
    rw [Bool.and_eq_true] at hcond
    have hty := resultOf_ty hr
    rw [Option.mem_toList.1 hx, Ty.lowered_eq_ref.2 hcond.1] at hty
    exact testsReference_isNonNull.2 (congrArg Except.ok (Option.some.inj hty))
  · cases hc

/-- The clauses that a declaration is made with look at the types of what they compare with null. -/
theorem Built.testsReference (h : Built p q i sig j) (hown : sig.fromPrelude = false)
    (hc : c ∈ sig.procedure.clauses) : c.formula.TestsReference := by
  cases h with
  | adopted _ _ _ ha =>
    rw [ha.fromPrelude] at hown
    cases hown
  | declared _ _ _ _ hps hr =>
    obtain hc | hc := List.mem_append.1 hc
    · exact testsReference_of_requires hps hc
    · exact testsReference_of_ensures hr hc

end Signature

/-- Overrides have the parameters of the named method, and arguments have the types of these. -/
theorem CallSite.Of.testsReference (h : Of x s body low) (hm : m ∈ x.methods)
    (hmethod : s.program.method? m = .ok method) (he : e ∈ method.demands x.operands.args) :
    e.TestsReference := by
  obtain ⟨k, hk, hdemand⟩ := List.mem_filterMap.1 he
  obtain ⟨a, ha, rfl⟩ := Option.map_eq_some_iff.1 hdemand
  have hcond := (List.mem_filter.1 hk).2
  rw [Bool.and_eq_true, Option.any_eq_true] at hcond
  obtain ⟨⟨ty, hty, href⟩, -⟩ := hcond
  obtain ⟨caller, t, front, -, -, heval, -⟩ := h.evaluated
  rw [(h.alike hm hmethod).2] at hty
  have hpair : (a, ty) ∈ x.operands.args.zip x.callee.params :=
    List.mem_of_getElem? (List.getElem?_zip_eq_some.2 ⟨ha, hty⟩)
  obtain ⟨t', hlow, hat⟩ := List.forall₂_zip (heval.args_ty h.count) hpair
  exact (testsReference_iff hlow hat).2 href

theorem Program.fieldIdent_heap {p : Program} {i : FieldId} (h : p.fieldIdent i = .ok x)
    (ht : x.ty = .field t) : ∃ f, p.fields[i]? = some f ∧ f.ty.lowered = .ok t := by
  obtain ⟨f, ty, hf, hlow, rfl⟩ := fieldIdent_eq_ok.1 h
  dsimp only at ht
  split at ht
  · rw [ht] at hlow
    cases Ty.isConstant_of_lowered hlow
  · cases ht
    exact ⟨f, hf, hlow⟩

namespace Lower

theorem Operand.field_ty (h : Operand F s target r j) (hi : fieldOf? target = some i)
    (hf : F.program.field? i = .ok f) (ht : r.value.ty = .ok t) : f.ty.lowered = .ok t := by
  cases h with
  | instanceField _ hx hfield =>
    cases hi
    cases ht.symm.trans (Prelude.ty_read hfield)
    obtain ⟨g, hg, hlow⟩ := Program.fieldIdent_heap hx hfield
    cases (entry_eq_ok.1 hf).symm.trans hg
    exact hlow
  | staticField hx hfield =>
    cases hi
    cases ht
    obtain ⟨g, hg, -, hlow⟩ := Program.fieldIdent_static hx hfield
    cases (entry_eq_ok.1 hf).symm.trans hg
    exact hlow
  | _ => cases hi

/-- The code ends with the store of an expression in a field, behind the obligation that the field
brings. The expression has the type of the field. -/
inductive StoresField (p : Program) (i : FieldId) (f : Field) (e : Expr) : List Outline → Prop
  | intro (hf : p.field? i = .ok f) (ht : f.ty.lowered = .ok t) (he : e.ty = .ok t)
      (hs : storeInto location e = .ok st) :
      StoresField p i f e (before ++ storeGuard f e ++ [Outline.plain st])

theorem StoresField.behind (h : StoresField p i f e code) :
    StoresField p i f e (front ++ code) := by
  obtain ⟨hf, ht, he, hs⟩ := h
  rw [← List.append_assoc, ← List.append_assoc]
  exact .intro hf ht he hs

theorem StoresField.testsReference (h : StoresField p i f e code) :
    (Prelude.isNonNull e).TestsReference ↔ f.ty.isReference = true := by
  obtain ⟨-, ht, he, -⟩ := h
  exact testsReference_iff ht he

theorem Stored.storesField (h : Stored F s target e r j) (hi : fieldOf? target = some i) :
    ∃ f e', StoresField F.program i f e' r.code := by
  cases h with
  | slot => cases hi
  | field hi' hl ht hc hf hs =>
    cases hi.symm.trans hi'
    exact ⟨_, _, .intro hf (hl.field_ty hi hf ht) hc.ty_eq hs⟩
  | element => cases hi

theorem Invoked.storesField {call : Call} (h : Invoked F n call (some target) s r j)
    (hi : fieldOf? target = some i)
    (hexit : ∀ callee, F.program.method? call.method = .ok callee →
      F.program.intrinsic? callee ≠ some .exit) :
    ∃ f e, StoresField F.program i f e r.code := by
  cases h with
  | exit hm hexits => exact absurd hexits (hexit _ hm)
  | stringLengthDropped _ _ _ _ ht => cases ht
  | stringLength _ _ _ _ ht hs =>
    cases ht
    obtain ⟨f, e, hstores⟩ := hs.storesField hi
    exact ⟨f, e, hstores.behind⟩
  | call _ _ _ _ _ _ hd _ _ hw =>
    cases hd with
    | «local» => cases hi
    | other =>
      cases hw with
      | some hs =>
        obtain ⟨f, e, hstores⟩ := hs.storesField hi
        exact ⟨f, e, hstores.behind⟩

theorem Assigned.storesField (h : Assigned F n target s v r j) (hi : fieldOf? target = some i)
    (hexit : ∀ call callee, (Instr.assign target v).call? = some (call, some target) →
      F.program.method? call.method = .ok callee → F.program.intrinsic? callee ≠ some .exit) :
    ∃ f e, StoresField F.program i f e r.code := by
  cases h with
  | invoke h => exact h.storesField hi fun callee => hexit _ callee rfl
  | new _ hs | newArray _ _ _ hs | newMultiArray _ _ hs | value _ hs =>
    obtain ⟨f, e, hstores⟩ := hs.storesField hi
    exact ⟨f, e, hstores.behind⟩

/-- In a fact about the result of a call the variable is that of the method which the call names. -/
theorem CallFact.ty_eq_ref (h : CallFact p body call callee method x e) :
    x.ty = .ref ↔ callee.returns.isReference = true := Ty.eq_ref_iff h.result

end Lower

theorem BodyLowered.assumed {A : Expr → Prop} {body : Body} (h : BodyLowered p q g body low j)
    (hthis : ∀ this ∈ low.signature.receiver, A (Prelude.isNonNull this.expr))
    (hnew : ∀ x : Ident, x.ty = .ref → A (.not (Prelude.read x.expr Prelude.alloc)) ∧
      A (Prelude.isNonNull x.expr))
    (hresult : ∀ node ∈ body.nodes, ∀ call target callee method x e,
      node.instr.call? = some (call, some target) →
      Lower.CallFact p body call callee method x e → A e) (o : Options) :
    ∀ e, .assume e ∈ (low.implementation o).body.flatMap Stmt.nested → A e := by
  have hcommon : Lower.Common (fun st => ∀ e, st = .assume e → A e) p q low.signature := by
    constructor
    case unallocated =>
      rintro x hx _ ⟨⟩
      exact (hnew x hx).1
    case nonNull =>
      rintro x hx _ ⟨⟩
      exact (hnew x hx).2
    case control =>
      rintro st hst _ rfl
      cases hst
    all_goals nofun
  refine fun e he => h.obeys hcommon nofun ?_ ?_ o _ he e rfl
  · rintro node hnode call target callee method x _ hcall hfact _ ⟨⟩
    exact hresult node hnode call target callee method x _ hcall hfact
  · rintro this hmem _ ⟨⟩
    exact hthis this hmem

/-- Annotations as not null. The clauses of declared signatures and the obligations that calls have
from them compare references with null. A value that is stored in a field is a reference if and only
if the field has a reference type, whether the field is annotated or not. What is assumed is about
the receiver, about a new object or about the result of a call. Such a result is a reference if and
only if the method returns a reference that the call names, whatever the annotated override does. -/
theorem Session.lower_annotations {s : Session} {body : Body} {i : Implementation}
    (h : (s.lower body).1 = .ok i) :
    ∃ low : Lowered,
      (lowerBody s.program s.prelude s.registry.globals.length body).result = .ok low ∧
      i = low.implementation s.options ∧
      (∀ m sig, (Signature.build s.program s.prelude m).result = .ok sig →
        sig.fromPrelude = false →
        (∀ c ∈ sig.procedure.clauses, c.formula.TestsReference) ∧
        ∀ x : CallSite, x.Of s body low → m ∈ x.methods →
          ∀ o, .oblige o ∈ Lower.preconditionCode sig x.operands.actuals →
            ∃ e ∈ o.guard, e.TestsReference) ∧
      (∀ (k : Nat) node target v n, body.nodes[k]? = some node →
        node.instr = .assign target v → Lower.fieldOf? target = some n →
        (∀ call callee, node.instr.call? = some (call, some target) →
          s.program.method? call.method = .ok callee →
          s.program.intrinsic? callee ≠ some .exit) →
        ∃ seg f e, low.segments[k]? = some seg ∧ Lower.StoresField s.program n f e seg ∧
          ((Prelude.isNonNull e).TestsReference ↔ f.ty.isReference = true)) ∧
      ∀ e, .assume e ∈ i.body.flatMap Stmt.nested →
        (∃ this ∈ low.signature.receiver, e = Prelude.isNonNull this.expr) ∨
        (∃ x : Ident, x.ty = .ref ∧ (e = .not (Prelude.read x.expr Prelude.alloc) ∨
          e = Prelude.isNonNull x.expr)) ∨
        ∃ node ∈ body.nodes, ∃ call target callee method x,
          node.instr.call? = some (call, some target) ∧
          Lower.CallFact s.program body call callee method x e ∧
          (x.ty = .ref ↔ callee.returns.isReference = true) := by
  obtain ⟨low, j, hgives, rfl, -⟩ := Session.lower_result h
  have hlow := lowerBody_gives hgives
  refine ⟨low, congrArg Trace.result hgives, rfl, ?_, ?_, ?_⟩
  · intro m sig hsig hown
    obtain ⟨_, hbuilt⟩ := Signature.built_of_result hsig
    refine ⟨fun c hc => hbuilt.testsReference hown hc, fun x hof hm o ho => ?_⟩
    obtain ⟨method, hmethod⟩ := hbuilt.declared_method
    rw [hof.preconditionCode_eq hm hmethod hsig hown] at ho
    obtain ⟨e, he, ho⟩ := List.mem_map.1 ho
    cases ho
    exact ⟨e, rfl, hof.testsReference hm hmethod he⟩
  · intro k node target v n hnode hinstr hn hexit
    obtain ⟨F, t, r, _, hexec, ⟨hp, -⟩, hseg⟩ := hlow.executed hnode
    rw [hinstr] at hexec hexit
    rw [← hp] at hexit ⊢
    cases hexec with
    | assign hassigned =>
      obtain ⟨f, e, hstores⟩ := hassigned.storesField hn hexit
      exact ⟨_, f, e, hseg, hstores.behind, hstores.testsReference⟩
  · refine hlow.assumed ?_ ?_ ?_ s.options
    · exact fun this hthis => .inl ⟨this, hthis, rfl⟩
    · exact fun x hx => ⟨.inr (.inl ⟨x, hx, .inl rfl⟩), .inr (.inl ⟨x, hx, .inr rfl⟩)⟩
    · intro node hnode call target callee method x e hcall hfact
      exact .inr (.inr ⟨node, hnode, call, target, callee, method, x, hcall, hfact,
        hfact.ty_eq_ref⟩)

/-- Everything is annotated as not null: a parameter, a number, a reference, and the result of a
method that redefines one which returns a number. -/
def badges : Program := .declaring [
  .addClass "Badge",
  .addClass "Medal" (some 3),
  .addMethod 3 {
    name := "award", params := [.cls 3], paramAnnotations := [[.nonNull]], isStatic := true },
  .addMethod 3 { name := "next", returns := .int },
  .addMethod 4 { name := "next", returns := .cls 3, annotations := [.nonNull] },
  .addField 3 { name := "count", ty := .int, isStatic := true, annotations := [.nonNull] },
  .addField 3 { name := "latest", ty := .cls 3, isStatic := true, annotations := [.nonNull] }]
  (by decide +kernel)

def badgesBody : Body where
  method := 0
  slots := [⟨"b", .cls 3⟩, ⟨"n", .int⟩]
  nodes := [
    { instr := .identity 0 (.param 0) },
    { instr := .assign (.staticField 1) (.slot 0) },
    { instr := .assign (.staticField 0) (.constant (.int 1)) },
    { instr := .assign (.slot 1) (.invoke .virtual 1 (some (.slot 0)) []) },
    { instr := .retVoid }]
  sound := by decide

def badgesSession : Session :=
  .start (.ofProgram badges) .standard { errorModel := .assertion }

theorem lower_annotations_badges :
    ∃ (i : Implementation) (sig : Signature) (low : Lowered) (seg : List Outline) (f : Field)
        (e : Expr),
      (badgesSession.lower badgesBody).1 = .ok i ∧
      i = low.implementation badgesSession.options ∧
      (Signature.build badges .standard 0).result = .ok sig ∧ sig.procedure.clauses ≠ [] ∧
      (∀ c ∈ sig.procedure.clauses, c.formula.TestsReference) ∧
      low.segments[1]? = some seg ∧ Lower.StoresField badges 1 f e seg ∧ f.isNonNull = true ∧
      (Prelude.isNonNull e).TestsReference := by
  have hrun : (badgesSession.lower badgesBody).1.isOk = true := by decide +kernel
  have hbuild : ((Signature.build badges .standard 0).result.toOption.map fun sig =>
      (sig.fromPrelude, sig.procedure.clauses.isEmpty)) = some (false, false) := by decide +kernel
  obtain ⟨i, hi⟩ := exists_of_isOk hrun
  obtain ⟨sig, hsig, hshape⟩ := exists_of_toOption_map hbuild
  obtain ⟨hown, hclauses⟩ := Prod.mk.inj hshape
  obtain ⟨low, -, himpl, hsignatures, hfields, -⟩ := Session.lower_annotations hi
  obtain ⟨seg, f, e, hseg, hstores, htests⟩ := hfields 1 _ _ _ 1 rfl rfl rfl nofun
  have hf : f.isNonNull = true ∧ f.ty.isReference = true := by
    obtain ⟨hfield, -⟩ := hstores
    cases hfield
    exact ⟨rfl, rfl⟩
  refine ⟨i, sig, low, seg, f, e, hi, himpl, hsig, ?_, (hsignatures 0 sig hsig hown).1, hseg,
    hstores, hf.1, htests.2 hf.2⟩
  intro hnil
  rw [hnil] at hclauses
  cases hclauses

/-- Two numbers are compared with null. One is stored in the field, the other is the result of the
call in the branch of the method that returns a reference. -/
theorem badges_compared :
    ∃ i : Implementation, (badgesSession.lower badgesBody).1 = .ok i ∧
      .assert (Prelude.isNonNull (.int 1)) ∈ i.body.flatMap Stmt.nested ∧
      ¬ (Prelude.isNonNull (.int 1)).TestsReference ∧
      .assume (Prelude.isNonNull (.ident ⟨"n", .int⟩)) ∈ i.body.flatMap Stmt.nested ∧
      ¬ (Prelude.isNonNull (.ident ⟨"n", .int⟩)).TestsReference := by
  have hrun : ((badgesSession.lower badgesBody).1.toOption.map fun i =>
      decide (.assert (Prelude.isNonNull (.int 1)) ∈ i.body.flatMap Stmt.nested ∧
        .assume (Prelude.isNonNull (.ident ⟨"n", .int⟩)) ∈ i.body.flatMap Stmt.nested)) =
      some true := by decide +kernel
  obtain ⟨i, hi, hmem⟩ := exists_of_toOption_map hrun
  obtain ⟨hassert, hassume⟩ := of_decide_eq_true hmem
  refine ⟨i, hi, hassert, ?_, hassume, ?_⟩
  · rw [testsReference_isNonNull]
    nofun
  · rw [testsReference_isNonNull]
    nofun

end Verilower
