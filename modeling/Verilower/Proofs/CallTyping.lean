import Verilower.Proofs.CallArity
import Verilower.Proofs.Naming

namespace Verilower
set_option autoImplicit true

open Ivl

namespace Spelling

/-- The separators of words in a row, and those that the words have in them. -/
theorem count_intercalate [DecidableEq α] {c : α} {ws : List (List α)} (h : ws ≠ []) :
    ([c].intercalate ws).count c + 1 = ws.flatten.count c + ws.length := by
  induction ws with
  | nil => exact absurd rfl h
  | cons w ws ih =>
    cases ws with
    | nil => simp
    | cons w' ws =>
      have htail := ih (List.cons_ne_nil w' ws)
      rw [List.intercalate_cons_cons, List.count_append, List.count_append, List.count_singleton_self,
        List.flatten_cons, List.count_append, List.length_cons]
      omega

/-- If a text is split at its separators, then at least as many words in a row that spell it are
these parts. -/
theorem eq_of_intercalate [DecidableEq α] {c : α} {ws vs : List (List α)} (hne : vs ≠ [])
    (hvs : ∀ v ∈ vs, c ∉ v) (hlen : vs.length ≤ ws.length)
    (h : [c].intercalate ws = [c].intercalate vs) : ws = vs := by
  have hne' : ws ≠ [] := by
    rintro rfl
    exact hne (List.length_eq_zero_iff.1 (Nat.le_zero.1 hlen))
  have hzero : vs.flatten.count c = 0 := by
    apply List.count_eq_zero.2
    intro hc
    obtain ⟨v, hv, hcv⟩ := List.mem_flatten.1 hc
    exact hvs v hv hcv
  -- At least as many words in the same text leave no separator that is within a word.
  have hws := count_intercalate hne' (c := c)
  rw [h, count_intercalate hne, hzero] at hws
  have hcount : ws.flatten.count c = 0 := by omega
  have hclean : ∀ w ∈ ws, c ∉ w := fun w hw hc =>
    List.count_eq_zero.1 hcount (List.mem_flatten_of_mem hw hc)
  rw [← List.splitOn_intercalate c hclean hne', h, List.splitOn_intercalate c hvs hne]

theorem eq_of_spell_three {ws : List (List Char)} (hlen : ws.length = 3) (hws : ∀ w ∈ ws, '$' ∉ w)
    (h : spell (x :: y :: z :: xs) = ['$'].intercalate ws) :
    ws[1]? = some y.1 ∧ y.2 = 0 ∧ xs = [] := by
  have hne : ws ≠ [] := by
    rintro rfl
    cases hlen
  have hcount : ((x :: y :: z :: xs).flatMap words).length =
      x.2 + y.2 + z.2 + (xs.flatMap words).length + 3 := by
    simp only [List.flatMap_cons, List.length_append, words, List.length_cons,
      List.length_replicate]
    omega
  have heq := eq_of_intercalate hne hws (by omega) h
  rw [← heq, hcount] at hlen
  have hrest : (xs.flatMap words).length = 0 := by omega
  obtain ⟨hx, hy⟩ : x.2 = 0 ∧ y.2 = 0 := by omega
  refine ⟨?_, hy, ?_⟩
  · rw [← heq]
    simp [List.flatMap_cons, words, hx]
  · rw [List.length_eq_zero_iff, List.flatMap_eq_nil_iff] at hrest
    exact List.eq_nil_iff_forall_not_mem.2 fun x hx => words_ne_nil (hrest x hx)

end Spelling

open Spelling

/-- Only a method without parameters that returns an object has the name of the cloning
procedure. -/
theorem Program.returns_of_objectClone {p : Program}
    (h : p.procedureName m = .ok Prelude.objectClone) :
    m.params = [] ∧ m.returns.lowered = .ok .ref := by
  obtain ⟨r, xs, ⟨w, hw, rfl⟩, hxs, hspelled⟩ := procedureName_spelled h
  have hclone : Prelude.objectClone.toList = ['$'].intercalate
      ["java.lang.Object".toList, "java.lang.Object".toList, "clone".toList] := by decide
  obtain ⟨hword, hdim, hnil⟩ := eq_of_spell_three rfl (by decide) (hspelled.symm.trans hclone)
  have hparams : m.params = [] := by
    rw [List.map_eq_nil_iff.1 hnil] at hxs
    exact List.forall₂_nil_right_iff.1 hxs
  refine ⟨hparams, ?_⟩
  obtain hkey | ⟨i, c, hcore, -, -⟩ := typeName_core hw
  · have hnot : ∀ k ∈ keywords, k.2.toList.map clean ≠ "java.lang.Object".toList := by decide
    exact absurd (Option.some.inj hword).symm (hnot _ hkey)
  · have hreturns : m.returns = .cls i := Ty.eq_of_core hcore hdim
    rw [hreturns]
    rfl

namespace Ty

theorem lowered_of_isVoid {ty : Ty} (h : ty.isVoid = true) : ty.lowered.toOption = none := by
  cases ty <;> first | rfl | cases h

theorem lowered_inj {ty ty' : Ty} (h : ty.lowered.toOption = ty'.lowered.toOption) :
    ty.lowered = ty'.lowered := by
  cases ty <;> cases ty' <;> first | rfl | cases h

end Ty

namespace Signature

/-- The standard prelude has one procedure, for a method without parameters that returns an
object. -/
theorem Adopted.standard {p : Program} (ha : Adopted i m proc sig) (hn : p.procedureName m = .ok n)
    (hq : Prelude.standard.find? n = some proc) :
    proc = Prelude.objectCloneProcedure ∧ m.params = [] ∧ m.isStatic = false ∧
      m.returns.lowered = .ok .ref := by
  obtain rfl : proc = Prelude.objectCloneProcedure :=
    List.mem_singleton.1 (List.mem_of_find?_eq_some hq)
  have hname := List.find?_some hq
  obtain rfl : Prelude.objectClone = n := of_decide_eq_true hname
  obtain ⟨hparams, hreturns⟩ := Program.returns_of_objectClone hn
  refine ⟨rfl, hparams, ?_, hreturns⟩
  have hcount : 1 = (if m.isStatic then 0 else 1) + m.params.length := ha.count
  cases hstatic : m.isStatic with
  | false => rfl
  | true => simp [hparams, hstatic] at hcount

theorem params_ty {m : Method}
    (h : (m.params.zipIdx.mapM fun (ty, index) => param index ty) = .ok ps) :
    List.Forall₂ (fun (ty : Ty) (y : Ident) => ty.lowered = .ok y.ty) m.params ps := by
  have hparams := forall₂_of_mapM_eq_ok h
  rw [← List.zipIdx_map_fst 0 m.params, List.forall₂_map_left_iff]
  apply hparams.imp
  rintro ⟨ty, k⟩ y hy
  obtain ⟨t, ht, hy⟩ := except_bind_eq_ok.1 hy
  cases hy
  exact ht

theorem resultOf_ty (h : resultOf m = .ok out) :
    out.map Ident.ty = m.returns.lowered.toOption := by
  unfold resultOf at h
  split at h <;> rename_i hv
  · cases h
    exact (Ty.lowered_of_isVoid hv).symm
  · obtain ⟨t, ht, h⟩ := except_bind_eq_ok.1 h
    cases h
    rw [ht]
    rfl

theorem Built.formals_ty (h : Built p .standard i sig j) (hm : p.method? i = .ok m) :
    List.Forall₂ (fun (ty : Ty) (y : Ident) => ty.lowered = .ok y.ty) m.params
      (sig.procedure.ins.drop (if m.isStatic then 0 else 1)) := by
  cases h with
  | adopted hm' hn hq ha =>
    cases hm.symm.trans hm'
    obtain ⟨rfl, hparams, hstatic, -⟩ := ha.standard hn hq
    rw [ha.procedure, hparams, hstatic]
    exact .nil
  | declared hm' _ _ _ hps =>
    cases hm.symm.trans hm'
    have hfront : (receiverIdent m).toList.length = if m.isStatic then 0 else 1 := by
      unfold receiverIdent
      split <;> rfl
    rw [Signature.declared, ← hfront, List.drop_left]
    exact params_ty hps

theorem Built.result_ty (h : Built p .standard i sig j) (hm : p.method? i = .ok m) :
    sig.result.map Ident.ty = m.returns.lowered.toOption := by
  cases h with
  | adopted hm' hn hq ha =>
    cases hm.symm.trans hm'
    obtain ⟨rfl, -, -, hreturns⟩ := ha.standard hn hq
    have houts : [⟨"$return", .ref⟩] ++ [⟨"$exception", .ref⟩] =
        sig.result.toList ++ [sig.exception] := ha.outs
    obtain ⟨hresult, -⟩ := List.append_inj' houts rfl
    rw [hreturns]
    cases hres : sig.result with
    | none => simp [hres] at hresult
    | some y =>
      rw [hres] at hresult
      rw [← List.singleton_inj.1 hresult]
      rfl
  | declared hm' _ _ _ _ hr =>
    cases hm.symm.trans hm'
    exact resultOf_ty hr

end Signature

namespace Lower

theorem Arguments.typed (h : Arguments F s args r j) :
    List.Forall₂ (fun (e : Expr) (arg : Value × Ty) => ∃ t, arg.2.lowered = .ok t ∧ e.ty = .ok t)
      r.value args := by
  induction h with
  | nil => exact .nil
  | cons _ ht hc _ ih => exact .cons ⟨_, ht, hc.ty_eq⟩ ih

theorem Evaluated.args_ty {call : Call} (h : Evaluated F s call callee target o t code)
    (hcount : call.args.length = callee.params.length) :
    List.Forall₂ (fun (e : Expr) (ty : Ty) => ∃ t, ty.lowered = .ok t ∧ e.ty = .ok t)
      o.args callee.params := by
  obtain ⟨-, ha, -⟩ := h
  have htyped := (arguments_gives ha).typed
  have hparams : (call.args.zip callee.params).map Prod.snd = callee.params :=
    List.map_snd_zip (Nat.le_of_eq hcount.symm)
  rw [← hparams, List.forall₂_map_right_iff]
  exact htyped

/-- The variable of a result has the type of what the method returns that the call names. -/
theorem Evaluated.result_ty (h : Evaluated F s call callee target o t code) :
    o.result.map Ident.ty = callee.returns.lowered.toOption := by
  obtain ⟨-, -, hd⟩ := h
  obtain ⟨d, s', hdest, hr, -⟩ := destination_gives hd
  cases hr
  cases hdest with
  | void hv => exact (Ty.lowered_of_isVoid hv).symm
  | dropped _ ht | other _ ht =>
    rw [ht]
    rfl
  | «local» _ ht _ hty =>
    rw [ht, ← hty]
    rfl

end Lower

theorem option_toList_inj {a b : Option α} (h : a.toList = b.toList) : a = b := by
  rw [← Option.head?_toList (o := a), h, Option.head?_toList]

theorem forall₂_comp {R : α → β → Prop} {S : β → γ → Prop} {T : α → γ → Prop}
    (hT : ∀ a b c, R a b → S b c → T a c) (h : List.Forall₂ R as bs) (h' : List.Forall₂ S bs cs) :
    List.Forall₂ T as cs := by
  induction h generalizing cs with
  | nil =>
    cases h'
    exact .nil
  | cons hab _ ih =>
    cases h' with
    | cons hbc hrest => exact .cons (hT _ _ _ hab hbc) (ih hrest)

namespace CallSite

/-- The operands of the site against the procedure of a method. The arguments have the types of the
formals, and the variables of what comes back have the types of the procedure's results if and only
if the method returns what is represented like the results of the method that the call names. -/
structure Typed (x : CallSite) (m : Method) (sig : Signature) : Prop where
  args : List.Forall₂ (fun (e : Expr) (y : Ident) => e.ty = .ok y.ty) x.operands.args
    (sig.procedure.ins.drop x.operands.receiver.toList.length)
  outs : x.operands.outs.map Ident.ty = sig.procedure.outs.map Ident.ty ↔
    m.returns.lowered = x.callee.returns.lowered

theorem Of.typed (h : Of x s body low) (hq : s.prelude = .standard)
    (hlow : BodyLowered s.program s.prelude g body low j) (hm : m ∈ x.methods)
    (hmethod : s.program.method? m = .ok method)
    (hsig : (Signature.build s.program s.prelude m).result = .ok sig) : x.Typed method sig := by
  obtain ⟨_, hbuilt⟩ := Signature.built_of_result hsig
  obtain ⟨_, hown⟩ := Signature.built_of_result hlow.signature_eq
  rw [hq] at hbuilt
  obtain ⟨hstatic, hparams⟩ := h.alike hm hmethod
  obtain ⟨caller, t, code, -, -, heval, -⟩ := h.evaluated
  constructor
  · have hfront : x.operands.receiver.toList.length = if method.isStatic then 0 else 1 := by
      rw [hstatic, ← heval.receiver_isNone]
      cases x.operands.receiver <;> rfl
    have hformals := hbuilt.formals_ty hmethod
    rw [hparams, ← hfront] at hformals
    apply forall₂_comp _ (heval.args_ty h.count) hformals
    rintro e ty y ⟨t, ht, he⟩ hy
    rw [he, Except.ok.inj (ht.symm.trans hy)]
  · have hslot : x.operands.slot.ty = .ref := by
      rw [heval.slot]
      exact hown.exception_ty
    rw [hbuilt.outs_eq, Operands.outs, List.map_append, List.map_append, List.map_singleton,
      List.map_singleton, hslot, hbuilt.exception_ty, List.append_left_inj, ← Option.toList_map,
      ← Option.toList_map, heval.result_ty, hbuilt.result_ty hmethod, eq_comm]
    exact ⟨fun heq => Ty.lowered_inj (option_toList_inj heq), fun heq => by rw [heq]⟩

end CallSite

/-- Calls have the types of what they call, up to the results of overrides. -/
theorem Session.lower_typed {s : Session} {body : Body} {i : Implementation}
    (hq : s.prelude = .standard) (h : (s.lower body).1 = .ok i) :
    ∃ low : Lowered,
      (lowerBody s.program s.prelude s.registry.globals.length body).result = .ok low ∧
      i = low.implementation s.options ∧
      ∀ f args outs, Stmt.call f args outs ∈ i.body.flatMap Stmt.nested →
        ∃ (x : CallSite) (m : MethodId) (method : Method) (sig : Signature), x.Of s body low ∧
          m ∈ x.methods ∧ s.program.method? m = .ok method ∧
          (Signature.build s.program s.prelude m).result = .ok sig ∧
          .call f args outs = x.operands.call sig.name ∧ x.Typed method sig ∧
          (m = x.call.method → outs.map Ident.ty = sig.procedure.outs.map Ident.ty) := by
  obtain ⟨low, j, hgives, rfl, -⟩ := Session.lower_result h
  refine ⟨low, congrArg Trace.result hgives, rfl, fun f args outs hst => ?_⟩
  obtain ⟨x, hof, m, hm, sig, part, hcalled, hcall⟩ := exists_callSite_of_mem hgives hst
  have hsig := hcalled.build
  obtain ⟨_, hbuilt⟩ := Signature.built_of_result hsig
  obtain ⟨method, hmethod⟩ := hbuilt.declared_method
  have htyped := hof.typed hq (lowerBody_gives hgives) hm hmethod hsig
  refine ⟨x, m, method, sig, hof, hm, hmethod, hsig, hcall, htyped, ?_⟩
  rintro rfl
  cases hmethod.symm.trans hof.declared
  cases hcall
  exact htyped.outs.2 rfl

/-- A flag is a number whose value is read as a truth value. -/
def flags : Program := .declaring [
  .addClass "A",
  .addClass "B" (some 3),
  .addMethod 3 { name := "read", params := [.cls 3], isStatic := true },
  .addMethod 3 { name := "f", returns := .int },
  .addMethod 4 { name := "f", returns := .bool }] (by decide +kernel)

def flagsBody : Body where
  method := 0
  slots := [⟨"x", .cls 3⟩, ⟨"y", .int⟩]
  nodes := [
    { instr := .identity 0 (.param 0) },
    { instr := .assign (.slot 1) (.invoke .virtual 1 (some (.slot 0)) []) },
    { instr := .retVoid }]
  sound := by decide

def flagsSession : Session := .start (.ofProgram flags) .standard {}

abbrev flagsCall (procedure : String) : Stmt :=
  .call procedure [.ident ⟨"x", .ref⟩] [⟨"y", .int⟩, ⟨"$exception", .ref⟩]

theorem lower_typed_flags :
    ∃ (i : Implementation) (low : Lowered) (x : CallSite) (m : MethodId) (method : Method)
        (sig : Signature),
      (flagsSession.lower flagsBody).1 = .ok i ∧
      flagsCall "A$int$f" ∈ i.body.flatMap Stmt.nested ∧ x.Of flagsSession flagsBody low ∧
      m ∈ x.methods ∧ flagsCall "A$int$f" = x.operands.call sig.name ∧ x.Typed method sig := by
  have hrun : ((flagsSession.lower flagsBody).1.toOption.map fun i =>
      decide (flagsCall "A$int$f" ∈ i.body.flatMap Stmt.nested)) = some true := by decide +kernel
  obtain ⟨i, hi, hmem⟩ := exists_of_toOption_map hrun
  have hcall := of_decide_eq_true hmem
  obtain ⟨low, -, -, hsites⟩ := Session.lower_typed rfl hi
  obtain ⟨x, m, method, sig, hof, hm, -, -, heq, htyped, -⟩ := hsites _ _ _ hcall
  exact ⟨i, low, x, m, method, sig, hi, hcall, hof, hm, heq, htyped⟩

/-- The override is called with a number for its result, which is a truth value. -/
theorem flags_mistyped :
    ∃ (i : Implementation) (sig : Signature), (flagsSession.lower flagsBody).1 = .ok i ∧
      (Signature.build flags .standard 2).result = .ok sig ∧
      flagsCall sig.name ∈ i.body.flatMap Stmt.nested ∧
      sig.procedure.outs.map Ident.ty = [.bool, .ref] := by
  have hbuild : ((Signature.build flags .standard 2).result.toOption.map fun sig =>
      (sig.name, sig.procedure.outs.map Ident.ty)) =
      some ("B$boolean$f", [.bool, .ref]) := by decide +kernel
  have hrun : ((flagsSession.lower flagsBody).1.toOption.map fun i =>
      decide (flagsCall "B$boolean$f" ∈ i.body.flatMap Stmt.nested)) = some true := by
    decide +kernel
  obtain ⟨sig, hsig, houts⟩ := exists_of_toOption_map hbuild
  obtain ⟨hname, htypes⟩ := Prod.mk.inj houts
  obtain ⟨i, hi, hmem⟩ := exists_of_toOption_map hrun
  exact ⟨i, sig, hi, hsig, hname ▸ of_decide_eq_true hmem, htypes⟩

end Verilower
