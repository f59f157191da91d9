import Verilower.Proofs.ControlFlow
import Verilower.Proofs.Hierarchy
import Verilower.Proofs.Lowering.Signature

namespace Verilower
set_option autoImplicit true

open Ivl

/-- A guarded call: the tag of its class, and the formulas that stand before and after the call. -/
structure Candidate where
  tag : Ident
  procedure : String
  requires : List Expr
  assumes : List Expr

/-- What the candidates of a devirtualized call have in common. -/
structure Dispatched where
  receiver : Expr
  actuals : List Expr
  /-- The variables that the calls assign. -/
  outs : List Ident

namespace Dispatched

def guard (d : Dispatched) (c : Candidate) : Expr :=
  .eq (Prelude.typeOf d.receiver) c.tag.expr

def branch (d : Dispatched) (c : Candidate) : List Outline :=
  c.requires.map (fun e => .oblige (.precondition e)) ++
  [.plain (.call c.procedure d.actuals d.outs)] ++ c.assumes.map (fun e => .plain (.assume e))

def code (d : Dispatched) (l : List Candidate) : List Outline :=
  l.map fun c => .when (d.guard c) (d.branch c)

/-- The call of the candidate is executed from the state. -/
def Enters (d : Dispatched) (W : World) (c : Candidate) (σ : W.State) : Prop :=
  W.Sat σ (d.guard c) ∧ ∀ e ∈ c.requires, W.Sat σ e

/-- The branch of the candidate leads from the one state to the other. -/
def Returns (d : Dispatched) (W : World) (c : Candidate) (σ σ₁ : W.State) : Prop :=
  σ₁ = W.after c.procedure (Expr.evalAll W.toInterp σ d.actuals) d.outs σ ∧
    ∀ e ∈ c.assumes, W.Sat σ₁ e

/-- If the first candidate is entered and returns, the second one is not entered. -/
def Bars (d : Dispatched) (W : World) (σ : W.State) (c c' : Candidate) : Prop :=
  d.Enters W c σ → ∀ σ₁, d.Returns W c σ σ₁ → ¬ d.Enters W c' σ₁

end Dispatched

variable {W : World} {σ σ' σ₁ : W.State} {enc : Encoding} {es : List Expr} {d : Dispatched}
  {l : List Candidate}

namespace Ivl.World

/-- A violation that is raised ends the execution. -/
theorem Exec.of_raise (h : W.Exec σ (enc.raise v) cs σ' ss) : cs = [] ∧ ss ≠ [] := by
  obtain _ | ⟨⟨⟩, _ | ⟨⟨⟩, _ | ⟨⟨⟩, _⟩⟩⟩ := h <;> simp [Encoding.raise]

theorem obligation_precondition (enc : Encoding) (e : Expr) : enc.obligation (.precondition e) =
    [.when (.not e) (enc.raise .precondition)] ∨ enc.obligation (.precondition e) = [.assert e] := by
  have hd : enc.drops (.precondition e) = false := by
    simp [Encoding.drops, Obligation.precondition]
  simp only [Encoding.obligation, hd]
  cases enc.model with
  | exception => exact .inl rfl
  | assertion => exact .inr rfl

theorem sat_not : W.Sat σ (.not e) ↔ ¬ W.Sat σ e := W.holds_not

/-- A precondition calls nothing and lets through only the states in which it holds. -/
theorem Exec.of_precondition (h : W.Exec σ (enc.obligation (.precondition e)) cs σ' ss) :
    cs = [] ∧ (ss = [] → σ' = σ ∧ W.Sat σ e) := by
  obtain he | he := obligation_precondition enc e <;> rw [he] at h
  · cases h with
    | refl => simp
    | step hs hrest =>
      cases hs with
      | thenBranch =>
        rw [List.append_nil] at hrest
        obtain ⟨rfl, hne⟩ := hrest.of_raise
        exact ⟨rfl, fun hss => (hne hss).elim⟩
      | elseBranch hc =>
        obtain ⟨rfl, rfl, rfl⟩ := hrest.of_nil
        exact ⟨rfl, fun _ => ⟨rfl, not_not.1 (sat_not.not.1 hc)⟩⟩
  · cases h with
    | refl => simp
    | step hs hrest =>
      cases hs with
      | assert hc =>
        obtain ⟨rfl, rfl, rfl⟩ := hrest.of_nil
        exact ⟨rfl, fun _ => ⟨rfl, hc⟩⟩

theorem Exec.precondition (h : W.Sat σ e) :
    W.Exec σ (enc.obligation (.precondition e)) [] σ [] := by
  obtain he | he := obligation_precondition enc e <;> rw [he]
  · exact .step (.elseBranch (sat_not.not.2 (not_not.2 h))) .refl
  · exact .step (.assert h) .refl

theorem Exec.of_preconditions
    (h : W.Exec σ (enc.encodeAll (es.map fun e => .oblige (.precondition e))) cs σ' ss) :
    cs = [] ∧ (ss = [] → σ' = σ ∧ ∀ e ∈ es, W.Sat σ e) := by
  induction es generalizing cs with
  | nil =>
    obtain ⟨rfl, rfl, rfl⟩ := h.of_nil
    simp
  | cons e es ih =>
    obtain ⟨as, hne, rfl, hf⟩ | ⟨σ₁, cs₁, cs₂, rfl, hf, hrest⟩ := h.of_append
    · exact ⟨hf.of_precondition.1, fun hss => (hne (List.append_eq_nil_iff.1 hss).1).elim⟩
    · obtain ⟨rfl, hs⟩ := hf.of_precondition
      obtain ⟨rfl, he⟩ := hs rfl
      obtain ⟨rfl, hes⟩ := ih hrest
      exact ⟨rfl, fun hss => ⟨(hes hss).1, List.forall_mem_cons.2 ⟨he, (hes hss).2⟩⟩⟩

theorem Exec.preconditions (h : ∀ e ∈ es, W.Sat σ e) :
    W.Exec σ (enc.encodeAll (es.map fun e => .oblige (.precondition e))) [] σ [] := by
  induction es with
  | nil => exact .refl
  | cons e es ih =>
    obtain ⟨he, hes⟩ := List.forall_mem_cons.1 h
    exact ((Exec.precondition he).append _).trans (ih hes)

/-- Assumptions call nothing and let through only the states in which they hold. -/
theorem Exec.of_assumes
    (h : W.Exec σ (enc.encodeAll (es.map fun e => .plain (.assume e))) cs σ' ss) :
    cs = [] ∧ (ss = [] → σ' = σ ∧ ∀ e ∈ es, W.Sat σ e) := by
  induction es generalizing cs with
  | nil =>
    obtain ⟨rfl, rfl, rfl⟩ := h.of_nil
    simp
  | cons e es ih =>
    cases h with
    | refl => exact ⟨rfl, fun hss => (List.cons_ne_nil _ _ hss).elim⟩
    | step hs hrest =>
      cases hs with
      | assume he =>
        obtain ⟨rfl, hes⟩ := ih hrest
        exact ⟨rfl, fun hss => ⟨(hes hss).1, List.forall_mem_cons.2 ⟨he, (hes hss).2⟩⟩⟩

theorem Exec.assumes (h : ∀ e ∈ es, W.Sat σ e) :
    W.Exec σ (enc.encodeAll (es.map fun e => .plain (.assume e))) [] σ [] := by
  induction es with
  | nil => exact .refl
  | cons e es ih =>
    obtain ⟨he, hes⟩ := List.forall_mem_cons.1 h
    exact .step (.assume he) (ih hes)

end Ivl.World

namespace Dispatched

theorem encodeAll_branch (c : Candidate) : enc.encodeAll (d.branch c) =
    enc.encodeAll (c.requires.map fun e => .oblige (.precondition e)) ++
      (.call c.procedure d.actuals d.outs ::
        enc.encodeAll (c.assumes.map fun e => .plain (.assume e))) := by
  simp [branch]

/-- A branch that is executed calls nothing before its preconditions have been passed, and it comes
to its end by a return of its one call. -/
theorem exec_branch (h : W.Exec σ (enc.encodeAll (d.branch c)) cs σ' ss) :
    (cs = [] ∧ ss ≠ []) ∨
    (cs = [c.procedure] ∧ (∀ e ∈ c.requires, W.Sat σ e) ∧ (ss = [] → d.Returns W c σ σ')) := by
  rw [encodeAll_branch] at h
  obtain ⟨as, hne, rfl, hf⟩ | ⟨σ₁, cs₁, cs₂, rfl, hf, hrest⟩ := h.of_append
  · exact .inl ⟨hf.of_preconditions.1, fun hss => hne (List.append_eq_nil_iff.1 hss).1⟩
  obtain ⟨rfl, hpass⟩ := hf.of_preconditions
  obtain ⟨rfl, hreq⟩ := hpass rfl
  cases hrest with
  | refl => exact .inl ⟨rfl, List.cons_ne_nil _ _⟩
  | step hs hrest =>
    cases hs with
    | call =>
      obtain ⟨rfl, hassume⟩ := hrest.of_assumes
      refine .inr ⟨rfl, hreq, fun hss => ?_⟩
      obtain ⟨rfl, hsat⟩ := hassume hss
      exact ⟨rfl, hsat⟩

/-- What a single candidate can do: nothing, or the call if it is entered. -/
theorem exec_candidate (h : W.Exec σ (enc.encode (.when (d.guard c) (d.branch c))) cs σ' ss) :
    (cs = [] ∧ (ss = [] → σ' = σ)) ∨
    (cs = [c.procedure] ∧ d.Enters W c σ ∧ (ss = [] → d.Returns W c σ σ')) := by
  cases h with
  | refl => exact .inl ⟨rfl, fun _ => rfl⟩
  | step hs hrest =>
    cases hs with
    | thenBranch hg =>
      rw [List.append_nil] at hrest
      obtain ⟨rfl, hne⟩ | ⟨rfl, hreq, hret⟩ := exec_branch hrest
      · exact .inl ⟨rfl, fun hss => (hne hss).elim⟩
      · exact .inr ⟨rfl, ⟨hg, hreq⟩, hret⟩
    | elseBranch =>
      obtain ⟨rfl, rfl, rfl⟩ := hrest.of_nil
      exact .inl ⟨rfl, fun _ => rfl⟩

theorem calls_eq_nil (hne : ∀ c ∈ l, ¬ d.Enters W c σ)
    (h : W.Exec σ (enc.encodeAll (d.code l)) cs σ' ss) : cs = [] := by
  induction l generalizing cs with
  | nil => exact h.of_nil.1
  | cons c l ih =>
    obtain ⟨hc, hl⟩ := List.forall_mem_cons.1 hne
    obtain ⟨_, -, -, hf⟩ | ⟨σ₁, cs₁, cs₂, rfl, hf, hrest⟩ := h.of_append
    · obtain ⟨rfl, -⟩ | ⟨-, henter, -⟩ := exec_candidate hf
      · rfl
      · exact (hc henter).elim
    · obtain ⟨rfl, hstay⟩ | ⟨-, henter, -⟩ := exec_candidate hf
      · obtain rfl := hstay rfl
        exact ih hl hrest
      · exact (hc henter).elim

/-- Candidates each of which bars the later ones make one call at most. -/
theorem calls_length_le (hbar : l.Pairwise (d.Bars W σ))
    (h : W.Exec σ (enc.encodeAll (d.code l)) cs σ' ss) : cs.length ≤ 1 := by
  induction l generalizing cs with
  | nil => simp [h.of_nil.1]
  | cons c l ih =>
    obtain ⟨hc, hl⟩ := List.pairwise_cons.1 hbar
    obtain ⟨_, -, -, hf⟩ | ⟨σ₁, cs₁, cs₂, rfl, hf, hrest⟩ := h.of_append
    · obtain ⟨rfl, -⟩ | ⟨rfl, -, -⟩ := exec_candidate hf <;> simp
    · obtain ⟨rfl, hstay⟩ | ⟨rfl, henter, hret⟩ := exec_candidate hf
      · obtain rfl := hstay rfl
        exact ih hl hrest
      · have hnone := calls_eq_nil (fun c' hc' => hc c' hc' henter σ₁ (hret rfl)) hrest
        simp [hnone]

theorem sat_guard : W.Sat σ (d.guard c) ↔
    (Prelude.typeOf d.receiver).eval W.toInterp σ = σ c.tag := W.holds_eq

/-- With distinct tags, the candidates in front of the one whose guard holds are passed over. -/
theorem exec_reach (enc : Encoding) (htags : (l₁ ++ c :: l₂).Pairwise fun c c' => σ c.tag ≠ σ c'.tag)
    (hg : W.Sat σ (d.guard c)) :
    W.Exec σ (enc.encodeAll (d.code (l₁ ++ c :: l₂))) [] σ
      (enc.encodeAll (d.code (c :: l₂))) := by
  induction l₁ with
  | nil => exact .refl
  | cons b l₁ ih =>
    obtain ⟨hb, hrest⟩ := List.pairwise_cons.1 htags
    refine .step (.elseBranch fun hg' => ?_) (ih hrest)
    exact hb c (by simp) ((sat_guard.1 hg').symm.trans (sat_guard.1 hg))

theorem exec_call (he : d.Enters W c σ) :
    W.Exec σ (enc.encodeAll (d.code (c :: l))) [c.procedure]
      (W.after c.procedure (Expr.evalAll W.toInterp σ d.actuals) d.outs σ)
      (enc.encodeAll (c.assumes.map fun e => .plain (.assume e)) ++
        enc.encodeAll (d.code l)) := by
  refine .step (.thenBranch he.1) ?_
  rw [encodeAll_branch, List.append_assoc]
  exact ((World.Exec.preconditions he.2).append _).trans (.step .call .refl)

theorem exec_return (he : d.Enters W c σ) (hr : d.Returns W c σ σ₁) :
    W.Exec σ (enc.encodeAll (d.code (c :: l))) [c.procedure] σ₁
      (enc.encodeAll (d.code l)) := by
  obtain ⟨rfl, hassume⟩ := hr
  exact (exec_call he).trans ((World.Exec.assumes hassume).append _)

theorem Returns.eq_constant (hr : d.Returns W c σ σ₁)
    (hout : ∀ x ∈ d.outs, x.ty.isConstant = false) (hty : x.ty.isConstant = true) :
    σ₁ x = σ x := by
  rw [hr.1]
  refine World.after_of_notMem (fun hx => ?_) (W.isGlobal_constant hty)
  simp [hout x hx] at hty

/-- If a candidate does not bar a later one, an execution calls both of them. -/
theorem exec_two (enc : Encoding) (hout : ∀ x ∈ d.outs, x.ty.isConstant = false)
    (htag : ∀ c ∈ l, c.tag.ty.isConstant = true)
    (htags : l.Pairwise fun c c' => σ c.tag ≠ σ c'.tag) (hsub : [c, c'].Sublist l)
    (hbar : ¬ d.Bars W σ c c') :
    ∃ σ' ss, W.Exec σ (enc.encodeAll (d.code l)) [c.procedure, c'.procedure] σ' ss := by
  obtain ⟨r₁, r₂, rfl, hc, hc'⟩ := List.cons_sublist_iff.1 hsub
  obtain ⟨l₁, l₂, rfl⟩ := List.append_of_mem hc
  obtain ⟨l₃, l₄, rfl⟩ := List.append_of_mem (List.singleton_sublist.1 hc')
  rw [List.append_assoc, List.cons_append, ← List.append_assoc l₂] at htag htags ⊢
  simp only [Bars, not_forall, not_not] at hbar
  obtain ⟨he, σ₁, hr, he'⟩ := hbar
  have hlater := (List.pairwise_cons.1 (List.pairwise_append.1 htags).2.1).2
  have htags' : (l₂ ++ l₃ ++ c' :: l₄).Pairwise fun b b' => σ₁ b.tag ≠ σ₁ b'.tag := by
    refine hlater.imp_of_mem fun hb hb' hne => ?_
    rwa [hr.eq_constant hout (htag _ (by simp_all)), hr.eq_constant hout (htag _ (by simp_all))]
  have hfirst := (exec_reach enc htags he.1).trans (exec_return he hr)
  exact ⟨_, _, (hfirst.trans (exec_reach enc htags' he'.1)).trans (exec_call he')⟩

end Dispatched

/-- Distinct classes have distinct tags in the state. -/
def Program.TagsDistinct (p : Program) (σ : Ident → α) : Prop :=
  ∀ i k τ κ, i ≠ k → p.tag (.cls i) = .ok τ → p.tag (.cls k) = .ok κ → σ τ ≠ σ κ

/-- No callee changes the type tag of an object. -/
def Ivl.World.KeepsTypes (W : World) : Prop :=
  ∀ f args σ o, W.select (W.callee f args σ Prelude.heap) [o, σ Prelude.typeField] =
    W.select (σ Prelude.heap) [o, σ Prelude.typeField]

namespace Dispatched

/-- An execution of the candidates makes one call at most. -/
def Exclusive (d : Dispatched) (l : List Candidate) (p : Program) (W : World) (enc : Encoding) :
    Prop :=
  ∀ σ, p.TagsDistinct σ → ∀ cs σ' ss, W.Exec σ (enc.encodeAll (d.code l)) cs σ' ss → cs.length ≤ 1

/-- Each candidate bars the later ones. -/
def Settled (d : Dispatched) (l : List Candidate) (p : Program) (W : World) : Prop :=
  ∀ σ, p.TagsDistinct σ → l.Pairwise (d.Bars W σ)

/-- The receiver mentions no variable that a call may assign. -/
def ReceiverFixed (d : Dispatched) (W : World) : Prop :=
  ∀ x ∈ d.receiver.idents, x ∉ d.outs ∧ W.isGlobal x = false

end Dispatched

/-- The candidate calls the method of the target under the tag of its class. -/
def Candidate.Answers (p : Program) (q : Prelude) (t : Target) (c : Candidate) : Prop :=
  p.tag (.cls t.owner) = .ok c.tag ∧
    ∃ sig, (Signature.build p q t.method).result = .ok sig ∧ c.procedure = sig.name

namespace Candidate

theorem exists_target (h : List.Forall₂ (Answers p q) ts l) (hc : c ∈ l) :
    ∃ t ∈ ts, Answers p q t c := by
  induction h with
  | nil => cases hc
  | cons ha _ ih =>
    obtain rfl | hc := List.mem_cons.1 hc
    · exact ⟨_, List.mem_cons_self, ha⟩
    · obtain ⟨t, ht, ha⟩ := ih hc
      exact ⟨t, List.mem_cons_of_mem _ ht, ha⟩

theorem tag_isConstant (h : List.Forall₂ (Answers p q) ts l) :
    ∀ c ∈ l, c.tag.ty.isConstant = true := by
  intro c hc
  obtain ⟨t, -, ha⟩ := exists_target h hc
  rw [Program.tag_ty ha.1]
  rfl

theorem tags_pairwise (h : List.Forall₂ (Answers p q) ts l) (hts : (ts.map Target.owner).Nodup)
    (hσ : p.TagsDistinct σ) : l.Pairwise fun c c' => σ c.tag ≠ σ c'.tag := by
  induction h with
  | nil => exact .nil
  | @cons t _ _ _ ha hrest ih =>
    obtain ⟨hnew, hts⟩ := List.nodup_cons.1 hts
    refine List.pairwise_cons.2 ⟨fun c' hc' => ?_, ih hts⟩
    obtain ⟨t', ht', ha'⟩ := exists_target hrest hc'
    have hne : t.owner ≠ t'.owner := fun he => hnew (he ▸ List.mem_map_of_mem ht')
    exact hσ _ _ _ _ hne ha.1 ha'.1

end Candidate

namespace Dispatched

theorem exclusive_iff (hout : ∀ x ∈ d.outs, x.ty.isConstant = false)
    (ha : List.Forall₂ (Candidate.Answers p q) ts l) (hts : (ts.map Target.owner).Nodup) :
    d.Exclusive l p W enc ↔ d.Settled l p W := by
  constructor
  · intro hx σ hσ
    refine List.pairwise_iff_forall_sublist.2 fun hsub => ?_
    by_contra hbar
    obtain ⟨σ', ss, hexec⟩ := exec_two enc hout (Candidate.tag_isConstant ha)
      (Candidate.tags_pairwise ha hts hσ) hsub hbar
    simpa using hx σ hσ _ _ _ hexec
  · intro hs σ hσ cs σ' ss hexec
    exact calls_length_le (hs σ hσ) hexec

theorem Returns.typeOf_eq (hr : d.Returns W c σ σ₁) (hk : W.KeepsTypes) (hfix : d.ReceiverFixed W)
    (hout : ∀ x ∈ d.outs, x.ty.isConstant = false) :
    (Prelude.typeOf d.receiver).eval W.toInterp σ₁ =
      (Prelude.typeOf d.receiver).eval W.toInterp σ := by
  have hrec : d.receiver.eval W.toInterp σ₁ = d.receiver.eval W.toInterp σ := by
    refine Expr.eval_congr fun x hx => ?_
    rw [hr.1, World.after_of_notMem (hfix x hx).1 (hfix x hx).2]
  have hfield : σ₁ Prelude.typeField = σ Prelude.typeField := hr.eq_constant hout rfl
  simp only [Prelude.typeOf, Prelude.read, Ident.expr, Expr.eval, Expr.evalAll, hrec, hfield]
  rw [hr.1]
  unfold World.after
  split
  · exact hk ..
  · rfl

/-- A receiver that no call assigns settles the choice, as types stay the same. -/
theorem settled_of_receiverFixed (hout : ∀ x ∈ d.outs, x.ty.isConstant = false)
    (ha : List.Forall₂ (Candidate.Answers p q) ts l) (hts : (ts.map Target.owner).Nodup)
    (hk : W.KeepsTypes) (hfix : d.ReceiverFixed W) : d.Settled l p W := by
  intro σ hσ
  refine (Candidate.tags_pairwise ha hts hσ).imp_of_mem fun {c c'} hc hc' hne => ?_
  intro he σ₁ hr he'
  refine hne ?_
  calc σ c.tag = (Prelude.typeOf d.receiver).eval W.toInterp σ := (sat_guard.1 he.1).symm
    _ = (Prelude.typeOf d.receiver).eval W.toInterp σ₁ := (hr.typeOf_eq hk hfix hout).symm
    _ = σ₁ c'.tag := sat_guard.1 he'.1
    _ = σ c'.tag := hr.eq_constant hout (Candidate.tag_isConstant ha c' hc')

end Dispatched

theorem Program.dispatch_nodup {p : Program} (h : p.dispatch i m = .ok ts) :
    (ts.map Target.owner).Nodup := by
  obtain ⟨_, hc, hts⟩ := except_bind_eq_ok.1 h
  cases hts
  have hlt := (List.getElem?_eq_some_iff.1 (entry_eq_ok.1 hc)).1
  exact Program.owners_sublist.nodup (Program.subtypes_nodup hlt)

namespace Lower

theorem Assumed.formulas (h : Assumed F callee result captured code j) :
    ∃ es : List Expr, code = es.map fun e => .plain (.assume e) := by
  cases h with
  | @annotated τ x =>
    unfold resultFacts
    split
    · exact ⟨[Prelude.isNonNull x.expr, .subtype (Prelude.typeOf x.expr) τ.expr,
        .eq (Prelude.typeOf x.expr) τ.expr], rfl⟩
    · exact ⟨[Prelude.isNonNull x.expr, .subtype (Prelude.typeOf x.expr) τ.expr], rfl⟩
  | plain => exact ⟨[], rfl⟩

theorem Destined.result_ty (h : Destined F s callee target dst s') (hx : x ∈ dst.result) :
    ∃ ty, callee.returns.lowered = .ok ty ∧ x.ty = ty := by
  cases h with
  | void => cases hx
  | dropped _ ht | other _ ht =>
    cases hx
    exact ⟨_, ht, rfl⟩
  | «local» _ ht _ hty =>
    cases hx
    exact ⟨_, ht, hty⟩

end Lower

/-- The call that an instruction makes, and the location that takes its result. -/
def Instr.call? : Instr → Option (Call × Option Value)
  | .invoke call => some (call, none)
  | .assign target (.invoke kind m base args) => some (⟨kind, m, base, args⟩, some target)
  | _ => none

theorem Lower.Executed.invoked {call : Call} (h : Lower.Executed F n s i r j)
    (hc : i.call? = some (call, target)) : Lower.Invoked F n call target s r j := by
  cases h with
  | assign h =>
    cases h with
    | invoke h =>
      cases hc
      exact h
    | value ho =>
      cases ho <;> cases hc
    | _ => cases hc
  | invoke h =>
    cases hc
    exact h
  | _ => cases hc

/-- Values in which names stand for themselves and a map is the list of its updates. -/
inductive Ivl.Free where
  | name (x : Ident)
  | bool (b : Bool)
  | int (n : Int)
  | real (text : String)
  | update (map : Free) (indices : List Free) (value : Free)

open Classical in
noncomputable def Ivl.Free.select : Free → List Free → Free
  | .update m is v, js => if is = js then v else m.select js
  | m, _ => m

open Classical in
/-- Free values, where only truth, equality and maps are interpreted. -/
noncomputable abbrev Ivl.Interp.free : Interp where
  Val := Free
  Holds v := v = .bool true
  bool := .bool
  int := .int
  real := .real
  unary
    | .not, a => .bool (decide (a ≠ .bool true))
    | .neg, a => a
  binary
    | .eq, a, b => .bool (decide (a = b))
    | .neq, a, b => .bool (decide (a ≠ b))
    | .and, a, b => .bool (decide (a = .bool true ∧ b = .bool true))
    | .or, a, b => .bool (decide (a = .bool true ∨ b = .bool true))
    | _, a, _ => a
  select := Free.select
  store := .update
  apply f _ ty := .name ⟨f, ty⟩
  holds_bool := by simp
  holds_not := by simp
  holds_eq := by simp
  holds_neq := by simp
  holds_and := by simp
  holds_or := by simp
  select_store_same := by simp [Free.select]
  select_store_ne := by
    intro is js m v h
    simp [Free.select, h]

abbrev walkVar : Ident := ⟨"x", .ref⟩

abbrev walkTag (name : String) : Ident := ⟨"$type_" ++ name, .tag⟩

/-- Callees that return the object `1` and change nothing else. -/
noncomputable abbrev walkWorld : World where
  toInterp := .free
  isGlobal x := Prelude.globals.contains x
  isGlobal_constant := by
    intro x hx
    refine Bool.eq_false_iff.2 fun hg => ?_
    have hmem := List.contains_iff_mem.1 hg
    simp only [Prelude.globals, List.mem_cons, List.not_mem_nil, or_false] at hmem
    obtain rfl | rfl | rfl | rfl | rfl | rfl | rfl := hmem <;> cases hx
  callee _ _ σ x := if x = walkVar then .int 1 else σ x

theorem Program.tagsDistinct_free {p : Program} {σ : Ident → Free}
    (hσ : ∀ x : Ident, x.ty = .tag → σ x = .name x)
    (hnames : (p.classes.map fun c => sanitize c.name).Nodup) : p.TagsDistinct σ := by
  intro i k τ κ hne hi hk
  rw [hσ _ (Program.tag_ty hi), hσ _ (Program.tag_ty hk)]
  obtain ⟨c, hc, rfl⟩ := Program.tag_cls.1 hi
  obtain ⟨c', hc', rfl⟩ := Program.tag_cls.1 hk
  intro he
  have hsame : sanitize c.name = sanitize c'.name := by
    simpa [String.append_right_inj] using he
  have hlt : i < (p.classes.map fun c => sanitize c.name).length := by
    simpa using (List.getElem?_eq_some_iff.1 hc).1
  exact hne ((List.getElem?_inj hlt hnames).1 (by simp [hc, hc', hsame]))

end Verilower
