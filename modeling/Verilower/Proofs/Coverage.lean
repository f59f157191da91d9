import Verilower.Proofs.Exclusivity
import Verilower.Proofs.Resolution

namespace Verilower
set_option autoImplicit true

open Ivl

/-- `d` is the first class on the chain of super classes from `c` that declares a method with the
name and the parameters of `m`, and `t` is the first such method there. -/
inductive Program.Inherits (p : Program) (m : Method) (t : MethodId) :
    (c d : ClassId) → Prop where
  | own (hc : p.classes[c]? = some decl) (hd : p.declaredMethod? decl m.name m.params = some t) :
    Inherits p m t c c
  | above (hc : p.classes[c]? = some decl) (hd : p.declaredMethod? decl m.name m.params = none)
    (hs : decl.superClass = some c') (h : Inherits p m t c' d) : Inherits p m t c d

namespace Program

variable {p : Program}

theorem Inherits.declares (h : p.Inherits m t c d) :
    ∃ decl, p.classes[d]? = some decl ∧ p.declaredMethod? decl m.name m.params = some t := by
  induction h with
  | own hc hd => exact ⟨_, hc, hd⟩
  | above _ _ _ _ ih => exact ih

/-- A class that inherits the method from another one has no override of its own. -/
theorem Inherits.not_overrides (h : p.Inherits m t c d) (hne : d ≠ c) : ¬ p.Overrides m c t' := by
  intro ho
  obtain ⟨decl, _, hc, -, hd, -⟩ := ho
  cases h with
  | own => exact hne rfl
  | above hc' hn =>
    cases hc.symm.trans hc'
    cases hd.symm.trans hn

end Program

namespace Dispatched

variable {W : World} {σ σ' : W.State} {enc : Encoding} {d : Dispatched} {l l₁ l₂ : List Candidate}

/-- Executing the candidates calls `c`: it is the first one to be called, the candidates cannot be
passed without it, and it is called as soon as the formulas in front of the call hold. -/
structure Reaches (d : Dispatched) (l : List Candidate) (W : World) (enc : Encoding) (σ : W.State)
    (c : Candidate) : Prop where
  first : ∀ cs σ' ss, W.Exec σ (enc.encodeAll (d.code l)) cs σ' ss →
    cs = [] ∨ ∃ rest, cs = c.procedure :: rest
  passed : ∀ cs σ', W.Exec σ (enc.encodeAll (d.code l)) cs σ' [] →
    ∃ rest, cs = c.procedure :: rest
  called : (∃ σ' ss, W.Exec σ (enc.encodeAll (d.code l)) [c.procedure] σ' ss) ↔
    ∀ e ∈ c.requires, W.Sat σ e

/-- Once its guard holds, a candidate is called or its preconditions stop the execution. -/
theorem exec_entered (hg : W.Sat σ (d.guard c))
    (h : W.Exec σ (enc.encodeAll (d.code (c :: l))) cs σ' ss) :
    (cs = [] ∧ ss ≠ []) ∨
      (∃ rest, cs = c.procedure :: rest) ∧ ∀ e ∈ c.requires, W.Sat σ e := by
  cases h with
  | refl => exact .inl ⟨rfl, List.cons_ne_nil _ _⟩
  | step hs hrest =>
    cases hs with
    | elseBranch hn => exact (hn hg).elim
    | thenBranch =>
      obtain ⟨as, hne, rfl, hf⟩ | ⟨σ₁, cs₁, cs₂, rfl, hf, -⟩ := hrest.of_append
      · obtain ⟨rfl, -⟩ | ⟨rfl, hreq, -⟩ := exec_branch hf
        · exact .inl ⟨rfl, fun hss => hne (List.append_eq_nil_iff.1 hss).1⟩
        · exact .inr ⟨⟨[], rfl⟩, hreq⟩
      · obtain ⟨-, hne⟩ | ⟨rfl, hreq, -⟩ := exec_branch hf
        · exact (hne rfl).elim
        · exact .inr ⟨⟨cs₂, rfl⟩, hreq⟩

theorem exec_skipped (hother : ∀ b ∈ l₁, ¬ W.Sat σ (d.guard b))
    (h : W.Exec σ (enc.encodeAll (d.code (l₁ ++ l₂))) cs σ' ss) :
    (cs = [] ∧ ss ≠ []) ∨ W.Exec σ (enc.encodeAll (d.code l₂)) cs σ' ss := by
  induction l₁ generalizing cs with
  | nil => exact .inr h
  | cons b l₁ ih =>
    obtain ⟨hb, hl⟩ := List.forall_mem_cons.1 hother
    cases h with
    | refl => exact .inl ⟨rfl, List.cons_ne_nil _ _⟩
    | step hs hrest =>
      cases hs with
      | thenBranch hg => exact (hb hg).elim
      | elseBranch => exact ih hl hrest

theorem guard_of_ne (hg : W.Sat σ (d.guard c)) (hne : σ b.tag ≠ σ c.tag) :
    ¬ W.Sat σ (d.guard b) := by
  intro hb
  exact hne ((sat_guard.1 hb).symm.trans (sat_guard.1 hg))

/-- With distinct tags, the candidate whose guard holds is the one that is called. -/
theorem reaches_of_guard (htags : l.Pairwise fun b b' => σ b.tag ≠ σ b'.tag) (hc : c ∈ l)
    (hg : W.Sat σ (d.guard c)) : d.Reaches l W enc σ c := by
  obtain ⟨l₁, l₂, rfl⟩ := List.append_of_mem hc
  have hother : ∀ b ∈ l₁, ¬ W.Sat σ (d.guard b) := by
    intro b hb
    exact guard_of_ne hg ((List.pairwise_append.1 htags).2.2 b hb c List.mem_cons_self)
  have hexec : ∀ cs σ' ss, W.Exec σ (enc.encodeAll (d.code (l₁ ++ c :: l₂))) cs σ' ss →
      (cs = [] ∧ ss ≠ []) ∨
        (∃ rest, cs = c.procedure :: rest) ∧ ∀ e ∈ c.requires, W.Sat σ e := by
    intro cs σ' ss h
    obtain hstop | hrest := exec_skipped hother h
    · exact .inl hstop
    · exact exec_entered hg hrest
  constructor
  · intro cs σ' ss h
    obtain ⟨rfl, -⟩ | ⟨hcall, -⟩ := hexec cs σ' ss h
    · exact .inl rfl
    · exact .inr hcall
  · intro cs σ' h
    obtain ⟨-, hne⟩ | ⟨hcall, -⟩ := hexec cs σ' [] h
    · exact (hne rfl).elim
    · exact hcall
  · constructor
    · intro h
      obtain ⟨σ', ss, h⟩ := h
      obtain ⟨hnil, -⟩ | ⟨-, hreq⟩ := hexec _ σ' ss h
      · cases hnil
      · exact hreq
    · intro hreq
      exact ⟨_, _, (exec_reach enc htags hg).trans (exec_call ⟨hg, hreq⟩)⟩

end Dispatched

theorem Candidate.exists_candidate (h : List.Forall₂ (Answers p q) ts l) (ht : t ∈ ts) :
    ∃ c ∈ l, Answers p q t c := by
  induction h with
  | nil => cases ht
  | cons ha _ ih =>
    obtain rfl | ht := List.mem_cons.1 ht
    · exact ⟨_, List.mem_cons_self, ha⟩
    · obtain ⟨c, hc, ha⟩ := ih ht
      exact ⟨c, List.mem_cons_of_mem _ hc, ha⟩

/-- The class of the receiver decides: with an override of its own the call of that is executed, and
without one no call is. -/
theorem Dispatched.coverage {W : World} {σ : W.State} {d : Dispatched} {p : Program}
    (enc : Encoding) (ha : List.Forall₂ (Candidate.Answers p q) ts l)
    (hts : (ts.map Target.owner).Nodup) (hσ : p.TagsDistinct σ) (hτ : p.tag (.cls c) = .ok τ)
    (hrec : (Prelude.typeOf d.receiver).eval W.toInterp σ = σ τ) :
    (∀ t, ⟨c, t⟩ ∈ ts → ∃ b ∈ l, b.Answers p q ⟨c, t⟩ ∧ d.Reaches l W enc σ b) ∧
    ((∀ t, ⟨c, t⟩ ∉ ts) → ∀ cs σ' ss, W.Exec σ (enc.encodeAll (d.code l)) cs σ' ss → cs = []) := by
  constructor
  · intro t ht
    obtain ⟨b, hb, hans⟩ := Candidate.exists_candidate ha ht
    have htag : b.tag = τ := Except.ok.inj (hans.1.symm.trans hτ)
    have hguard : W.Sat σ (d.guard b) := sat_guard.2 (htag ▸ hrec)
    exact ⟨b, hb, hans, reaches_of_guard (Candidate.tags_pairwise ha hts hσ) hb hguard⟩
  · intro hnone cs σ' ss h
    refine calls_eq_nil (fun b hb henter => ?_) h
    obtain ⟨t, ht, hans⟩ := Candidate.exists_target ha hb
    have hne : c ≠ t.owner := fun he => hnone t.method (he ▸ ht)
    exact hσ _ _ _ _ hne hτ hans.1 (hrec.symm.trans (sat_guard.1 henter.1))

/-- Every dynamic call that is lowered, if it has targets: its candidates test the receiver that the
call is made on. For a receiver whose class is at or below the static one and finds a concrete method
on its chain of super classes, the call of that method is executed if the class itself declares it,
and no call is if it inherits it. -/
theorem lower_coverage {s : Session} {body : Body} {i : Implementation} {k : Nat} {call : Call}
    {callee : Method} (h : (s.lower body).1 = .ok i)
    (hcall : body.CallsAt s.program k call callee) :
    ∃ (low : Lowered) (x : CallSite) (base : Value) (ty : Option Ty),
      (lowerBody s.program s.prelude s.registry.globals.length body).result = .ok low ∧
      i = low.implementation s.options ∧ low.segments.length = body.nodes.length ∧
      x.Of s body low ∧ (x.node = k ∧ x.call = call ∧ x.callee = callee) ∧
      call.base = some base ∧ body.typeOf s.program base = .ok ty ∧
      s.program.dispatch (Lower.startClass callee ty) callee = .ok x.targets ∧
      (x.targets ≠ [] → ∃ (receiver : Expr) (l : List Candidate),
        x.Devirtualized s.program s.prelude receiver l ∧
        ∀ C D t decl found, s.program.classes[C]? = some decl → decl.isInterface = false →
          s.program.isSubtype C (Lower.startClass callee ty) = true →
          s.program.Inherits callee t C D → s.program.methods[t]? = some found →
          found.isConcreteInstance = true →
          ∀ (W : World) (σ : W.State) τ, s.program.TagsDistinct σ →
            s.program.tag (.cls C) = .ok τ →
            (Prelude.typeOf receiver).eval W.toInterp σ = σ τ →
            (D = C → ∃ c ∈ l, c.Answers s.program s.prelude ⟨C, t⟩ ∧
              (x.operands.through receiver).Reaches l W (low.encoding s.options) σ c) ∧
            (D ≠ C → ∀ cs σ' ss,
              W.Exec σ ((low.encoding s.options).encodeAll x.calls) cs σ' ss → cs = [])) := by
  obtain ⟨low, j, hgives, rfl, -⟩ := Session.lower_result h
  obtain ⟨x, hof, rfl, rfl, rfl⟩ := hcall.exists_site hgives
  obtain ⟨base, ty, hb, hty, ht, hres⟩ := hof.resolved.resolution hcall.dynamic
  refine ⟨low, x, base, ty, congrArg Trace.result hgives, rfl,
    (lowerBody_gives hgives).segments_length, hof, ⟨rfl, rfl, rfl⟩, hb, hty, ht, fun hne => ?_⟩
  obtain ⟨receiver, l, hdev⟩ := hof.devirtualized hne
  refine ⟨receiver, l, hdev, ?_⟩
  intro C D t decl found hC hint hsub hinh hfound hconc W σ τ hσ hτ hrec
  obtain ⟨hown, hnone⟩ := Dispatched.coverage (d := x.operands.through receiver)
    (low.encoding s.options) hdev.answers hof.resolved.owners_nodup hσ hτ hrec
  constructor
  · intro heq
    subst heq
    obtain ⟨decl', hC', hdecl⟩ := hinh.declares
    cases hC.symm.trans hC'
    apply hown t
    rw [hres.mem_iff]
    have hinst : found.isAbstract = false ∧ found.isStatic = false := by
      simpa [Method.isConcreteInstance] using hconc
    exact ⟨hsub, decl, found, hC, hint, hdecl, hfound, hinst⟩
  · intro hneq
    rw [hdev.calls]
    apply hnone
    intro t' ht'
    exact hinh.not_overrides hneq ((hres.mem_iff C t').1 ht').2

theorem lower_coverage_shapes :
    ∃ i, (shapesSession.lower shapesBody).1 = .ok i ∧
      ∃ (low : Lowered) (x : CallSite) (receiver : Expr) (l : List Candidate),
        (lowerBody shapes .standard 0 shapesBody).result = .ok low ∧
        i = low.implementation {} ∧ low.segments.length = 4 ∧
        x.Of shapesSession shapesBody low ∧
        (x.node = 1 ∧ x.call = ⟨.virtual, 0, some (.slot 0), []⟩ ∧ x.callee = shapeArea) ∧
        x.Devirtualized shapes .standard receiver l ∧
        ∀ (W : World) (σ : W.State), shapes.TagsDistinct σ →
          ((Prelude.typeOf receiver).eval W.toInterp σ = σ (walkTag "Circle") →
            ∃ c ∈ l, c.Answers shapes .standard ⟨4, 2⟩ ∧
              (x.operands.through receiver).Reaches l W (low.encoding {}) σ c) ∧
          ((Prelude.typeOf receiver).eval W.toInterp σ = σ (walkTag "Disc") →
            ∀ cs σ' ss, W.Exec σ ((low.encoding {}).encodeAll x.calls) cs σ' ss → cs = []) := by
  obtain ⟨i, hi⟩ := exists_of_isOk (x := (shapesSession.lower shapesBody).1) (by decide +kernel)
  obtain ⟨low, x, base, ty, hlow, himp, hlen, hof, hsite, hb, hty, ht, hcover⟩ :=
    lower_coverage hi shapesBody_area
  cases hb
  cases hty
  have hts : x.targets = [⟨4, 2⟩] := (Except.ok.inj ht).symm
  obtain ⟨receiver, l, hdev, hclass⟩ := hcover (by rw [hts]; decide)
  refine ⟨i, hi, low, x, receiver, l, hlow, himp, hlen, hof, hsite, hdev, ?_⟩
  intro W σ hσ
  constructor
  · intro hrec
    exact (hclass 4 4 2 _ _ rfl rfl (by decide) (.own rfl rfl) rfl rfl W σ _ hσ rfl hrec).1 rfl
  · intro hrec
    exact (hclass 5 4 2 _ _ rfl rfl (by decide) (.above rfl rfl rfl (.own rfl rfl)) rfl rfl W σ _
      hσ rfl hrec).2 (by decide)

/-- The variable `x` holds the object `0`, which is a disc. -/
def discState (x : Ident) : Free :=
  if x = walkVar then .int 0
  else if x = Prelude.heap then
    .update (.bool false) [.int 0, .name Prelude.typeField] (.name (walkTag "Disc"))
  else .name x

theorem discState_tag (h : x.ty = .tag) : discState x = .name x := by
  have hvar : x ≠ walkVar := by
    intro he
    rw [he] at h
    cases h
  have hheap : x ≠ Prelude.heap := by
    intro he
    rw [he] at h
    cases h
  unfold discState
  rw [if_neg hvar, if_neg hheap]

theorem eval_typeOf_discState :
    (Prelude.typeOf walkVar.expr).eval walkWorld.toInterp discState = discState (walkTag "Disc") := by
  rw [discState_tag rfl]
  simp [Expr.eval, Expr.evalAll, Prelude.typeOf, Prelude.read, Ident.expr, discState, Free.select,
    Prelude.heap, Prelude.typeField]

/-- The one branch of the call that asks a shape for its area. -/
abbrev circleBranch : Stmt :=
  .when (.eq (Prelude.typeOf walkVar.expr) (walkTag "Circle").expr)
    [.call "Circle$int$area" [walkVar.expr] [⟨"$fakelocal_0", .int⟩, ⟨"$exception", .ref⟩]]

theorem not_sat_discState : ¬ walkWorld.Sat discState
    (.eq (Prelude.typeOf walkVar.expr) (walkTag "Circle").expr) := by
  intro h
  have heq := (walkWorld.holds_eq.1 h).symm.trans eval_typeOf_discState
  simp only [Ident.expr, Expr.eval, discState_tag] at heq
  cases heq

theorem Ivl.World.Exec.of_when {W : World} {σ σ' : W.State} (hn : ¬ W.Sat σ c)
    (h : W.Exec σ [.when c body] cs σ' ss) : cs = [] := by
  cases h with
  | refl => rfl
  | step hs hrest =>
    cases hs with
    | thenBranch hg => exact (hn hg).elim
    | elseBranch => exact hrest.of_nil.1

/-- A disc is a shape and inherits the area of a circle, but none of the branches calls it. -/
theorem disc_area_not_called :
    shapes.dispatch 3 shapeArea = .ok [⟨4, 2⟩] ∧ shapes.isSubtype 5 3 = true ∧
    shapes.Inherits shapeArea 2 5 4 ∧ shapes.TagsDistinct discState ∧
    (Prelude.typeOf walkVar.expr).eval walkWorld.toInterp discState = discState (walkTag "Disc") ∧
    ∃ i, (shapesSession.lower shapesBody).1 = .ok i ∧ [circleBranch].IsInfix i.body ∧
      ∀ cs σ ss, walkWorld.Exec discState [circleBranch] cs σ ss → cs = [] := by
  have hrun : ((shapesSession.lower shapesBody).1.toOption.map fun i =>
      decide ([circleBranch].IsInfix i.body)) = some true := by decide +kernel
  obtain ⟨i, hi, hin⟩ := exists_of_toOption_map hrun
  exact ⟨rfl, by decide, .above rfl rfl rfl (.own rfl rfl),
    Program.tagsDistinct_free (fun _ => discState_tag) (by decide +kernel), eval_typeOf_discState,
    i, hi, of_decide_eq_true hin,
    fun cs σ ss h => h.of_when not_sat_discState⟩

end Verilower
