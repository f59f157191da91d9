import Verilower.Proofs.Assembly
import Verilower.Proofs.Drafts
import Verilower.Proofs.Lowering.Sources

namespace Verilower
set_option autoImplicit true

open Ivl

namespace Ivl.Program

/-- The program declares the constant or the variable. -/
def Declares (p : Program) (x : Ident) : Prop :=
  .var x ∈ p.decls ∨ ∃ unique parents, .const x unique parents ∈ p.decls

/-- What the statements of an implementation may mention. -/
def scope (p : Program) (i : Implementation) : Scope where
  ident x := x ∈ i.locals ∨ x ∈ i.procedure.ins ∨ x ∈ i.procedure.outs ∨ p.Declares x
  function f args ty := ∃ tys, .function f tys ty ∈ p.decls ∧ args.map Expr.ty = tys.map .ok
  procedure f := ∃ q ∈ p.procedures, q.name = f

/-- Whatever the program mentions is declared. -/
structure Closed (p : Program) : Prop where
  statements : ∀ i ∈ p.implementations, Stmt.AllWithin (p.scope i) i.body
  implementations : ∀ i ∈ p.implementations, ∃ q ∈ p.procedures, q.name = i.name
  parents : ∀ x unique names, .const x unique names ∈ p.decls → ∀ n ∈ names,
    ∃ y unique' names', .const y unique' names' ∈ p.decls ∧ y.name = n ∧ y.ty = .tag

end Ivl.Program

/-- The contracts of the prelude are all free. -/
def Prelude.Free (q : Prelude) : Prop := ∀ f ∈ q.procedures, ∀ c ∈ f.clauses, c.free = true

theorem Prelude.free_bare : bare.Free := nofun

theorem Prelude.free_standard : standard.Free := by
  intro f hf c hc
  obtain rfl := List.mem_singleton.1 hf
  simp only [objectCloneProcedure, List.mem_cons, List.not_mem_nil, or_false] at hc
  rcases hc with rfl | rfl <;> rfl

theorem Prelude.Free.checked (h : Free q) (hf : f ∈ q.procedures) : e ∉ f.checked kind := by
  intro he
  obtain ⟨c, hc, -, hfree, -⟩ := Signature.mem_checked he
  rw [h f hf c hc] at hfree
  cases hfree

theorem Prelude.mem_declarations_of_vocabulary (hx : x ∈ vocabulary) :
    .var x ∈ declarations q ∨ .const x true [] ∈ declarations q := by
  simp only [vocabulary, globals, List.mem_append, List.mem_cons, List.not_mem_nil, or_false] at hx
  rcases hx with (rfl | rfl | rfl) | rfl | rfl | rfl | rfl | rfl | rfl | rfl
  all_goals simp [declarations]

theorem Prelude.mem_declarations_of_witness (v : Violation) :
    .const (witness v) true [] ∈ declarations q := by
  have hw : .const (witness v) true [] ∈ witnesses :=
    List.mem_flatMap.2 ⟨v, by cases v <;> simp [Violation.all], List.mem_cons_self⟩
  exact List.mem_append_left _ (List.mem_append_right _ hw)

theorem Prelude.mem_declarations_of_function (h : d ∈ conversions ++ operators) :
    d ∈ declarations q := by
  simp only [declarations, List.mem_append] at h ⊢
  tauto

namespace Session

variable {s : Session} {is : List Implementation}

theorem mem_parents (h : n ∈ parents p ty) : ∃ i, p.tagName (.cls i) = .ok n := by
  cases ty with
  | cls i =>
    obtain ⟨sup, -, hn⟩ := List.mem_filterMap.1 h
    exact ⟨sup, toOption_eq_some.1 hn⟩
  | array elem => exact ⟨ClassId.object, toOption_eq_some.1 (Option.mem_toList.1 h)⟩
  | _ => cases h

theorem declares_global (h : x ∈ s.registry.globals) : (s.assemble is).Declares x :=
  .inl (mem_assemble.2 (.inr (.inr (.inr (.inl ⟨x, h, rfl⟩)))))

theorem declares_vocabulary (h : x ∈ Prelude.vocabulary) : (s.assemble is).Declares x := by
  rcases Prelude.mem_declarations_of_vocabulary (q := s.prelude) h with h | h
  · exact .inl (mem_assemble.2 (.inl h))
  · exact .inr ⟨_, _, mem_assemble.2 (.inl h)⟩

theorem declares_witness (v : Violation) : (s.assemble is).Declares (Prelude.witness v) :=
  .inr ⟨_, _, mem_assemble.2 (.inl (Prelude.mem_declarations_of_witness v))⟩

namespace Complete

variable (hs : Complete p q o s is)
include hs

/-- The tags above a tag are tags of classes, and these are all declared. -/
theorem declares_parents (h : .const x unique names ∈ (s.assemble is).decls) (hn : n ∈ names) :
    ∃ y names', .const y true names' ∈ (s.assemble is).decls ∧ y.name = n ∧ y.ty = .tag := by
  have htag : ∃ ty, n ∈ parents p ty := by
    rcases const_cases h with ⟨-, rfl⟩ | ⟨ty, -, -, rfl⟩ | ⟨_, _, -, -, -, rfl⟩
    · cases hn
    · exact ⟨ty, hs.program ▸ hn⟩
    · cases hn
  obtain ⟨ty, hty⟩ := htag
  obtain ⟨i, hi⟩ := mem_parents hty
  have hclass : i < p.classes.length := by
    obtain ⟨f, hf, -⟩ := except_bind_eq_ok.1 hi
    obtain ⟨c, hc, -⟩ := except_bind_eq_ok.1 hf
    exact (List.getElem?_eq_some_iff.1 (entry_eq_ok.1 hc)).1
  have hdecl : p.tag (.cls i) = .ok ⟨n, .tag⟩ := by rw [Program.tag, hi]; rfl
  refine ⟨⟨n, .tag⟩, parents s.program (.cls i), ?_, rfl, rfl⟩
  exact mem_assemble.2 (.inr (.inl (mem_tagDecls.2
    ⟨.cls i, _, hs.classes i _ hclass hdecl, hs.program ▸ hdecl, rfl⟩)))

theorem declares_tag (h : (ty, x) ∈ s.registry.tagTable) : (s.assemble is).Declares x := by
  have hx := hs.program ▸ hs.coherent.tag_eq h
  exact .inr ⟨_, _, mem_assemble.2 (.inr (.inl (mem_tagDecls.2 ⟨ty, x, h, hx, rfl⟩)))⟩

theorem declares_field {i : FieldId} (h : (i, x) ∈ s.registry.fieldTable) :
    (s.assemble is).Declares x := by
  have hx := hs.coherent.fieldIdent_eq h
  rw [← hs.program] at hx
  obtain ⟨f, -, hf, -, -⟩ := Program.fieldIdent_eq_ok.1 hx
  have hd : fieldDecl f x ∈ (s.assemble is).decls :=
    mem_assemble.2 (.inr (.inr (.inl (mem_fieldDecls.2 ⟨i, x, f, h, hf, hx, rfl⟩))))
  unfold fieldDecl at hd
  split at hd
  · exact .inl hd
  · exact .inr ⟨_, _, hd⟩

theorem declares_procedure (h : sig ∈ s.registry.signatures) :
    ∃ f ∈ (s.assemble is).procedures, f.name = sig.name := by
  obtain ⟨j, hb⟩ := Signature.built_of_result (hs.coherent.sound h)
  rcases hb.origin with hmem | hown
  · refine ⟨sig.procedure, Ivl.Program.mem_procedures.2 (mem_assemble.2 (.inl ?_)), rfl⟩
    rw [hs.prelude]
    exact List.mem_append_right _ (List.mem_map.2 ⟨_, hmem, rfl⟩)
  · have hd := mem_procedureDecls.2 ⟨sig, h, hown, rfl⟩
    exact ⟨s.declaration sig, Ivl.Program.mem_procedures.2
      (mem_assemble.2 (.inr (.inr (.inr (.inr (.inl hd)))))), rfl⟩

end Complete

/-- A precondition with the actuals in the place of the formals mentions only what they do. -/
theorem precondition_within {S : Scope} (hq : q.Free) (hb : Signature.Built p q m sig j)
    (hnull : S.ident Prelude.null) (hlen : actuals.length = sig.procedure.ins.length)
    (ha : ∀ a ∈ actuals, a.Within S) (he : e ∈ sig.procedure.preconditions) :
    (e.substitute (Subst.ofPairs (sig.formals.zip actuals))).Within S := by
  rcases hb.precondition he with hmem | ⟨x, hx, rfl⟩
  · exact absurd he (hq.checked hmem)
  generalize hσ : Subst.ofPairs (sig.formals.zip actuals) = σ
  have hactual : ∀ y a, σ y = some a → a.Within S := by
    intro y a hy
    rw [← hσ] at hy
    exact ha a (List.of_mem_zip (Subst.mem_of_ofPairs hy)).2
  have hformal : ∃ a, σ x = some a := by
    obtain ⟨k, hk, rfl⟩ := List.mem_iff_getElem.1 hx
    have hk' : k < actuals.length := by rwa [hlen, hb.ins_eq]
    have hzip : (sig.formals[k], actuals[k]) ∈ sig.formals.zip actuals :=
      List.mem_iff_getElem.2 ⟨k, by simp only [List.length_zip]; omega, List.getElem_zip⟩
    rw [← hσ]
    exact Subst.exists_of_mem hzip
  obtain ⟨a, hxa⟩ := hformal
  have hleft : (x.expr.substitute σ).Within S := by
    rw [Ident.expr, Expr.substitute, hxa]
    exact hactual x a hxa
  have hright : (Prelude.null.expr.substitute σ).Within S := by
    rw [Ident.expr, Expr.substitute]
    cases hnull' : σ Prelude.null with
    | none => exact hnull
    | some b => exact hactual _ b hnull'
  exact ⟨hleft, hright⟩

theorem covers {F : Frame} {i : Implementation} (hq : q.Free)
    (hb : Signature.Built p q m F.signature j) (hi : i.procedure = F.signature.procedure) :
    ((s.assemble is).scope i).Covers F where
  vocabulary x hx := .inr (.inr (.inr (declares_vocabulary hx)))
  function f tys ty args hf ht :=
    ⟨tys, mem_assemble.2 (.inl (Prelude.mem_declarations_of_function hf)), ht⟩
  formal x hx := .inr (.inl (by rwa [hi, hb.ins_eq]))
  result x hx := .inr (.inr (.inl (by simp [hi, hb.outs_eq, hx])))
  exception := .inr (.inr (.inl (by simp [hi, hb.outs_eq])))
  postcondition e he := by
    rcases hb.postcondition he with hmem | ⟨x, hx, rfl⟩
    · exact absurd he (hq.checked hmem)
    · refine ⟨.inr (.inr (.inl ?_)), .inr (.inr (.inr (declares_vocabulary ?_)))⟩
      · simp [hi, hb.outs_eq, hx]
      · simp [Prelude.vocabulary]

/-- Whatever the registry has is declared. -/
theorem Complete.knows {F : Frame} {i : Implementation} (hs : Complete p q o s is) (hq : q.Free)
    (hp : F.program = p) (hprelude : F.prelude = q) (he : s.registry.Has p q e) :
    ((s.assemble is).scope i).Knows F e := by
  cases e with
  | tag ty => exact fun τ hτ => .inr (.inr (.inr (hs.declares_tag (he τ (hp ▸ hτ)))))
  | field k => exact fun x hx => .inr (.inr (.inr (hs.declares_field (he x (hp ▸ hx)))))
  | global x => exact .inr (.inr (.inr (declares_global he)))
  | signature m =>
    intro sig hsig
    rw [hp, hprelude] at hsig
    obtain ⟨j, hb⟩ := Signature.built_of_result hsig
    have hnull : ((s.assemble is).scope i).ident Prelude.null :=
      .inr (.inr (.inr (declares_vocabulary (by simp [Prelude.vocabulary]))))
    exact ⟨hs.declares_procedure (Registry.mem_signatures (he sig hsig)),
      fun actuals hlen ha e hpre => precondition_within hq hb hnull hlen ha hpre⟩
  | label | diagnostic | log => trivial

/-- The prologue uses the receiver, the exception slot and, if there is one, the flag. -/
theorem prologue_within {S : Scope} {l : Lowered} (hnull : S.ident Prelude.null)
    (hthis : ∀ x, l.signature.receiver = some x → S.ident x) (hslot : S.ident l.signature.exception)
    (hflag : l.usesFlag o = true → S.ident LocalPool.flag) :
    Stmt.AllWithin S (l.prologue o) := by
  unfold Lowered.prologue Signature.prologue
  simp only [Stmt.allWithin_append]
  refine ⟨⟨Stmt.allWithin_iff.2 fun st hst => ?_, ⟨hslot, hnull⟩, trivial⟩, ?_⟩
  · obtain ⟨x, hx, rfl⟩ := List.mem_map.1 hst
    exact ⟨hthis x (Option.mem_toList.1 hx), hnull⟩
  · split
    · exact ⟨⟨hflag ‹_›, trivial⟩, trivial⟩
    · trivial

theorem Complete.body_within (hs : Complete p q o s is) (hq : q.Free) (hi : i ∈ is) :
    Stmt.AllWithin ((s.assemble is).scope i) i.body := by
  obtain ⟨n, b, l, j, hl, rfl, hj⟩ := hs.lowered i hi
  generalize hS : (s.assemble is).scope (l.implementation o) = S
  cases hl with
  | @intro method sig pool scratch segments j hm hsig hpool hseg =>
    obtain ⟨k, hb⟩ := Signature.built_of_result hsig
    have hserves : S.Serves ⟨p, q, b, method, sig⟩ scratch j := by
      subst hS
      exact {
        covers := covers hq hb rfl
        knows := fun e he => hs.knows hq rfl rfl (hj e (List.mem_append_right _ he))
        pool := fun x hx => .inl (List.mem_append_left _ hx) }
    have hflag : Lowered.usesFlag ⟨sig, scratch.pool, segments⟩ o = true →
        S.ident LocalPool.flag := by
      intro hused
      subst hS
      exact .inl (by simp [Lowered.implementation, LocalPool.declarations, hused])
    have hw : ∀ v, S.ident (Prelude.witness v) := by
      subst hS
      exact fun v => .inr (.inr (.inr (declares_witness v)))
    have hthis : ∀ x, sig.receiver = some x → S.ident x := fun x hx =>
      hserves.covers.formal x (List.mem_append_left _ (Option.mem_toList.2 hx))
    refine Stmt.allWithin_append.2
      ⟨prologue_within hserves.covers.null hthis hserves.covers.exception hflag, ?_⟩
    refine Stmt.allWithin_iff.2 fun st hst => ?_
    obtain ⟨seg, hmem, hst⟩ := List.mem_flatMap.1 hst
    have hraises : (Lowered.encoding ⟨sig, scratch.pool, segments⟩ o).raisesAny seg = true →
        S.ident LocalPool.flag := fun hr => hflag (List.any_eq_true.2 ⟨seg, hmem, hr⟩)
    have hseg' := Encoding.within_encodeAll hserves.covers.exception hw
      (hseg.within hserves seg hmem) hraises
    exact Stmt.allWithin_iff.1 hseg' st hst

theorem Complete.implementation_declared (hs : Complete p q o s is) (hi : i ∈ is) :
    ∃ f ∈ (s.assemble is).procedures, f.name = i.name := by
  obtain ⟨n, b, l, j, ⟨hm, hsig, hpool, hseg⟩, rfl, hj⟩ := hs.lowered i hi
  exact hs.declares_procedure (Registry.mem_signatures (hj _ List.mem_cons_self _ hsig))

/-- A generated program is closed, with the standard prelude and with the one that has no
procedures. -/
theorem generate_closed (h : Reachable p q o s) (hq : q = .standard ∨ q = .bare)
    (hg : s.generate = (.ok prog, t)) : prog.Closed := by
  have hfree : q.Free := by
    rcases hq with rfl | rfl
    · exact Prelude.free_standard
    · exact Prelude.free_bare
  obtain ⟨is, rfl, hs⟩ := h.generate hg
  constructor
  case statements => exact fun i hi => hs.body_within hfree (mem_implementations_assemble.1 hi)
  case implementations =>
    exact fun i hi => hs.implementation_declared (mem_implementations_assemble.1 hi)
  case parents =>
    intro x unique names hx n hn
    obtain ⟨y, names', hy, hname, hty⟩ := hs.declares_parents hx hn
    exact ⟨y, true, names', hy, hname, hty⟩

end Session

/-- A class with an instance field and a static one, and a method that takes no null. -/
def shelf : Program := .declaring [
  .addClass "Shelf",
  .addMethod 3
    { name := "put", params := [.cls ClassId.string], paramAnnotations := [[.nonNull]] },
  .addMethod 3 { name := "fill", params := [.cls 3], isStatic := true },
  .addField 3 { name := "top", ty := .cls ClassId.string },
  .addField 3 { name := "count", ty := .int, isStatic := true }] (by decide +kernel)

def putBody : Body where
  method := 0
  slots := [⟨"self", .cls 3⟩, ⟨"book", .cls ClassId.string⟩]
  nodes := [
    { instr := .identity 0 .receiver },
    { instr := .identity 1 (.param 0) },
    { instr := .assign (.instanceField (.slot 0) 0) (.slot 1) },
    { instr := .assign (.staticField 1)
        (.binary .add (.staticField 1) (.constant (.int 1))) },
    { instr := .retVoid }]
  sound := by decide

/-- The method makes an array of arrays and puts a string. -/
def fillBody : Body where
  method := 1
  slots := [⟨"self", .cls 3⟩, ⟨"grid", .array (.array .int)⟩]
  nodes := [
    { instr := .identity 0 (.param 0) },
    { instr := .assign (.slot 1) (.newMultiArray (.array (.array .int)) [.constant (.int 2)]) },
    { instr := .invoke ⟨.virtual, 0, some (.slot 0), [.constant (.string "atlas")]⟩ },
    { instr := .retVoid }]
  sound := by decide

def shelfSession : Session :=
  .start { program := shelf, bodies := [putBody, fillBody] } .standard {}

theorem shelfSession_reachable : shelfSession.Reachable shelf .standard {} := .start rfl

theorem generate_closed_shelf :
    ∃ prog t, shelfSession.generate = (.ok prog, t) ∧ prog.Closed := by
  obtain ⟨prog, t, hg⟩ := exists_pair_of_isOk (r := shelfSession.generate) (by decide +kernel)
  exact ⟨prog, t, hg, Session.generate_closed shelfSession_reachable (.inl rfl) hg⟩

end Verilower
