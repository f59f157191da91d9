import Verilower.Proofs.Registry

namespace Verilower
set_option autoImplicit true

open Ivl (Ident Decl Implementation Procedure)

theorem toOption_eq_some {x : Except ε α} : x.toOption = some a ↔ x = .ok a := by
  cases x <;> simp [Except.toOption]

theorem exists_pair_of_isOk {r : Except ε α × β} (h : r.1.isOk = true) :
    ∃ a b, r = (.ok a, b) := by
  obtain ⟨x, b⟩ := r
  obtain ⟨a, rfl⟩ := exists_of_isOk h
  exact ⟨a, b, rfl⟩

namespace Ivl.Program

theorem mem_procedures {p : Program} : q ∈ p.procedures ↔ .procedure q ∈ p.decls := by
  constructor
  · intro h
    obtain ⟨d, hd, hq⟩ := List.mem_filterMap.1 h
    cases d <;> cases hq
    exact hd
  · exact fun h => List.mem_filterMap.2 ⟨_, h, rfl⟩

theorem mem_implementations {p : Program} :
    i ∈ p.implementations ↔ .implementation i ∈ p.decls := by
  constructor
  · intro h
    obtain ⟨d, hd, hi⟩ := List.mem_filterMap.1 h
    cases d <;> cases hi
    exact hd
  · exact fun h => List.mem_filterMap.2 ⟨_, h, rfl⟩

end Ivl.Program

def Prelude.constants : List Ident := [null, alloc, typeField] ++ Violation.all.map witness

theorem Prelude.const_mem_declarations (h : .const x unique names ∈ declarations q) :
    x ∈ constants ∧ names = [] := by
  simp only [declarations, conversions, operators, witnesses, Violation.all] at h
  simp at h
  rcases h with h | h | h | h | h | h | h | h | h
  all_goals
    obtain ⟨rfl, -, rfl⟩ := h
    exact ⟨by decide, rfl⟩

namespace Session

variable {s : Session} {is : List Implementation}

theorem mem_tagDecls : d ∈ s.tagDecls ↔ ∃ ty x, (ty, x) ∈ s.registry.tagTable ∧
    s.program.tag ty = .ok x ∧ d = .const x true (parents s.program ty) := by
  simp only [tagDecls, tags, Registry.sortedTags, List.mem_map, List.mem_mergeSort, Prod.exists]
  constructor
  · rintro ⟨ty, x, hty, rfl⟩
    exact ⟨ty, x, hty, s.coherent.tag_eq hty, rfl⟩
  · rintro ⟨ty, x, hty, -, rfl⟩
    exact ⟨ty, x, hty, rfl⟩

def fieldDecl (f : Field) (x : Ident) : Decl := if f.isStatic then .var x else .const x true []

theorem mem_fieldDecls : d ∈ s.fieldDecls ↔ ∃ i x f, (i, x) ∈ s.registry.fieldTable ∧
    s.program.fields[i]? = some f ∧ s.program.fieldIdent i = .ok x ∧ d = fieldDecl f x := by
  simp only [fieldDecls, fields, Registry.sortedFields, List.mem_map, List.mem_mergeSort,
    Prod.exists]
  constructor
  · rintro ⟨i, x, hi, rfl⟩
    have hx := s.coherent.fieldIdent_eq hi
    obtain ⟨f, t, hf, -, -⟩ := Program.fieldIdent_eq_ok.1 hx
    exact ⟨i, x, f, hi, hf, hx, by rw [hf]; rfl⟩
  · rintro ⟨i, x, f, hi, hf, -, rfl⟩
    exact ⟨i, x, hi, by rw [hf]; rfl⟩

def declaration (s : Session) (sig : Signature) : Procedure :=
  { sig.procedure with modifies := sig.procedure.modifies ++ s.registry.globals }

theorem mem_procedureDecls : d ∈ s.procedureDecls ↔ ∃ sig ∈ s.registry.signatures,
    sig.fromPrelude = false ∧ d = .procedure (s.declaration sig) := by
  simp only [procedureDecls, Registry.sortedSignatures, Registry.signatures, List.mem_map,
    List.mem_filter, List.mem_mergeSort, Bool.not_eq_true', declaration]
  constructor
  · rintro ⟨sig, ⟨hsig, hp⟩, rfl⟩
    exact ⟨sig, hsig, hp, rfl⟩
  · rintro ⟨sig, hsig, hp, rfl⟩
    exact ⟨sig, ⟨hsig, hp⟩, rfl⟩

theorem mem_assemble : d ∈ (s.assemble is).decls ↔
    d ∈ s.prelude.declarations ∨ d ∈ s.tagDecls ∨ d ∈ s.fieldDecls ∨
      (∃ x ∈ s.registry.globals, d = .var x) ∨ d ∈ s.procedureDecls ∨
      ∃ i ∈ is, d = .implementation i := by
  simp only [assemble, ownDecls, List.mem_append, List.mem_map, eq_comm, or_assoc]

theorem mem_implementations_assemble : i ∈ (s.assemble is).implementations ↔ i ∈ is := by
  rw [Ivl.Program.mem_implementations, mem_assemble]
  constructor
  · rintro (h | h | h | ⟨x, -, h⟩ | h | ⟨i, hi, h⟩)
    · exact absurd h (by simp [Prelude.declarations, Prelude.conversions, Prelude.operators,
        Prelude.witnesses, Violation.all])
    · obtain ⟨_, _, -, -, h⟩ := mem_tagDecls.1 h
      cases h
    · obtain ⟨_, _, f, -, -, -, h⟩ := mem_fieldDecls.1 h
      unfold fieldDecl at h
      split at h <;> cases h
    · cases h
    · obtain ⟨_, -, -, h⟩ := mem_procedureDecls.1 h
      cases h
    · cases h
      exact hi
  · exact fun h => .inr (.inr (.inr (.inr (.inr ⟨i, h, rfl⟩))))

theorem implementations_assemble : (s.assemble is).implementations = is := by
  have hfront : (s.assemble []).implementations = [] :=
    List.eq_nil_iff_forall_not_mem.2 fun i hi => nomatch mem_implementations_assemble.1 hi
  have hdecls : (s.assemble is).decls = (s.assemble []).decls ++ is.map .implementation := by
    simp [assemble, ownDecls]
  rw [Ivl.Program.implementations, hdecls, List.filterMap_append, List.filterMap_map]
  rw [Ivl.Program.implementations] at hfront
  rw [hfront, List.nil_append]
  exact List.filterMap_some

theorem mem_procedures_assemble : f ∈ (s.assemble is).procedures ↔ f ∈ s.prelude.procedures ∨
    ∃ sig ∈ s.registry.signatures, sig.fromPrelude = false ∧ f = s.declaration sig := by
  rw [Ivl.Program.mem_procedures, mem_assemble]
  constructor
  · rintro (h | h | h | ⟨x, -, h⟩ | h | ⟨i, -, h⟩)
    · left
      simpa [Prelude.declarations, Prelude.conversions, Prelude.operators, Prelude.witnesses,
        Violation.all] using h
    · obtain ⟨_, _, -, -, h⟩ := mem_tagDecls.1 h
      cases h
    · obtain ⟨_, _, f, -, -, -, h⟩ := mem_fieldDecls.1 h
      unfold fieldDecl at h
      split at h <;> cases h
    · cases h
    · obtain ⟨sig, hsig, hown, h⟩ := mem_procedureDecls.1 h
      cases h
      exact .inr ⟨sig, hsig, hown, rfl⟩
    · cases h
  · rintro (h | ⟨sig, hsig, hown, rfl⟩)
    · exact .inl (List.mem_append_right _ (List.mem_map.2 ⟨f, h, rfl⟩))
    · exact .inr (.inr (.inr (.inr (.inl (mem_procedureDecls.2 ⟨sig, hsig, hown, rfl⟩)))))

/-- A constant belongs to the prelude, or it is a tag or an instance field in use. -/
theorem const_cases (h : .const x unique names ∈ (s.assemble is).decls) :
    (x ∈ Prelude.constants ∧ names = []) ∨
    (∃ ty, (ty, x) ∈ s.registry.tagTable ∧ s.program.tag ty = .ok x ∧
      names = parents s.program ty) ∨
    ∃ i f, s.program.fields[i]? = some f ∧ f.isStatic = false ∧
      s.program.fieldIdent i = .ok x ∧ names = [] := by
  rcases mem_assemble.1 h with h | h | h | ⟨_, -, h⟩ | h | ⟨_, -, h⟩
  · exact .inl (Prelude.const_mem_declarations h)
  · obtain ⟨ty, x, hty, hx, hd⟩ := mem_tagDecls.1 h
    cases hd
    exact .inr (.inl ⟨ty, hty, hx, rfl⟩)
  · obtain ⟨i, x, f, -, hf, hx, hd⟩ := mem_fieldDecls.1 h
    cases hstatic : f.isStatic with
    | true =>
      rw [fieldDecl, if_pos hstatic] at hd
      cases hd
    | false =>
      rw [fieldDecl, if_neg (by simp [hstatic])] at hd
      cases hd
      exact .inr (.inr ⟨i, f, hf, hstatic, hx, rfl⟩)
  · cases h
  · obtain ⟨_, -, -, hd⟩ := mem_procedureDecls.1 h
    cases hd
  · cases h

/-- What is known about the session in which a program is assembled. -/
structure Complete (p : Program) (q : Prelude) (o : Options) (s : Session)
    (is : List Implementation) : Prop where
  program : s.program = p
  prelude : s.prelude = q
  coherent : s.registry.Coherent p q
  /-- The tags of all classes are in use. -/
  classes : ∀ i x, i < p.classes.length → p.tag (.cls i) = .ok x →
    (.cls i, x) ∈ s.registry.tagTable
  /-- All fields with an identifier are in use. -/
  fields : ∀ i x, p.fieldIdent i = .ok x → (i, x) ∈ s.registry.fieldTable
  /-- Every implementation was lowered with a journal that the registry has kept. -/
  lowered : ∀ i ∈ is, ∃ n b l j, BodyLowered p q n b l j ∧ i = l.implementation o ∧
    ∀ e ∈ j, s.registry.Has p q e

theorem Extends.has {t : Session} (h : Extends (s.after j) t) (he : e ∈ j) :
    t.registry.Has s.program s.prelude e := by
  obtain ⟨k, rfl⟩ := h.journal
  exact (Registry.has_replay s.coherent he).mono Registry.replay_below

/-- A program is generated in a session that is complete for it. -/
theorem Reachable.generate (h : Reachable p q o s) (hg : s.generate = (.ok prog, t)) :
    ∃ is, prog = t.assemble is ∧ Complete p q o t is := by
  obtain ⟨rfl, rfl, rfl⟩ := h.setting
  obtain ⟨is, v, hall, hvt, rfl⟩ := generate_gives hg
  refine ⟨is, rfl, ?_⟩
  -- Sessions only grow: from `s` to `u`, where all is declared, to `v` after the bodies, then to `t`.
  have hu : Extends s.declareTags.declareFields s.declared := extends_declared
  generalize s.declared = u at hall hu
  have huv : Extends u v := by
    have hext : Extends u (u.lowerAll u.bodies).2 := extends_lowerAll
    rwa [hall] at hext
  have hfields : Extends s.declareTags.declareFields t := hu.trans (huv.trans hvt)
  have htags : Extends s.declareTags t := extends_declareFields.trans hfields
  have hsu : Extends s u :=
    extends_declareTags.trans (extends_declareFields.trans hu)
  obtain ⟨k, ht⟩ := ((hsu.trans huv).trans hvt).journal
  constructor
  case program => rw [ht, after_program]
  case prelude => rw [ht, after_prelude]
  case coherent =>
    rw [ht]
    exact (s.after k).coherent
  case classes =>
    intro i x hi hx
    obtain ⟨w, hw, hrest⟩ := declareTags_gives hi hx
    obtain ⟨m, rfl⟩ := hw.journal
    exact (hrest.trans htags).has List.mem_cons_self x hx
  case fields =>
    intro i x hx
    obtain ⟨w, hw, hrest⟩ := declareFields_gives (s := s.declareTags) (i := i) (x := x) (by
      obtain ⟨m, hm⟩ := (extends_declareTags (s := s)).journal
      rw [hm]
      exact hx)
    obtain ⟨m, rfl⟩ := (extends_declareTags.trans hw).journal
    exact (hrest.trans hfields).has List.mem_cons_self x hx
  case lowered =>
    intro i hi
    obtain ⟨w, b, hw, hl, hwv⟩ := lowerAll_gives hall hi
    obtain ⟨m, rfl⟩ := (hsu.trans hw).journal
    obtain ⟨l, j, hb, rfl, hj⟩ := lower_gives hl
    exact ⟨_, b, l, j, hb, rfl, fun e he => (hj.trans (hwv.trans hvt)).has he⟩

end Session

end Verilower
