import Verilower.Proofs.Closedness
import Verilower.Proofs.Ivl.Paths
import Verilower.Proofs.Lowering.Variables

namespace Verilower
set_option autoImplicit true

open Ivl

namespace Ivl

/-- What a function finds in statements, nested ones included. -/
def collect (f : Stmt → List α) (ss : List Stmt) : List α := (ss.flatMap Stmt.nested).flatMap f

@[simp] theorem collect_nil {f : Stmt → List α} : collect f [] = [] := rfl

@[simp] theorem collect_append {f : Stmt → List α} :
    collect f (as ++ bs) = collect f as ++ collect f bs := by
  simp [collect]

theorem collect_flat {f : Stmt → List α} (hs : s.isFlat = true) :
    collect f (s :: ss) = f s ++ collect f ss := by
  simp [collect, Stmt.nested_flat hs]

theorem collect_ite {f : Stmt → List α} : collect f (.ite c a b :: ss) =
    f (.ite c a b) ++ (collect f a ++ collect f b) ++ collect f ss := by
  simp [collect, Stmt.nested_ite]

def Stmt.ownTargets : Stmt → List Ident
  | .assign x _ => [x]
  | .havoc xs => xs
  | .call _ _ outs => outs
  | _ => []

def Stmt.ownCallees : Stmt → List String
  | .call f _ _ => [f]
  | _ => []

def targets (ss : List Stmt) : List Ident := collect Stmt.ownTargets ss

def callees (ss : List Stmt) : List String := collect Stmt.ownCallees ss

@[simp] theorem targets_nil : targets [] = [] := rfl

@[simp] theorem targets_append : targets (as ++ bs) = targets as ++ targets bs := collect_append

theorem targets_flat (hs : Stmt.isFlat s = true) :
    targets (s :: ss) = s.ownTargets ++ targets ss := collect_flat hs

@[simp] theorem targets_when : targets [.when c body] = targets body := by
  simp [targets, Stmt.when, collect_ite, Stmt.ownTargets]

theorem Stmt.Passive.nested (h : Stmt.Passive s) : ∀ t ∈ s.nested, t.Passive := by
  induction h with
  | assume =>
    rw [Stmt.nested_flat rfl]
    exact fun t ht => List.mem_singleton.1 ht ▸ .assume
  | label =>
    rw [Stmt.nested_flat rfl]
    exact fun t ht => List.mem_singleton.1 ht ▸ .label
  | goto =>
    rw [Stmt.nested_flat rfl]
    exact fun t ht => List.mem_singleton.1 ht ▸ .goto
  | ret =>
    rw [Stmt.nested_flat rfl]
    exact fun t ht => List.mem_singleton.1 ht ▸ .ret
  | ite ha hb iha ihb =>
    intro t ht
    rw [Stmt.nested_ite, List.mem_cons, List.mem_append, List.mem_flatMap, List.mem_flatMap] at ht
    rcases ht with rfl | ⟨s, hs, ht⟩ | ⟨s, hs, ht⟩
    · exact .ite ha hb
    · exact iha s hs t ht
    · exact ihb s hs t ht

theorem targets_passive (h : Stmt.Passive s) : targets [s] = [] := by
  rw [targets, collect, List.flatMap_eq_nil_iff]
  intro t ht
  rw [List.flatMap_singleton] at ht
  cases h.nested t ht <;> rfl

variable {S : Scope}

mutual

theorem Stmt.Within.nested : ∀ {s : Stmt}, s.Within S → ∀ t ∈ s.nested, t.Within S
  | .ite c a b, h, t, ht => by
    rw [Stmt.nested_ite, List.mem_cons, List.mem_append] at ht
    rcases ht with rfl | ht | ht
    · exact h
    · exact Stmt.AllWithin.nested h.2.1 t ht
    · exact Stmt.AllWithin.nested h.2.2 t ht
  | .assign _ _, h, t, ht | .assert _, h, t, ht | .assume _, h, t, ht | .havoc _, h, t, ht
  | .label _, h, t, ht | .goto _, h, t, ht | .call _ _ _, h, t, ht | .ret, h, t, ht => by
    rw [Stmt.nested_flat rfl, List.mem_singleton] at ht
    exact ht ▸ h

theorem Stmt.AllWithin.nested : ∀ {ss : List Stmt}, Stmt.AllWithin S ss →
    ∀ t ∈ ss.flatMap Stmt.nested, t.Within S
  | [], _, t, ht => nomatch ht
  | s :: ss, h, t, ht => by
    rw [List.flatMap_cons, List.mem_append] at ht
    rcases ht with ht | ht
    · exact Stmt.Within.nested h.1 t ht
    · exact Stmt.AllWithin.nested h.2 t ht

end

theorem Stmt.AllWithin.callee (h : Stmt.AllWithin S ss) (hf : f ∈ callees ss) :
    S.procedure f := by
  obtain ⟨t, ht, hf⟩ := List.mem_flatMap.1 hf
  have hw := h.nested t ht
  cases t with
  | call g args outs => exact List.mem_singleton.1 hf ▸ hw.1
  | _ => cases hf

end Ivl

namespace Encoding

/-- An obligation assigns the flag and the slot, and only if it raises. -/
theorem target_obligation {enc : Encoding} (h : x ∈ targets (enc.obligation o)) :
    enc.flags o = true ∧ (x = LocalPool.flag ∨ x = enc.slot) := by
  have hraise : ∀ v, targets (enc.raise v) = [LocalPool.flag, enc.slot] := by
    intro v
    rw [raise, targets_flat rfl, targets_flat rfl, targets_flat rfl]
    rfl
  unfold obligation at h
  split at h
  · cases h
  · rename_i hd
    split at h
    · rename_i e hm hg
      rw [targets_when, hraise] at h
      exact ⟨by simp [flags, hm, hd], by simpa using h⟩
    · rename_i hm hg
      rw [hraise] at h
      exact ⟨by simp [flags, hm, hd], by simpa using h⟩
    · rw [targets_flat rfl] at h
      cases h
    · rw [targets_flat rfl] at h
      cases h

end Encoding

namespace Lower

variable {V : Ident → Prop} {enc : Encoding}

/-- Encoded blocks assign the variables of the blocks, the heap, and what violations assign. -/
theorem Emits.target (h : Emits F V ts code) (hheap : V Prelude.heap) (hslot : V enc.slot)
    (hflag : enc.raisesAny code = true → V LocalPool.flag) :
    ∀ x ∈ targets (enc.encodeAll code), V x := by
  have hobligation : ∀ o, (enc.flags o = true → V LocalPool.flag) →
      ∀ x ∈ targets (enc.obligation o), V x := by
    intro o ho x hx
    obtain ⟨hf, rfl | rfl⟩ := Encoding.target_obligation hx
    · exact ho hf
    · exact hslot
  induction h with
  | nil => exact nofun
  | append _ _ iha ihb =>
    intro x hx
    rw [Encoding.encodeAll_append, targets_append, List.mem_append] at hx
    rw [Encoding.raisesAny_append, Bool.or_eq_true] at hflag
    rcases hx with hx | hx
    · exact iha (fun hr => hflag (.inl hr)) x hx
    · exact ihb (fun hr => hflag (.inr hr)) x hx
  | weaken _ _ ih => exact ih hflag
  | passive hs =>
    intro x hx
    rw [Encoding.encodeAll_plain, targets_passive hs] at hx
    cases hx
  | oblige v e =>
    rw [Encoding.encodeAll_oblige]
    exact hobligation _ fun hf => hflag (Encoding.raisesAny_oblige ▸ hf)
  | unexpected =>
    rw [Encoding.encodeAll_oblige]
    exact hobligation _ fun hf => hflag (Encoding.raisesAny_oblige ▸ hf)
  | assign hx =>
    rw [Encoding.encodeAll_plain, targets_flat rfl]
    exact fun y hy => List.mem_singleton.1 hy ▸ hx
  | fieldStore =>
    rw [Encoding.encodeAll_plain, Prelude.write, targets_flat rfl]
    exact fun y hy => List.mem_singleton.1 hy ▸ hheap
  | @object z ty τ hz =>
    intro y hy
    have htargets : targets (enc.encodeAll (newObject z τ)) = [z, Prelude.heap, Prelude.heap] := by
      show targets [_, _, _, _, _] = _
      rw [targets_flat rfl, targets_flat rfl, targets_flat rfl, targets_flat rfl,
        targets_flat rfl]
      rfl
    rw [htargets] at hy
    simp only [List.mem_cons, List.not_mem_nil, or_false] at hy
    rcases hy with rfl | rfl | rfl
    · exact hz
    · exact hheap
    · exact hheap
  | call ho =>
    rw [Encoding.encodeAll_plain, targets_flat rfl, targets_nil, List.append_nil]
    exact ho
  | when _ _ ih =>
    rw [Encoding.encodeAll_when, targets_when]
    exact ih fun hr => hflag (Encoding.raisesAny_when.trans hr)

end Lower

namespace Session

variable {s : Session} {is : List Implementation}

/-- The global variables of a session, which every procedure made in it may assign. -/
def IsGlobal (s : Session) (x : Ident) : Prop :=
  x ∈ Prelude.globals ∨
    (∃ i f, s.program.fields[i]? = some f ∧ f.isStatic = true ∧ s.program.fieldIdent i = .ok x) ∨
    x ∈ s.registry.globals

namespace Complete

theorem mem_modifies (hs : Complete p q o s is) (hsig : sig ∈ s.registry.signatures)
    (hown : sig.fromPrelude = false) : x ∈ (s.declaration sig).modifies ↔ s.IsGlobal x := by
  obtain ⟨j, hb⟩ := Signature.built_of_result (hs.coherent.sound hsig)
  rw [declaration, List.mem_append, hb.mem_modifies hown, IsGlobal, hs.program, or_assoc]

/-- Every procedure with the standard prelude modifies global variables only. -/
theorem isGlobal_of_mem_modifies (hs : Complete p .standard o s is)
    (hf : f ∈ (s.assemble is).procedures) (hx : x ∈ f.modifies) : s.IsGlobal x := by
  rcases mem_procedures_assemble.1 hf with hf | ⟨sig, hsig, hown, rfl⟩
  · rw [hs.prelude] at hf
    obtain rfl := List.mem_singleton.1 hf
    obtain rfl := List.mem_singleton.1 hx
    exact .inl List.mem_cons_self
  · exact (hs.mem_modifies hsig hown).1 hx

theorem var_of_isGlobal (hs : Complete p q o s is) (hx : s.IsGlobal x) :
    .var x ∈ (s.assemble is).decls := by
  rcases hx with hx | ⟨i, f, hf, hstatic, hx⟩ | hx
  · refine mem_assemble.2 (.inl ?_)
    simp only [Prelude.globals, List.mem_cons, List.not_mem_nil, or_false] at hx
    rcases hx with rfl | rfl | rfl | rfl | rfl | rfl | rfl
    all_goals simp [Prelude.declarations]
  · have hreg := hs.fields i x (hs.program ▸ hx)
    have hd := mem_fieldDecls.2 ⟨i, x, f, hreg, hf, hx, rfl⟩
    rw [fieldDecl, if_pos hstatic] at hd
    exact mem_assemble.2 (.inr (.inr (.inl hd)))
  · exact mem_assemble.2 (.inr (.inr (.inr (.inl ⟨x, hx, rfl⟩))))

end Complete

theorem const_notMem (hx : x.Assignable) : .const x unique names ∉ (s.assemble is).decls := by
  intro h
  have hconst : ∀ y ∈ Prelude.constants, isFixedName y.name = true := by decide
  rcases const_cases h with ⟨hmem, -⟩ | ⟨ty, -, hty, -⟩ | ⟨i, f, hf, hstatic, hfield, -⟩
  · exact hx.ne (hconst x hmem) rfl
  · exact hx.ne_tag hty
  · obtain ⟨t, ht⟩ := Program.fieldIdent_instance hf hstatic hfield
    exact hx.ne_field hfield ht

theorem flag_notMem : .const LocalPool.flag unique names ∉ (s.assemble is).decls := by
  intro h
  rcases const_cases h with ⟨hmem, -⟩ | ⟨ty, -, hty, -⟩ | ⟨i, f, -, -, hfield, -⟩
  · revert hmem
    decide
  · cases Program.tag_ty hty
  · have hdot := Program.dot_mem_fieldIdent hfield
    revert hdot
    decide

end Session

/-- The frame of an implementation with the declaration of its procedure. -/
structure Ivl.Program.Framed (prog : Ivl.Program) (i : Implementation) (f : Procedure) : Prop where
  assigned : ∀ x ∈ targets i.body, x ∈ i.locals ∨ x ∈ i.procedure.outs ∨ x ∈ f.modifies
  notFormal : ∀ x ∈ targets i.body, x ∉ i.procedure.ins
  notConstant : ∀ x ∈ targets i.body, ∀ unique names, .const x unique names ∉ prog.decls
  modified : ∀ x ∈ f.modifies, .var x ∈ prog.decls
  called : ∀ g ∈ callees i.body, (∃ f' ∈ prog.procedures, f'.name = g) ∧
    ∀ f' ∈ prog.procedures, f'.name = g → f'.modifies ⊆ f.modifies

namespace Lowered

variable {o : Options}

theorem target_prologue {l : Lowered} (h : x ∈ targets (l.prologue o)) :
    x = l.signature.exception ∨ (x = LocalPool.flag ∧ l.usesFlag o = true) := by
  have hassume : targets (l.signature.receiver.toList.map fun this =>
      .assume (Prelude.isNonNull this.expr)) = [] := by
    cases l.signature.receiver with
    | none => rfl
    | some this => exact targets_passive .assume
  rw [prologue, Signature.prologue, targets_append, targets_append, hassume, List.nil_append,
    List.mem_append, targets_flat rfl] at h
  rcases h with h | h
  · exact .inl (List.mem_singleton.1 h)
  · split at h
    · rw [targets_flat rfl] at h
      exact .inr ⟨List.mem_singleton.1 h, ‹_›⟩
    · cases h

theorem target_body {V : Ident → Prop} {l : Lowered} (hheap : V Prelude.heap)
    (hslot : V l.signature.exception) (hflag : l.usesFlag o = true → V LocalPool.flag)
    (hseg : ∀ seg ∈ l.segments, ∃ F ts, Lower.Emits F V ts seg) :
    ∀ x ∈ targets (l.implementation o).body, V x := by
  intro x hx
  rw [implementation, targets_append, List.mem_append] at hx
  rcases hx with hx | hx
  · rcases target_prologue hx with rfl | ⟨rfl, hused⟩
    · exact hslot
    · exact hflag hused
  · obtain ⟨t, ht, hx⟩ := List.mem_flatMap.1 hx
    rw [List.flatMap_assoc] at ht
    obtain ⟨seg, hmem, ht⟩ := List.mem_flatMap.1 ht
    obtain ⟨F, ts, hcode⟩ := hseg seg hmem
    exact hcode.target hheap hslot (fun hr => hflag (List.any_eq_true.2 ⟨seg, hmem, hr⟩)) x
      (List.mem_flatMap.2 ⟨t, ht, hx⟩)

end Lowered

namespace Session

variable {s : Session} {is : List Implementation}

/-- Where the variables are that lowered code assigns, and what is known about their names. -/
theorem Complete.admits (hs : Complete p .standard o s is)
    (hb : Signature.Built p .standard m sig k) (hpool : LocalPool.ofSlots slots = .ok scratch.pool)
    (hseg : Lower.Segments ⟨p, .standard, b, method, sig⟩ scratch nodes scratch' segs j)
    (hj : ∀ e ∈ j, s.registry.Has p .standard e) :
    Lower.Admits (fun x => (x ∈ scratch'.pool.vars ∨ x ∈ sig.procedure.outs ∨ s.IsGlobal x) ∧
      x.Assignable) ⟨p, .standard, b, method, sig⟩ scratch' j := by
  have hexception : sig.exception ∈ sig.procedure.outs := by simp [hb.outs_eq]
  have hresult : ∀ x, sig.result = some x → x ∈ sig.procedure.outs := by
    intro x hx
    simp [hb.outs_eq, hx]
  refine Lower.Admits.and ?_ (hseg.admits hpool (fun x hx => hx.toAssignable)
    (hb.outs_settable hexception).toAssignable
    fun x hx => (hb.outs_settable (hresult x hx)).toAssignable)
  constructor
  case pool => exact fun x hx => .inl hx
  case exception => exact .inr (.inl hexception)
  case result => exact fun x hx => .inr (.inl (hresult x hx))
  case maps => exact fun x hx _ => .inr (.inr (.inl hx))
  case static =>
    intro i x hx ht
    obtain ⟨f, hf, hstatic, -⟩ := Program.fieldIdent_static hx ht
    rw [IsGlobal, hs.program]
    exact .inr (.inr (.inr (.inl ⟨i, f, hf, hstatic, hx⟩)))
  case global => exact fun n hn => .inr (.inr (.inr (.inr (hj _ hn))))

/-- What an implementation assigns: its own variables and the global ones, none of which has the name
of a formal or of a constant. -/
theorem Complete.target (hs : Complete p .standard o s is) (hi : i ∈ is) :
    ∀ x ∈ targets i.body, (x ∈ i.locals ∨ x ∈ i.procedure.outs ∨ s.IsGlobal x) ∧
      (x.Assignable ∨ x = LocalPool.flag) := by
  obtain ⟨n, b, l, j, hl, rfl, hj⟩ := hs.lowered i hi
  cases hl with
  | intro hm hsig hpool hseg =>
    obtain ⟨k, hb⟩ := Signature.built_of_result hsig
    have hadmits := hs.admits hb hpool hseg fun e he => hj e (List.mem_append_right _ he)
    apply Lowered.target_body
    case hheap => exact ⟨.inr (.inr (.inl List.mem_cons_self)), .inl (.map List.mem_cons_self)⟩
    case hslot =>
      obtain ⟨hplace, hname⟩ := hadmits.exception
      exact ⟨.inr (.inl (by simp [Lowered.implementation, hb.outs_eq])), .inl hname⟩
    case hflag =>
      intro hused
      refine ⟨.inl ?_, .inr rfl⟩
      simp [Lowered.implementation, LocalPool.declarations, hused]
    case hseg =>
      intro seg hmem
      refine ⟨_, hseg.emits_mem (hadmits.mono fun x hx => ?_) hmem⟩
      obtain ⟨hplace, hname⟩ := hx
      refine ⟨?_, .inl hname⟩
      rcases hplace with hx | hx | hx
      · exact .inl (List.mem_append_left _ hx)
      · exact .inr (.inl hx)
      · exact .inr (.inr hx)

theorem Complete.ins_notMem (hs : Complete p .standard o s is) (hi : i ∈ is)
    (hx : x.Assignable ∨ x = LocalPool.flag) : x ∉ i.procedure.ins := by
  obtain ⟨n, b, l, j, ⟨hm, hsig, hpool, hseg⟩, rfl, hj⟩ := hs.lowered i hi
  obtain ⟨k, hb⟩ := Signature.built_of_result hsig
  intro hmem
  have hformal := hb.isFormalName hmem
  rcases hx with hx | rfl
  · exact hx.ne hformal.fixed rfl
  · exact hformal.ne_flag rfl

/-- In a program that is generated with the standard prelude, every implementation whose procedure
the prelude does not declare stays within its frame. -/
theorem generate_framed (h : Reachable p .standard o s) (hg : s.generate = (.ok prog, t))
    (hi : i ∈ prog.implementations) (hn : Prelude.standard.find? i.name = none) :
    (∃ f ∈ prog.procedures, f.name = i.name) ∧
      ∀ f ∈ prog.procedures, f.name = i.name → prog.Framed i f := by
  obtain ⟨is, rfl, hs⟩ := h.generate hg
  rw [mem_implementations_assemble] at hi
  refine ⟨hs.implementation_declared hi, fun f hf hname => ?_⟩
  have hmodifies : ∀ x, x ∈ f.modifies ↔ t.IsGlobal x := by
    intro x
    rcases mem_procedures_assemble.1 hf with hf | ⟨sig, hsig, hown, rfl⟩
    · have hfound := List.find?_eq_none.1 hn f (hs.prelude ▸ hf)
      exact absurd hname (by simpa using hfound)
    · exact hs.mem_modifies hsig hown
  have htarget := hs.target hi
  constructor
  case assigned =>
    intro x hx
    obtain ⟨hplace, -⟩ := htarget x hx
    rwa [hmodifies]
  case notFormal => exact fun x hx => hs.ins_notMem hi (htarget x hx).2
  case notConstant =>
    intro x hx unique names
    rcases (htarget x hx).2 with hname | rfl
    · exact const_notMem hname
    · exact flag_notMem
  case modified => exact fun x hx => hs.var_of_isGlobal ((hmodifies x).1 hx)
  case called =>
    intro g hcall
    refine ⟨(hs.body_within Prelude.free_standard hi).callee hcall, fun f' hf' _ x hx => ?_⟩
    exact (hmodifies x).2 (hs.isGlobal_of_mem_modifies hf' hx)

end Session

theorem generate_framed_shelf :
    ∃ prog t i, shelfSession.generate = (.ok prog, t) ∧ i ∈ prog.implementations ∧
      i.name = "Shelf$void$fill$Shelf" ∧ (∃ f ∈ prog.procedures, f.name = i.name) ∧
      ∀ f ∈ prog.procedures, f.name = i.name → prog.Framed i f := by
  obtain ⟨prog, t, hg⟩ := exists_pair_of_isOk (r := shelfSession.generate) (by decide +kernel)
  obtain ⟨is, u, hall, -, hprog⟩ := Session.generate_gives hg
  have hnames : ((shelfSession.declared.lowerAll shelfSession.declared.bodies).1.toOption.map
      fun is => is.map Implementation.name) =
        some ["Shelf$void$put$java.lang.String", "Shelf$void$fill$Shelf"] := by
    decide +kernel
  rw [hall] at hnames
  have hlist : is.map Implementation.name = _ := Option.some.inj hnames
  have hmem : "Shelf$void$fill$Shelf" ∈ is.map Implementation.name := by
    rw [hlist]
    decide
  obtain ⟨i, hi, hname⟩ := List.mem_map.1 hmem
  have hi' : i ∈ prog.implementations := hprog ▸ Session.mem_implementations_assemble.2 hi
  exact ⟨prog, t, i, hg, hi', hname, Session.generate_framed shelfSession_reachable hg hi'
    (by rw [hname]; decide +kernel)⟩

end Verilower
