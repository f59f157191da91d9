import Mathlib.Data.List.Nodup
import Verilower.Proofs.Lowering.Outcome

namespace Verilower
set_option autoImplicit true

theorem lookup_eq_some_iff {κ ν : Type} [BEq κ] [LawfulBEq κ] {k : κ} {v : ν} {table : List (κ × ν)}
    (h : (table.map Prod.fst).Nodup) : table.lookup k = some v ↔ (k, v) ∈ table := by
  refine ⟨mem_of_lookup, fun hmem => ?_⟩
  induction table with
  | nil => cases hmem
  | cons entry table ih =>
    obtain ⟨k', v'⟩ := entry
    obtain ⟨hnew, hrest⟩ := List.nodup_cons.1 h
    rw [List.lookup_cons]
    rcases List.mem_cons.1 hmem with heq | htail
    · cases heq
      simp
    · have hne : (k == k') = false := by
        apply beq_false_of_ne
        rintro rfl
        exact hnew (List.mem_map.2 ⟨_, htail, rfl⟩)
      rw [hne]
      exact ih hrest htail

namespace Draft

/-- What can be done with a draft. -/
inductive Operation where
  | addClass (name : String) (superClass : Option ClassId := none) (interfaces : List ClassId := [])
  | addAbstractClass (name : String) (superClass : Option ClassId := none)
      (interfaces : List ClassId := [])
  | addInterface (name : String) (interfaces : List ClassId := [])
  | addMethod (owner : ClassId) (m : MethodDecl)
  | addOverride (owner : ClassId) (overridden : MethodId)
  | addField (owner : ClassId) (f : FieldDecl)
  | addSource (source : Source)

def apply (d : Draft) : Operation → Except Fault Draft
  | .addClass name superClass interfaces => return (← d.addClass name superClass interfaces).1
  | .addAbstractClass name superClass interfaces =>
    return (← d.addAbstractClass name superClass interfaces).1
  | .addInterface name interfaces => return (← d.addInterface name interfaces).1
  | .addMethod owner m => return (← d.addMethod owner m).1
  | .addOverride owner overridden => return (← d.addOverride owner overridden).1
  | .addField owner f => return (← d.addField owner f).1
  | .addSource source => return (d.addSource source).1

/-- Drafts to which classes, members and sources have been added one by one. -/
inductive Built : Draft → Prop
  | empty : Built .empty
  | apply (h : Built d) (ho : d.apply o = .ok d') : Built d'

/-- The draft after operations, up to the first that fails. -/
def after (d : Draft) : List Operation → Draft
  | [] => d
  | o :: os =>
    match d.apply o with
    | .ok d' => d'.after os
    | .error _ => d

theorem Built.after (h : Built d) : ∀ {os : List Operation}, (d.after os).Built
  | [] => h
  | o :: os => by
    rw [Draft.after]
    split
    · rename_i ho
      exact (h.apply ho).after
    · exact h

/-- The index has one entry per class, classes have distinct names, and every member has a class. -/
structure Tidy (d : Draft) : Prop where
  index : d.index = (d.classes.map ClassDecl.name).zipIdx
  names : (d.classes.map ClassDecl.name).Nodup
  methods : ∀ m ∈ d.methods, m.owner < d.classes.length
  fields : ∀ f ∈ d.fields, f.owner < d.classes.length

/-- What becomes of a column of the classes when one of them is changed. -/
theorem map_updateClass {g : ClassDecl → α} {h : α → α} (hg : ∀ c, g (f c) = h (g c)) :
    (updateClass d i f).classes.map g = (d.classes.map g).modify i h := by
  apply List.ext_getElem?
  intro k
  simp only [updateClass, List.getElem?_map, List.getElem?_modify]
  split <;> simp [Function.comp_def, hg]

theorem map_updateClass_of_eq {g : ClassDecl → α} (hg : ∀ c, g (f c) = g c) :
    (updateClass d i f).classes.map g = d.classes.map g := by
  rw [map_updateClass (h := id) hg, List.modify_id]

theorem Tidy.findClass?_eq_some (h : Tidy d) : d.findClass? name = some i ↔
    ∃ c, d.classes[i]? = some c ∧ c.name = name := by
  have hkeys : (d.index.map Prod.fst).Nodup := by
    rw [h.index, List.zipIdx_map_fst]
    exact h.names
  rw [findClass?, lookup_eq_some_iff hkeys, h.index, List.mem_zipIdx_iff_getElem?,
    List.getElem?_map, Option.map_eq_some_iff]

theorem Tidy.updateClass (h : Tidy d) {f : ClassDecl → ClassDecl} (hf : ∀ c, (f c).name = c.name) :
    Tidy (d.updateClass i f) := by
  have hnames : (d.updateClass i f).classes.map ClassDecl.name = d.classes.map ClassDecl.name :=
    map_updateClass_of_eq hf
  have hlength : (d.updateClass i f).classes.length = d.classes.length := List.length_modify ..
  constructor
  case index => rw [hnames]; exact h.index
  case names => rw [hnames]; exact h.names
  case methods => rw [hlength]; exact h.methods
  case fields => rw [hlength]; exact h.fields

theorem Tidy.register (h : Tidy d) : Tidy (d.register c).1 := by
  unfold Draft.register
  split
  · exact h
  · rename_i hfind
    have hnew : c.name ∉ d.classes.map ClassDecl.name := by
      intro hmem
      obtain ⟨c', hc', hname⟩ := List.mem_map.1 hmem
      obtain ⟨i, hi⟩ := List.getElem?_of_mem hc'
      cases hfind.symm.trans (h.findClass?_eq_some.2 ⟨c', hi, hname⟩)
    have hlength : d.classes.length ≤ (d.classes ++ [c]).length := by simp
    constructor
    case index => simp [h.index, List.zipIdx_append]
    case names =>
      rw [List.map_append, List.map_singleton, ← List.concat_eq_append]
      exact h.names.concat hnew
    case methods => exact fun m hm => Nat.lt_of_lt_of_le (h.methods m hm) hlength
    case fields => exact fun f hf => Nat.lt_of_lt_of_le (h.fields f hf) hlength

theorem Tidy.predefine (h : Tidy d) : Tidy (d.predefine name) := h.register

theorem tidy_empty : Tidy empty :=
  .predefine (.predefine (.predefine ⟨rfl, .nil, nofun, nofun⟩))

theorem Tidy.addMethod (h : Tidy d) (hm : d.addMethod owner m = .ok (d', k)) : Tidy d' := by
  obtain ⟨c, hc, h₁⟩ := except_bind_eq_ok.1 hm
  cases h₁
  have ht := h.updateClass (i := owner) (f := fun c =>
    { c with methods := c.methods ++ [d.methods.length] }) fun _ => rfl
  refine { ht with methods := fun m hm => ?_ }
  rcases List.mem_append.1 hm with hm | hm
  · exact ht.methods m hm
  · rw [List.mem_singleton.1 hm]
    have hlt := (List.getElem?_eq_some_iff.1 (entry_eq_ok.1 hc)).1
    simpa [Draft.updateClass] using hlt

theorem Tidy.addField (h : Tidy d) (hf : d.addField owner f = .ok (d', k)) : Tidy d' := by
  obtain ⟨c, hc, h₁⟩ := except_bind_eq_ok.1 hf
  cases h₁
  have ht := h.updateClass (i := owner) (f := fun c =>
    { c with fields := c.fields ++ [d.fields.length] }) fun _ => rfl
  refine { ht with fields := fun f hf => ?_ }
  rcases List.mem_append.1 hf with hf | hf
  · exact ht.fields f hf
  · rw [List.mem_singleton.1 hf]
    have hlt := (List.getElem?_eq_some_iff.1 (entry_eq_ok.1 hc)).1
    simpa [Draft.updateClass] using hlt

/-- An operation registers a class and may mark it, adds a member, or adds a source. -/
theorem apply_cases {d d' : Draft} (h : d.apply o = .ok d') :
    (∃ c, c.methods = [] ∧ c.fields = [] ∧ (d' = (d.register c).1 ∨
      (d.register c).1.markAbstract (d.register c).2 = .ok d')) ∨
    (∃ owner m k, d.addMethod owner m = .ok (d', k)) ∨
    (∃ owner f k, d.addField owner f = .ok (d', k)) ∨
    ∃ source, d' = (d.addSource source).1 := by
  cases o with
  | addSource source => exact .inr (.inr (.inr ⟨source, (Except.ok.inj h).symm⟩))
  | addClass =>
    obtain ⟨⟨_, k⟩, hd, ⟨⟩⟩ := except_bind_eq_ok.1 h
    obtain ⟨sup, -, hd⟩ := except_bind_eq_ok.1 hd
    exact .inl ⟨_, rfl, rfl, .inl (congrArg Prod.fst (Except.ok.inj hd)).symm⟩
  | addAbstractClass =>
    obtain ⟨⟨_, k⟩, hd, ⟨⟩⟩ := except_bind_eq_ok.1 h
    obtain ⟨⟨d₁, i⟩, hd, hmark⟩ := except_bind_eq_ok.1 hd
    obtain ⟨sup, -, hd⟩ := except_bind_eq_ok.1 hd
    obtain ⟨_, hmark, ⟨⟩⟩ := except_bind_eq_ok.1 hmark
    exact .inl ⟨_, rfl, rfl, .inr (by rw [Except.ok.inj hd]; exact hmark)⟩
  | addInterface =>
    obtain ⟨⟨_, k⟩, hd, ⟨⟩⟩ := except_bind_eq_ok.1 h
    obtain ⟨_, hmark, ⟨⟩⟩ := except_bind_eq_ok.1 hd
    exact .inl ⟨_, rfl, rfl, .inr hmark⟩
  | addMethod owner m =>
    obtain ⟨⟨_, k⟩, hd, ⟨⟩⟩ := except_bind_eq_ok.1 h
    exact .inr (.inl ⟨owner, m, k, hd⟩)
  | addOverride owner i =>
    obtain ⟨⟨_, k⟩, hd, ⟨⟩⟩ := except_bind_eq_ok.1 h
    obtain ⟨m, -, hd⟩ := except_bind_eq_ok.1 hd
    exact .inr (.inl ⟨owner, _, k, hd⟩)
  | addField owner f =>
    obtain ⟨⟨_, k⟩, hd, ⟨⟩⟩ := except_bind_eq_ok.1 h
    exact .inr (.inr (.inl ⟨owner, f, k, hd⟩))

theorem markAbstract_eq_ok (h : markAbstract d i = .ok d') :
    d' = d.updateClass i fun c => { c with isAbstract := true } := by
  obtain ⟨_, -, h⟩ := except_bind_eq_ok.1 h
  exact (Except.ok.inj h).symm

theorem Tidy.apply (h : Tidy d) (ho : d.apply o = .ok d') : Tidy d' := by
  obtain ⟨c, -, -, rfl | hmark⟩ | ⟨owner, m, k, hm⟩ | ⟨owner, f, k, hf⟩ | ⟨source, rfl⟩ :=
    apply_cases ho
  · exact h.register
  · rw [markAbstract_eq_ok hmark]
    exact h.register.updateClass fun _ => rfl
  · exact h.addMethod hm
  · exact h.addField hf
  · exact { h with }

theorem Built.tidy (h : Built d) : d.Tidy := by
  induction h with
  | empty => exact tidy_empty
  | apply _ ho ih => exact ih.apply ho

theorem updateClass_names {d : Draft} (hf : ∀ c, (f c).name = c.name) :
    d.classes.map ClassDecl.name <+: (d.updateClass i f).classes.map ClassDecl.name :=
  ⟨[], by rw [map_updateClass_of_eq hf, List.append_nil]⟩

theorem register_names : d.classes.map ClassDecl.name <+:
    (register d c).1.classes.map ClassDecl.name := by
  unfold register
  split
  · exact List.prefix_rfl
  · rw [List.map_append]
    exact List.prefix_append ..

/-- Classes keep their names and their places. -/
theorem apply_names {d d' : Draft} (h : d.apply o = .ok d') :
    d.classes.map ClassDecl.name <+: d'.classes.map ClassDecl.name := by
  obtain ⟨c, -, -, rfl | hmark⟩ | ⟨owner, m, k, hm⟩ | ⟨owner, f, k, hf⟩ | ⟨source, rfl⟩ :=
    apply_cases h
  · exact register_names
  · rw [markAbstract_eq_ok hmark]
    exact register_names.trans (updateClass_names fun _ => rfl)
  · obtain ⟨c, -, h₁⟩ := except_bind_eq_ok.1 hm
    cases h₁
    exact updateClass_names fun _ => rfl
  · obtain ⟨c, -, h₁⟩ := except_bind_eq_ok.1 hf
    cases h₁
    exact updateClass_names fun _ => rfl
  · exact List.prefix_rfl

theorem Built.predefined (h : Built d) : Draft.predefined <+: d.classes.map ClassDecl.name := by
  induction h with
  | empty => exact ⟨[], by decide +kernel⟩
  | apply _ ho ih => exact ih.trans (apply_names ho)

theorem Built.findClass?_predefined (h : Built d) (hi : Draft.predefined[i]? = some name) :
    d.findClass? name = some i := by
  obtain ⟨rest, hnames⟩ := h.predefined
  have hname : (d.classes.map ClassDecl.name)[i]? = some name := by
    rw [← hnames, List.getElem?_append_left (List.getElem?_eq_some_iff.1 hi).1, hi]
  rw [List.getElem?_map] at hname
  exact h.tidy.findClass?_eq_some.2 (Option.map_eq_some_iff.1 hname)

end Draft

def Draft.isSound (d : Draft) : Bool :=
  decide (d.classes.length < 0x100000000) && d.isLinked && !d.isCyclic

/-- The program after operations on the draft of the empty one. -/
def Program.declaring (os : List Draft.Operation) (h : (Draft.empty.after os).isSound = true) :
    Program where
  toDraft := Draft.empty.after os
  numbered := by simp_all [Draft.isSound]
  linked := by simp_all [Draft.isSound]
  acyclic := by simp_all [Draft.isSound]

theorem Program.declaring_built : (declaring os h).toDraft.Built := Draft.Built.empty.after

end Verilower
