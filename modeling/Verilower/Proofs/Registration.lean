import Verilower.Proofs.Indexing

namespace Verilower
set_option autoImplicit true

/-- Members with their owners, and the members that each class lists: a member is listed once, by
its owner and by no other class, and each list is in the order of the members. -/
structure Listed (owners : List ClassId) (lists : List (List Nat)) : Prop where
  once : ∀ (i k : Nat), owners[i]? = some k →
    ∃ ids : List Nat, lists[k]? = some ids ∧ ids.count i = 1
  elsewhere : ∀ (i k : Nat), owners[i]? = some k →
    ∀ (j : Nat) ids, lists[j]? = some ids → j ≠ k → i ∉ ids
  increasing : ∀ ids ∈ lists, ids.Pairwise (· < ·)
  known : ∀ ids ∈ lists, ∀ i ∈ ids, i < owners.length

/-- The members that a class owns, in increasing order. -/
def membersOf (owners : List ClassId) (k : ClassId) : List Nat :=
  (List.range owners.length).filter fun i => owners[i]? = some k

theorem mem_membersOf : i ∈ membersOf owners k ↔ owners[i]? = some k := by
  simp only [membersOf, List.mem_filter, List.mem_range, decide_eq_true_eq]
  exact ⟨And.right, fun h => ⟨(List.getElem?_eq_some_iff.1 h).1, h⟩⟩

theorem membersOf_increasing : (membersOf owners k).Pairwise (· < ·) :=
  List.pairwise_lt_range.filter _

theorem membersOf_concat : membersOf (owners ++ [k]) j =
    membersOf owners j ++ if k = j then [owners.length] else [] := by
  have hold : (List.range owners.length).filter (fun i => (owners ++ [k])[i]? = some j) =
      membersOf owners j := by
    apply List.filter_congr
    intro i hi
    rw [List.getElem?_append_left (List.mem_range.1 hi)]
  have hnew : [owners.length].filter (fun i => (owners ++ [k])[i]? = some j) =
      if k = j then [owners.length] else [] := by
    simp [List.filter_cons]
  rw [membersOf, List.length_append, List.length_singleton, List.range_succ, List.filter_append,
    hold, hnew]

/-- Each class lists exactly the members that it owns. -/
structure Tabled (owners : List ClassId) (lists : List (List Nat)) : Prop where
  owner_lt : ∀ k ∈ owners, k < lists.length
  list_eq : ∀ k ids, lists[k]? = some ids → ids = membersOf owners k

namespace Tabled

theorem listed (h : Tabled owners lists) : Listed owners lists := by
  have hlist : ∀ ids ∈ lists, ∃ k, ids = membersOf owners k := by
    intro ids hids
    obtain ⟨k, hk⟩ := List.getElem?_of_mem hids
    exact ⟨k, h.list_eq k ids hk⟩
  constructor
  case once =>
    intro i k hi
    have hk := h.owner_lt k (List.mem_of_getElem? hi)
    refine ⟨_, List.getElem?_eq_getElem hk, ?_⟩
    rw [h.list_eq k _ (List.getElem?_eq_getElem hk)]
    exact List.count_eq_one_of_mem membersOf_increasing.nodup (mem_membersOf.2 hi)
  case elsewhere =>
    intro i k hi j ids hj hne hmem
    rw [h.list_eq j ids hj, mem_membersOf, hi] at hmem
    exact hne (Option.some.inj hmem).symm
  case increasing =>
    intro ids hids
    obtain ⟨k, rfl⟩ := hlist ids hids
    exact membersOf_increasing
  case known =>
    intro ids hids i hi
    obtain ⟨k, rfl⟩ := hlist ids hids
    exact (List.getElem?_eq_some_iff.1 (mem_membersOf.1 hi)).1

theorem nil : Tabled [] [] := ⟨nofun, nofun⟩

theorem concat (h : Tabled owners lists) : Tabled owners (lists ++ [[]]) where
  owner_lt k hk := by
    rw [List.length_append]
    exact Nat.lt_add_right _ (h.owner_lt k hk)
  list_eq k ids hk := by
    obtain hlt | hge := Nat.lt_or_ge k lists.length
    · rw [List.getElem?_append_left hlt] at hk
      exact h.list_eq k ids hk
    · have hnone : membersOf owners k = [] := by
        apply List.filter_eq_nil_iff.2
        intro i _ hi
        exact Nat.not_lt.2 hge (h.owner_lt k (List.mem_of_getElem? (of_decide_eq_true hi)))
      rw [List.getElem?_append_right hge] at hk
      rw [hnone]
      exact List.mem_singleton.1 (List.mem_of_getElem? hk)

theorem push (h : Tabled owners lists) (hk : k < lists.length) :
    Tabled (owners ++ [k]) (lists.modify k (· ++ [owners.length])) where
  owner_lt i hi := by
    rw [List.length_modify]
    obtain hi | hi := List.mem_append.1 hi
    · exact h.owner_lt i hi
    · exact List.mem_singleton.1 hi ▸ hk
  list_eq j ids hj := by
    rw [membersOf_concat]
    rw [List.getElem?_modify] at hj
    obtain ⟨old, hold, rfl⟩ := Option.map_eq_some_iff.1 hj
    rw [← h.list_eq j old hold]
    split <;> simp

end Tabled

/-- The declaration of a class by its name and by what it extends. -/
inductive ClassHeader where
  | ordinary (name : String) (superClass : Option ClassId) (interfaces : List ClassId)
  | abstract (name : String) (superClass : Option ClassId) (interfaces : List ClassId)
  | interface (name : String) (interfaces : List ClassId)

namespace ClassHeader

def name : ClassHeader → String
  | ordinary name _ _ | abstract name _ _ | interface name _ => name

/-- Whether the class that is declared is marked as abstract. -/
def marks : ClassHeader → Bool
  | ordinary _ _ _ => false
  | abstract _ _ _ | interface _ _ => true

end ClassHeader

namespace Draft

def declare (d : Draft) : ClassHeader → Except Fault (Draft × ClassId)
  | .ordinary name superClass interfaces => d.addClass name superClass interfaces
  | .abstract name superClass interfaces => d.addAbstractClass name superClass interfaces
  | .interface name interfaces => d.addInterface name interfaces

/-- What holds of the tables of every draft. -/
structure Regular (d : Draft) : Prop where
  /-- The index has one entry per class. -/
  size : d.index.length = d.classes.length
  /-- Names and ids of classes correspond to each other, one to one. -/
  index : ∀ name id, d.findClass? name = some id ↔
    ∃ c, d.classes[id]? = some c ∧ c.name = name
  object : d.findClass? "java.lang.Object" = some ClassId.object
  string : d.findClass? "java.lang.String" = some ClassId.string
  throwable : d.findClass? "java.lang.Throwable" = some ClassId.throwable
  methods : Listed (d.methods.map Method.owner) (d.classes.map ClassDecl.methods)
  fields : Listed (d.fields.map Field.owner) (d.classes.map ClassDecl.fields)
  interfaces : ∀ m ∈ d.methods, ∀ c, d.classes[m.owner]? = some c → c.isInterface = true →
    m.isStatic = false → m.isAbstract = true
  /-- A class can be declared under any name. A new one gets the next id. -/
  declarable : ∀ h, ∃ d' id, d.declare h = .ok (d', id) ∧
    (d.findClass? h.name = none → id = d.classes.length)
  /-- A class takes further members, which get the next ids. -/
  extensible : ∀ k < d.classes.length,
    (∀ m, ∃ d', d.addMethod k m = .ok (d', d.methods.length)) ∧
    (∀ i < d.methods.length, ∃ d', d.addOverride k i = .ok (d', d.methods.length)) ∧
    ∀ f, ∃ d', d.addField k f = .ok (d', d.fields.length)

/-- What every operation keeps. -/
structure Consistent (d : Draft) : Prop where
  methods : Tabled (d.methods.map Method.owner) (d.classes.map ClassDecl.methods)
  fields : Tabled (d.fields.map Field.owner) (d.classes.map ClassDecl.fields)
  interfaces : ∀ m ∈ d.methods, (d.classes.map ClassDecl.isInterface)[m.owner]? = some true →
    m.isStatic = false → m.isAbstract = true

theorem tabled_updateClass (h : Tabled owners ((d.classes.map g).modify i l))
    (hg : ∀ c, g (f c) = l (g c)) : Tabled owners ((updateClass d i f).classes.map g) := by
  rwa [map_updateClass hg]

theorem tabled_updateClass_of_eq (h : Tabled owners (d.classes.map g)) (hg : ∀ c, g (f c) = g c) :
    Tabled owners ((updateClass d i f).classes.map g) := by
  rwa [map_updateClass_of_eq hg]

namespace Consistent

theorem updateClass {d : Draft} {ms : List Method} {fs : List Field}
    (hkind : ∀ c, (f c).isInterface = c.isInterface)
    (hms : Tabled (ms.map Method.owner) ((d.updateClass i f).classes.map ClassDecl.methods))
    (hfs : Tabled (fs.map Field.owner) ((d.updateClass i f).classes.map ClassDecl.fields))
    (habstract : ∀ m ∈ ms, (d.classes.map ClassDecl.isInterface)[m.owner]? = some true →
      m.isStatic = false → m.isAbstract = true) :
    Consistent { d.updateClass i f with methods := ms, fields := fs } where
  methods := hms
  fields := hfs
  interfaces := by
    rw [map_updateClass_of_eq hkind]
    exact habstract

theorem markAbstract (h : Consistent d) (hm : d.markAbstract i = .ok d') : Consistent d' := by
  rw [markAbstract_eq_ok hm]
  exact updateClass (fun _ => rfl) (tabled_updateClass_of_eq h.methods fun _ => rfl)
    (tabled_updateClass_of_eq h.fields fun _ => rfl) h.interfaces

theorem register (h : Consistent d) (hm : c.methods = []) (hf : c.fields = []) :
    Consistent (d.register c).1 := by
  unfold Draft.register
  split
  · exact h
  · constructor
    case methods => simpa [hm] using h.methods.concat
    case fields => simpa [hf] using h.fields.concat
    case interfaces =>
      intro m hmem hi
      have hlt := h.methods.owner_lt _ (List.mem_map_of_mem hmem)
      rw [List.map_append, List.getElem?_append_left (by simpa using hlt)] at hi
      exact h.interfaces m hmem hi

theorem addMethod (h : Consistent d) (hm : d.addMethod owner m = .ok (d', k)) : Consistent d' := by
  obtain ⟨c, hc, h₁⟩ := except_bind_eq_ok.1 hm
  have hclass := entry_eq_ok.1 hc
  have hpush := h.methods.push (k := owner) (by simpa using (List.getElem?_eq_some_iff.1 hclass).1)
  cases h₁
  refine updateClass (fun _ => rfl) ?_
    (tabled_updateClass_of_eq h.fields fun _ => rfl) ?_
  · rw [List.map_append]
    exact tabled_updateClass hpush fun _ => by simp
  · intro m' hmem hi hs
    obtain hmem | hmem := List.mem_append.1 hmem
    · exact h.interfaces m' hmem hi hs
    · obtain rfl := List.mem_singleton.1 hmem
      have hint : c.isInterface = true := by simpa [hclass] using hi
      have hstatic : m.isStatic = false := hs
      simp [hint, hstatic]

theorem addField (h : Consistent d) (hf : d.addField owner f = .ok (d', k)) : Consistent d' := by
  obtain ⟨c, hc, h₁⟩ := except_bind_eq_ok.1 hf
  have hclass := entry_eq_ok.1 hc
  have hpush := h.fields.push (k := owner) (by simpa using (List.getElem?_eq_some_iff.1 hclass).1)
  cases h₁
  refine updateClass (fun _ => rfl)
    (tabled_updateClass_of_eq h.methods fun _ => rfl) ?_ h.interfaces
  rw [List.map_append]
  exact tabled_updateClass hpush fun _ => by simp

end Consistent

theorem Consistent.predefine (h : Consistent d) : Consistent (d.predefine name) :=
  h.register rfl rfl

theorem consistent_empty : Consistent empty :=
  .predefine (.predefine (.predefine ⟨.nil, .nil, nofun⟩))

theorem Consistent.apply (h : Consistent d) (ho : d.apply o = .ok d') : Consistent d' := by
  obtain ⟨c, hms, hfs, rfl | hmark⟩ | ⟨owner, m, k, hm⟩ | ⟨owner, f, k, hf⟩ | ⟨source, rfl⟩ :=
    apply_cases ho
  · exact h.register hms hfs
  · exact (h.register hms hfs).markAbstract hmark
  · exact h.addMethod hm
  · exact h.addField hf
  · exact { h with }

theorem Built.consistent (h : Built d) : d.Consistent := by
  induction h with
  | empty => exact consistent_empty
  | apply _ ho ih => exact ih.apply ho

theorem register_lt (h : Tidy d) : (d.register c).2 < (d.register c).1.classes.length := by
  unfold register
  split
  · rename_i hfind
    obtain ⟨found, hf, -⟩ := h.findClass?_eq_some.1 hfind
    exact (List.getElem?_eq_some_iff.1 hf).1
  · simp

theorem register_new (h : d.findClass? c.name = none) : (register d c).2 = d.classes.length := by
  rw [register, h]

theorem exists_markAbstract {d : Draft} (h : i < d.classes.length) :
    ∃ d', d.markAbstract i = .ok d' := by
  obtain ⟨c, -, hc⟩ := entry_of_lt h
  exact ⟨_, except_bind_eq_ok.2 ⟨c, hc, rfl⟩⟩

theorem Built.exists_superClass (h : Built d) (superClass : Option ClassId) :
    ∃ i, superClass.elim d.object .ok = .ok i := by
  cases superClass with
  | some i => exact ⟨i, rfl⟩
  | none =>
    have hobject : d.findClass? objectName = some ClassId.object := h.findClass?_predefined rfl
    exact ⟨_, by rw [Option.elim_none, object, hobject]⟩

/-- No declaration of a class faults: the class of objects is always there to be extended, and the
class that is marked has just been registered. -/
theorem Built.exists_declare (hb : Built d) (h : ClassHeader) : ∃ d' i, d.declare h = .ok (d', i) ∧
    (d.findClass? h.name = none → i = d.classes.length) := by
  cases h with
  | ordinary name superClass interfaces =>
    obtain ⟨sup, hsup⟩ := hb.exists_superClass superClass
    let c : ClassDecl := { name, superClass := some sup, interfaces }
    exact ⟨(d.register c).1, (d.register c).2, except_bind_eq_ok.2 ⟨sup, hsup, rfl⟩,
      fun hnew => register_new (c := c) hnew⟩
  | abstract name superClass interfaces =>
    obtain ⟨sup, hsup⟩ := hb.exists_superClass superClass
    let c : ClassDecl := { name, superClass := some sup, interfaces }
    obtain ⟨d', hmark⟩ := exists_markAbstract (register_lt hb.tidy (c := c))
    have hadd : d.addClass name superClass interfaces = .ok (d.register c) :=
      except_bind_eq_ok.2 ⟨sup, hsup, rfl⟩
    exact ⟨d', (d.register c).2, except_bind_eq_ok.2 ⟨_, hadd,
      except_bind_eq_ok.2 ⟨d', hmark, rfl⟩⟩, fun hnew => register_new (c := c) hnew⟩
  | interface name interfaces =>
    let c : ClassDecl := { name, isInterface := true, interfaces }
    obtain ⟨d', hmark⟩ := exists_markAbstract (register_lt hb.tidy (c := c))
    exact ⟨d', (d.register c).2, except_bind_eq_ok.2 ⟨d', hmark, rfl⟩,
      fun hnew => register_new (c := c) hnew⟩

section InRange

variable {d : Draft} {owner : ClassId} (h : owner < d.classes.length)

include h

theorem exists_addMethod (m : MethodDecl) :
    ∃ d', d.addMethod owner m = .ok (d', d.methods.length) := by
  obtain ⟨c, -, hc⟩ := entry_of_lt h
  unfold addMethod
  rw [hc]
  exact ⟨_, rfl⟩

theorem exists_addField (f : FieldDecl) : ∃ d', d.addField owner f = .ok (d', d.fields.length) := by
  obtain ⟨c, -, hc⟩ := entry_of_lt h
  unfold addField
  rw [hc]
  exact ⟨_, rfl⟩

theorem exists_addOverride (hi : i < d.methods.length) :
    ∃ d', d.addOverride owner i = .ok (d', d.methods.length) := by
  obtain ⟨m, -, hm⟩ := entry_of_lt hi
  unfold addOverride
  rw [hm]
  exact exists_addMethod h _

end InRange

/-- The tables of a draft are in order after any sequence of operations. -/
theorem Built.regular (h : Built d) : d.Regular where
  size := by rw [h.tidy.index, List.length_zipIdx, List.length_map]
  index _ _ := h.tidy.findClass?_eq_some
  object := h.findClass?_predefined rfl
  string := h.findClass?_predefined rfl
  throwable := h.findClass?_predefined rfl
  methods := h.consistent.methods.listed
  fields := h.consistent.fields.listed
  interfaces m hm c hc hi := h.consistent.interfaces m hm (by simp [hc, hi])
  declarable := h.exists_declare
  extensible _ hk := ⟨exists_addMethod hk, fun _ => exists_addOverride hk, exists_addField hk⟩

/-- An interface and a class; the class overrides the method of the interface, and so does the
interface itself once its name has been registered again as that of a class. -/
theorem regular_figures : ∃ d : Draft, d.Built ∧ d.Regular ∧ d.classes.length = 5 ∧
    d.methods.map (fun m => (m.owner, m.isAbstract)) = [(3, true), (4, false), (3, true)] ∧
    d.fields.map Field.owner = [4] := by
  have hbuilt : (empty.after [
      .addInterface "Figure",
      .addClass "Disc" none [3],
      .addMethod 3 { name := "area", returns := .int },
      .addOverride 4 0,
      .addClass "Figure",
      .addOverride 3 0,
      .addField 4 { name := "radius", ty := .int }]).Built := Built.empty.after
  exact ⟨_, hbuilt, hbuilt.regular, by decide +kernel, by decide +kernel, by decide +kernel⟩

end Draft

/-- The class with the mark of a declaration, if that has one. -/
def ClassDecl.marked (c : ClassDecl) (h : ClassHeader) : ClassDecl :=
  { c with isAbstract := c.isAbstract || h.marks }

theorem ClassDecl.marked_eq_self_iff {c : ClassDecl} :
    c.marked h = c ↔ h.marks = false ∨ c.isAbstract = true := by
  constructor
  · intro heq
    have hmark : (c.isAbstract || h.marks) = c.isAbstract := congrArg ClassDecl.isAbstract heq
    cases hm : h.marks with
    | false => exact .inl rfl
    | true =>
      rw [hm, Bool.or_true] at hmark
      exact .inr hmark.symm
  · rintro (hm | ha)
    · rw [marked, hm, Bool.or_false]
    · rw [marked, ha, Bool.true_or, ← ha]

namespace Draft

section Taken

variable {d : Draft} {h : ClassHeader} {c : ClassDecl}

theorem register_taken (ht : d.findClass? c.name = some i) : d.register c = (d, i) := by
  rw [register, ht]

theorem set_class_eq_self_iff (hc : d.classes[i]? = some c) :
    { d with classes := d.classes.set i c' } = d ↔ c' = c := by
  obtain ⟨hi, rfl⟩ := List.getElem?_eq_some_iff.1 hc
  constructor
  · intro h
    have hset := congrArg (fun d : Draft => d.classes[i]?) h
    simpa [hi] using hset
  · rintro rfl
    rw [List.set_getElem_self]

theorem markAbstract_eq_set (hm : h.marks = true) (hc : d.classes[i]? = some c) :
    d.markAbstract i = .ok { d with classes := d.classes.set i (c.marked h) } := by
  have hset : d.updateClass i (fun c => { c with isAbstract := true }) =
      { d with classes := d.classes.set i (c.marked h) } := by
    rw [updateClass, List.modify_eq_set_getElem?, hc, ClassDecl.marked, hm, Bool.or_true]
    rfl
  exact except_bind_eq_ok.2 ⟨c, entry_eq_ok.2 hc, congrArg Except.ok hset⟩

/-- Under a taken name nothing is left of a declaration but the mark. -/
theorem declare_eq_set (hb : d.Built) (ht : d.findClass? h.name = some i)
    (hc : d.classes[i]? = some c) :
    d.declare h = .ok ({ d with classes := d.classes.set i (c.marked h) }, i) := by
  cases h with
  | ordinary name superClass interfaces =>
    obtain ⟨sup, hsup⟩ := hb.exists_superClass superClass
    rw [(set_class_eq_self_iff hc).2 (ClassDecl.marked_eq_self_iff.2 (.inl rfl))]
    exact except_bind_eq_ok.2 ⟨sup, hsup, congrArg Except.ok (register_taken ht)⟩
  | abstract name superClass interfaces =>
    obtain ⟨sup, hsup⟩ := hb.exists_superClass superClass
    have hadd : d.addClass name (some sup) interfaces = .ok (d, i) :=
      congrArg Except.ok (register_taken ht)
    refine except_bind_eq_ok.2 ⟨(d, i), except_bind_eq_ok.2 ⟨sup, hsup, hadd⟩, ?_⟩
    exact except_bind_eq_ok.2 ⟨_, markAbstract_eq_set rfl hc, rfl⟩
  | interface name interfaces =>
    show Draft.addInterface d name interfaces = _
    rw [addInterface, register_taken ht]
    exact except_bind_eq_ok.2 ⟨_, markAbstract_eq_set rfl hc, rfl⟩

end Taken

/-- A declaration of a class whose name is taken gives the id of the class that has the name. It
changes nothing but that this class is marked as abstract if it is declared as an abstract class or
as an interface. So nothing changes if and only if it is declared as an ordinary class or was
abstract before. -/
theorem declare_taken (d : Draft) (hb : d.Built) (h : ClassHeader)
    (ht : d.findClass? h.name = some i) :
    ∃ c d', d.classes[i]? = some c ∧ c.name = h.name ∧ d.declare h = .ok (d', i) ∧
      d' = { d with classes := d.classes.set i (c.marked h) } ∧
      (d' = d ↔ h.marks = false ∨ c.isAbstract = true) := by
  obtain ⟨c, hc, hname⟩ := hb.tidy.findClass?_eq_some.1 ht
  exact ⟨c, _, hc, hname, declare_eq_set hb ht hc, rfl,
    (set_class_eq_self_iff hc).trans ClassDecl.marked_eq_self_iff⟩

def till : Draft := empty.after [.addClass "Till"]

def shop : Draft := till.after [.addInterface "Priced"]

theorem till_built : till.Built := Built.empty.after

theorem shop_built : shop.Built := till_built.after

/-- The predefined class of objects, declared as an interface, becomes abstract; the interface,
declared as an ordinary class or as an abstract one, stays as it is. -/
theorem declare_taken_shop :
    shop.Built ∧ shop.findClass? "java.lang.Object" = some 0 ∧ shop.findClass? "Priced" = some 4 ∧
      (∃ d, shop.declare (.interface "java.lang.Object" []) = .ok (d, 0) ∧ d ≠ shop) ∧
      shop.declare (.ordinary "Priced" (some 1) []) = .ok (shop, 4) ∧
      shop.declare (.abstract "Priced" none [3]) = .ok (shop, 4) := by
  have hobject : shop.findClass? "java.lang.Object" = some 0 := by decide +kernel
  have hpriced : shop.findClass? "Priced" = some 4 := by decide +kernel
  obtain ⟨c, d, hc, -, hd, -, hsame⟩ :=
    declare_taken shop shop_built (.interface "java.lang.Object" []) hobject
  obtain ⟨_, d₁, -, -, hd₁, -, hsame₁⟩ :=
    declare_taken shop shop_built (.ordinary "Priced" (some 1) []) hpriced
  obtain ⟨c₂, d₂, hc₂, -, hd₂, -, hsame₂⟩ :=
    declare_taken shop shop_built (.abstract "Priced" none [3]) hpriced
  have hordinary : (shop.classes[0]?.map ClassDecl.isAbstract) = some false := by decide +kernel
  have habstract : (shop.classes[4]?.map ClassDecl.isAbstract) = some true := by decide +kernel
  rw [hc, Option.map_some, Option.some.injEq] at hordinary
  rw [hc₂, Option.map_some, Option.some.injEq] at habstract
  rw [hsame₁.2 (.inl rfl)] at hd₁
  rw [hsame₂.2 (.inr habstract)] at hd₂
  refine ⟨shop_built, hobject, hpriced, ⟨d, hd, fun h => ?_⟩, hd₁, hd₂⟩
  obtain h | h := hsame.1 h
  · cases h
  · rw [hordinary] at h
    cases h

/-- A class that is not abstract is declared again as an interface: it is no interface, but it has
become abstract. -/
theorem redeclared_class_abstract : ∃ d,
    till.Built ∧ till.findClass? "Till" = some 3 ∧ till.addInterface "Till" [] = .ok (d, 3) ∧
      (till.classes.map fun c => (c.isInterface, c.isAbstract))[3]? = some (false, false) ∧
      (d.classes.map fun c => (c.isInterface, c.isAbstract))[3]? = some (false, true) ∧
      d ≠ till := by
  have hbefore : (till.classes.map fun c => (c.isInterface, c.isAbstract))[3]? =
      some (false, false) := by decide +kernel
  have hid : (till.addInterface "Till" []).toOption.map Prod.snd = some 3 := by decide +kernel
  have hafter : ((till.addInterface "Till" []).toOption.bind fun r =>
      (r.1.classes.map fun c => (c.isInterface, c.isAbstract))[3]?) = some (false, true) := by
    decide +kernel
  cases hd : till.addInterface "Till" [] with
  | error e =>
    rw [hd] at hid
    cases hid
  | ok r =>
    obtain ⟨d, i⟩ := r
    rw [hd] at hid hafter
    obtain rfl : i = 3 := Option.some.inj hid
    refine ⟨d, till_built, by decide +kernel, rfl, hbefore, hafter, fun h => ?_⟩
    rw [h] at hafter
    cases hbefore.symm.trans hafter

end Draft

end Verilower
