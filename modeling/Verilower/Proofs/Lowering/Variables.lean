import Verilower.Proofs.Lowering.Emission
import Verilower.Proofs.Lowering.Hygiene

namespace Verilower
set_option autoImplicit true

open Ivl (Ident Ty)

/-- The names with a dollar sign in front that are fixed and assigned, apart from the flag. -/
def assignedNames : List String := ["$exception", "$return"] ++ Prelude.globals.map Ident.name

/-- A name of formals, constants and the flag: it begins with a dollar sign, has no dot, and is
neither numbered after a letter f nor assigned. -/
def isFixedName (name : String) : Bool :=
  name.toList.head? = some '$' && !name.toList.contains '.' &&
    !(List.isPrefixOf ['$', 'f'] name.toList) && !assignedNames.contains name

/-- An identifier that code may assign. Only numbered temporaries may have the type of constants. -/
structure Ivl.Ident.Assignable (x : Ident) : Prop where
  name : isFixedName x.name = false
  ty : x.ty.isConstant = true → ['$', 'f'] <+: x.name.toList ∧ '.' ∉ x.name.toList

/-- An identifier that code assigns as a whole, unlike the heap, which it only updates. -/
structure Ivl.Ident.Settable (x : Ident) : Prop extends x.Assignable where
  ne_heap : x ≠ Prelude.heap

theorem isFixedName_of_beginning {name : String} (h : ['$', 'f'] <+: name.toList) :
    isFixedName name = false := by
  simp [isFixedName, List.isPrefixOf_iff_prefix.2 h]

theorem dot_notMem_numbered {start : String} (h : '.' ∉ start.toList) (n : Nat) :
    '.' ∉ (start ++ toString n).toList := by
  rw [String.toList_append, Nat.toString_eq_ofList_toDigits, String.toList_ofList]
  intro hmem
  obtain hmem | hmem := List.mem_append.1 hmem
  · exact h hmem
  · have hd := Nat.isDigit_of_mem_toDigits (by decide) (by decide) hmem
    revert hd
    decide

namespace Ivl.Ident

theorem Assignable.of_assignedNames {x : Ident} (hn : x.name ∈ assignedNames)
    (ht : x.ty.isConstant = false) : x.Assignable where
  name := by simp [isFixedName, hn]
  ty h := absurd h (by simp [ht])

theorem Assignable.map {x : Ident} (h : x ∈ Prelude.globals) : x.Assignable := by
  apply Assignable.of_assignedNames
  · exact List.mem_append_right _ (List.mem_map.2 ⟨x, h, rfl⟩)
  · have htys : ∀ x ∈ Prelude.globals, x.ty.isConstant = false := by decide
    exact htys x h

theorem Settable.numbered {start : String} (hp : ['$', 'f'] <+: start.toList)
    (hd : '.' ∉ start.toList) (n : Nat) (ty : Ty) : Settable ⟨start ++ toString n, ty⟩ := by
  have hpre : ['$', 'f'] <+: (start ++ toString n).toList := by
    rw [String.toList_append]
    exact hp.trans (List.prefix_append _ _)
  constructor
  case toAssignable =>
    exact ⟨isFixedName_of_beginning hpre, fun _ => ⟨hpre, dot_notMem_numbered hd n⟩⟩
  case ne_heap =>
    intro h
    have hname : start ++ toString n = "$heap" := congrArg Ident.name h
    rw [hname] at hpre
    revert hpre
    decide

theorem Settable.static {i : FieldId} {x : Ident} (h : Program.fieldIdent p i = .ok x)
    (ht : ∀ t, x.ty ≠ .field t) : x.Settable := by
  have hdot := Program.dot_mem_fieldIdent h
  obtain ⟨f, -, -, hlow⟩ := Program.fieldIdent_static h ht
  constructor
  case toAssignable =>
    exact ⟨by simp [isFixedName, hdot], by simp [Ty.isConstant_of_lowered hlow]⟩
  case ne_heap =>
    rintro rfl
    revert hdot
    decide

theorem Assignable.ne {x y : Ident} (h : x.Assignable) (hy : isFixedName y.name = true) :
    x ≠ y := by
  rintro rfl
  rw [h.name] at hy
  cases hy

theorem Assignable.ne_tag {x : Ident} {ty : Verilower.Ty} (h : x.Assignable) :
    Program.tag p ty ≠ .ok x := by
  intro ht
  obtain ⟨hpre, -⟩ := h.ty (by rw [Program.tag_ty ht]; rfl)
  obtain ⟨name, hn, hx⟩ := except_bind_eq_ok.1 ht
  obtain ⟨f, -, hname⟩ := except_bind_eq_ok.1 hn
  cases hx
  cases hname
  rw [String.toList_append, show "$type_".toList = ['$', 't', 'y', 'p', 'e', '_'] by decide] at hpre
  simp at hpre

theorem Assignable.ne_field {i : FieldId} {x : Ident} (h : x.Assignable)
    (hx : Program.fieldIdent p i = .ok x) : x.ty ≠ .field t := by
  intro ht
  obtain ⟨-, hdot⟩ := h.ty (by rw [ht]; rfl)
  exact hdot (Program.dot_mem_fieldIdent hx)

end Ivl.Ident

theorem settable_of_ofSlots {slots : List Slot} (h : LocalPool.ofSlots slots = .ok pool)
    (hx : x ∈ pool.vars) : x.Settable := by
  obtain ⟨⟨c, cs, hc, hne⟩, slot, -, hlow⟩ := ofSlots_vars h hx
  constructor
  case toAssignable =>
    exact ⟨by simp [isFixedName, hc, hne], by simp [Ty.isConstant_of_lowered hlow]⟩
  case ne_heap =>
    rintro rfl
    have hhead : some '$' = some c := congrArg List.head? hc
    exact hne (Option.some.inj hhead).symm

theorem stable_settable : LocalPool.Stable fun pool => ∀ x ∈ pool.vars, x.Settable := by
  intro pool ty h x hx
  simp only [LocalPool.vars, LocalPool.fresh, List.mem_append, List.mem_singleton] at h hx
  obtain hx | hx | rfl := hx
  · exact h x (.inl hx)
  · exact h x (.inr hx)
  · exact .numbered (by decide) (by decide) _ ty

namespace Lower

theorem Segments.admits {V : Ident → Prop} (h : Segments F s nodes s' segs j)
    (hp : LocalPool.ofSlots slots = .ok s.pool) (hV : ∀ x, x.Settable → V x)
    (he : V F.signature.exception) (hr : ∀ x, F.signature.result = some x → V x) :
    Admits V F s' j where
  pool x hx := hV x (h.pool stable_settable (fun _ hx => settable_of_ofSlots hp hx) x hx)
  exception := he
  result := hr
  maps x hx hne := hV x ⟨.map hx, hne⟩
  static _ x hx ht := hV x (.static hx ht)
  global n _ := hV _ (.numbered (by decide) (by decide) n .ref)

end Lower

theorem Signature.Built.own_outs_settable (h : Built p q i sig j) (hown : sig.fromPrelude = false)
    (hx : x ∈ sig.procedure.outs) : x.Settable := by
  cases h with
  | adopted _ _ _ ha =>
    rw [ha.fromPrelude] at hown
    cases hown
  | declared hm hn hq hnr hps hr hs =>
    rcases List.mem_append.1 hx with hx | hx
    · obtain rfl := Option.mem_toList.1 hx
      have hname := name_of_resultOf hr
      have hassigned : x.name ∈ assignedNames := by
        rw [hname]
        decide
      refine ⟨.of_assignedNames hassigned (Ty.isConstant_of_lowered (lowered_of_resultOf hr)), ?_⟩
      rintro rfl
      revert hname
      decide
    · rw [List.mem_singleton.1 hx]
      exact ⟨.of_assignedNames (by decide) rfl, by decide⟩

/-- The results of a method that the standard prelude declares or that has no procedure there. -/
theorem Signature.Built.outs_settable (h : Built p .standard i sig j)
    (hx : x ∈ sig.procedure.outs) : x.Settable := by
  rcases h.origin with hmem | hown
  · rw [List.mem_singleton.1 hmem] at hx
    have hall : ∀ x ∈ Prelude.objectCloneProcedure.outs,
        x.name ∈ assignedNames ∧ x.ty.isConstant = false ∧ x ≠ Prelude.heap := by decide
    obtain ⟨hname, hty, hne⟩ := hall x hx
    exact ⟨.of_assignedNames hname hty, hne⟩
  · exact h.own_outs_settable hown hx

def IsFormalName (name : String) : Prop :=
  name = "$this" ∨ ∃ index : Nat, name = "$in_parameter__" ++ toString index

theorem toList_paramName (index : Nat) : ("$in_parameter__" ++ toString index).toList =
    ['$', 'i', 'n', '_'] ++ ("parameter__" ++ toString index).toList := by
  have hp : "$in_parameter__".toList = ['$', 'i', 'n', '_'] ++ "parameter__".toList := by decide
  rw [String.toList_append, hp, List.append_assoc, String.toList_append]

theorem IsFormalName.fixed (h : IsFormalName name) : isFixedName name = true := by
  rcases h with rfl | ⟨index, rfl⟩
  · decide
  have hdot : '.' ∉ ("$in_parameter__" ++ toString index).toList :=
    dot_notMem_numbered (by decide) index
  have hfresh : "$in_parameter__" ++ toString index ∉ assignedNames := by
    have hall : ∀ name ∈ assignedNames, ¬ ['$', 'i', 'n', '_'] <+: name.toList := by decide
    intro hmem
    apply hall _ hmem
    rw [toList_paramName]
    exact List.prefix_append _ _
  simp only [isFixedName, Bool.and_eq_true, Bool.not_eq_true', List.contains_eq_mem,
    decide_eq_true_eq, decide_eq_false_iff_not]
  refine ⟨⟨⟨?_, hdot⟩, ?_⟩, hfresh⟩
  · rw [toList_paramName]
    rfl
  · rw [toList_paramName]
    rfl

theorem IsFormalName.ne_flag (h : IsFormalName name) : name ≠ LocalPool.flag.name := by
  rintro rfl
  rcases h with h | ⟨index, h⟩
  · revert h
    decide
  · have hlist := congrArg String.toList h
    rw [toList_paramName] at hlist
    revert hlist
    have hflag : LocalPool.flag.name.toList = '$' :: 'e' :: "x_return".toList := by decide
    simp [hflag]

theorem Signature.Built.isFormalName (h : Built p .standard i sig j)
    (hx : x ∈ sig.procedure.ins) : IsFormalName x.name := by
  cases h with
  | adopted _ _ hq ha =>
    rw [ha.procedure, List.mem_singleton.1 (List.mem_of_find?_eq_some hq)] at hx
    rw [List.mem_singleton.1 hx]
    exact .inl rfl
  | declared hm hn hq hnr hps hr hs =>
    rcases List.mem_append.1 hx with hx | hx
    · have hthis := Option.mem_toList.1 hx
      unfold receiverIdent at hthis
      split at hthis <;> cases hthis
      exact .inl rfl
    · obtain ⟨⟨ty, index⟩, -, hp⟩ := mem_of_mapM_eq_ok hps hx
      exact .inr ⟨index, name_of_param hp⟩

end Verilower
