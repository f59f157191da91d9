import Verilower.Proofs.CallArity
import Verilower.Proofs.DistinctNames
import Verilower.Proofs.Indexing

namespace Verilower
set_option autoImplicit true

open Ivl

namespace LocalPool

/-- What can be asked of the locals: a new variable, or the flag of exceptional returns. -/
inductive Request where
  | fresh (ty : Ivl.Ty)
  | flag

def answer (pool : LocalPool) : Request → LocalPool
  | .fresh ty => (pool.fresh ty).1
  | .flag => { pool with flagged := true }

def answerAll (pool : LocalPool) (requests : List Request) : LocalPool :=
  requests.foldl answer pool

/-- Temporaries are numbered, and no two source locals share a name. -/
structure Distinct (pool : LocalPool) : Prop extends Numbered pool where
  slotNames : (pool.slots.map Ident.name).Nodup

theorem Distinct.flagged (h : Distinct pool) : Distinct { pool with flagged := b } :=
  ⟨⟨h.slots, h.temps⟩, h.slotNames⟩

theorem Distinct.answer (h : Distinct pool) (request : Request) : Distinct (pool.answer request) := by
  cases request with
  | fresh ty => exact ⟨stable_numbered pool ty h.toNumbered, h.slotNames⟩
  | flag => exact h.flagged

theorem Distinct.answerAll (h : Distinct pool) (requests : List Request) :
    Distinct (pool.answerAll requests) := by
  induction requests generalizing pool with
  | nil => exact h
  | cons request requests ih => exact ih (h.answer request)

theorem stable_distinct : Stable Distinct := fun _ ty h => h.answer (.fresh ty)

theorem Numbered.map_name_temps (h : Numbered pool) : pool.temps.map Ident.name =
    (List.range pool.temps.length).map fun k => "$fakelocal_" ++ toString k := by
  apply List.ext_getElem?
  intro k
  rw [List.getElem?_map, List.getElem?_map]
  cases hk : pool.temps[k]? with
  | none =>
    rw [List.getElem?_eq_none (List.length_range.trans_le (List.getElem?_eq_none_iff.1 hk))]
    rfl
  | some x =>
    rw [List.getElem?_range (List.getElem?_eq_some_iff.1 hk).1, Option.map_some, Option.map_some,
      h.temps k x hk]

theorem flag_ne_temp (k : Nat) : flag.name ≠ "$fakelocal_" ++ toString k := by
  have hflag : flag.name.toList = '$' :: 'e' :: "x_return".toList := by decide
  have htemp : "$fakelocal_".toList = '$' :: 'f' :: "akelocal_".toList := by decide
  intro h
  have hlist := congrArg String.toList h
  rw [hflag, String.toList_append, htemp] at hlist
  simp at hlist

theorem Distinct.declarations (h : Distinct pool) : (pool.declarations.map Ident.name).Nodup := by
  have hmade : ∀ n ∈ (pool.temps ++ if pool.flagged then [flag] else []).map Ident.name,
      n.toList.head? = some '$' := by
    rw [List.map_append, h.map_name_temps]
    intro n hn
    obtain hn | hn := List.mem_append.1 hn
    · obtain ⟨k, -, rfl⟩ := List.mem_map.1 hn
      exact Ident.IsReserved.numbered (by decide) k .ref
    · split at hn
      · rw [List.mem_singleton.1 hn]
        decide
      · cases hn
  have htemps : (pool.temps.map Ident.name).Nodup := by
    rw [h.map_name_temps]
    exact List.nodup_range.map fun _ _ hk => toString_injective ((String.append_right_inj _).1 hk)
  have hflag : flag.name ∉ pool.temps.map Ident.name := by
    rw [h.map_name_temps]
    intro hmem
    obtain ⟨k, -, hk⟩ := List.mem_map.1 hmem
    exact flag_ne_temp k hk.symm
  rw [LocalPool.declarations, List.append_assoc, List.map_append]
  refine h.slotNames.append ?_ fun n hslot hn => ?_
  · rw [List.map_append]
    split
    · refine htemps.append (List.nodup_singleton _) fun n hn hn' => ?_
      rw [List.mem_singleton.1 hn'] at hn
      exact hflag hn
    · simpa using htemps
  · obtain ⟨x, hx, rfl⟩ := List.mem_map.1 hslot
    exact h.slots x hx (hmade _ hn)

theorem names_of_ofSlots {slots : List Slot} (h : ofSlots slots = .ok pool) :
    pool.slots.map Ident.name = slotNames 0 [] (slots.map Slot.name) := by
  obtain ⟨tys, htys, h₁⟩ := except_bind_eq_ok.1 h
  cases h₁
  have hlen := (forall₂_of_mapM_eq_ok htys).length_eq
  have hfst : (slotNames 0 [] (slots.map Slot.name)).length ≤ tys.length := by
    rw [slotNames_length, List.length_map, hlen]
  rw [List.map_zipWith]
  exact (List.map_zip_eq_zipWith ..).symm.trans (List.map_fst_zip hfst)

theorem distinct_of_ofSlots {slots : List Slot} (h : ofSlots slots = .ok pool) : Distinct pool :=
  ⟨numbered_of_ofSlots h, names_of_ofSlots h ▸ slotNames_nodup⟩

theorem exists_ofSlots {slots : List Slot} (h : ∀ slot ∈ slots, slot.ty ≠ .void) :
    ∃ pool, ofSlots slots = .ok pool := by
  have htys : ∀ slot ∈ slots, ∃ t, slot.ty.lowered = .ok t := by
    intro slot hslot
    have hne := h slot hslot
    cases hty : slot.ty <;> simp_all [Ty.lowered]
  obtain ⟨tys, htys⟩ := mapM_eq_ok_of_forall htys
  exact ⟨_, except_bind_eq_ok.2 ⟨tys, htys, rfl⟩⟩

theorem renames_of_ofSlots {slots : List Slot} {slot : Slot} {i : Nat} (h : ofSlots slots = .ok pool)
    (hi : slots[i]? = some slot) : ∃ x, pool.slots[i]? = some x ∧
      Renames (slotBase slot.name) ((pool.slots.take i).map Ident.name) (slotBase slot.name) i
        x.name := by
  have hsource : (slots.map Slot.name)[i]? = some slot.name := by
    rw [List.getElem?_map, hi]
    rfl
  obtain ⟨name, hname, hrenames⟩ := @slotNames_renames slot.name 0 [] _ i hsource
  rw [← names_of_ofSlots h, List.getElem?_map] at hname
  obtain ⟨x, hx, rfl⟩ := Option.map_eq_some_iff.1 hname
  rw [← names_of_ofSlots h, List.append_nil, Nat.zero_add, ← List.map_take] at hrenames
  exact ⟨x, hx, hrenames⟩

end LocalPool

/-- The name of a constant, a variable or a function that is declared. -/
def Ivl.Decl.symbol? : Decl → Option String
  | .const x _ _ | .var x => some x.name
  | .function name _ _ => some name
  | _ => none

/-- The names that are made up: of the formals, the result and the exception slot of a method that
the prelude does not declare, of temporaries and of the flag, of global variables, and of what the
prelude declares. -/
inductive MadeUp : String → Prop
  | signature (h : (Signature.build p q i).result = .ok sig) (hown : sig.fromPrelude = false)
      (hx : x ∈ sig.formals ∨ sig.result = some x ∨ x = sig.exception) : MadeUp x.name
  | temp (pool : LocalPool) (ty : Ivl.Ty) : MadeUp (pool.fresh ty).2.name
  | flag : MadeUp LocalPool.flag.name
  | global (count : Nat) (ty : Ivl.Ty) : MadeUp (globalIdent count ty).name
  | prelude (h : d ∈ Prelude.declarations q) (hn : d.symbol? = some n) : MadeUp n

theorem Signature.Built.param_isReserved (h : Built p q i sig j) (hown : sig.fromPrelude = false)
    (hx : x ∈ sig.params) : x.IsReserved := by
  cases h with
  | adopted _ _ _ ha =>
    rw [ha.fromPrelude] at hown
    cases hown
  | declared hm hn hq hnr hps hr hs =>
    obtain ⟨⟨ty, index⟩, -, hp⟩ := mem_of_mapM_eq_ok hps hx
    rw [Ident.IsReserved, name_of_param hp]
    exact Ident.IsReserved.numbered (by decide) index .ref

theorem Signature.Built.isReserved (h : Built p q i sig j) (hown : sig.fromPrelude = false)
    (hx : x ∈ sig.formals ∨ sig.result = some x ∨ x = sig.exception) : x.IsReserved := by
  obtain ⟨_, -, -, hnone⟩ := h.named hown
  have hnames := h.conventional (.inr hnone)
  obtain hx | hx | rfl := hx
  · obtain hx | hx := List.mem_append.1 hx
    · rw [hnames.receiver x (Option.mem_toList.1 hx)]
      decide
    · exact h.param_isReserved hown hx
  · exact hnames.result x hx
  · rw [hnames.exception]
    decide

theorem Prelude.symbol_head? (h : d ∈ declarations q) (hn : d.symbol? = some n) :
    n.toList.head? = some '$' := by
  have hbare : ∀ d ∈ bare.declarations, ∀ n ∈ d.symbol?, n.toList.head? = some '$' := by decide
  rw [declarations_eq] at h
  obtain h | h := List.mem_append.1 h
  · exact hbare d h n hn
  · obtain ⟨proc, -, rfl⟩ := List.mem_map.1 h
    cases hn

theorem MadeUp.head? (h : MadeUp n) : n.toList.head? = some '$' := by
  cases h with
  | signature h hown hx =>
    obtain ⟨j, hb⟩ := Signature.built_of_result h
    exact hb.isReserved hown hx
  | temp pool ty => exact Ident.IsReserved.numbered (by decide) _ ty
  | flag => decide
  | global count ty => exact globalIdent_isReserved count ty
  | prelude h hn => exact Prelude.symbol_head? h hn

theorem BodyLowered.distinct (h : BodyLowered p q g body l j) : l.pool.Distinct := by
  obtain ⟨-, -, hp, hseg⟩ := h
  exact hseg.pool LocalPool.stable_distinct (LocalPool.distinct_of_ofSlots hp)

/-- The locals of a body have distinct names, whatever is asked of them later. Every search for the
name of a source local ends, and the name is not empty, does not begin with a dollar sign and differs
from all made-up names. -/
theorem Body.localNames_apart (body : Body) (hv : ∀ slot ∈ body.slots, slot.ty ≠ .void) :
    ∃ pool, LocalPool.ofSlots body.slots = .ok pool ∧ pool.slots.length = body.slots.length ∧
      (∀ (i : Nat) slot, body.slots[i]? = some slot → ∃ x, pool.slots[i]? = some x ∧
        Renames (slotBase slot.name) ((pool.slots.take i).map Ident.name) (slotBase slot.name) i
          x.name) ∧
      (∀ requests, ((pool.answerAll requests).declarations.map Ident.name).Nodup) ∧
      (∀ (s : Session) i, (s.lower body).1 = .ok i → (i.locals.map Ident.name).Nodup) ∧
      ∀ x ∈ pool.slots, x.name ≠ "" ∧ x.name.toList.head? ≠ some '$' ∧
        ∀ n, MadeUp n → x.name ≠ n := by
  obtain ⟨pool, hpool⟩ := LocalPool.exists_ofSlots hv
  have hdistinct := LocalPool.distinct_of_ofSlots hpool
  have hlength : pool.slots.length = body.slots.length := by
    rw [← List.length_map Ident.name, LocalPool.names_of_ofSlots hpool, slotNames_length,
      List.length_map]
  refine ⟨pool, hpool, hlength, fun i slot => LocalPool.renames_of_ofSlots hpool,
    fun requests => (hdistinct.answerAll requests).declarations, fun s i hi => ?_, fun x hx => ?_⟩
  · obtain ⟨l, j, hlow, rfl, -⟩ := Session.lower_gives hi
    exact hlow.distinct.flagged.declarations
  · have hhead := hdistinct.slots x hx
    obtain ⟨⟨c, cs, hc, -⟩, -⟩ := ofSlots_vars hpool (List.mem_append_left _ hx)
    refine ⟨fun hempty => ?_, hhead, ?_⟩
    · rw [hempty] at hc
      cases hc
    · rintro n hn rfl
      exact hhead hn.head?

/-- Locals whose names clash with each other, with numbered ones and with made-up ones. -/
def crowded : Body where
  method := 0
  slots := ["i", "i", "i$1", "$exception", "$fakelocal_0", "exception", "$"].map (⟨·, .int⟩)
  nodes := [{ instr := .retVoid }]
  sound := by decide

theorem localNames_apart_crowded : (∀ slot ∈ crowded.slots, slot.ty ≠ .void) ∧
    ∃ pool, LocalPool.ofSlots crowded.slots = .ok pool ∧
      (pool.answerAll [.fresh .int, .flag]).declarations.map Ident.name =
        ["i", "i$1", "i$1$2", "exception", "fakelocal_0", "exception$5", "local", "$fakelocal_0",
          "$ex_return"] ∧
      ((pool.answerAll [.fresh .int, .flag]).declarations.map Ident.name).Nodup ∧
      ∀ x ∈ pool.slots, x.name ≠ "" ∧ x.name.toList.head? ≠ some '$' ∧
        ∀ n, MadeUp n → x.name ≠ n := by
  have hv : ∀ slot ∈ crowded.slots, slot.ty ≠ .void := by decide
  have hnames : (LocalPool.ofSlots crowded.slots).toOption.map (fun pool =>
      (pool.answerAll [.fresh .int, .flag]).declarations.map Ident.name) =
        some ["i", "i$1", "i$1$2", "exception", "fakelocal_0", "exception$5", "local",
          "$fakelocal_0", "$ex_return"] := by decide +kernel
  obtain ⟨pool, hpool, -, -, hnodup, -, hapart⟩ := crowded.localNames_apart hv
  rw [hpool] at hnames
  exact ⟨hv, pool, hpool, Option.some.inj hnames, hnodup _, hapart⟩

end Verilower
