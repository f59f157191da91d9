import Verilower.Proofs.ErrorModels

namespace Verilower
set_option autoImplicit true

open Ivl

/-- Whether the statement is a guarded violation of array bounds. -/
def Ivl.Stmt.isBoundsCheck : Stmt → Bool
  | .ite (.unary .not _) a [] => a = raising .arrayBounds
  | _ => false

mutual

def Ivl.Stmt.unchecked : Stmt → Stmt
  | .ite c a b => .ite c (uncheckedAll a) (uncheckedAll b)
  | s => s

/-- The statements without index checks, nested ones included. -/
def uncheckedAll : List Stmt → List Stmt
  | [] => []
  | s :: ss => if s.isBoundsCheck then uncheckedAll ss else s.unchecked :: uncheckedAll ss

end

theorem uncheckedAll_append : uncheckedAll (as ++ bs) = uncheckedAll as ++ uncheckedAll bs := by
  induction as with
  | nil => rw [uncheckedAll, List.nil_append, List.nil_append]
  | cons a as ih =>
    rw [List.cons_append, uncheckedAll, uncheckedAll, ih]
    split
    · rfl
    · rfl

theorem uncheckedAll_flatMap {xs : List α} {f : α → List Stmt} :
    uncheckedAll (xs.flatMap f) = xs.flatMap fun x => uncheckedAll (f x) := by
  induction xs with
  | nil => rw [List.flatMap_nil, List.flatMap_nil, uncheckedAll]
  | cons x xs ih => rw [List.flatMap_cons, List.flatMap_cons, uncheckedAll_append, ih]

theorem uncheckedAll_flat (h : ∀ s ∈ ss, s.isFlat = true) : uncheckedAll ss = ss := by
  induction ss with
  | nil => rw [uncheckedAll]
  | cons s ss ih =>
    have hflat := h s List.mem_cons_self
    rw [uncheckedAll, ih fun t ht => h t (List.mem_cons_of_mem _ ht)]
    cases s with
    | ite => cases hflat
    | _ => simp only [Stmt.isBoundsCheck, Bool.false_eq_true, if_false, Stmt.unchecked]

theorem raising_flat : ∀ s ∈ raising v, s.isFlat = true := by
  intro s hs
  simp only [raising, List.mem_cons, List.not_mem_nil, or_false] at hs
  obtain rfl | rfl | rfl := hs <;> rfl

theorem raising_ne (h : v ≠ .arrayBounds) : raising v ≠ raising .arrayBounds := by
  cases v with
  | arrayBounds => exact absurd rfl h
  | _ => decide

theorem uncheckedAll_ite (h : a ≠ raising .arrayBounds ∨ c.isNegation = false) :
    uncheckedAll [.ite c a b] = [.ite c (uncheckedAll a) (uncheckedAll b)] := by
  have hcheck : (Stmt.ite c a b).isBoundsCheck = false := by
    unfold Stmt.isBoundsCheck
    split
    · rename_i heq
      cases heq
      obtain h | h := h
      · simpa using h
      · cases h
    · rfl
  rw [uncheckedAll, hcheck, if_neg (by simp), Stmt.unchecked, uncheckedAll]

theorem Ivl.Stmt.Passive.unchecked_eq (h : Stmt.Passive s) : uncheckedAll [s] = [s] := by
  have hall : ∀ ss : List Stmt, (∀ s ∈ ss, uncheckedAll [s] = [s]) → uncheckedAll ss = ss := by
    intro ss
    induction ss with
    | nil =>
      intro _
      rw [uncheckedAll]
    | cons s ss ih =>
      intro h
      rw [← List.singleton_append, uncheckedAll_append, h s List.mem_cons_self,
        ih fun t ht => h t (List.mem_cons_of_mem _ ht)]
  induction h with
  | assume | label | goto | ret => exact uncheckedAll_flat (List.forall_mem_singleton.2 rfl)
  | ite ha hb iha ihb =>
    rw [uncheckedAll_ite, hall _ iha, hall _ ihb]
    left
    rintro rfl
    exact (ha _ List.mem_cons_self).ne_raisingFlag rfl

namespace Encoding

/-- Without index checks, a guarded obligation is left out or stays as it is. -/
theorem unchecked_oblige (v : Violation) (g : Expr) :
    uncheckedAll ((exceptions false).obligation ⟨v, some g⟩) =
      (exceptions true).obligation ⟨v, some g⟩ := by
  show uncheckedAll [.ite (.not g) (raising v) []] = _
  by_cases hv : v = .arrayBounds
  · subst hv
    rfl
  · have hdrops : (exceptions true).drops ⟨v, some g⟩ = false := by simp [drops, hv]
    rw [uncheckedAll_ite (.inl (raising_ne hv)), uncheckedAll_flat raising_flat,
      uncheckedAll, obligation, hdrops]
    rfl

theorem unchecked_unexpected : uncheckedAll ((exceptions false).obligation ⟨.unexpected, none⟩) =
    (exceptions true).obligation ⟨.unexpected, none⟩ := uncheckedAll_flat raising_flat

end Encoding

namespace Lower

open Encoding (exceptions)

theorem Emits.unchecked {V : Ident → Prop} (h : Emits F V ts code) :
    uncheckedAll ((exceptions false).encodeAll code) = (exceptions true).encodeAll code := by
  induction h with
  | nil => exact uncheckedAll_flat nofun
  | append _ _ iha ihb =>
    rw [Encoding.encodeAll_append, uncheckedAll_append, iha, ihb, Encoding.encodeAll_append]
  | weaken _ _ ih => exact ih
  | passive hs => exact hs.unchecked_eq
  | oblige v e =>
    rw [Encoding.encodeAll_oblige, Encoding.encodeAll_oblige, Encoding.unchecked_oblige]
  | unexpected =>
    rw [Encoding.encodeAll_oblige, Encoding.encodeAll_oblige, Encoding.unchecked_unexpected]
  | assign | fieldStore | call => exact uncheckedAll_flat (List.forall_mem_singleton.2 rfl)
  | object =>
    apply uncheckedAll_flat
    show ∀ s ∈ [_, _, _, _, _], _
    simp only [List.forall_mem_cons]
    exact ⟨rfl, rfl, rfl, rfl, rfl, nofun⟩
  | when hc _ ih =>
    rw [Encoding.encodeAll_when, Encoding.encodeAll_when, Stmt.when, uncheckedAll_ite (.inr hc), ih,
      uncheckedAll]
    rfl

end Lower

namespace Encoding

mutual

theorem raises_of_unchecked : ∀ {o : Outline}, (exceptions true).raises o = true →
    (exceptions false).raises o = true
  | .plain _, h => nomatch h
  | .oblige _, _ => rfl
  | .when _ _, h => raisesAny_of_unchecked h

theorem raisesAny_of_unchecked : ∀ {os : List Outline}, (exceptions true).raisesAny os = true →
    (exceptions false).raisesAny os = true
  | [], h => nomatch h
  | _ :: _, h => by
    rw [raisesAny, Bool.or_eq_true] at h ⊢
    exact h.imp raises_of_unchecked raisesAny_of_unchecked

end

end Encoding

/-- The implementation without index checks against the one with them. -/
structure Ivl.Implementation.Unchecks (i i' : Implementation) : Prop where
  procedure : i'.procedure = i.procedure
  /-- As long as a violation is left, only the index checks are missing. -/
  kept : (∃ v, Violates v (uncheckedAll i.body)) →
    i'.body = uncheckedAll i.body ∧ i'.locals = i.locals
  /-- Otherwise the flag is missing too, and its reset in the prologue. -/
  dropped : (¬ ∃ v, Violates v (uncheckedAll i.body)) →
    i'.body = (uncheckedAll i.body).erase (.assign LocalPool.flag (.bool false)) ∧
      i'.locals = i.locals.erase LocalPool.flag
  flag : LocalPool.flag ∈ i'.locals ↔ ∃ v, Violates v (uncheckedAll i.body)
  reset : .assign LocalPool.flag (.bool false) ∈ i'.body ↔ ∃ v, Violates v (uncheckedAll i.body)

/-- An element that may stand between two lists is taken out, if it is in neither of them. -/
theorem erase_optional [DecidableEq α] {a : α} {b : Bool} (h : a ∉ xs ++ ys) :
    (xs ++ (if b then [a] else []) ++ ys).erase a = xs ++ ys := by
  cases b with
  | false => simpa using List.erase_of_not_mem h
  | true =>
    rw [if_pos rfl, List.append_assoc, List.erase_append_right _ (mt (List.mem_append_left _) h),
      List.singleton_append, List.erase_cons_head]

def Options.withBounds (o : Options) (drop : Bool) : Options := { o with noArrayBoundsChecks := drop }

namespace Lowered

variable {l : Lowered} {o : Options} (hslot : l.signature.exception = exceptionSlot)
  (hseg : ∀ seg ∈ l.segments, ∃ F ts, Lower.Emits F (· ≠ LocalPool.flag) ts seg)

/-- The implementation under the exception model with or without index checks. -/
abbrev bounded (l : Lowered) (o : Options) (drop : Bool) : Implementation :=
  l.implementation ((o.withBounds drop).withModel .exception)

abbrev flagged (l : Lowered) (o : Options) (drop : Bool) : Bool :=
  l.usesFlag ((o.withBounds drop).withModel .exception)

/-- The prologue but for the reset of the flag. -/
abbrev opening (l : Lowered) (o : Options) : List Stmt := l.prologue (o.withModel .assertion)

theorem bounded_locals : (l.bounded o d).locals =
    l.pool.vars ++ if l.flagged o d then [LocalPool.flag] else [] := rfl

include hslot

theorem flagged_of_unchecked (h : l.flagged o true = true) : l.flagged o false = true := by
  obtain ⟨seg, hmem, hraises⟩ := List.any_eq_true.1 h
  rw [encoding_exception hslot] at hraises
  refine List.any_eq_true.2 ⟨seg, hmem, ?_⟩
  rw [encoding_exception hslot]
  exact Encoding.raisesAny_of_unchecked hraises

theorem bounded_body : (l.bounded o d).body =
    l.opening o ++ (if l.flagged o d then [.assign LocalPool.flag (.bool false)] else []) ++
      l.segments.flatMap (Encoding.exceptions d).encodeAll := by
  rw [bounded, body_exception hslot, encoding_exception hslot, prologue_assertion hslot, opening,
    prologue_assertion hslot]
  rfl

/-- The prologue does not nest, and it may lower the flag but never raises it. -/
theorem front_flat {used : Bool} (h : st ∈ l.opening o ++
    if used then [.assign LocalPool.flag (.bool false)] else []) :
    st.isFlat = true ∧ st ≠ raisingFlag := by
  obtain h | h := List.mem_append.1 h
  · exact prologue_flat hslot h
  · split at h
    · rw [List.mem_singleton.1 h]
      exact ⟨rfl, by simp⟩
    · cases h

include hseg

theorem unchecked_body : uncheckedAll (l.bounded o false).body =
    l.opening o ++ (if l.flagged o false then [.assign LocalPool.flag (.bool false)] else []) ++
      l.segments.flatMap (Encoding.exceptions true).encodeAll := by
  have hsegs : uncheckedAll (l.segments.flatMap (Encoding.exceptions false).encodeAll) =
      l.segments.flatMap (Encoding.exceptions true).encodeAll := by
    rw [uncheckedAll_flatMap]
    refine List.flatMap_congr fun seg hmem => ?_
    obtain ⟨F, ts, hcode⟩ := hseg seg hmem
    exact hcode.unchecked
  rw [bounded_body hslot, uncheckedAll_append, hsegs,
    uncheckedAll_flat fun st hst => (front_flat hslot hst).1]

/-- A violation is left if and only if the flag is still used. -/
theorem violates_iff : (∃ v, Violates v (uncheckedAll (l.bounded o false).body)) ↔
    l.flagged o true = true := by
  rw [unchecked_body hslot hseg]
  constructor
  · rintro ⟨v, hv⟩
    obtain ⟨st, hst, hflag⟩ := List.mem_flatMap.1 hv.raisingFlag_mem
    obtain hst | hst := List.mem_append.1 hst
    · obtain ⟨hflat, hne⟩ := front_flat hslot hst
      rw [Stmt.nested_flat hflat, List.mem_singleton] at hflag
      exact absurd hflag.symm hne
    · refine (usesFlag_iff hslot hseg (o := o.withBounds true)).2 (List.mem_flatMap.2 ⟨st, ?_, hflag⟩)
      rw [← bounded, bounded_body hslot]
      exact List.mem_append_right _ hst
  · intro hused
    obtain ⟨seg, hmem, hraises⟩ := List.any_eq_true.1 hused
    rw [encoding_exception hslot] at hraises
    obtain ⟨v, hv⟩ := Encoding.violates_encodeAll hraises
    exact ⟨v, (hv.flatMap hmem).append_right _⟩

theorem unchecks (hvars : ∀ x ∈ l.pool.vars, x ≠ LocalPool.flag) :
    (l.bounded o false).Unchecks (l.bounded o true) := by
  have hleft := violates_iff hslot hseg (o := o)
  have hflag : LocalPool.flag ∉ l.pool.vars := fun hmem => hvars _ hmem rfl
  have hreset : l.flagged o true = false →
      .assign LocalPool.flag (.bool false) ∉ (l.bounded o true).body := by
    intro hused hmem
    have hnested := List.mem_flatMap.2 ⟨_, hmem, Stmt.self_mem_nested _⟩
    exact flag_notMem_targets hslot hseg hused (mem_targets hnested List.mem_cons_self)
  constructor
  case procedure => rfl
  case kept =>
    intro hv
    have hused := hleft.1 hv
    rw [unchecked_body hslot hseg, bounded_body hslot, bounded_locals, bounded_locals, hused,
      flagged_of_unchecked hslot hused]
    exact ⟨rfl, rfl⟩
  case dropped =>
    intro hv
    have hused : l.flagged o true = false := Bool.eq_false_iff.2 fun h => hv (hleft.2 h)
    have hbody := hreset hused
    rw [bounded_body hslot, hused, if_neg (by simp), List.append_nil] at hbody
    have hlocals : (l.pool.vars ++ (if l.flagged o false then [LocalPool.flag] else []) ++ []).erase
        LocalPool.flag = l.pool.vars ++ [] := erase_optional (by simpa using hflag)
    rw [List.append_nil, List.append_nil] at hlocals
    rw [unchecked_body hslot hseg, erase_optional hbody, bounded_body hslot, bounded_locals,
      bounded_locals, hlocals, hused]
    simp
  case flag =>
    rw [hleft, bounded_locals]
    cases l.flagged o true <;> simp [hflag]
  case reset =>
    rw [hleft]
    constructor
    · intro hmem
      by_contra hused
      exact hreset (Bool.eq_false_iff.2 hused) hmem
    · intro hused
      rw [bounded_body hslot, hused]
      simp

end Lowered

theorem Options.withModel_self (h : Options.errorModel o = m) : o.withModel m = o := by
  cases h
  rfl

theorem BodyLowered.unchecks {o : Options} (h : BodyLowered p .standard n b l j) :
    (l.bounded o false).Unchecks (l.bounded o true) := by
  obtain ⟨hslot, hseg, hvars⟩ := h.flag_apart
  exact Lowered.unchecks hslot hseg hvars

def Registry.withoutLog (r : Registry) : Registry := { r with log := #[] }

namespace Session

def withBounds (s : Session) (drop : Bool) : Session :=
  { s with options := s.options.withBounds drop }

theorem lower_withoutLog {s : Session} : (s.lower b).2.registry.withoutLog =
    (s.registry.replay s.program s.prelude
      (lowerBody s.program s.prelude s.registry.globals.length b).journal).withoutLog := by
  obtain ⟨record, hlower⟩ := lower_eq (s := s) (b := b)
  rw [hlower]
  obtain ⟨j, e | l⟩ := lowerBody s.program s.prelude s.registry.globals.length b
  · rfl
  · simp only [after, Registry.replay_append]
    rfl

/-- Index checks are the only thing that their option changes: a body is lowered with them and
without them or fails both times alike, and the diagnostics and all other tables are the same. -/
theorem lower_bounds (s : Session) (hq : s.prelude = .standard)
    (hm : s.options.errorModel = .exception) (b : Body) :
    Alike Implementation.Unchecks ((s.withBounds false).lower b).1 ((s.withBounds true).lower b).1 ∧
      ((s.withBounds false).lower b).2.registry.diagnostics =
        ((s.withBounds true).lower b).2.registry.diagnostics ∧
      ((s.withBounds false).lower b).2.registry.withoutLog =
        ((s.withBounds true).lower b).2.registry.withoutLog := by
  have hmodel : ∀ d, (s.options.withBounds d).withModel .exception = s.options.withBounds d :=
    fun d => Options.withModel_self hm
  have htables : ((s.withBounds false).lower b).2.registry.withoutLog =
      ((s.withBounds true).lower b).2.registry.withoutLog := by
    rw [lower_withoutLog, lower_withoutLog]
    rfl
  have hdiags := congrArg Registry.diagnostics htables
  refine ⟨?_, hdiags, htables⟩
  rw [lower_fst, lower_fst]
  show Alike _ ((lowerBody s.program s.prelude s.registry.globals.length b).result.map _)
    ((lowerBody s.program s.prelude s.registry.globals.length b).result.map _)
  cases hl : (lowerBody s.program s.prelude s.registry.globals.length b).result with
  | error e => exact .error
  | ok l =>
    have hbody := lowerBody_gives (Trace.gives_of_result hl)
    rw [hq] at hbody
    have hunchecks := hbody.unchecks (o := s.options)
    rw [Lowered.bounded, Lowered.bounded, hmodel, hmodel] at hunchecks
    exact .ok hunchecks

end Session

def ledger : Program := .declaring [
  .addClass "Ledger",
  .addMethod 3 { name := "look", params := [.array .int] }] (by decide +kernel)

def ledgerSession : Session := .start (.ofProgram ledger) .standard {}

/-- An access within the index of another: each is checked for null and for its index. -/
def chasing : Body where
  method := 0
  slots := [⟨"a", .array .int⟩, ⟨"n", .int⟩]
  nodes := [
    { instr := .identity 0 (.param 0) },
    { instr := .assign (.slot 1) (.element (.slot 0) (.element (.slot 0) (.slot 1))) },
    { instr := .retVoid }]
  sound := by decide

/-- An access through the receiver, which is not checked for null: the check of the index is the only
obligation. -/
def selfIndexing : Body where
  method := 0
  slots := [⟨"a", .array .int⟩, ⟨"n", .int⟩]
  nodes := [
    { instr := .identity 0 .receiver },
    { instr := .assign (.slot 1) (.element (.slot 0) (.slot 1)) },
    { instr := .retVoid }]
  sound := by decide

theorem lower_bounds_ledger :
    ledgerSession.options.errorModel = .exception ∧
    (∃ i i', ((ledgerSession.withBounds false).lower chasing).1 = .ok i ∧
      ((ledgerSession.withBounds true).lower chasing).1 = .ok i' ∧ i.Unchecks i' ∧
      i.body.length = 10 ∧ i'.body.length = 8 ∧ LocalPool.flag ∈ i'.locals) ∧
    ∃ i i', ((ledgerSession.withBounds false).lower selfIndexing).1 = .ok i ∧
      ((ledgerSession.withBounds true).lower selfIndexing).1 = .ok i' ∧ i.Unchecks i' ∧
      LocalPool.flag ∈ i.locals ∧ LocalPool.flag ∉ i'.locals := by
  have hpair : ∀ b, ∀ n : Nat, ∀ f : Implementation → Nat,
      ((ledgerSession.withBounds false).lower b).1.toOption.map f = some n →
      ∃ i i', ((ledgerSession.withBounds false).lower b).1 = .ok i ∧
        ((ledgerSession.withBounds true).lower b).1 = .ok i' ∧ i.Unchecks i' ∧ f i = n := by
    intro b n f hmap
    obtain ⟨i, hi, hn⟩ := exists_of_toOption_map hmap
    obtain ⟨halike, -⟩ := Session.lower_bounds ledgerSession rfl rfl b
    rw [hi] at halike
    generalize ((ledgerSession.withBounds true).lower b).1 = r at halike
    cases halike with
    | ok h => exact ⟨i, _, hi, rfl, h, hn⟩
  obtain ⟨i, i', hi, hi', h, hlength⟩ := hpair chasing 10 (·.body.length) (by decide +kernel)
  obtain ⟨k, k', hk, hk', h', hflag⟩ :=
    hpair selfIndexing 1 (·.locals.count LocalPool.flag) (by decide +kernel)
  have hlength' : ((ledgerSession.withBounds true).lower chasing).1.toOption.map (fun i =>
      (i.body.length, i.locals.count LocalPool.flag)) = some (8, 1) := by decide +kernel
  have hflag' : ((ledgerSession.withBounds true).lower selfIndexing).1.toOption.map
      (·.locals.count LocalPool.flag) = some 0 := by decide +kernel
  rw [hi'] at hlength'
  rw [hk'] at hflag'
  obtain ⟨hlength', hkept⟩ := Prod.mk.inj (Option.some.inj hlength')
  refine ⟨rfl, ⟨i, i', hi, hi', h, hlength, hlength', ?_⟩, k, k', hk, hk', h', ?_, ?_⟩
  · exact List.count_pos_iff.1 (hkept ▸ Nat.one_pos)
  · exact List.count_pos_iff.1 (hflag ▸ Nat.one_pos)
  · exact List.count_eq_zero.1 (Option.some.inj hflag')

end Verilower
