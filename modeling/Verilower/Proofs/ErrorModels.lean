import Verilower.Proofs.Framing
import Verilower.Proofs.NonInterference

namespace Verilower
set_option autoImplicit true

open Ivl

/-- The exception slot of every procedure of the standard prelude and of every made one. -/
def exceptionSlot : Ident := ⟨"$exception", .ref⟩

def raising (v : Violation) : List Stmt :=
  [.assign LocalPool.flag (.bool true), .assign exceptionSlot (Prelude.witness v).expr, .ret]

def isRaising (ss : List Stmt) : Bool := Violation.all.any fun v => ss = raising v

mutual

/-- A guarded violation becomes an assertion of its guard. -/
def Ivl.Stmt.asserted : Stmt → Stmt
  | .ite (.unary .not g) a b =>
    if isRaising a && b.isEmpty then .assert g
    else .ite (.not g) (assertedAll a) (assertedAll b)
  | .ite c a b => .ite c (assertedAll a) (assertedAll b)
  | s => s

/-- A violation without a guard becomes a return. -/
def assertedAll : List Stmt → List Stmt
  | a :: b :: c :: ss =>
    if isRaising [a, b, c] then .ret :: assertedAll ss
    else a.asserted :: assertedAll (b :: c :: ss)
  | [a, b] => [a.asserted, b.asserted]
  | [a] => [a.asserted]
  | [] => []

end

theorem isRaising_iff : isRaising ss = true ↔ ∃ v, ss = raising v := by
  simp only [isRaising, List.any_eq_true, decide_eq_true_eq]
  constructor
  · rintro ⟨v, -, hv⟩
    exact ⟨v, hv⟩
  · rintro ⟨v, hv⟩
    exact ⟨v, by cases v <;> decide, hv⟩

abbrev raisingFlag : Stmt := .assign LocalPool.flag (.bool true)

theorem isRaising_cons (h : s ≠ raisingFlag) : isRaising (s :: ss) = false := by
  rw [Bool.eq_false_iff]
  intro hr
  obtain ⟨v, hv⟩ := isRaising_iff.1 hr
  exact h (List.cons.inj hv).1

theorem assertedAll_raising : assertedAll (raising v ++ ss) = .ret :: assertedAll ss := by
  have hr : isRaising (raising v) = true := isRaising_iff.2 ⟨v, rfl⟩
  rw [raising] at hr ⊢
  exact if_pos hr

theorem assertedAll_cons (h : s ≠ raisingFlag) :
    assertedAll (s :: ss) = s.asserted :: assertedAll ss := by
  match ss with
  | [] | [b] => rfl
  | b :: c :: ss => exact if_neg (by simp [isRaising_cons h])

theorem asserted_flat {s : Stmt} (h : s.isFlat = true) : s.asserted = s := by
  cases s with
  | ite => cases h
  | _ => rfl

theorem assertedAll_flat (h : ∀ s ∈ ss, s.isFlat = true ∧ s ≠ raisingFlag) :
    assertedAll (ss ++ rest) = ss ++ assertedAll rest := by
  induction ss with
  | nil => rfl
  | cons s ss ih =>
    obtain ⟨hflat, hne⟩ := h s List.mem_cons_self
    rw [List.cons_append, assertedAll_cons hne, asserted_flat hflat,
      ih fun t ht => h t (List.mem_cons_of_mem _ ht), List.cons_append]

theorem write_ne_raisingFlag : Prelude.write b x e ≠ raisingFlag := by
  intro h
  have hheap : Prelude.heap = LocalPool.flag := (Stmt.assign.inj h).1
  revert hheap
  decide

theorem asserted_guard : (Stmt.when (.not g) (raising v)).asserted = .assert g := by
  have hr : isRaising (raising v) = true := isRaising_iff.2 ⟨v, rfl⟩
  exact if_pos (by simp [hr])

theorem asserted_ite (h : isRaising a = false ∨ c.isNegation = false) :
    (Stmt.ite c a b).asserted = .ite c (assertedAll a) (assertedAll b) := by
  by_cases hn : ∃ g, c = .unary .not g
  · obtain ⟨g, rfl⟩ := hn
    have hr : isRaising a = false := h.resolve_right (by simp [Expr.isNegation])
    exact if_neg (by simp [hr])
  · rw [Stmt.asserted]
    exact fun g hg => hn ⟨g, hg⟩

theorem Ivl.Stmt.Passive.ne_raisingFlag (h : Stmt.Passive s) : s ≠ raisingFlag := by
  rintro rfl
  cases h

theorem Ivl.Stmt.Passive.asserted_eq (h : Stmt.Passive s) : s.asserted = s := by
  induction h with
  | assume | label | goto | ret => exact asserted_flat rfl
  | ite ha hb iha ihb =>
    have hall : ∀ ss : List Stmt, (∀ s ∈ ss, s.Passive) → (∀ s ∈ ss, s.asserted = s) →
        assertedAll ss = ss := by
      intro ss
      induction ss with
      | nil =>
        intro _ _
        rfl
      | cons s ss ih =>
        intro hp heq
        rw [assertedAll_cons (hp s List.mem_cons_self).ne_raisingFlag, heq s List.mem_cons_self,
          ih (fun t ht => hp t (List.mem_cons_of_mem _ ht))
            fun t ht => heq t (List.mem_cons_of_mem _ ht)]
    rw [asserted_ite, hall _ ha iha, hall _ hb ihb]
    left
    rw [Bool.eq_false_iff]
    intro hr
    obtain ⟨v, rfl⟩ := isRaising_iff.1 hr
    exact (ha _ List.mem_cons_self).ne_raisingFlag rfl

/-- Among the statements, or inside one of them, the violation is raised. -/
inductive Violates (v : Violation) : List Stmt → Prop
  | here : Violates v (raising v ++ ss)
  | later (h : Violates v ss) : Violates v (s :: ss)
  | thenBranch (h : Violates v a) : Violates v (.ite c a b :: ss)
  | elseBranch (h : Violates v b) : Violates v (.ite c a b :: ss)

namespace Violates

theorem append_left (h : Violates v as) (bs : List Stmt) : Violates v (as ++ bs) := by
  induction h with
  | here =>
    rw [List.append_assoc]
    exact .here
  | later _ ih => exact .later ih
  | thenBranch h => exact .thenBranch h
  | elseBranch h => exact .elseBranch h

theorem append_right (h : Violates v bs) (as : List Stmt) : Violates v (as ++ bs) := by
  induction as with
  | nil => exact h
  | cons a as ih => exact ih.later

theorem flatMap {f : α → List Stmt} {xs : List α} (h : Violates v (f x)) (hx : x ∈ xs) :
    Violates v (xs.flatMap f) := by
  obtain ⟨front, back, rfl⟩ := List.append_of_mem hx
  rw [List.flatMap_append, List.flatMap_cons]
  exact (h.append_left _).append_right _

/-- Whatever is raised, the flag is. -/
theorem raisingFlag_mem (h : Violates v ss) : raisingFlag ∈ ss.flatMap Stmt.nested := by
  induction h with
  | here =>
    rw [raising, List.cons_append, List.flatMap_cons, Stmt.nested_flat rfl]
    exact List.mem_cons_self
  | later _ ih =>
    rw [List.flatMap_cons]
    exact List.mem_append_right _ ih
  | thenBranch _ ih =>
    rw [List.flatMap_cons, Stmt.nested_ite]
    exact List.mem_append_left _ (List.mem_cons_of_mem _ (List.mem_append_left _ ih))
  | elseBranch _ ih =>
    rw [List.flatMap_cons, Stmt.nested_ite]
    exact List.mem_append_left _ (List.mem_cons_of_mem _ (List.mem_append_right _ ih))

end Violates

namespace Encoding

/-- The encodings of the two models with the slot of the standard prelude. -/
def exceptions (dropBounds : Bool) : Encoding := ⟨.exception, exceptionSlot, dropBounds⟩

def assertions (dropBounds : Bool) : Encoding := ⟨.assertion, exceptionSlot, dropBounds⟩

theorem asserted_obligation (o : Obligation) (rest : List Stmt) :
    assertedAll ((exceptions d).obligation o ++ rest) =
      (assertions d).obligation o ++ assertedAll rest := by
  have hdrops : (assertions d).drops o = (exceptions d).drops o := rfl
  rw [obligation, obligation, hdrops]
  split
  · rfl
  · obtain ⟨v, guard⟩ := o
    cases guard with
    | none => exact assertedAll_raising
    | some g =>
      show assertedAll (Stmt.when (.not g) (raising v) :: rest) = .assert g :: assertedAll rest
      rw [assertedAll_cons (by simp [Stmt.when]), asserted_guard]

end Encoding

namespace Lower

variable {V : Ident → Prop}

open Encoding (exceptions assertions)

theorem Emits.asserted (h : Emits F V ts code) (hV : ∀ x, V x → x ≠ LocalPool.flag) :
    ∀ rest, assertedAll ((exceptions d).encodeAll code ++ rest) =
      (assertions d).encodeAll code ++ assertedAll rest := by
  have hplain : ∀ s : Stmt, s ≠ raisingFlag → s.asserted = s → ∀ rest,
      assertedAll ((exceptions d).encodeAll [.plain s] ++ rest) =
        (assertions d).encodeAll [.plain s] ++ assertedAll rest := by
    intro s hs heq rest
    show assertedAll (s :: rest) = s :: assertedAll rest
    rw [assertedAll_cons hs, heq]
  induction h with
  | nil =>
    intro rest
    rfl
  | append _ _ iha ihb =>
    intro rest
    rw [Encoding.encodeAll_append, List.append_assoc, iha, ihb, Encoding.encodeAll_append,
      List.append_assoc]
  | weaken _ _ ih => exact ih
  | passive hs => exact hplain _ hs.ne_raisingFlag hs.asserted_eq
  | oblige v e =>
    intro rest
    rw [Encoding.encodeAll_oblige, Encoding.encodeAll_oblige, Encoding.asserted_obligation]
  | unexpected =>
    intro rest
    rw [Encoding.encodeAll_oblige, Encoding.encodeAll_oblige, Encoding.asserted_obligation]
  | assign hx =>
    exact hplain _ (fun h => hV _ hx (Stmt.assign.inj h).1) (asserted_flat rfl)
  | fieldStore => exact hplain _ write_ne_raisingFlag (asserted_flat rfl)
  | @object x ty τ hx =>
    intro rest
    apply assertedAll_flat
    show ∀ s ∈ [_, _, _, _, _], _
    simp only [List.forall_mem_cons]
    exact ⟨⟨rfl, by simp⟩, ⟨rfl, by simp⟩, ⟨rfl, write_ne_raisingFlag⟩, ⟨rfl, by simp⟩,
      ⟨rfl, write_ne_raisingFlag⟩, nofun⟩
  | call ho => exact hplain _ (by simp) (asserted_flat rfl)
  | when hc _ ih =>
    intro rest
    -- The code that follows is outside of the conditional, and inside nothing follows the branch.
    have hbody := ih []
    rw [List.append_nil] at hbody
    show assertedAll (Stmt.when _ _ :: rest) = Stmt.when _ _ :: assertedAll rest
    rw [assertedAll_cons (by simp [Stmt.when]), Stmt.when, asserted_ite (.inr hc), hbody]
    simp [assertedAll, Stmt.when]

end Lower

namespace Encoding

mutual

theorem raises_assertions : ∀ {o : Outline}, (assertions d).raises o = false
  | .plain _ => rfl
  | .oblige _ => rfl
  | .when _ _ => raisesAny_assertions

theorem raisesAny_assertions : ∀ {os : List Outline}, (assertions d).raisesAny os = false
  | [] => rfl
  | _ :: _ => by rw [raisesAny, raises_assertions, raisesAny_assertions, Bool.or_false]

end

theorem violates_obligation (h : (exceptions d).flags o = true) :
    Violates o.violation ((exceptions d).obligation o) := by
  obtain ⟨v, guard⟩ := o
  have hd : (exceptions d).drops ⟨v, guard⟩ = false := by simpa [flags, exceptions] using h
  have hraise : Violates v (raising v ++ []) := .here
  rw [List.append_nil] at hraise
  rw [obligation, if_neg (by simp [hd])]
  cases guard with
  | none => exact hraise
  | some g => exact hraise.thenBranch

mutual

theorem violates_encode : ∀ {o : Outline}, (exceptions d).raises o = true →
    ∃ v, Violates v ((exceptions d).encode o)
  | .plain _, h => nomatch h
  | .oblige _, h => ⟨_, violates_obligation h⟩
  | .when _ _, h =>
    have ⟨v, hv⟩ := violates_encodeAll h
    ⟨v, hv.thenBranch⟩

theorem violates_encodeAll : ∀ {os : List Outline}, (exceptions d).raisesAny os = true →
    ∃ v, Violates v ((exceptions d).encodeAll os)
  | [], h => nomatch h
  | o :: os, h => by
    rw [raisesAny, Bool.or_eq_true] at h
    obtain h | h := h
    · obtain ⟨v, hv⟩ := violates_encode h
      exact ⟨v, hv.append_left _⟩
    · obtain ⟨v, hv⟩ := violates_encodeAll h
      exact ⟨v, hv.append_right _⟩

end

end Encoding

/-- The implementation under the assertion model against the one under the exception model. -/
structure Ivl.Implementation.Asserts (i i' : Implementation) : Prop where
  procedure : i'.procedure = i.procedure
  /-- The only statement that lowers the flag is the one of the prologue. -/
  body : i'.body = assertedAll (i.body.erase (.assign LocalPool.flag (.bool false)))
  locals : i.locals = i'.locals ++
    if raisingFlag ∈ i.body.flatMap Stmt.nested then [LocalPool.flag] else []
  flag : LocalPool.flag ∉ i'.locals

theorem Ivl.Stmt.self_mem_nested (s : Stmt) : s ∈ s.nested := by
  cases s with
  | ite =>
    rw [Stmt.nested_ite]
    exact List.mem_cons_self
  | _ =>
    rw [Stmt.nested_flat rfl]
    exact List.mem_cons_self

theorem Ivl.mem_targets (hs : s ∈ ss.flatMap Stmt.nested) (hx : x ∈ s.ownTargets) :
    x ∈ targets ss := List.mem_flatMap.2 ⟨s, hs, hx⟩

def Options.withModel (o : Options) (model : ErrorModel) : Options := { o with errorModel := model }

namespace Lowered

variable {l : Lowered} {o : Options} (hslot : l.signature.exception = exceptionSlot)
include hslot

theorem encoding_exception :
    l.encoding (o.withModel .exception) = Encoding.exceptions o.noArrayBoundsChecks := by
  rw [encoding, Signature.encoding, hslot]
  rfl

theorem encoding_assertion :
    l.encoding (o.withModel .assertion) = Encoding.assertions o.noArrayBoundsChecks := by
  rw [encoding, Signature.encoding, hslot]
  rfl

theorem usesFlag_assertion : l.usesFlag (o.withModel .assertion) = false := by
  rw [usesFlag, encoding_assertion hslot, List.any_eq_false]
  intro seg _
  simp [Encoding.raisesAny_assertions]

theorem prologue_assertion : l.prologue (o.withModel .assertion) =
    l.signature.receiver.toList.map (fun this => .assume (Prelude.isNonNull this.expr)) ++
      [.assign exceptionSlot Prelude.null.expr] := by
  rw [prologue, Signature.prologue, usesFlag_assertion hslot, hslot]
  exact List.append_nil _

theorem prologue_flat (h : st ∈ l.prologue (o.withModel .assertion)) :
    st.isFlat = true ∧ st ≠ .assign LocalPool.flag e := by
  rw [prologue_assertion hslot] at h
  rcases List.mem_append.1 h with h | h
  · obtain ⟨x, -, rfl⟩ := List.mem_map.1 h
    exact ⟨rfl, by simp⟩
  · rw [List.mem_singleton.1 h]
    exact ⟨rfl, by simp [exceptionSlot, LocalPool.flag]⟩

/-- The prologue without the flag, its reset if it is used, and the nodes. -/
theorem body_exception : (l.implementation (o.withModel .exception)).body =
    l.prologue (o.withModel .assertion) ++
      (if l.usesFlag (o.withModel .exception) then [.assign LocalPool.flag (.bool false)] else []) ++
      l.segments.flatMap (l.encoding (o.withModel .exception)).encodeAll := by
  rw [prologue_assertion hslot, implementation, prologue, Signature.prologue, hslot]

variable (hseg : ∀ seg ∈ l.segments, ∃ F ts, Lower.Emits F (· ≠ LocalPool.flag) ts seg)
include hseg

theorem flag_notMem_targets (h : l.usesFlag o = false) :
    LocalPool.flag ∉ targets (l.implementation o).body := by
  intro hmem
  refine target_body (V := (· ≠ LocalPool.flag)) ?_ ?_ ?_ hseg _ hmem rfl
  · decide
  · rw [hslot]
    decide
  · intro hused
    rw [h] at hused
    cases hused

/-- The flag is used where a statement raises it. -/
theorem usesFlag_iff : l.usesFlag (o.withModel .exception) = true ↔
    raisingFlag ∈ (l.implementation (o.withModel .exception)).body.flatMap Stmt.nested := by
  constructor
  · intro hused
    obtain ⟨seg, hmem, hraises⟩ := List.any_eq_true.1 hused
    rw [encoding_exception hslot] at hraises
    rw [implementation, encoding_exception hslot, List.flatMap_append, List.flatMap_assoc]
    obtain ⟨v, hv⟩ := Encoding.violates_encodeAll hraises
    exact List.mem_append_right _ (List.mem_flatMap.2 ⟨seg, hmem, hv.raisingFlag_mem⟩)
  · intro hmem
    by_contra hunused
    exact flag_notMem_targets hslot hseg (Bool.eq_false_iff.2 hunused)
      (mem_targets hmem List.mem_cons_self)

theorem asserted_segments (rest : List Stmt) :
    assertedAll (l.segments.flatMap (l.encoding (o.withModel .exception)).encodeAll ++ rest) =
      l.segments.flatMap (l.encoding (o.withModel .assertion)).encodeAll ++ assertedAll rest := by
  rw [encoding_exception hslot, encoding_assertion hslot]
  generalize l.segments = segs at hseg
  induction segs with
  | nil => rfl
  | cons seg segs ih =>
    obtain ⟨F, ts, hcode⟩ := hseg seg List.mem_cons_self
    rw [List.flatMap_cons, List.append_assoc, hcode.asserted fun x hx => hx,
      ih fun s hs => hseg s (List.mem_cons_of_mem _ hs), List.flatMap_cons, List.append_assoc]

/-- The body under the exception model without its prologue's reset of the flag. -/
theorem erase_body : (l.implementation (o.withModel .exception)).body.erase
      (.assign LocalPool.flag (.bool false)) =
    l.prologue (o.withModel .assertion) ++
      l.segments.flatMap (l.encoding (o.withModel .exception)).encodeAll := by
  have hreset : .assign LocalPool.flag (.bool false) ∉ l.prologue (o.withModel .assertion) :=
    fun hmem => (prologue_flat hslot hmem).2 rfl
  rw [body_exception hslot]
  cases hused : l.usesFlag (o.withModel .exception) with
  | true =>
    rw [if_pos rfl, List.append_assoc, List.erase_append_right _ hreset, List.singleton_append,
      List.erase_cons_head]
  | false =>
    have hbody := body_exception hslot (o := o)
    rw [hused] at hbody
    rw [if_neg (by simp), List.append_nil] at hbody ⊢
    rw [← hbody]
    apply List.erase_of_not_mem
    intro hmem
    have hnested := List.mem_flatMap.2 ⟨_, hmem, Stmt.self_mem_nested _⟩
    exact flag_notMem_targets hslot hseg hused (mem_targets hnested List.mem_cons_self)

theorem asserts (hvars : ∀ x ∈ l.pool.vars, x ≠ LocalPool.flag) :
    (l.implementation (o.withModel .exception)).Asserts
      (l.implementation (o.withModel .assertion)) := by
  have hlocals : (l.implementation (o.withModel .assertion)).locals = l.pool.vars := by
    show l.pool.vars ++ (if l.usesFlag (o.withModel .assertion) then [LocalPool.flag] else []) = _
    rw [usesFlag_assertion hslot, if_neg (by simp), List.append_nil]
  constructor
  case procedure => rfl
  case body =>
    have hsegs := asserted_segments hslot hseg (o := o) []
    rw [List.append_nil] at hsegs
    rw [erase_body hslot hseg, assertedAll_flat fun st hst => prologue_flat hslot hst, hsegs]
    simp [implementation, assertedAll]
  case locals =>
    have hused := usesFlag_iff hslot hseg (o := o)
    show l.pool.vars ++ (if l.usesFlag (o.withModel .exception) then [LocalPool.flag] else []) = _
    rw [hlocals, if_congr hused rfl rfl]
  case flag =>
    rw [hlocals]
    exact fun hmem => hvars _ hmem rfl

end Lowered

theorem Signature.Built.exception_eq (h : Built p .standard i sig j) :
    sig.exception = exceptionSlot := by
  cases h with
  | adopted _ _ hq ha =>
    have houts := ha.outs
    rw [List.mem_singleton.1 (List.mem_of_find?_eq_some hq)] at houts
    have hlast := congrArg List.getLast? houts
    rw [List.getLast?_concat] at hlast
    exact (Option.some.inj hlast).symm
  | declared => rfl

/-- Under the standard prelude no code but that of violations assigns the flag. -/
theorem BodyLowered.flag_apart (h : BodyLowered p .standard n b l j) :
    l.signature.exception = exceptionSlot ∧
      (∀ seg ∈ l.segments, ∃ F ts, Lower.Emits F (· ≠ LocalPool.flag) ts seg) ∧
      ∀ x ∈ l.pool.vars, x ≠ LocalPool.flag := by
  cases h with
  | @intro _ sig _ _ _ _ hm hsig hpool hseg =>
    obtain ⟨k, hb⟩ := Signature.built_of_result hsig
    have hne : ∀ x : Ident, x.Settable → x ≠ LocalPool.flag := fun x hx => hx.ne (by decide)
    have hout : ∀ x ∈ sig.result.toList ++ [sig.exception], x ≠ LocalPool.flag := by
      intro x hx
      rw [← hb.outs_eq] at hx
      exact hne x (hb.outs_settable hx)
    have hadmits := hseg.admits hpool hne (hout _ (by simp)) fun x hx => hout x
      (List.mem_append_left _ (Option.mem_toList.2 hx))
    exact ⟨hb.exception_eq, fun seg hmem => ⟨_, hseg.emits_mem hadmits hmem⟩, hadmits.pool⟩

theorem BodyLowered.asserts {o : Options} (h : BodyLowered p .standard n b l j) :
    (l.implementation (o.withModel .exception)).Asserts
      (l.implementation (o.withModel .assertion)) := by
  obtain ⟨hslot, hseg, hvars⟩ := h.flag_apart
  exact Lowered.asserts hslot hseg hvars

namespace Session

def withModel (s : Session) (model : ErrorModel) : Session :=
  { s with options := s.options.withModel model }

/-- The two error models differ in how obligations are encoded: a body is lowered under both or fails
under both alike, with the same diagnostics. -/
theorem lower_models (s : Session) (hq : s.prelude = .standard) (b : Body) :
    Alike Implementation.Asserts ((s.withModel .exception).lower b).1
        ((s.withModel .assertion).lower b).1 ∧
      ((s.withModel .exception).lower b).2.registry.diagnostics =
        ((s.withModel .assertion).lower b).2.registry.diagnostics := by
  constructor
  · rw [lower_fst, lower_fst]
    show Alike _ ((lowerBody s.program s.prelude s.registry.globals.length b).result.map _)
      ((lowerBody s.program s.prelude s.registry.globals.length b).result.map _)
    cases hl : (lowerBody s.program s.prelude s.registry.globals.length b).result with
    | error e => exact .error
    | ok l =>
      have hbody := lowerBody_gives (Trace.gives_of_result hl)
      rw [hq] at hbody
      exact .ok hbody.asserts
  · apply Array.toList_inj.1
    rw [lower_diagnostics, lower_diagnostics]
    rfl

end Session

theorem lower_models_fill :
    ∃ i i', ((shelfSession.withModel .exception).lower fillBody).1 = .ok i ∧
      ((shelfSession.withModel .assertion).lower fillBody).1 = .ok i' ∧
      LocalPool.flag ∈ i.locals ∧ i.Asserts i' := by
  have hflag : (((shelfSession.withModel .exception).lower fillBody).1.toOption.map fun i =>
      decide (LocalPool.flag ∈ i.locals)) = some true := by decide +kernel
  obtain ⟨i, hi, hmem⟩ := Option.map_eq_some_iff.1 hflag
  rw [toOption_eq_some] at hi
  obtain ⟨halike, -⟩ := Session.lower_models shelfSession rfl fillBody
  rw [hi] at halike
  generalize ((shelfSession.withModel .assertion).lower fillBody).1 = r at halike
  cases halike with
  | ok h => exact ⟨i, _, hi, rfl, of_decide_eq_true hmem, h⟩

end Verilower
