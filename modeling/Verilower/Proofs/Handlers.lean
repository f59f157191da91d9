import Verilower.Proofs.Devirtualization
import Verilower.Proofs.Exits

namespace Verilower
set_option autoImplicit true

open Ivl

namespace Ivl.World

/-- Without a call or an assignment, control goes from the statements to the others: an execution
stops on the way, or it gets there and goes on. -/
structure Leads (W : World) (σ : W.State) (ss ts : List Stmt) : Prop where
  reaches : W.Exec σ ss [] σ ts
  only : ∀ cs σ' ss', W.Exec σ ss cs σ' ss' →
    (cs = [] ∧ σ' = σ ∧ W.Exec σ ss' [] σ ts) ∨ W.Exec σ ts cs σ' ss'

theorem Leads.refl {W : World} {σ : W.State} : W.Leads σ ss ss :=
  ⟨.refl, fun _ _ _ h => .inr h⟩

theorem Leads.head {W : World} {σ : W.State} (hstep : W.Step σ ss [] σ ss₁)
    (honly : ∀ cs σ' ss', W.Step σ ss cs σ' ss' → cs = [] ∧ σ' = σ ∧ ss' = ss₁)
    (h : W.Leads σ ss₁ ts) : W.Leads σ ss ts := by
  refine ⟨.step hstep h.reaches, fun cs σ' ss' hexec => ?_⟩
  cases hexec with
  | refl => exact .inl ⟨rfl, rfl, .step hstep h.reaches⟩
  | step hs hrest =>
    obtain ⟨rfl, rfl, rfl⟩ := honly _ _ _ hs
    exact h.only _ _ _ hrest

theorem Leads.ite_of_sat {W : World} {σ : W.State} (hc : W.Sat σ c)
    (h : W.Leads σ (a ++ ss) ts) : W.Leads σ (.ite c a b :: ss) ts := by
  refine .head (.thenBranch hc) (fun _ _ _ hs => ?_) h
  cases hs with
  | thenBranch => exact ⟨rfl, rfl, rfl⟩
  | elseBranch hn => exact (hn hc).elim

theorem Leads.ite_of_not_sat {W : World} {σ : W.State} (hc : ¬ W.Sat σ c)
    (h : W.Leads σ (b ++ ss) ts) : W.Leads σ (.ite c a b :: ss) ts := by
  refine .head (.elseBranch hc) (fun _ _ _ hs => ?_) h
  cases hs with
  | thenBranch hp => exact (hc hp).elim
  | elseBranch => exact ⟨rfl, rfl, rfl⟩

theorem Leads.when_of_sat {W : World} {σ : W.State} (hc : W.Sat σ c)
    (h : W.Leads σ (body ++ ss) ts) : W.Leads σ (.when c body :: ss) ts :=
  .ite_of_sat hc h

theorem Leads.when_of_not_sat {W : World} {σ : W.State} (hc : ¬ W.Sat σ c)
    (h : W.Leads σ ss ts) : W.Leads σ (.when c body :: ss) ts :=
  .ite_of_not_sat hc h

/-- No execution gets away from the statements. -/
def Stuck (W : World) (ss : List Stmt) : Prop := ∀ σ cs σ' ss', W.Exec σ ss cs σ' ss' → ss' = ss

theorem stuck_jump {W : World} : W.Stuck (.jump l :: ss) := by
  intro σ cs σ' ss' h
  cases h with
  | refl => rfl
  | step h _ => cases h

theorem stuck_ret {W : World} : W.Stuck (.ret :: ss) := by
  intro σ cs σ' ss' h
  cases h with
  | refl => rfl
  | step h _ => cases h

theorem Leads.unique {W : World} {σ : W.State} (h : W.Leads σ ss ts) (h' : W.Leads σ ss us)
    (ht : W.Stuck ts) (hu : W.Stuck us) : ts = us := by
  obtain ⟨-, -, hexec⟩ | hexec := h'.only _ _ _ h.reaches
  · exact (ht _ _ _ _ hexec).symm
  · exact hu _ _ _ _ hexec

/-- The guards send control to a handler, or to what follows them. -/
def Selects (W : World) (σ : W.State) (guards : List Stmt) (m : MethodId) : Option Nat → Prop
  | some handler =>
    ∀ rest, ∃ ts, W.Leads σ (guards ++ rest) (.jump (labelName m handler) :: ts)
  | none => ∀ rest, W.Leads σ (guards ++ rest) rest

theorem Selects.unique {W : World} {σ : W.State} (h : W.Selects σ guards m x)
    (h' : W.Selects σ guards m y) : x = y := by
  cases x with
  | none =>
    cases y with
    | none => rfl
    | some b =>
      obtain ⟨ts, hb⟩ := h' [.ret]
      cases hb.unique (h [.ret]) stuck_jump stuck_ret
  | some a =>
    cases y with
    | none =>
      obtain ⟨ts, ha⟩ := h [.ret]
      cases ha.unique (h' [.ret]) stuck_jump stuck_ret
    | some b =>
      obtain ⟨ts, ha⟩ := h []
      obtain ⟨us, hb⟩ := h' []
      have he := ha.unique hb stuck_jump stuck_jump
      simp only [Stmt.jump, List.cons.injEq, Stmt.goto.injEq, and_true] at he
      rw [labelName_injective he.1]

/-- A guarded jump to the handler of a trap; the guard holds if the trap catches. -/
def Guards (W : World) (σ : W.State) (m : MethodId) (catches : Trap → Bool) (t : Trap)
    (st : Stmt) : Prop :=
  ∃ c, st = .when c [.jump (labelName m t.handler)] ∧ (W.Sat σ c ↔ catches t = true)

/-- Of guarded jumps in a row, the first whose trap catches is taken. -/
theorem selects_of_guards {W : World} {σ : W.State}
    (h : List.Forall₂ (W.Guards σ m catches) ts guards) :
    W.Selects σ guards m ((ts.find? catches).map Trap.handler) := by
  induction h with
  | nil => exact fun _ => .refl
  | @cons t st ts guards hg _ ih =>
    obtain ⟨c, rfl, hc⟩ := hg
    cases ht : catches t with
    | true =>
      rw [List.find?_cons_of_pos ht]
      exact fun rest => ⟨_, .when_of_sat (hc.2 ht) .refl⟩
    | false =>
      have hn : ¬ W.Sat σ c := by simp [hc, ht]
      rw [List.find?_cons_of_neg (by simp [ht])]
      -- To select a handler and to select what follows are different statements about the rest.
      cases hx : (ts.find? catches).map Trap.handler with
      | none =>
        rw [hx] at ih
        exact fun rest => .when_of_not_sat hn (ih rest)
      | some handler =>
        rw [hx] at ih
        intro rest
        obtain ⟨us, hu⟩ := ih rest
        exact ⟨us, .when_of_not_sat hn hu⟩

end Ivl.World

namespace Trap

variable {catches : Trap → Bool}

/-- A handler is among those of the traps that catch. -/
def leads (catches : Trap → Bool) (ts : List Trap) (handler : Nat) : Bool :=
  ts.any fun t => t.handler = handler && catches t

theorem leads_iff : leads catches ts h = true ↔ ∃ t ∈ ts, t.handler = h ∧ catches t = true := by
  simp [leads]

/-- The first trap that catches is overtaken: a later one catches as well, and its handler has a
trap in front of all those of the former handler. -/
def Overtaken (catches : Trap → Bool) (ts : List Trap) : Prop :=
  ∃ front t rest, ts = front ++ t :: rest ∧ (∀ u ∈ front, catches u = false) ∧ catches t = true ∧
    ∃ before w after, front = before ++ w :: after ∧
      (∀ u ∈ before ++ [w], u.handler ≠ t.handler) ∧
      ∃ u ∈ rest, u.handler = w.handler ∧ catches u = true

/-- The traps of each handler stand together. -/
def Together (ts : List Trap) : Prop :=
  ∀ a b c, [a, b, c].Sublist ts → a.handler = c.handler → b.handler = a.handler

theorem Together.not_overtaken (h : Together ts) : ¬ Overtaken catches ts := by
  rintro ⟨_, t, rest, rfl, -, -, before, w, after, rfl, hne, u, hu, he, -⟩
  have hsub : [w, t, u].Sublist ((before ++ w :: after) ++ t :: rest) := by
    have hw : [w].Sublist (before ++ w :: after) := by simp
    have hu : [t, u].Sublist (t :: rest) := by simpa using hu
    exact hw.append hu
  exact hne w (by simp) (h w t u hsub he.symm).symm

theorem find?_eraseDups (p : Nat → Bool) (l : List Nat) : l.eraseDups.find? p = l.find? p := by
  induction h : l.length using Nat.strongRecOn generalizing l with
  | _ k ih =>
    cases l with
    | nil => rfl
    | cons a l =>
      subst h
      rw [List.eraseDups_cons, List.find?_cons, List.find?_cons,
        ih _ (Nat.lt_succ_of_le (List.length_filter_le ..)) _ rfl, List.find?_filter]
      cases ha : p a with
      | true => rfl
      | false =>
        refine congrArg (List.find? · l) (funext fun b => ?_)
        by_cases hb : b = a
        · simp [hb, ha]
        · simp [hb]

theorem find?_flatMap_filter {hs : List Nat} :
    ((hs.flatMap fun h => ts.filter (·.handler = h)).find? catches).map handler =
      hs.find? (leads catches ts) := by
  induction hs with
  | nil => rfl
  | cons h hs ih =>
    rw [List.flatMap_cons, List.find?_append, List.find?_cons, ← ih]
    cases hl : leads catches ts h with
    | true =>
      obtain ⟨t, ht, hh, hc⟩ := leads_iff.1 hl
      have hsome : ((ts.filter (·.handler = h)).find? catches).isSome = true :=
        List.find?_isSome.2 ⟨t, by simp [ht, hh], hc⟩
      obtain ⟨u, hu⟩ := Option.isSome_iff_exists.1 hsome
      have hmem := List.mem_filter.1 (List.mem_of_find?_eq_some hu)
      rw [hu]
      simpa using hmem.2
    | false =>
      have hnone : (ts.filter (·.handler = h)).find? catches = none := by
        refine List.find?_eq_none.2 fun t ht hc => ?_
        have ht := List.mem_filter.1 ht
        exact Bool.eq_false_iff.1 hl (leads_iff.2 ⟨t, ht.1, by simpa using ht.2, hc⟩)
      rw [hnone, Option.none_or]

/-- Grouped by handler, the traps lead to the handler of the first trap whose handler catches. -/
theorem find?_grouped {ts : List Trap} :
    ((((ts.map handler).eraseDups).flatMap fun h => ts.filter (·.handler = h)).find? catches).map
      handler = (ts.find? fun t => leads catches ts t.handler).map handler := by
  rw [find?_flatMap_filter, find?_eraseDups, List.find?_map]
  rfl

/-- The search by handlers ends in front of a trap or at a trap whose handler catches. -/
theorem find?_of_leads {ts front rest : List Trap} (hts : ts = front ++ t :: rest)
    (ht : leads catches ts t.handler = true) :
    (ts.find? fun u => leads catches ts u.handler) =
      (front.find? fun u => leads catches ts u.handler).or (some t) := by
  have hsplit : ∀ p : Trap → Bool, p t = true → ts.find? p = (front.find? p).or (some t) := by
    intro p hp
    rw [hts, List.find?_append, List.find?_cons_of_pos hp]
  exact hsplit _ ht

/-- The order of the groups and the order of the table choose one handler unless the first trap that
catches is overtaken. -/
theorem find?_leads_eq_iff {ts : List Trap} :
    (ts.find? fun t => leads catches ts t.handler).map handler =
      (ts.find? catches).map handler ↔ ¬ Overtaken catches ts := by
  constructor
  · rintro he ⟨front, t, rest, hts, hfront, ht, before, w, after, rfl, hne, u, hu, hw, hc⟩
    have hfirst : ts.find? catches = some t :=
      List.find?_eq_some_iff_append.2 ⟨ht, _, _, hts, fun a ha => by simp [hfront a ha]⟩
    have hlead : leads catches ts w.handler = true :=
      leads_iff.2 ⟨u, by simp [hts, hu], hw, hc⟩
    -- The handler of the trap that overtakes leads, so the search by handlers ends there or before.
    have hfind := find?_of_leads (by simpa using hts) hlead
    rw [hfirst, hfind] at he
    cases hx : before.find? fun u => leads catches ts u.handler with
    | none =>
      rw [hx, Option.none_or] at he
      exact hne w (by simp) (Option.some.inj he)
    | some x =>
      rw [hx, Option.some_or] at he
      exact hne x (List.mem_append_left _ (List.mem_of_find?_eq_some hx)) (Option.some.inj he)
  · intro hover
    cases hfirst : ts.find? catches with
    | none =>
      have hnone : (ts.find? fun t => leads catches ts t.handler) = none := by
        refine List.find?_eq_none.2 fun t _ hl => ?_
        obtain ⟨u, hu, -, hc⟩ := leads_iff.1 hl
        exact List.find?_eq_none.1 hfirst u hu hc
      rw [hnone]
    | some t =>
      obtain ⟨ht, front, rest, hts, hfront⟩ := List.find?_eq_some_iff_append.1 hfirst
      have htl : leads catches ts t.handler = true := leads_iff.2 ⟨t, by simp [hts], rfl, ht⟩
      rw [find?_of_leads hts htl]
      cases hw : front.find? fun u => leads catches ts u.handler with
      | none => rfl
      | some w =>
        obtain ⟨hwl, before, after, rfl, hbefore⟩ := List.find?_eq_some_iff_append.1 hw
        refine congrArg some (Classical.byContradiction fun hne => hover ?_)
        obtain ⟨u, hu, huh, huc⟩ := leads_iff.1 hwl
        refine ⟨_, t, rest, hts, fun a ha => by simpa using hfront a ha, ht, before, w, after, rfl,
          ?_, u, ?_, huh, huc⟩
        · intro a ha
          obtain ha | rfl := List.mem_append.1 ha |>.imp_right List.mem_singleton.1
          · intro he
            simpa [he, htl] using hbefore a ha
          · exact hne
        · rw [hts, List.mem_append, List.mem_cons] at hu
          obtain hu | rfl | hu := hu
          · simpa [huc] using hfront u hu
          · exact (hne huh.symm).elim
          · exact hu

end Trap

def Program.catches (p : Program) (i : ClassId) (t : Trap) : Bool := p.isSubtype i t.exception

namespace Code

/-- The handler of the first trap, in table order, that catches the class. -/
def handlerFor (c : Code) (p : Program) (n : Nat) (i : ClassId) : Option Nat :=
  ((c.trapsAt n).find? (p.catches i)).map Trap.handler

/-- The handler of the first trap, in table order, whose handler some trap for the class has. -/
def groupFor (c : Code) (p : Program) (n : Nat) (i : ClassId) : Option Nat :=
  ((c.trapsAt n).find? fun t => Trap.leads (p.catches i) (c.trapsAt n) t.handler).map Trap.handler

end Code

/-- The slot holds an exception of the class, and `<:` on the tags of classes is the order of the
hierarchy. -/
structure Program.Thrown (p : Program) (W : World) (σ : W.State) (slot : Ident) (i : ClassId) :
    Prop where
  ordered : ∀ i k τ κ, p.tag (.cls i) = .ok τ → p.tag (.cls k) = .ok κ →
    (W.Holds (W.binary .subtype (σ τ) (σ κ)) ↔ p.isSubtype i k = true)
  present : σ slot ≠ σ Prelude.null
  tagged : ∃ τ, p.tag (.cls i) = .ok τ ∧
    (Prelude.typeOf slot.expr).eval W.toInterp σ = σ τ

namespace Lower

variable {W : World} {σ : W.State} {enc : Encoding}

theorem sat_inFlight (h : F.program.Thrown W σ F.signature.exception i) :
    W.Sat σ (inFlight F) :=
  W.holds_neq.2 h.present

theorem sat_caughtBy {t : Trap} (h : F.program.Thrown W σ F.signature.exception i)
    (hτ : F.program.tag (.cls t.exception) = .ok τ) :
    W.Sat σ (caughtBy F τ) ↔ F.program.catches i t = true := by
  obtain ⟨κ, hκ, he⟩ := h.tagged
  rw [Program.catches, ← h.ordered _ _ _ _ hκ hτ, ← he]
  rfl

theorem TrapJumps.guards (h : TrapJumps F ts code j)
    (hi : F.program.Thrown W σ F.signature.exception i) :
    List.Forall₂ (W.Guards σ F.body.method (F.program.catches i)) ts (enc.encodeAll code) := by
  induction h with
  | nil => exact .nil
  | cons ht _ ih =>
    refine .cons ⟨_, rfl, ?_⟩ ih
    rw [← sat_caughtBy hi ht]
    exact W.holds_and.trans (and_iff_right (sat_inFlight hi))

theorem CatchJumps.guards {ts : List Trap}
    (h : CatchJumps F handler (ts.map Trap.exception) code j)
    (hts : ∀ t ∈ ts, t.handler = handler)
    (hi : F.program.Thrown W σ F.signature.exception i) :
    List.Forall₂ (W.Guards σ F.body.method (F.program.catches i)) ts (enc.encodeAll code) := by
  induction ts generalizing code j with
  | nil =>
    cases h
    exact .nil
  | cons t ts ih =>
    obtain ⟨rfl, hts⟩ := List.forall_mem_cons.1 hts
    cases h with
    | cons ht hrest => exact .cons ⟨_, rfl, sat_caughtBy hi ht⟩ (ih hrest hts)

theorem HandlerJumps.guards (h : HandlerJumps F ts hs code j) (enc : Encoding)
    (hi : F.program.Thrown W σ F.signature.exception i) :
    List.Forall₂ (W.Guards σ F.body.method (F.program.catches i))
      (hs.flatMap fun h => ts.filter (·.handler = h)) (enc.encodeAll code) := by
  induction h with
  | nil => exact .nil
  | cons hc _ ih =>
    rw [List.flatMap_cons, Encoding.encodeAll_append]
    refine List.rel_append (hc.guards (fun t ht => ?_) hi) ih
    simpa using (List.mem_filter.1 ht).2

theorem Executed.raise_guards (h : Executed F n s (.raise v) r j) (enc : Encoding)
    (hmany : 2 ≤ (F.body.handlersAt n).length) :
    ∃ before thrown code, r.code =
        before ++ [.plain (.assign F.signature.exception thrown)] ++ code ++ [.plain .ret] ∧
      ∀ (W : World) (σ : W.State) i, F.program.Thrown W σ F.signature.exception i →
        W.Selects σ (enc.encodeAll code) F.body.method (F.body.groupFor F.program n i) := by
  cases h with
  | raise _ _ _ hh =>
    cases hh with
    | leave h | single h => simp [h] at hmany
    | @many _ _ _ code _ h hj =>
      refine ⟨_, _, code, (List.append_assoc ..).symm, fun W σ i hi => ?_⟩
      have hsel := World.selects_of_guards (hj.guards enc hi)
      rwa [Code.handlersAt, Trap.find?_grouped] at hsel

theorem Invoked.guards {call : Call} (h : Invoked F n call target s r j) (enc : Encoding)
    (hm : F.program.method? call.method = .ok callee)
    (hi : F.program.intrinsic? callee = none) :
    ∃ before code after, r.code = before ++ code ++ after ∧
      Straight enc before ∧ Straight enc after ∧
      ∀ (W : World) (σ : W.State) i, F.program.Thrown W σ F.signature.exception i →
        W.Selects σ (enc.encodeAll code) F.body.method (F.body.handlerFor F.program n i) := by
  cases h with
  | exit hm' hi' | stringLengthDropped hm' hi' | stringLength hm' hi' =>
    cases hm.symm.trans hm'
    cases hi.symm.trans hi'
  | @call _ _ _ _ c₁ _ _ _ c₂ _ _ _ _ c₃ _ _ _ _ c₅ _ _ _ _ _ hr ha _ hp hx hw =>
    obtain @⟨guards, _, _, exits, _, hj, -, he⟩ := hx
    refine ⟨c₁ ++ c₂ ++ c₃, guards, exits ++ c₅, by simp, ?_, ?_, fun W σ i hi => ?_⟩
    · exact straight_append.2 ⟨straight_append.2 ⟨hr.straight, ha.straight⟩, hp.straight⟩
    · exact straight_append.2 ⟨he.straight, hw.straight⟩
    · exact World.selects_of_guards (hj.guards hi)

end Lower


/-- At a call the guards send an exception in the slot where the table says. -/
def Session.GuardsCalls (s : Session) (body : Body) (slot : Ident)
    (segments : List (List Stmt)) : Prop :=
  ∀ (k : Nat) node call target callee, body.nodes[k]? = some node →
    node.instr.call? = some (call, target) → s.program.method? call.method = .ok callee →
    s.program.intrinsic? callee = none → ∃ before guards after,
      segments[k]? = some (before ++ guards ++ after) ∧ jumps before = [] ∧ jumps after = [] ∧
      ∀ (W : World) (σ : W.State) c, s.program.Thrown W σ slot c →
        W.Selects σ guards body.method (body.handlerFor s.program k c)

/-- At a throw with several handlers the guards come last, and they go by groups. -/
def Session.GuardsThrows (s : Session) (body : Body) (slot : Ident)
    (segments : List (List Stmt)) : Prop :=
  ∀ (k : Nat) node v, body.nodes[k]? = some node → node.instr = .raise v →
    2 ≤ (body.handlersAt k).length → ∃ before thrown guards,
      segments[k]? = some (before ++ [.assign slot thrown] ++ guards ++ [.ret]) ∧
      ∀ (W : World) (σ : W.State) c, s.program.Thrown W σ slot c →
        W.Selects σ guards body.method (body.groupFor s.program k c)

theorem Session.lower_guarded {s : Session} {body : Body} {i : Implementation}
    (h : (s.lower body).1 = .ok i) :
    ∃ prologue segments sig, i.body = prologue ++ segments.flatten ∧
      segments.length = body.nodes.length ∧
      (Signature.build s.program s.prelude body.method).result = .ok sig ∧
      s.GuardsThrows body sig.exception segments ∧
      s.GuardsCalls body sig.exception segments := by
  obtain ⟨low, j, hlow, rfl, -⟩ := Session.lower_gives h
  let enc := low.encoding s.options
  refine ⟨low.prologue s.options, low.segments.map enc.encodeAll, low.signature,
    congrArg (_ ++ ·) (List.flatMap_def ..), by simpa using hlow.segments_length,
    hlow.signature_eq, ?_, ?_⟩
  · intro k node v hnode hraise hmany
    obtain ⟨F, _, r, _, hx, ⟨hp, -, hb, hsig⟩, hseg⟩ := hlow.executed hnode
    rw [hraise] at hx
    rw [← hb] at hmany
    obtain ⟨before, thrown, code, hr, hsel⟩ := hx.raise_guards enc hmany
    rw [hp, hb, hsig] at hsel
    refine ⟨enc.encodeAll (Lower.entryCode F k ++ before), thrown, enc.encodeAll code, ?_, hsel⟩
    rw [List.getElem?_map, hseg, hr, hsig]
    simp
  · intro k node call target callee hnode hcall hm hi
    obtain ⟨F, _, r, _, hx, ⟨hp, -, hb, hsig⟩, hseg⟩ := hlow.executed hnode
    rw [← hp] at hm hi
    obtain ⟨before, code, after, hr, hbefore, hafter, hsel⟩ :=
      (hx.invoked hcall).guards enc hm hi
    rw [hp, hb, hsig] at hsel
    refine ⟨enc.encodeAll (Lower.entryCode F k ++ before), enc.encodeAll code,
      enc.encodeAll after, ?_, ?_, hafter.2, hsel⟩
    · rw [List.getElem?_map, hseg, hr]
      simp
    · simp [Lower.jumps_entryCode, hbefore.2]

/-- At a throw with several handlers control goes to the handler of the first trap that catches, and
it leaves the procedure if there is none, unless that trap is overtaken. At a call it goes by the
table in any case. -/
theorem Session.lower_handlers {s : Session} {body : Body} {i : Implementation}
    (h : (s.lower body).1 = .ok i) :
    ∃ prologue segments sig, i.body = prologue ++ segments.flatten ∧
      segments.length = body.nodes.length ∧
      (Signature.build s.program s.prelude body.method).result = .ok sig ∧
      (∀ (k : Nat) node v, body.nodes[k]? = some node → node.instr = .raise v →
        2 ≤ (body.handlersAt k).length → ∃ before thrown guards,
          segments[k]? = some (before ++ [.assign sig.exception thrown] ++ guards ++ [.ret]) ∧
          ∀ (W : World) (σ : W.State) c, s.program.Thrown W σ sig.exception c →
            W.Selects σ guards body.method (body.groupFor s.program k c) ∧
            (W.Selects σ guards body.method (body.handlerFor s.program k c) ↔
              ¬ Trap.Overtaken (s.program.catches c) (body.trapsAt k))) ∧
      s.GuardsCalls body sig.exception segments := by
  obtain ⟨prologue, segments, sig, hbody, hlen, hsig, hthrow, hcall⟩ := Session.lower_guarded h
  refine ⟨prologue, segments, sig, hbody, hlen, hsig, ?_, hcall⟩
  intro k node v hnode hraise hmany
  obtain ⟨before, thrown, guards, hseg, hsel⟩ := hthrow k node v hnode hraise hmany
  refine ⟨before, thrown, guards, hseg, fun W σ c hc => ?_⟩
  have hgroup := hsel W σ c hc
  refine ⟨hgroup, ?_⟩
  rw [← Trap.find?_leads_eq_iff]
  constructor
  · exact fun htable => hgroup.unique htable
  · intro he
    rw [Code.handlerFor, ← he]
    exact hgroup

open Classical in
/-- Free values, where `<:` compares the tags of classes by the order of the hierarchy. -/
noncomputable abbrev Program.interp (p : Program) : Interp where
  __ := Interp.free
  binary
    | .subtype, a, b => .bool (decide (∃ i k τ κ, p.tag (.cls i) = .ok τ ∧
        p.tag (.cls k) = .ok κ ∧ a = .name τ ∧ b = .name κ ∧ p.isSubtype i k = true))
    | op, a, b => Interp.free.binary op a b
  holds_eq := Interp.free.holds_eq
  holds_neq := Interp.free.holds_neq
  holds_and := Interp.free.holds_and
  holds_or := Interp.free.holds_or

/-- Calls change nothing. -/
noncomputable abbrev Program.world (p : Program) : World where
  toInterp := p.interp
  isGlobal _ := false
  isGlobal_constant _ := rfl
  callee _ _ σ := σ

/-- Names stand for themselves, and the object in the slot has the tag. -/
def thrownState (slot tag x : Ident) : Free :=
  if x = Prelude.heap then
    .update (.bool false) [.name slot, .name Prelude.typeField] (.name tag)
  else .name x

theorem thrownState_name (hx : x ≠ Prelude.heap) : thrownState slot tag x = .name x := if_neg hx

/-- A program whose classes have distinct tags can throw an exception of any class. -/
theorem Program.thrown_world {p : Program}
    (hnames : (p.classes.map fun c => sanitize c.name).Nodup) (hτ : p.tag (.cls i) = .ok τ)
    (hslot : slot ≠ Prelude.null) (hheap : slot ≠ Prelude.heap) :
    p.Thrown p.world (thrownState slot τ) slot i := by
  have htag : ∀ {k κ}, p.tag (.cls k) = .ok κ → thrownState slot τ κ = .name κ := by
    intro k κ hκ
    refine thrownState_name fun he => ?_
    simpa [he, Prelude.heap] using Program.tag_ty hκ
  have hinj : ∀ {k k' κ}, p.tag (.cls k) = .ok κ → p.tag (.cls k') = .ok κ → k = k' := by
    intro k k' κ hk hk'
    by_contra hne
    exact Program.tagsDistinct_free (fun _ _ => rfl) hnames k k' κ κ hne hk hk' rfl
  refine ⟨?_, ?_, τ, hτ, ?_⟩
  · intro i k τ κ hτ hκ
    rw [htag hτ, htag hκ]
    simp only [Free.bool.injEq, decide_eq_true_iff]
    constructor
    · rintro ⟨i', k', _, _, hτ', hκ', hi, hk, hsub⟩
      cases hi
      cases hk
      rwa [hinj hτ hτ', hinj hκ hκ']
    · exact fun hsub => ⟨i, k, τ, κ, hτ, hκ, rfl, rfl, hsub⟩
  · rw [thrownState_name hheap, thrownState_name (by decide)]
    simpa using hslot
  · have htype : thrownState slot τ Prelude.typeField = .name Prelude.typeField :=
      thrownState_name (by decide)
    simp only [Prelude.typeOf, Prelude.read, Ident.expr, Expr.eval, Expr.evalAll, htype, htag hτ,
      thrownState_name hheap]
    simp [thrownState, Free.select]

abbrev pickingSlot : Ident := ⟨"$exception", .ref⟩

/-- The state in which the exception is of a class of that name. -/
abbrev pickingState (name : String) : Ident → Free :=
  thrownState pickingSlot ⟨"$type_" ++ name, .tag⟩

theorem picking_thrown (h : picking.tag (.cls i) = .ok ⟨"$type_" ++ name, .tag⟩) :
    picking.Thrown picking.world (pickingState name) pickingSlot i :=
  Program.thrown_world (by decide +kernel) h (by decide) (by decide)

theorem picking_exception
    (h : (Signature.build picking .standard 0).result = .ok sig) :
    sig.exception = pickingSlot := by
  have hslot : (Signature.build picking .standard 0).result.toOption.map Signature.exception =
      some pickingSlot := by decide +kernel
  simpa [h, Except.toOption] using hslot

/-- With a handler each, `Late` goes to its own one and `Throwable` leaves the procedure. -/
theorem lower_handlers_parting :
    ∃ i prologue before thrown guards, ∃ segments : List (List Stmt),
      (pickingSession.lower partingBody).1 = .ok i ∧ i.body = prologue ++ segments.flatten ∧
      segments[1]? = some (before ++ [.assign pickingSlot thrown] ++ guards ++ [.ret]) ∧
      picking.world.Selects (pickingState "Late") guards 0 (some 4) ∧
      picking.world.Selects (pickingState "java.lang.Throwable") guards 0 none := by
  obtain ⟨i, hi⟩ := exists_of_isOk (x := (pickingSession.lower partingBody).1) (by decide +kernel)
  obtain ⟨prologue, segments, sig, hbody, -, hsig, hthrow, -⟩ := Session.lower_handlers hi
  obtain ⟨before, thrown, guards, hseg, hsel⟩ := hthrow 1 _ _ rfl rfl (by decide)
  rw [picking_exception hsig] at hseg hsel
  have htwo : (partingBody.trapsAt 1).length = 2 := by decide
  have htogether : Trap.Together (partingBody.trapsAt 1) := by
    intro a b c hsub
    have hlen := hsub.length_le
    simp [htwo] at hlen
  have hright : ∀ c τ, picking.Thrown picking.world τ pickingSlot c →
      picking.world.Selects τ guards 0 (partingBody.handlerFor picking 1 c) :=
    fun c τ hc => (hsel _ _ c hc).2.2 htogether.not_overtaken
  exact ⟨i, prologue, before, thrown, guards, segments, hi, hbody, hseg,
    hright 4 _ (picking_thrown (by decide +kernel)),
    hright ClassId.throwable _ (picking_thrown (by decide +kernel))⟩

/-- A trap of the first handler behind the one of the second, for all exceptions. -/
def crossingBody : Body where
  method := 0
  slots := [⟨"x", .cls ClassId.throwable⟩, ⟨"e", .cls ClassId.throwable⟩]
  nodes := pickingNodes
  traps := [⟨1, 2, 3, 2⟩, ⟨1, 2, 4, 4⟩, ⟨1, 2, ClassId.throwable, 2⟩]
  sound := by decide

/-- The table sends `Late` to node 4, the guards of the throw to node 2. -/
theorem crossing_overtaken :
    crossingBody.handlerFor picking 1 4 = some 4 ∧
    ∃ i prologue before thrown guards, ∃ segments : List (List Stmt),
      (pickingSession.lower crossingBody).1 = .ok i ∧ i.body = prologue ++ segments.flatten ∧
      segments[1]? = some (before ++ [.assign pickingSlot thrown] ++ guards ++ [.ret]) ∧
      picking.Thrown picking.world (pickingState "Late") pickingSlot 4 ∧
      picking.world.Selects (pickingState "Late") guards 0 (some 2) ∧
      ¬ picking.world.Selects (pickingState "Late") guards 0 (some 4) := by
  obtain ⟨i, hi⟩ := exists_of_isOk (x := (pickingSession.lower crossingBody).1) (by decide +kernel)
  obtain ⟨prologue, segments, sig, hbody, -, hsig, hthrow, -⟩ := Session.lower_guarded hi
  obtain ⟨before, thrown, guards, hseg, hsel⟩ := hthrow 1 _ _ rfl rfl (by decide)
  rw [picking_exception hsig] at hseg hsel
  have hlate : picking.Thrown picking.world (pickingState "Late") pickingSlot 4 :=
    picking_thrown (by decide +kernel)
  have hgroup : crossingBody.groupFor picking 1 4 = some 2 := by decide +kernel
  have htwo := hsel _ _ 4 hlate
  rw [show pickingSession.program = picking from rfl, hgroup] at htwo
  exact ⟨by decide +kernel, i, prologue, before, thrown, guards, segments, hi, hbody, hseg, hlate,
    htwo, fun hfour => absurd (htwo.unique hfour) (by decide)⟩

end Verilower
