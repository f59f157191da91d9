import Verilower.Proofs.Devirtualization
import Verilower.Proofs.Ivl.Flow
import Verilower.Proofs.Lowering.Dereferences

namespace Verilower
set_option autoImplicit true

open Ivl

def thisVar : Ident := ⟨"$this", .ref⟩

/-- A signature with the names that declarations are made with. -/
structure Signature.Conventional (sig : Signature) : Prop where
  receiver : ∀ this, sig.receiver = some this → this = thisVar
  exception : sig.exception = ⟨"$exception", .ref⟩
  result : ∀ x, sig.result = some x → x.IsReserved
  settable : ∀ x ∈ sig.procedure.outs, x.Settable

/-- Only a prelude other than the standard one can bring in other names, with a procedure of its
own. -/
theorem Signature.Built.conventional (h : Built p q i sig j)
    (hq : q = .standard ∨ q.find? sig.name = none) : sig.Conventional := by
  cases h with
  | adopted hm hn hfind ha =>
    rcases hq with rfl | hnone
    · have hsettable := fun x => (Built.adopted hm hn hfind ha).outs_settable (x := x)
      have hproc := List.mem_singleton.1 (List.mem_of_find?_eq_some hfind)
      rw [hproc] at ha
      have hins : sig.receiver.toList ++ sig.params = [thisVar] := ha.formals
      have houts : [⟨"$return", .ref⟩] ++ [⟨"$exception", .ref⟩] =
          sig.result.toList ++ [sig.exception] := ha.outs
      obtain ⟨hresult, hexception⟩ := List.append_inj' houts rfl
      refine ⟨fun this hthis => ?_, (List.singleton_inj.1 hexception).symm, fun x hx => ?_,
        hsettable⟩
      · rw [hthis] at hins
        exact (List.cons.inj hins).1
      · rw [hx] at hresult
        rw [← List.singleton_inj.1 hresult]
        decide
    · have hname := List.find?_some hfind
      rw [Signature.name, ha.procedure, of_decide_eq_true hname, hfind] at hnone
      cases hnone
  | declared hm hn hfind hnr hps hr hs =>
    refine ⟨fun this hthis => ?_, rfl, fun x hx => ?_,
      fun x => (Built.declared hm hn hfind hnr hps hr hs).own_outs_settable rfl⟩
    · change receiverIdent _ = some this at hthis
      unfold receiverIdent at hthis
      split at hthis
      · cases hthis
      · exact (Option.some.inj hthis).symm
    · rw [Ident.IsReserved, name_of_resultOf (hr.trans (congrArg _ hx))]
      decide

theorem not_isReserved_of_ofSlots {slots : List Slot} (h : LocalPool.ofSlots slots = .ok pool)
    (hx : x ∈ pool.slots) : ¬ x.IsReserved := by
  obtain ⟨⟨c, cs, hc, hne⟩, -⟩ := ofSlots_vars h (List.mem_append_left _ hx)
  simp [Ident.IsReserved, hc, hne]

def Instr.BindsReceiver (vars : List Ident) (x : Ident) : Instr → Prop
  | .identity index .receiver | .assign (.slot index) .receiver => vars[index]? = some x
  | _ => False

/-- Whether a node in front of node `k` binds the receiver to a local. -/
def Body.BoundBefore (b : Body) (k index : Nat) : Prop :=
  ∃ (m : Nat) (node : Node), m < k ∧ b.nodes[m]? = some node ∧
    node.instr = .identity index .receiver

/-- Whether control can go from a node to another one. -/
def Body.Follows (b : Body) (p : Program) (k m : Nat) : Prop :=
  ∃ node, b.nodes[k]? = some node ∧
    (node.instr.fallsThrough = true ∧ m = k + 1 ∨ m ∈ b.jumpTargets p k node.instr)

/-- The nodes to which control can come while a variable may hold something else than the receiver:
on the way there it is not bound at all, or it is assigned after it was bound. -/
inductive Stale (p : Program) (b : Body) (vars : List Ident) (x : Ident) : Nat → Prop
  | start : Stale p b vars x 0
  | assigned (hn : b.nodes[k]? = some node) (hb : ¬ node.instr.BindsReceiver vars x)
      (hs : node.instr.Sets p vars x) (hf : b.Follows p k m) : Stale p b vars x m
  | kept (h : Stale p b vars x k) (hn : b.nodes[k]? = some node)
      (hb : ¬ node.instr.BindsReceiver vars x) (hf : b.Follows p k m) : Stale p b vars x m

/-- What the segments of a body do with the variables of its locals and with the receiver. -/
structure Tracks (p : Program) (b : Body) (vars : List Ident) (segments : List (List Stmt)) :
    Prop where
  length : segments.length = b.nodes.length
  segment : ∀ {k : Nat} {node seg}, b.nodes[k]? = some node → segments[k]? = some seg →
    Segment p b k node.instr seg
  sets : ∀ {k : Nat} {node seg x}, b.nodes[k]? = some node → segments[k]? = some seg →
    x ∈ vars → x ∈ targets seg → node.instr.Sets p vars x
  binds : ∀ {k : Nat} {node seg x}, b.nodes[k]? = some node → segments[k]? = some seg →
    node.instr.BindsReceiver vars x → ∃ front, seg = front ++ [.assign x thisVar.expr]
  spares : ∀ seg ∈ segments, thisVar ∉ targets seg

theorem Instr.BindsReceiver.eq {instr : Instr} (h : instr.BindsReceiver vars x) :
    ∃ index : Nat, vars[index]? = some x ∧
      (instr = .identity index .receiver ∨ instr = .assign (.slot index) .receiver) := by
  unfold BindsReceiver at h
  split at h
  · exact ⟨_, h, .inl rfl⟩
  · exact ⟨_, h, .inr rfl⟩
  · cases h

theorem jumpTargets_of_bindsReceiver {b : Body} {instr : Instr} (h : instr.BindsReceiver vars x) :
    b.jumpTargets p k instr = [] := by
  obtain ⟨index, -, rfl | rfl⟩ := h.eq <;> rfl

namespace Tracks

variable {W : World} {σ σ' τ σ₀ : W.State}

theorem exists_node (h : Tracks p b vars segments) {k : Nat} (hk : segments[k]? = some seg) :
    ∃ node, b.nodes[k]? = some node :=
  ⟨_, List.getElem?_eq_getElem (h.length ▸ (List.getElem?_eq_some_iff.1 hk).1)⟩

theorem labelsLead (h : Tracks p b vars segments) : LabelsLead segments := by
  rintro seg hmem front l back rfl
  obtain ⟨k, hk⟩ := List.mem_iff_getElem?.1 hmem
  obtain ⟨node, hnode⟩ := h.exists_node hk
  have hseg := h.segment hnode hk
  have hlabels := hseg.labels
  rw [labels_append, labels_label] at hlabels
  split at hlabels
  · rename_i ht
    cases front with
    | nil => rfl
    | cons st front =>
      have hhead := hseg.starts.2 ht
      obtain rfl : st = _ := Option.some.inj hhead
      simp at hlabels
  · simp at hlabels

theorem eq_of_binds (h : W.Exec σ (front ++ [.assign x thisVar.expr]) cs σ' []) :
    σ' x = σ' thisVar := by
  obtain ⟨as, hne, heq, -⟩ | ⟨σ₁, _, _, -, -, hlast⟩ := h.of_append
  · cases as with
    | nil => exact absurd rfl hne
    | cons => cases heq
  · cases hlast with
    | step hs hrest =>
      cases hs with
      | assign =>
        obtain ⟨-, rfl, -⟩ := hrest.of_nil
        by_cases hthis : thisVar = x <;> simp [hthis, Ident.expr, Expr.eval]

/-- Code that does not bind a variable hands on whether it holds the receiver. -/
theorem step (h : Tracks p b vars segments) (hx : x ∈ vars) (hgx : W.isGlobal x = false)
    (hgt : W.isGlobal thisVar = false) (hnode : b.nodes[k]? = some node)
    (hk : segments[k]? = some seg) (hs : W.Exec σ seg cs σ' ss)
    (hb : ¬ node.instr.BindsReceiver vars x) (hf : b.Follows p k m)
    (hm : ¬ Stale p b vars x m) (ih : ¬ Stale p b vars x k → σ x = σ thisVar) :
    σ' x = σ' thisVar := by
  have hsets : x ∉ targets seg := fun hmem =>
    hm (.assigned hnode hb (h.sets hnode hk hx hmem) hf)
  have hbefore := ih fun hstale => hm (.kept hstale hnode hb hf)
  have hthis := hs.frame (h.spares seg (List.mem_of_getElem? hk)) hgt
  rw [hs.frame hsets hgx, hthis, hbefore]

/-- A variable that is not stale at a segment holds the receiver when the segment is entered. -/
theorem holds (h : Tracks p b vars segments) (hx : x ∈ vars) (hgx : W.isGlobal x = false)
    (hgt : W.isGlobal thisVar = false) (he : W.Enters prologue segments σ₀ k τ)
    (hk : ¬ Stale p b vars x k) : τ x = τ thisVar := by
  induction he with
  | start => exact (hk .start).elim
  | next _ hseg hs ih =>
    obtain ⟨node, hnode⟩ := h.exists_node hseg
    by_cases hb : node.instr.BindsReceiver vars x
    · obtain ⟨front, rfl⟩ := h.binds hnode hseg hb
      exact eq_of_binds hs
    · have hfalls : node.instr.fallsThrough = true := by
        by_contra hclosed
        exact (h.segment hnode hseg).closed (by simpa using hclosed) (hs.path .nil)
      exact h.step hx hgx hgt hnode hseg hs hb ⟨node, hnode, .inl ⟨hfalls, rfl⟩⟩ hk ih
  | @jump _ _ _ _ _ _ _ l m rest _ hseg hs hl hm ih =>
    obtain ⟨node, hnode⟩ := h.exists_node hseg
    obtain ⟨_, hnode'⟩ := h.exists_node hm
    obtain ⟨n, hn, rfl⟩ := ((h.segment hnode hseg).jumps _).1 (hs.path (.goto hl)).mem_jumps
    have hlabels := (h.segment hnode' hm).labels
    obtain rfl : n = m := by
      rw [labels_label] at hlabels
      split at hlabels
      · exact labelName_injective (List.cons.inj hlabels).1
      · cases hlabels
    have hb : ¬ node.instr.BindsReceiver vars x := by
      intro hb
      rw [jumpTargets_of_bindsReceiver hb] at hn
      cases hn
    exact h.step hx hgx hgt hnode hseg hs hb ⟨node, hnode, .inr hn⟩ hk ih

end Tracks

theorem converts_this (h : Lower.Converts thisVar.expr ty e) : e = thisVar.expr := by
  obtain ⟨source, hsource, hconvert⟩ := Prelude.coerce_eq_ok.1 h
  obtain rfl : Ivl.Ty.ref = source := Except.ok.inj hsource
  unfold Prelude.convert at hconvert
  dsimp only at hconvert
  split at hconvert
  · exact (Option.some.inj hconvert).symm
  · cases hconvert

namespace Lower

theorem Executed.binds (h : Executed F n s i r j) (hr : F.signature.Conventional)
    (hb : i.BindsReceiver s.pool.slots x) : r.code = [.plain (.assign x thisVar.expr)] := by
  obtain ⟨index, hvar, rfl | rfl⟩ := hb.eq
  · cases h with
    | identity h =>
      cases h with
      | receiver hx hthis hc =>
        obtain rfl := hr.receiver _ hthis
        obtain rfl := Option.some.inj ((LocalPool.getElem?_of_slot hx).symm.trans hvar)
        rw [converts_this hc]
  · cases h with
    | assign h =>
      cases h with
      | value ho hst =>
        cases ho with
        | receiver hthis =>
          cases hst with
          | slot hx hc =>
            obtain rfl := hr.receiver _ hthis
            obtain rfl := Option.some.inj ((LocalPool.getElem?_of_slot hx).symm.trans hvar)
            rw [converts_this hc, List.nil_append]
          | field hi => cases hi

theorem targets_entryCode {enc : Encoding} : targets (enc.encodeAll (entryCode F n)) = [] := by
  unfold entryCode
  split
  · exact targets_passive .label
  · rfl

theorem Evaluates.isReserved {enc : Encoding} (h : Evaluates F enc s bases code)
    (he : enc.slot.IsReserved) : ∀ x ∈ targets (enc.encodeAll code), x.IsReserved := by
  obtain ⟨-, ts, hts⟩ := h
  exact hts.target (by decide) he fun _ => by decide

theorem Splits.target {enc : Encoding} {V : Ident → Prop} (h : Splits F enc s bases V code)
    (he : enc.slot.IsReserved) : ∀ x ∈ targets (enc.encodeAll code), x.IsReserved ∨ V x := by
  obtain ⟨front, back, ts, rfl, hf, hb⟩ := h
  intro x hx
  rw [Encoding.encodeAll_append, targets_append, List.mem_append] at hx
  rcases hx with hx | hx
  · exact .inl (hf.isReserved he x hx)
  · exact hb.target (.inl (by decide)) (.inl he) (fun _ => .inl (by decide)) x hx

end Lower

/-- The derivation of a node, with the locals of the body and those that are bound before it. -/
theorem BodyLowered.node (h : BodyLowered p q g body l j) {k : Nat} {node : Node}
    (hnode : body.nodes[k]? = some node) :
    ∃ F t r j, Lower.Executed F k t node.instr r j ∧ F.program = p ∧ F.prelude = q ∧
      F.body = body ∧ F.signature = l.signature ∧
      l.segments[k]? = some (Lower.entryCode F k ++ r.code) ∧ t.pool.slots = l.pool.slots ∧
      ∀ index, index ∈ t.receivers ↔ body.BoundBefore k index := by
  obtain ⟨hm, hs, hp, hseg⟩ := h
  have hz : body.nodes.zipIdx[k]? = some (node, k) := by simp [hnode]
  obtain ⟨t, r, j', hx, hk, hslots, hreceivers⟩ := hseg.node hz
  have hpool := hseg.pool (I := fun pool => pool.slots = _) (fun _ _ hp => hp) rfl
  refine ⟨_, t, r, j', hx, rfl, rfl, rfl, rfl, hk, hslots.trans hpool.symm, fun index => ?_⟩
  rw [hreceivers]
  constructor
  · rintro (hnil | ⟨m, nd, hm, hnd, hi⟩)
    · cases hnil
    · rw [List.getElem?_zipIdx] at hnd
      obtain ⟨node', hnode', rfl⟩ := Option.map_eq_some_iff.1 hnd
      exact ⟨m, node', hm, hnode', hi⟩
  · rintro ⟨m, node', hm, hnode', hi⟩
    exact .inr ⟨m, (node', m), hm, by simp [hnode'], hi⟩

theorem BodyLowered.slots_eq (h : BodyLowered p q g body l j) :
    ∃ pool, LocalPool.ofSlots body.slots = .ok pool ∧ l.pool.slots = pool.slots := by
  obtain ⟨-, -, hp, hseg⟩ := h
  exact ⟨_, hp, hseg.pool (I := fun pool => pool.slots = _) (fun _ _ hp => hp) rfl⟩

theorem BodyLowered.slots_not_isReserved (h : BodyLowered p q g body l j) :
    ∀ x ∈ l.pool.slots, ¬ x.IsReserved := by
  obtain ⟨pool, hp, hslots⟩ := h.slots_eq
  intro x hx
  rw [hslots] at hx
  exact not_isReserved_of_ofSlots hp hx

theorem BodyLowered.this_notMem (h : BodyLowered p q g body l j) (hr : l.signature.Conventional)
    {enc : Encoding} (henc : enc.slot = l.signature.exception) :
    ∀ seg ∈ l.segments, thisVar ∉ targets (enc.encodeAll seg) := by
  obtain ⟨hm, hs, hp, hseg⟩ := h
  obtain ⟨_, hb⟩ := Signature.built_of_result hs
  have houts := hr.settable
  rw [hb.outs_eq] at houts
  have hexception := houts _ (List.mem_append_right _ List.mem_cons_self)
  have hresult := fun x hx => houts x (List.mem_append_left _ (Option.mem_toList.2 hx))
  have hadmits := hseg.admits hp (V := fun x => x.Assignable ∨ x = LocalPool.flag)
    (fun x hx => .inl hx.toAssignable) (.inl hexception.toAssignable)
    fun x hx => .inl (hresult x hx).toAssignable
  intro seg hmem hthis
  obtain ⟨ts, hts⟩ := hseg.emits_mem hadmits hmem
  have htarget := hts.target (.inl (.map List.mem_cons_self))
    (.inl (henc ▸ hexception.toAssignable)) (fun _ => .inr rfl) _ hthis
  rcases htarget with hassignable | hflag
  · exact hassignable.ne (y := thisVar) (by decide) rfl
  · revert hflag
    decide

theorem BodyLowered.tracks (h : BodyLowered p q g body l j) (hr : l.signature.Conventional)
    {enc : Encoding} (henc : enc.slot = l.signature.exception) :
    Tracks p body l.pool.slots (l.segments.map enc.encodeAll) := by
  have hslot : enc.slot.IsReserved := by
    rw [henc, hr.exception]
    decide
  constructor
  case length => simpa using h.segments_length
  case segment => exact fun hnode hseg => h.segment enc hnode hseg
  case sets =>
    intro k node seg x hnode hseg hx hmem
    obtain ⟨F, t, r, j, hexec, rfl, -, -, hsig, hk, hslots, -⟩ := h.node hnode
    rw [List.getElem?_map, hk] at hseg
    obtain rfl := Option.some.inj hseg
    rw [Encoding.encodeAll_append, targets_append, Lower.targets_entryCode, List.nil_append] at hmem
    have hsplits := hexec.splits enc (hsig ▸ henc ▸ hslot) (hsig ▸ hr.result)
    rcases hsplits.target hslot x hmem with hres | hsets
    · exact (h.slots_not_isReserved x hx hres).elim
    · rwa [hslots] at hsets
  case binds =>
    intro k node seg x hnode hseg hbinds
    obtain ⟨F, t, r, j, hexec, -, -, -, hsig, hk, hslots, -⟩ := h.node hnode
    rw [List.getElem?_map, hk] at hseg
    obtain rfl := Option.some.inj hseg
    rw [hexec.binds (hsig ▸ hr) (hslots ▸ hbinds), Encoding.encodeAll_append]
    exact ⟨_, rfl⟩
  case spares =>
    intro ss hmem
    obtain ⟨seg, hseg, rfl⟩ := List.mem_map.1 hmem
    exact h.this_notMem hr henc seg hseg

/-- The segment of a node begins with its dereferences, each behind its check. -/
theorem BodyLowered.nullChecked (h : BodyLowered p q g body l j) (hr : l.signature.Conventional)
    {enc : Encoding} (henc : enc.slot = l.signature.exception) {k : Nat} {node : Node}
    (hnode : body.nodes[k]? = some node) :
    ∃ code rest, (l.segments.map enc.encodeAll)[k]? = some (code ++ rest) ∧
      NullChecked enc l.pool.slots (body.BoundBefore k) (node.instr.derefs p) code ∧
      ∀ x ∈ l.pool.slots, x ∉ targets code := by
  have hslot : enc.slot.IsReserved := by
    rw [henc, hr.exception]
    decide
  obtain ⟨F, t, r, j, hexec, rfl, -, -, hsig, hk, hslots, hbound⟩ := h.node hnode
  obtain ⟨front, back, ts, hcode, hfront, -⟩ :=
    hexec.splits enc (hsig ▸ henc ▸ hslot) (hsig ▸ hr.result)
  refine ⟨enc.encodeAll (Lower.entryCode F k ++ front), enc.encodeAll back, ?_, ?_, ?_⟩
  · rw [List.getElem?_map, hk, hcode, ← Encoding.encodeAll_append, List.append_assoc]
    rfl
  · rw [Encoding.encodeAll_append, ← hslots]
    exact (hfront.checked.congr hbound).skip
  · intro x hx hmem
    rw [Encoding.encodeAll_append, targets_append, Lower.targets_entryCode, List.nil_append] at hmem
    exact h.slots_not_isReserved x hx (hfront.isReserved hslot x hmem)

/-- Null checks of locals. The code of a node begins with its dereferences, and each of them has its
check unless it is of a local to which a node before binds the receiver. As long as the node has not
assigned it, a local that is not stale there holds the receiver in every execution. -/
theorem Session.lower_receivers {s : Session} {body : Body} {i : Implementation}
    (h : (s.lower body).1 = .ok i)
    (hq : s.prelude = .standard ∨ s.prelude.find? i.name = none) :
    ∃ pool prologue segments, LocalPool.ofSlots body.slots = .ok pool ∧ pool.slots <+: i.locals ∧
      i.body = prologue ++ segments.flatten ∧ segments.length = body.nodes.length ∧
      (∀ (W : World) (σ₀ σ : W.State) ss, W.Reaches i.body σ₀ σ ss →
        W.Inside prologue segments σ₀ σ ss) ∧
      ∀ (k : Nat) node, body.nodes[k]? = some node →
        ∃ code rest, segments[k]? = some (code ++ rest) ∧
          NullChecked ⟨s.options.errorModel, ⟨"$exception", .ref⟩, s.options.noArrayBoundsChecks⟩
            pool.slots (body.BoundBefore k) (node.instr.derefs s.program) code ∧
          ∀ x ∈ pool.slots, x ∉ targets code ∧
            ∀ (W : World) (σ₀ τ σ : W.State) front back cs,
              (∀ y ∈ thisVar :: i.locals, W.isGlobal y = false) →
              ¬ Stale s.program body pool.slots x k → W.Enters prologue segments σ₀ k τ →
              code ++ rest = front ++ back → x ∉ targets front → W.Exec τ front cs σ [] →
              σ x = σ thisVar := by
  obtain ⟨l, j, hb, rfl, -⟩ := Session.lower_gives h
  obtain ⟨_, hbuilt⟩ := Signature.built_of_result hb.signature_eq
  have hr := hbuilt.conventional hq
  have henc : l.encoding s.options =
      ⟨s.options.errorModel, ⟨"$exception", .ref⟩, s.options.noArrayBoundsChecks⟩ := by
    rw [Lowered.encoding, Signature.encoding, hr.exception]
  have hslot : (l.encoding s.options).slot = l.signature.exception := rfl
  have htracks := hb.tracks hr hslot
  have hpro := straight_of_isSimple (l.prologue_isSimple s.options)
  have hbody : (l.implementation s.options).body =
      l.prologue s.options ++ (l.segments.map (l.encoding s.options).encodeAll).flatten := by
    simp [Lowered.implementation, List.flatMap_def]
  obtain ⟨pool, hp, hslots⟩ := hb.slots_eq
  have hlocals : pool.slots <+: (l.implementation s.options).locals := by
    rw [← hslots]
    exact ⟨_, (List.append_assoc ..).symm⟩
  refine ⟨pool, _, _, hp, hlocals, hbody, htracks.length, ?_, ?_⟩
  · intro W σ₀ σ ss hreach
    rw [hbody] at hreach
    exact hreach.inside ⟨hpro.1, hpro.2.1⟩ htracks.labelsLead
  · intro k node hnode
    obtain ⟨code, rest, hk, hchecked, hspares⟩ := hb.nullChecked hr hslot hnode
    rw [hslots] at hchecked hspares
    refine ⟨code, rest, hk, henc ▸ hchecked, fun x hx => ⟨hspares x hx, ?_⟩⟩
    intro W σ₀ τ σ front back cs hlocal hstale henters hcode hfront hexec
    have hgx := hlocal x (List.mem_cons_of_mem _ (hlocals.subset hx))
    have hgt := hlocal thisVar List.mem_cons_self
    have hthis := htracks.spares _ (List.mem_of_getElem? hk)
    rw [hcode, targets_append, List.mem_append, not_or] at hthis
    rw [hexec.frame hfront hgx, hexec.frame hthis.1 hgt]
    exact htracks.holds (hslots ▸ hx) hgx hgt henters (hslots ▸ hstale)

/-- A class with a field and with a method to read it. -/
def reading : Program := .declaring [
  .addClass "A",
  .addMethod 3 { name := "read" },
  .addField 3 { name := "f", ty := .int }] (by decide +kernel)

/-- The receiver is bound once, and its field is read in a loop. -/
def loopBody : Body where
  method := 0
  slots := [⟨"x", .cls 3⟩, ⟨"y", .int⟩]
  nodes := [
    { instr := .identity 0 .receiver },
    { instr := .assign (.slot 1) (.instanceField (.slot 0) 0) },
    { instr := .branch (.binary .gt (.slot 1) (.constant (.int 0))) 1 },
    { instr := .retVoid }]
  sound := by decide

def readingSession : Session := Session.start (.ofProgram reading) .standard {}

abbrev readingVar : Ident := ⟨"x", .ref⟩

abbrev readingResult : Ident := ⟨"y", .int⟩

theorem loop_stale (h : Stale reading loopBody [readingVar, readingResult] readingVar k) :
    k = 0 := by
  have hbinds : Instr.BindsReceiver [readingVar, readingResult] readingVar
      (.identity 0 .receiver) := rfl
  induction h with
  | start => rfl
  | @assigned k _ _ hn hb hs _ =>
    match k, hn with
    | 0, hn =>
      cases hn
      exact (hb hbinds).elim
    | 1, hn =>
      cases hn
      revert hs
      simp [Instr.Sets, Value.Denotes]
    | 2, hn | 3, hn =>
      cases hn
      exact hs.elim
  | kept _ hn hb _ ih =>
    subst ih
    cases hn
    exact (hb hbinds).elim

theorem lower_receivers_loop :
    ∃ i prologue segments code rest, (readingSession.lower loopBody).1 = .ok i ∧
      i.body = prologue ++ List.flatten segments ∧ segments[1]? = some (code ++ rest) ∧
      loopBody.BoundBefore 1 0 ∧
      ∀ (W : World) (σ₀ τ σ : W.State) cs, (∀ y ∈ thisVar :: i.locals, W.isGlobal y = false) →
        W.Enters prologue segments σ₀ 1 τ → W.Exec τ code cs σ [] →
        σ readingVar = σ thisVar := by
  obtain ⟨i, hi⟩ := exists_of_isOk (x := (readingSession.lower loopBody).1) (by decide +kernel)
  obtain ⟨pool, prologue, segments, hpool, -, hbody, -, -, hnodes⟩ :=
    Session.lower_receivers hi (.inl rfl)
  have hslots : pool.slots = [readingVar, readingResult] := by
    have hmap : (LocalPool.ofSlots loopBody.slots).toOption.map LocalPool.slots =
        some [readingVar, readingResult] := by decide +kernel
    simpa [hpool, Except.toOption] using hmap
  obtain ⟨code, rest, hseg, -, hholds⟩ := hnodes 1 _ rfl
  rw [hslots] at hholds
  obtain ⟨hspared, hholds⟩ := hholds readingVar List.mem_cons_self
  refine ⟨i, prologue, segments, code, rest, hi, hbody, hseg, ⟨0, _, Nat.one_pos, rfl, rfl⟩, ?_⟩
  intro W σ₀ τ σ cs hlocal henters hexec
  have hstale : ¬ Stale readingSession.program loopBody [readingVar, readingResult] readingVar 1 :=
    fun hstale => absurd (loop_stale hstale) Nat.one_ne_zero
  exact hholds W σ₀ τ σ code rest cs hlocal hstale henters rfl hspared hexec

/-- The receiver is bound, and then the local is set to null before its field is read. -/
def resetBody : Body where
  method := 0
  slots := [⟨"x", .cls 3⟩, ⟨"y", .int⟩]
  nodes := [
    { instr := .identity 0 .receiver },
    { instr := .assign (.slot 0) (.constant .null) },
    { instr := .assign (.slot 1) (.instanceField (.slot 0) 0) },
    { instr := .retVoid }]
  sound := by decide

/-- The code of the body in front of the read. -/
abbrev resetCode : List Stmt := [
  .assume (Prelude.isNonNull thisVar.expr),
  .assign ⟨"$exception", .ref⟩ Prelude.null.expr,
  .assign readingVar thisVar.expr,
  .assign readingVar Prelude.null.expr]

abbrev resetRead : List Stmt := [
  .assign readingResult (Prelude.read readingVar.expr ⟨"A.f", .field .int⟩),
  .ret]

noncomputable abbrev readingWorld : World where
  toInterp := .free
  isGlobal _ := false
  isGlobal_constant _ := rfl
  callee _ _ σ x := σ x

theorem reset_reaches :
    ∃ σ, readingWorld.Reaches (resetCode ++ resetRead) Free.name σ resetRead ∧
      σ readingVar = .name Prelude.null ∧ σ Prelude.null = .name Prelude.null ∧
      σ thisVar = .name thisVar := by
  have hthis : readingWorld.Sat Free.name (Prelude.isNonNull thisVar.expr) := by
    refine readingWorld.holds_neq.2 ?_
    simp [Expr.eval, Ident.expr, thisVar, Prelude.null]
  refine ⟨_, .step (.step (.step (.step .start (.assume hthis)) .assign) .assign) .assign,
    ?_, ?_, ?_⟩
  all_goals simp [Expr.eval, Ident.expr, thisVar, Prelude.null]

/-- The field of a local is read without a check while the local is null and not the receiver. -/
theorem reset_unchecked :
    ∃ i : Implementation, (readingSession.lower resetBody).1 = .ok i ∧
      i.body = resetCode ++ resetRead ∧
      ∃ σ₀ σ : readingWorld.State, readingWorld.Reaches i.body σ₀ σ resetRead ∧
        σ readingVar = σ Prelude.null ∧ σ readingVar ≠ σ thisVar := by
  obtain ⟨i, hi, hbody⟩ := exists_of_toOption_map
    (x := (readingSession.lower resetBody).1) (f := (·.body)) (b := resetCode ++ resetRead)
    (by decide +kernel)
  obtain ⟨σ, hreach, hvar, hnull, hthis⟩ := reset_reaches
  refine ⟨i, hi, hbody, Free.name, σ, hbody ▸ hreach, hvar.trans hnull.symm, ?_⟩
  rw [hvar, hthis]
  simp [thisVar, Prelude.null]

end Verilower
