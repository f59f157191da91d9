import Mathlib.Data.List.Nodup
import Verilower.Proofs.History
import Verilower.Proofs.Ivl.Paths
import Verilower.Proofs.Lowering.Encoding
import Verilower.Proofs.Naming

namespace Verilower
set_option autoImplicit true

open Ivl

def Instr.callee? : Instr → Option MethodId
  | .invoke call => some call.method
  | .assign _ (.invoke _ m _ _) => some m
  | _ => none

/-- Whether an exception can come up at an instruction and go to a handler: it raises one, or it
calls a method that is no intrinsic. -/
def Program.mayRaise (p : Program) : Instr → Bool
  | .raise _ => true
  | i =>
    match i.callee?.bind (p.methods[·]?) with
    | some m => (p.intrinsic? m).isNone
    | none => false

/-- The nodes that an instruction at a node can jump to. -/
def Body.jumpTargets (b : Body) (p : Program) (n : Nat) (i : Instr) : List Nat :=
  i.targets ++ if p.mayRaise i then b.handlersAt n else []

namespace Lower

variable {enc : Encoding}

/-- Outlines without labels and jumps. -/
def Straight (enc : Encoding) (code : List Outline) : Prop :=
  labels (enc.encodeAll code) = [] ∧ jumps (enc.encodeAll code) = []

@[simp] theorem straight_nil : Straight enc [] := ⟨rfl, rfl⟩

@[simp] theorem straight_append :
    Straight enc (os ++ ps) ↔ Straight enc os ∧ Straight enc ps := by
  simp only [Straight, Encoding.encodeAll_append, labels_append, jumps_append,
    List.append_eq_nil_iff]
  tauto

theorem straight_simple (hs : s.isSimple = true) :
    Straight enc (.plain s :: os) ↔ Straight enc os := by
  simp [Straight, labels_simple hs, jumps_simple hs]

@[simp] theorem straight_assign : Straight enc (.plain (.assign x e) :: os) ↔ Straight enc os :=
  straight_simple rfl

@[simp] theorem straight_assume : Straight enc (.plain (.assume e) :: os) ↔ Straight enc os :=
  straight_simple rfl

@[simp] theorem straight_havoc : Straight enc (.plain (.havoc xs) :: os) ↔ Straight enc os :=
  straight_simple rfl

@[simp] theorem straight_call : Straight enc (.plain (.call f es xs) :: os) ↔ Straight enc os :=
  straight_simple rfl

@[simp] theorem straight_ret : Straight enc (.plain .ret :: os) ↔ Straight enc os := by
  simp [Straight]

@[simp] theorem straight_oblige : Straight enc (.oblige o :: os) ↔ Straight enc os := by
  obtain h | ⟨g, -, h⟩ | ⟨-, h⟩ | ⟨g, -, h⟩ | ⟨-, h⟩ := enc.obligation_cases o <;>
    simp [Straight, h, Encoding.raise, Stmt.when]

@[simp] theorem straight_when :
    Straight enc (.when c body :: os) ↔ Straight enc body ∧ Straight enc os := by
  simp [Straight, Stmt.when]
  tauto

theorem straight_obligations {es : List Expr} {f : Expr → Obligation} :
    Straight enc (es.map fun e => .oblige (f e)) := by
  induction es with
  | nil => exact straight_nil
  | cons e es ih => exact straight_oblige.2 ih

@[simp] theorem straight_exitCode : Straight enc (exitCode F) := by
  simp [exitCode, straight_obligations]

@[simp] theorem straight_nullGuard : Straight enc (nullGuard s base e) := by
  unfold nullGuard
  split <;> simp

@[simp] theorem straight_storeGuard : Straight enc (storeGuard f e) := by
  unfold storeGuard
  split <;> simp

@[simp] theorem straight_newObject : Straight enc (newObject x τ) := by
  simp [newObject, Prelude.write]

theorem Operand.straight (h : Operand F s v r j) : Straight enc r.code := by
  induction h with
  | slot | literal | param | receiver | caught | staticField => exact straight_nil
  | string => simp
  | instanceField _ _ _ ih => simpa using ih
  | element _ _ _ _ iha ihi => simpa [boundsGuard] using ⟨iha, ihi⟩
  | length _ ih => simpa using ih
  | binary _ _ _ ihl ihr => simpa using ⟨ihl, ihr⟩
  | neg _ ih => exact ih
  | convert _ _ _ _ ih => exact ih
  | cast _ _ _ ih => simpa [castGuard] using ih
  | instanceOf _ _ ih => exact ih

theorem storeInto_assigns (h : storeInto location e = .ok st) : ∃ x e', st = .assign x e' := by
  induction location using Expr.rec (motive_2 := fun _ => True) generalizing e with
  | ident x =>
    cases h
    exact ⟨_, _, rfl⟩
  | select map indices ih _ => exact ih h
  | nil | cons => trivial
  | _ => cases h

theorem Stored.straight (h : Stored F s target e r j) : Straight enc r.code := by
  cases h with
  | slot => simp
  | field _ hl _ _ _ hs =>
    obtain ⟨x, e', rfl⟩ := storeInto_assigns hs
    simpa using hl.straight
  | element hl _ _ hs =>
    obtain ⟨x, e', rfl⟩ := storeInto_assigns hs
    simpa using hl.straight

@[simp] theorem straight_resultFacts : Straight enc (resultFacts callee x τ) := by
  unfold resultFacts
  split <;> simp

theorem DirectCall.straight (h : DirectCall F m callee actuals result captured code j) :
    Straight enc code := by
  obtain ⟨-, -, -, ha⟩ := h
  cases ha <;> simp [preconditionCode, straight_obligations]

theorem GuardedCalls.straight
    (h : GuardedCalls F receiver actuals result captured ts thrown code j) :
    Straight enc code := by
  induction h with
  | nil => exact straight_nil
  | cons _ hd _ _ ih => exact straight_when.2 ⟨hd.straight, ih⟩

theorem Performed.straight
    (h : Performed F n call callee actuals result captured receiver thrown code j) :
    Straight enc code := by
  cases h with
  | direct _ hd | fallback _ _ _ _ hd => exact hd.straight
  | devirtualized _ _ _ _ _ hg => exact hg.straight

theorem EscapeExits.straight (h : EscapeExits F n fuel types code j) : Straight enc code := by
  induction h with
  | spent | done => exact straight_nil
  | step _ _ _ _ ih => exact straight_when.2 ⟨straight_exitCode, ih⟩

theorem Arguments.straight (h : Arguments F s args r j) : Straight enc r.code := by
  induction h with
  | nil => exact straight_nil
  | cons ha _ _ _ ih => exact straight_append.2 ⟨ha.straight, ih⟩

theorem ReceiverOf.straight (h : ReceiverOf F s call r j) : Straight enc r.code := by
  cases h with
  | none => exact straight_nil
  | dynamic _ _ ho => simpa using ho.straight
  | direct _ _ ho => exact ho.straight

theorem WrittenBack.straight (h : WrittenBack F s w r j) : Straight enc r.code := by
  cases h with
  | none => exact straight_nil
  | some h => exact h.straight

theorem Dropped.straight (h : Dropped F s vs r j) : Straight enc r.code := by
  induction h with
  | nil => exact straight_nil
  | cons ho _ ih => exact straight_append.2 ⟨ho.straight, ih⟩

/-- Outlines without labels whose jumps go exactly to the given nodes. -/
def JumpsTo (enc : Encoding) (F : Frame) (code : List Outline) (ns : List Nat) : Prop :=
  labels (enc.encodeAll code) = [] ∧
    ∀ l, l ∈ jumps (enc.encodeAll code) ↔ ∃ n ∈ ns, l = labelName F.body.method n

theorem Straight.jumpsTo (h : Straight enc code) : JumpsTo enc F code [] := by
  simpa [JumpsTo, h.2] using h.1

theorem JumpsTo.append (ho : JumpsTo enc F os ns) (hp : JumpsTo enc F ps ms) :
    JumpsTo enc F (os ++ ps) (ns ++ ms) := by
  refine ⟨by simp [ho.1, hp.1], fun l => ?_⟩
  simp only [Encoding.encodeAll_append, jumps_append, List.mem_append, ho.2, hp.2]
  constructor
  · rintro (⟨n, hn, rfl⟩ | ⟨n, hn, rfl⟩)
    · exact ⟨n, .inl hn, rfl⟩
    · exact ⟨n, .inr hn, rfl⟩
  · rintro ⟨n, hn | hn, rfl⟩
    · exact .inl ⟨n, hn, rfl⟩
    · exact .inr ⟨n, hn, rfl⟩

theorem JumpsTo.after (hp : JumpsTo enc F ps ns) (ho : Straight enc os) :
    JumpsTo enc F (os ++ ps) ns := ho.jumpsTo.append hp

theorem JumpsTo.before (ho : JumpsTo enc F os ns) (hp : Straight enc ps) :
    JumpsTo enc F (os ++ ps) ns := by
  simpa using ho.append hp.jumpsTo

theorem JumpsTo.congr (h : JumpsTo enc F code ns) (hn : ∀ n, n ∈ ns ↔ n ∈ ms) :
    JumpsTo enc F code ms := by
  refine ⟨h.1, fun l => (h.2 l).trans ?_⟩
  simp only [hn]

theorem jumpsTo_jump : JumpsTo enc F [.plain (jump F n)] [n] := by
  simp [JumpsTo, jump, Stmt.jump]

theorem jumpsTo_when : JumpsTo enc F [.plain (.when c [jump F n])] [n] := by
  simp [JumpsTo, jump, Stmt.jump, Stmt.when]

theorem TrapJumps.jumpsTo (h : TrapJumps F ts code j) :
    JumpsTo enc F code (ts.map Trap.handler) := by
  induction h with
  | nil => exact straight_nil.jumpsTo
  | cons _ _ ih => exact jumpsTo_when.append ih

theorem mem_handlersAt {c : Code} : n ∈ c.handlersAt k ↔ ∃ t ∈ c.trapsAt k, t.handler = n := by
  simp [Code.handlersAt, List.mem_eraseDups]

theorem Continued.jumpsTo (h : Continued F n thrown code j) :
    JumpsTo enc F code (F.body.handlersAt n) := by
  obtain ⟨hj, -, he⟩ := h
  refine (hj.jumpsTo.before he.straight).congr fun k => ?_
  simp [mem_handlersAt]

theorem Invoked.jumpsTo {call : Call} (h : Invoked F n call target s r j) :
    ∃ callee, F.program.methods[call.method]? = some callee ∧ JumpsTo enc F r.code
      (if (F.program.intrinsic? callee).isNone then F.body.handlersAt n else []) := by
  cases h with
  | exit hm hi =>
    refine ⟨_, entry_eq_ok.1 hm, ?_⟩
    rw [hi]
    exact straight_exitCode.jumpsTo
  | stringLengthDropped hm hi _ ho =>
    refine ⟨_, entry_eq_ok.1 hm, ?_⟩
    rw [hi]
    exact (straight_append.2 ⟨ho.straight, straight_nullGuard⟩).jumpsTo
  | stringLength hm hi _ ho _ hs =>
    refine ⟨_, entry_eq_ok.1 hm, ?_⟩
    rw [hi]
    exact hs.straight.jumpsTo.after (straight_append.2 ⟨ho.straight, straight_nullGuard⟩)
  | call hm hi _ _ hr ha _ hp hx hw =>
    refine ⟨_, entry_eq_ok.1 hm, ?_⟩
    rw [hi]
    refine (hx.jumpsTo.after ?_).before hw.straight
    exact straight_append.2 ⟨straight_append.2 ⟨hr.straight, ha.straight⟩, hp.straight⟩

theorem Assigned.jumpsTo (h : Assigned F n target s v r j) :
    JumpsTo enc F r.code (F.body.jumpTargets F.program n (.assign target v)) := by
  cases h with
  | invoke h =>
    obtain ⟨callee, hm, hj⟩ := h.jumpsTo
    simpa [Body.jumpTargets, Instr.targets, Program.mayRaise, Instr.callee?, hm] using hj
  | new ht hs =>
    exact hs.straight.jumpsTo.after straight_newObject
  | newArray ho _ _ hs =>
    refine hs.straight.jumpsTo.after ?_
    simpa using ho.straight
  | newMultiArray hd _ hs =>
    refine hs.straight.jumpsTo.after ?_
    simpa using hd.straight
  | value ho hs =>
    have htargets : F.body.jumpTargets F.program n (.assign target v) = [] := by
      cases ho <;> rfl
    rw [htargets]
    exact hs.straight.jumpsTo.after ho.straight

theorem jumpsTo_cascaded {inner : Stmt} (h : JumpsTo enc F [.plain inner] ns) :
    JumpsTo enc F [.plain (cascaded F key cases inner)] (cases.map Prod.snd ++ ns) := by
  induction cases generalizing inner ns with
  | nil => exact h
  | cons c cases ih =>
    obtain ⟨k, n⟩ := c
    have step : JumpsTo enc F [.plain (.ite (.eq key (.int k)) [jump F n] [inner])] (n :: ns) := by
      have hj := (jumpsTo_jump (n := n)).append h
      simpa [JumpsTo, jump, Stmt.jump] using hj
    refine (ih step).congr fun m => ?_
    simp [or_left_comm]

theorem Switched.jumpsTo (h : Switched F n key cases other s r j) :
    JumpsTo enc F r.code (cases.map Prod.snd ++ [other]) := by
  cases h with
  | empty hc =>
    rw [hc]
    exact jumpsTo_jump
  | cascade _ ho _ => exact (jumpsTo_cascaded jumpsTo_jump).after ho.straight

theorem CatchJumps.jumpsTo (h : CatchJumps F handler ids code j) :
    JumpsTo enc F code (ids.map fun _ => handler) := by
  induction h with
  | nil => exact straight_nil.jumpsTo
  | cons _ _ ih => exact jumpsTo_when.append ih

theorem HandlerJumps.jumpsTo (h : HandlerJumps F traps handlers code j)
    (hh : ∀ k ∈ handlers, ∃ t ∈ traps, t.handler = k) : JumpsTo enc F code handlers := by
  induction h with
  | nil => exact straight_nil.jumpsTo
  | @cons handler _ _ handlers _ _ hc _ ih =>
    have hrest := ih fun k hk => hh k (List.mem_cons_of_mem _ hk)
    refine (hc.jumpsTo.append hrest).congr fun k => ?_
    obtain ⟨t, ht, hk⟩ := hh handler List.mem_cons_self
    have hmem : t ∈ traps.filter (·.handler = handler) := by simpa [hk] using ht
    simp only [List.map_map, List.mem_append, List.mem_map, List.mem_cons]
    constructor
    · rintro (⟨_, _, rfl⟩ | hin)
      · exact .inl rfl
      · exact .inr hin
    · rintro (rfl | hin)
      · exact .inl ⟨t, hmem, rfl⟩
      · exact .inr hin

theorem Handed.jumpsTo (h : Handed F n code j) :
    JumpsTo enc F code (F.body.handlersAt n) := by
  cases h with
  | leave h =>
    rw [h]
    exact straight_exitCode.jumpsTo
  | single h =>
    rw [h]
    exact jumpsTo_jump
  | many _ hj =>
    exact (hj.jumpsTo fun k hk => mem_handlersAt.1 hk).before (straight_ret.2 straight_nil)

theorem tableCases_targets (h : tableCases low targets = .ok cases) :
    cases.map Prod.snd = targets := by
  rw [mapM_eq_ok_map (k := Prod.fst) ?_ h, List.zipIdx_map_fst]
  rintro ⟨target, offset⟩ c hc
  obtain ⟨v, -, hc⟩ := except_bind_eq_ok.1 hc
  cases hc
  rfl

/-- The jumps of an instruction go to its targets and, where an exception can come up, to the
handlers. -/
theorem Executed.jumpsTo (h : Executed F n s i r j) (enc : Encoding) :
    JumpsTo enc F r.code (F.body.jumpTargets F.program n i) := by
  cases h with
  | assign h => exact h.jumpsTo
  | identity h => cases h <;> exact Straight.jumpsTo (by simp)
  | invoke h =>
    obtain ⟨callee, hm, hj⟩ := h.jumpsTo
    simpa [Body.jumpTargets, Instr.targets, Program.mayRaise, Instr.callee?, hm] using hj
  | goto => exact jumpsTo_jump
  | branch ho => exact jumpsTo_when.after ho.straight
  | lookupSwitch h =>
    simpa [Body.jumpTargets, Instr.targets, Program.mayRaise, Instr.callee?] using h.jumpsTo
  | tableSwitch ht h =>
    rw [← tableCases_targets ht]
    simpa [Body.jumpTargets, Instr.targets, Program.mayRaise, Instr.callee?] using h.jumpsTo
  | ret _ ho =>
    refine (Straight.jumpsTo ?_)
    simpa using ho.straight
  | retVoid => exact straight_exitCode.jumpsTo
  | raise ho _ _ hh =>
    refine hh.jumpsTo.after ?_
    simpa using ho.straight
  | nop | breakpoint => exact straight_nil.jumpsTo
  | enterMonitor ho | exitMonitor ho =>
    exact (straight_append.2 ⟨ho.straight, straight_nullGuard⟩).jumpsTo
  | retSubroutine => exact (straight_oblige.2 straight_nil).jumpsTo

theorem closed_exitCode : Closed (enc.encodeAll (exitCode F)) := by
  rw [exitCode, Encoding.encodeAll_append]
  exact Closed.append_right closed_ret

theorem closed_cascaded {inner : Stmt} (h : Closed [inner]) :
    Closed [cascaded F key cases inner] := by
  induction cases generalizing inner with
  | nil => exact h
  | cons c cases ih => exact ih (closed_ite closed_goto h)

theorem Switched.closed (h : Switched F n key cases other s r j) :
    Closed (enc.encodeAll r.code) := by
  cases h with
  | empty => exact closed_goto
  | cascade =>
    rw [Encoding.encodeAll_append]
    exact Closed.append_right (closed_cascaded closed_goto)

theorem Handed.closed (h : Handed F n code j) : Closed (enc.encodeAll code) := by
  cases h with
  | leave => exact closed_exitCode
  | single => exact closed_goto
  | many =>
    rw [Encoding.encodeAll_append]
    exact Closed.append_right closed_ret

theorem closed_unexpected : Closed (enc.encodeAll [.oblige ⟨.unexpected, none⟩]) := by
  have hd : enc.drops ⟨.unexpected, none⟩ = false := by simp [Encoding.drops]
  simp only [Encoding.encodeAll_cons, Encoding.encode_oblige, Encoding.encodeAll_nil,
    List.append_nil, Encoding.obligation, hd]
  cases enc.model with
  | exception =>
    show Closed ([_, _] ++ [Stmt.ret])
    exact closed_ret.append_right
  | assertion => exact closed_ret

/-- An instruction after which control does not go on leaves no way to run off its end. -/
theorem Executed.closed (h : Executed F n s i r j) (hf : i.fallsThrough = false) :
    Closed (enc.encodeAll r.code) := by
  cases h with
  | goto => exact closed_goto
  | lookupSwitch h => exact h.closed
  | tableSwitch _ h => exact h.closed
  | ret =>
    rw [Encoding.encodeAll_append]
    exact closed_exitCode.append_right
  | retVoid => exact closed_exitCode
  | raise _ _ _ hh =>
    rw [Encoding.encodeAll_append]
    exact hh.closed.append_right
  | retSubroutine => exact closed_unexpected
  | _ => cases hf

theorem Segments.get (h : Segments F s nodes s' segs j) : segs.length = nodes.length ∧
    ∀ (k : Nat) node seg, nodes[k]? = some node → segs[k]? = some seg →
      ∃ s r j, Executed F node.2 s node.1.instr r j ∧ seg = entryCode F node.2 ++ r.code := by
  induction h with
  | nil => simp
  | cons hn _ ih =>
    refine ⟨by simp [ih.1], fun k node seg hnode hseg => ?_⟩
    cases k with
    | zero =>
      cases hnode
      cases hseg
      exact ⟨_, _, _, hn, rfl⟩
    | succ k => exact ih.2 k node seg hnode hseg

theorem labels_entryCode : labels (enc.encodeAll (entryCode F k)) =
    if F.body.isBranchTarget k then [labelName F.body.method k] else [] := by
  unfold entryCode
  split <;> simp

theorem jumps_entryCode : jumps (enc.encodeAll (entryCode F k)) = [] := by
  unfold entryCode
  split <;> simp

theorem Segments.labels_eq (h : Segments F s nodes s' segs j) :
    labels (segs.flatMap enc.encodeAll) = ((nodes.map Prod.snd).filter F.body.isBranchTarget).map
      (labelName F.body.method) := by
  induction h with
  | nil => rfl
  | @cons n _ nd _ _ _ _ _ _ _ hn _ ih =>
    have hl := (hn.jumpsTo enc).1
    simp only [List.flatMap_cons, labels_append, Encoding.encodeAll_append, labels_entryCode, hl,
      ih, List.append_nil, List.map_cons, List.filter_cons]
    split <;> simp

end Lower

theorem Body.defect_free (b : Body) :
    (∀ k node, b.nodes[k]? = some node → b.nodeDefect? k node = none) ∧
      ∀ t ∈ b.traps, b.trapDefect? t = none := by
  have hs := b.sound
  simp only [Code.defect?, Option.or_eq_none_iff, List.findSome?_eq_none_iff] at hs
  refine ⟨fun k node hn => hs.1 (node, k) ?_, hs.2⟩
  exact List.mem_zipIdx_iff_getElem?.2 hn

theorem Body.target_lt (b : Body) {k t : Nat} {node : Node} (hn : b.nodes[k]? = some node)
    (ht : t ∈ node.instr.targets) : t < b.nodes.length := by
  have hd := b.defect_free.1 k node hn
  unfold Code.nodeDefect? at hd
  split at hd
  · cases hd
  · rename_i hf
    simpa using List.find?_eq_none.1 hf t ht

theorem Body.handler_lt (b : Body) (ht : t ∈ b.traps) : t.handler < b.nodes.length := by
  have hd := b.defect_free.2 t ht
  unfold Code.trapDefect? at hd
  split at hd
  · cases hd
  · rename_i hf
    simp only [Bool.or_eq_true, decide_eq_true_eq, not_or] at hf
    omega

theorem Code.mem_branchTargets {c : Code} :
    k ∈ c.branchTargets ↔ k < c.nodes.length ∧ c.isBranchTarget k = true := by
  simp [Code.branchTargets]

/-- Whatever an instruction of a body can jump to is a branch target. -/
theorem Body.jumpTargets_subset (b : Body) {node : Node} (hn : b.nodes[k]? = some node)
    (ht : t ∈ b.jumpTargets p k node.instr) : t ∈ b.branchTargets := by
  rw [Code.mem_branchTargets]
  rcases List.mem_append.1 ht with ht | ht
  · have hmem := List.mem_of_getElem? hn
    refine ⟨b.target_lt hn ht, ?_⟩
    simp only [Code.isBranchTarget, Bool.or_eq_true, List.any_eq_true]
    exact .inl ⟨node, hmem, List.contains_iff_mem.2 ht⟩
  · split at ht
    · obtain ⟨trap, htrap, rfl⟩ := Lower.mem_handlersAt.1 ht
      have hmem := (List.mem_filter.1 htrap).1
      refine ⟨b.handler_lt hmem, ?_⟩
      simp only [Code.isBranchTarget, Bool.or_eq_true, List.any_eq_true]
      exact .inr ⟨trap, hmem, decide_eq_true rfl⟩
    · cases ht

theorem labelName_injective {m : MethodId} (h : labelName m k = labelName m n) : k = n :=
  congrArg Prod.snd (labelName_inj h)

/-- The statements of a node: its label in front if it is a branch target and no other label, the
jumps to the targets and handlers of its instruction, and no way off the end where the instruction
has none. -/
structure Segment (p : Program) (b : Body) (k : Nat) (i : Instr) (ss : List Stmt) : Prop where
  starts : ss.head? = some (.label (labelName b.method k)) ↔ k ∈ b.branchTargets
  labels : labels ss = if k ∈ b.branchTargets then [labelName b.method k] else []
  jumps : ∀ l, l ∈ jumps ss ↔ ∃ n ∈ b.jumpTargets p k i, l = labelName b.method n
  closed : i.fallsThrough = false → Closed ss

theorem Lower.Executed.segment (h : Executed F k s i r j) (hk : k < F.body.nodes.length)
    {enc : Encoding} :
    Segment F.program F.body k i (enc.encodeAll (entryCode F k ++ r.code)) := by
  obtain ⟨hl, hj⟩ := h.jumpsTo enc
  have hmem : k ∈ F.body.branchTargets ↔ F.body.isBranchTarget k = true := by
    simp [Code.mem_branchTargets, hk]
  rw [Encoding.encodeAll_append]
  constructor
  · rw [hmem]
    cases hb : F.body.isBranchTarget k with
    | true => simp [entryCode, hb]
    | false =>
      simp only [entryCode, hb, Bool.false_eq_true, if_false, Encoding.encodeAll_nil,
        List.nil_append, iff_false]
      intro hhead
      obtain ⟨rest, hrest⟩ := List.head?_eq_some_iff.1 hhead
      simp [hrest] at hl
  · simp only [labels_append, hl, labels_entryCode, hmem, List.append_nil]
  · intro l
    rw [← hj, jumps_append]
    unfold entryCode
    split <;> simp
  · intro hf
    exact (h.closed hf).append_right

theorem Lowered.prologue_isSimple (l : Lowered) (options : Options) :
    ∀ st ∈ l.prologue options, st.isSimple = true := by
  intro st hst
  simp only [Lowered.prologue, Signature.prologue, List.mem_append, List.mem_map] at hst
  rcases hst with (⟨this, -, rfl⟩ | hst) | hst
  · rfl
  · obtain rfl := List.mem_singleton.1 hst
    rfl
  · split at hst
    · obtain rfl := List.mem_singleton.1 hst
      rfl
    · cases hst

theorem BodyLowered.segment (h : BodyLowered p q g body l j) (enc : Encoding) {k : Nat}
    {node : Node} {ss : List Stmt} (hnode : body.nodes[k]? = some node)
    (hss : (l.segments.map enc.encodeAll)[k]? = some ss) :
    Segment p body k node.instr ss := by
  obtain ⟨-, -, -, hseg⟩ := h
  rw [List.getElem?_map] at hss
  obtain ⟨seg, hk, rfl⟩ := Option.map_eq_some_iff.1 hss
  have hz : body.nodes.zipIdx[k]? = some (node, k) := by simp [hnode]
  obtain ⟨_, r, _, hx, rfl⟩ := hseg.get.2 k _ seg hz hk
  exact hx.segment (List.getElem?_eq_some_iff.1 hnode).1

theorem BodyLowered.segments_length (h : BodyLowered p q g body l j) :
    l.segments.length = body.nodes.length := by
  obtain ⟨-, -, -, hseg⟩ := h
  simpa using hseg.get.1

theorem BodyLowered.signature_eq (h : BodyLowered p q g body l j) :
    (Signature.build p q body.method).result = .ok l.signature := by
  obtain ⟨-, hs, -, -⟩ := h
  exact hs

/-- The instruction at a node has a derivation, whose code ends the segment of the node. -/
theorem BodyLowered.executed (h : BodyLowered p q g body l j) {k : Nat} {node : Node}
    (hnode : body.nodes[k]? = some node) :
    ∃ F s r j, Lower.Executed F k s node.instr r j ∧
      (F.program = p ∧ F.prelude = q ∧ F.body = body ∧ F.signature = l.signature) ∧
      l.segments[k]? = some (Lower.entryCode F k ++ r.code) := by
  have hlen := h.segments_length
  obtain ⟨-, -, -, hseg⟩ := h
  have hz : body.nodes.zipIdx[k]? = some (node, k) := by simp [hnode]
  have hseg' := List.getElem?_eq_getElem (hlen ▸ (List.getElem?_eq_some_iff.1 hnode).1)
  obtain ⟨s', r, j', hx, hr⟩ := hseg.get.2 k _ _ hz hseg'
  exact ⟨_, s', r, j', hx, ⟨rfl, rfl, rfl, rfl⟩, hseg'.trans (congrArg some hr)⟩

theorem BodyLowered.labels_eq (h : BodyLowered p q g body l j) {enc : Encoding} :
    labels (l.segments.flatMap enc.encodeAll) = body.branchTargets.map (labelName body.method) := by
  obtain ⟨-, -, -, hseg⟩ := h
  have hsnd : body.nodes.zipIdx.map Prod.snd = List.range body.nodes.length := by
    rw [List.zipIdx_map_snd, List.range_eq_range']
  rw [hseg.labels_eq, hsnd]
  rfl

theorem BodyLowered.jump_target (h : BodyLowered p q g body l j) {enc : Encoding}
    (hname : name ∈ jumps (l.segments.flatMap enc.encodeAll)) :
    ∃ t ∈ body.branchTargets, name = labelName body.method t := by
  rw [jumps_flatMap] at hname
  obtain ⟨seg, hseg, hname⟩ := List.mem_flatMap.1 hname
  obtain ⟨k, hk⟩ := List.mem_iff_getElem?.1 hseg
  have hlt : k < body.nodes.length := h.segments_length ▸ (List.getElem?_eq_some_iff.1 hk).1
  have hnode := List.getElem?_eq_getElem hlt
  have hsegment := h.segment enc hnode (by rw [List.getElem?_map, hk]; rfl)
  obtain ⟨t, ht, rfl⟩ := (hsegment.jumps name).1 hname
  exact ⟨t, body.jumpTargets_subset hnode ht, rfl⟩

theorem Body.branchLabels_nodup (b : Body) :
    (b.branchTargets.map (labelName b.method)).Nodup :=
  (List.nodup_range.filter _).map fun _ _ => labelName_injective

/-- Control flow of a lowered body: after a prologue without labels, jumps and returns there is a
segment per node, and every jump goes to a label that is put down exactly once. -/
theorem lower_controlFlow {s : Session} {body : Body} {i : Implementation}
    (h : (s.lower body).1 = .ok i) :
    ∃ (prologue : List Stmt) (segments : List (List Stmt)),
      i.body = prologue ++ segments.flatten ∧
      (labels prologue = [] ∧ jumps prologue = [] ∧ .ret ∉ prologue.flatMap Stmt.nested) ∧
      segments.length = body.nodes.length ∧
      (∀ (k : Nat) node ss, body.nodes[k]? = some node → segments[k]? = some ss →
        Segment s.program body k node.instr ss) ∧
      ∀ l ∈ jumps i.body, (labels i.body).count l = 1 := by
  obtain ⟨l, j, hb, rfl, -⟩ := Session.lower_gives h
  have hpro := straight_of_isSimple (l.prologue_isSimple s.options)
  refine ⟨l.prologue s.options, l.segments.map (l.encoding s.options).encodeAll, ?_, hpro, ?_,
    fun k node ss hnode hss => hb.segment _ hnode hss, ?_⟩
  · simp [Lowered.implementation, List.flatMap_def]
  · simpa using hb.segments_length
  · intro name hname
    simp only [Lowered.implementation, jumps_append, labels_append, hpro.1, hpro.2.1,
      List.nil_append, hb.labels_eq] at hname ⊢
    obtain ⟨t, ht, rfl⟩ := hb.jump_target hname
    exact List.count_eq_one_of_mem body.branchLabels_nodup (List.mem_map_of_mem ht)

/-- A program with one static method, which takes a number and may throw. -/
def countdown : Program := .declaring [
  .addMethod ClassId.object {
    name := "down", params := [.int], isStatic := true,
    throws := [ClassId.throwable] }] (by decide +kernel)

/-- A loop with a call under a trap, whose handler goes on by a switch. -/
def countdownBody : Body where
  method := 0
  slots := [⟨"i", .int⟩, ⟨"e", .cls ClassId.throwable⟩]
  nodes := [
    { instr := .identity 0 (.param 0) },
    { instr := .branch (.binary .le (.slot 0) (.constant (.int 0))) 4 },
    { instr := .invoke ⟨.static, 0, none, [.binary .sub (.slot 0) (.constant (.int 1))]⟩ },
    { instr := .goto 1 },
    { instr := .retVoid },
    { instr := .identity 1 .caught },
    { instr := .lookupSwitch (.slot 0) [(1, 4), (2, 1)] 7 },
    { instr := .raise (.slot 1) }]
  traps := [⟨1, 3, ClassId.throwable, 5⟩]
  sound := by decide

def countdownSession : Session := Session.start (.ofProgram countdown) .standard {}

theorem lower_controlFlow_countdown :
    ∃ i, (countdownSession.lower countdownBody).1 = .ok i ∧
      ∃ prologue segments, i.body = prologue ++ List.flatten segments ∧ segments.length = 8 ∧
        (∀ ss, segments[2]? = some ss → Segment countdown countdownBody 2
          (.invoke ⟨.static, 0, none, [.binary .sub (.slot 0) (.constant (.int 1))]⟩) ss) ∧
        ∀ l ∈ jumps i.body, (labels i.body).count l = 1 := by
  obtain ⟨i, hi⟩ := exists_of_isOk (x := (countdownSession.lower countdownBody).1)
    (by decide +kernel)
  obtain ⟨prologue, segments, hbody, -, hlen, hsegment, hcount⟩ := lower_controlFlow hi
  exact ⟨i, hi, prologue, segments, hbody, hlen, fun ss hss => hsegment 2 _ ss rfl hss, hcount⟩

end Verilower
