import Verilower.Proofs.Lowering.Call

namespace Verilower
set_option autoImplicit true

open Ivl (Ident Expr Stmt)

def Scratch.globalized (s : Scratch) : Scratch := { s with globals := s.globals + 1 }

/-- The state once a local is bound to the receiver. -/
def Scratch.bound (s : Scratch) (index : Nat) : Scratch :=
  { s with receivers := index :: s.receivers }

namespace Lower

def jump (F : Frame) (n : Nat) : Stmt := .jump (labelName F.body.method n)

/-- The conditionals of a switch, one around the other; the last case is outermost. -/
def cascaded (F : Frame) (key : Expr) : List (Int × Nat) → Stmt → Stmt
  | [], inner => inner
  | (k, n) :: cases, inner =>
    cascaded F key cases (.ite (.eq key (.int k)) [jump F n] [inner])

inductive Switched (F : Frame) (n : Nat) (key : Value) (cases : List (Int × Nat)) (other : Nat) :
    Scratch → Emitted Unit → List Event → Prop
  | empty (hc : cases = []) :
      Switched F n key cases other s ⟨(), s, [.plain (jump F other)]⟩
        [.label F.body.method other, .diagnostic ⟨.note, F.body.locOf n,
          "switch without cases in `" ++ F.program.methodName F.method ++
            "` reduced to its default branch"⟩]
  | cascade (hne : cases ≠ []) (ho : Operand F s key ⟨k, s', code⟩ j) (hc : Converts k .int k') :
      Switched F n key cases other s
        ⟨(), s', code ++ [Outline.plain (cascaded F k' cases (jump F other))]⟩
        ([Event.label F.body.method other] ++ j ++
          cases.map fun c => Event.label F.body.method c.2)

inductive CatchJumps (F : Frame) (handler : Nat) :
    List ClassId → List Outline → List Event → Prop
  | nil : CatchJumps F handler [] [] []
  | cons (ht : F.program.tag (.cls i) = .ok τ) (hrest : CatchJumps F handler ids code j) :
      CatchJumps F handler (i :: ids) (.plain (.when (caughtBy F τ) [jump F handler]) :: code)
        ([.tag (.cls i), .label F.body.method handler] ++ j)

/-- Guarded jumps to handlers, each with the types that it catches. -/
inductive HandlerJumps (F : Frame) (traps : List Trap) :
    List Nat → List Outline → List Event → Prop
  | nil : HandlerJumps F traps [] [] []
  | cons (hc : CatchJumps F handler
        ((traps.filter (·.handler = handler)).map Trap.exception) c₁ j₁)
      (hrest : HandlerJumps F traps handlers c₂ j₂) :
      HandlerJumps F traps (handler :: handlers) (c₁ ++ c₂) (j₁ ++ j₂)

/-- Where control goes once an exception is in the slot. -/
inductive Handed (F : Frame) (n : Nat) : List Outline → List Event → Prop
  | leave (h : F.body.handlersAt n = []) : Handed F n (exitCode F) []
  | single (h : F.body.handlersAt n = [handler]) :
      Handed F n [.plain (jump F handler)] [.label F.body.method handler]
  | many (h : F.body.handlersAt n = h₁ :: h₂ :: hs)
      (hj : HandlerJumps F (F.body.trapsAt n) (F.body.handlersAt n) code j) :
      Handed F n (code ++ [.plain .ret]) j

def bindsCaughtAt (F : Frame) (n : Nat) : Bool :=
  match F.body.nodes[n]? with
  | some node => node.instr.bindsCaught
  | none => false

inductive Dropped (F : Frame) : Scratch → List Value → Emitted Unit → List Event → Prop
  | nil : Dropped F s [] ⟨(), s, []⟩ []
  | cons (ho : Operand F s v ⟨e, s₁, c₁⟩ j₁) (hrest : Dropped F s₁ vs ⟨(), s₂, c₂⟩ j₂) :
      Dropped F s (v :: vs) ⟨(), s₂, c₁ ++ c₂⟩
        (j₁ ++ [.log ⟨.debug, "dropping dimension size `" ++ e.render ++
          "` of multi-array allocation"⟩] ++ j₂)

inductive Assigned (F : Frame) (n : Nat) (target : Value) :
    Scratch → Value → Emitted Unit → List Event → Prop
  | invoke (h : Invoked F n ⟨kind, m, base, args⟩ (some target) s r j) :
      Assigned F n target s (.invoke kind m base args) r j
  | new (ht : F.program.tag (.cls i) = .ok τ)
      (hs : Stored F (s.grown .ref) target (s.next .ref).expr ⟨(), s', code⟩ j) :
      Assigned F n target s (.new i) ⟨(), s', newObject (s.next .ref) τ ++ code⟩
        ([.tag (.cls i)] ++ j)
  | newArray (ho : Operand F s size ⟨e, s₁, c₁⟩ j₁) (hc : Converts e .int e')
      (ht : F.program.tag (.array elem) = .ok τ)
      (hs : Stored F (s₁.grown .ref) target (s₁.next .ref).expr ⟨(), s₂, c₂⟩ j₂) :
      Assigned F n target s (.newArray elem size)
        ⟨(), s₂, c₁ ++ newObject (s₁.next .ref) τ ++ [.plain (.assign Prelude.arraySize
          (.store Prelude.arraySize.expr [(s₁.next .ref).expr] e'))] ++ c₂⟩
        (j₁ ++ [.tag (.array elem)] ++ j₂)
  | newMultiArray (hd : Dropped F s sizes ⟨(), s₁, c₁⟩ j₁) (ht : F.program.tag ty = .ok τ)
      (hs : Stored F s₁.globalized target (globalIdent s₁.globals .ref).expr ⟨(), s₂, c₂⟩ j₂) :
      Assigned F n target s (.newMultiArray ty sizes)
        ⟨(), s₂, c₁ ++ newObject (globalIdent s₁.globals .ref) τ ++ c₂⟩
        (j₁ ++ [.global (globalIdent s₁.globals .ref), .tag ty] ++ j₂)
  | value (ho : Operand F s v ⟨e, s₁, c₁⟩ j₁) (hs : Stored F s₁ target e ⟨(), s₂, c₂⟩ j₂) :
      Assigned F n target s v ⟨(), s₂, c₁ ++ c₂⟩ (j₁ ++ j₂)

inductive Bound (F : Frame) (s : Scratch) (index : Nat) : Value → Emitted Unit → Prop
  | receiver (hx : s.pool.slot index = .ok x) (hr : F.signature.receiver = some this)
      (hc : Converts this.expr x.ty e) :
      Bound F s index .receiver ⟨(), s.bound index, [.plain (.assign x e)]⟩
  | param (hx : s.pool.slot index = .ok x) (hp : F.signature.params[i]? = some y)
      (hc : Converts y.expr x.ty e) : Bound F s index (.param i) ⟨(), s, [.plain (.assign x e)]⟩
  | caught (hx : s.pool.slot index = .ok x) :
      Bound F s index .caught ⟨(), s, [.plain (.assign x F.signature.exception.expr),
        .plain (.assign F.signature.exception Prelude.null.expr)]⟩

inductive Executed (F : Frame) (n : Nat) : Scratch → Instr → Emitted Unit → List Event → Prop
  | assign (h : Assigned F n target s v r j) : Executed F n s (.assign target v) r j
  | identity (h : Bound F s index v r) : Executed F n s (.identity index v) r []
  | invoke (h : Invoked F n call none s r j) : Executed F n s (.invoke call) r j
  | goto : Executed F n s (.goto target) ⟨(), s, [.plain (jump F target)]⟩
      [.label F.body.method target]
  | branch (ho : Operand F s condition ⟨e, s', code⟩ j) (hc : Converts e .bool e') :
      Executed F n s (.branch condition target)
        ⟨(), s', code ++ [.plain (.when e' [jump F target])]⟩ (j ++ [.label F.body.method target])
  | lookupSwitch (h : Switched F n key cases other s r j) :
      Executed F n s (.lookupSwitch key cases other) r j
  | tableSwitch (ht : tableCases low targets = .ok cases)
      (h : Switched F n key cases other s r j) :
      Executed F n s (.tableSwitch key low targets other) r j
  | ret (hx : F.signature.result = some x) (ho : Operand F s v ⟨e, s', code⟩ j)
      (hc : Converts e x.ty e') :
      Executed F n s (.ret v) ⟨(), s', code ++ [.plain (.assign x e')] ++ exitCode F⟩ j
  | retVoid : Executed F n s .retVoid ⟨(), s, exitCode F⟩ []
  | raise (ho : Operand F s v ⟨e, s', c₁⟩ j₁) (hc : Converts e .ref e')
      (hb : ∀ handler ∈ F.body.handlersAt n, bindsCaughtAt F handler = true)
      (hh : Handed F n c₂ j₂) :
      Executed F n s (.raise v)
        ⟨(), s', c₁ ++ [.plain (.assign F.signature.exception e')] ++ c₂⟩ (j₁ ++ j₂)
  | nop : Executed F n s .nop ⟨(), s, []⟩
      [.log ⟨.debug, "skipping `Nop` at node " ++ toString n⟩]
  | breakpoint : Executed F n s .breakpoint ⟨(), s, []⟩
      [.log ⟨.debug, "skipping `Breakpoint` at node " ++ toString n⟩]
  | enterMonitor (ho : Operand F s v ⟨e, s', code⟩ j) :
      Executed F n s (.enterMonitor v) ⟨(), s', code ++ nullGuard s' v e⟩ j
  | exitMonitor (ho : Operand F s v ⟨e, s', code⟩ j) :
      Executed F n s (.exitMonitor v) ⟨(), s', code ++ nullGuard s' v e⟩ j
  | retSubroutine : Executed F n s (.retSubroutine index) ⟨(), s, [.oblige ⟨.unexpected, none⟩]⟩
      [.diagnostic ⟨.warning, F.body.locOf n, "deprecated subroutine return in `" ++
        F.program.methodName F.method ++ "` treated as an unexpected violation"⟩]

/-- The label in front of a node that is the target of a branch. -/
def entryCode (F : Frame) (n : Nat) : List Outline :=
  if F.body.isBranchTarget n then [.plain (.label (labelName F.body.method n))] else []

def entryEvents (F : Frame) (n : Nat) : List Event :=
  if F.body.isBranchTarget n then [.label F.body.method n] else []

/-- What nodes yield one after the other: a segment each. -/
inductive Segments (F : Frame) :
    Scratch → List (Node × Nat) → Scratch → List (List Outline) → List Event → Prop
  | nil : Segments F s [] s [] []
  | cons (hn : Executed F n s nd.instr ⟨(), s₁, code⟩ j₁)
      (hrest : Segments F s₁ nodes s₂ segs j₂) :
      Segments F s ((nd, n) :: nodes) s₂ ((entryCode F n ++ code) :: segs)
        (entryEvents F n ++ j₁ ++ j₂)

@[simp] theorem gives_jumpTo : (jumpTo n).Gives F s r j ↔
    r = ⟨jump F n, s, []⟩ ∧ j = [.label F.body.method n] := by
  simp [jumpTo, jump, and_comm]

@[simp] theorem gives_cascade {cases : List (Int × Nat)} {inner : Stmt} :
    (cascade key cases inner).Gives F s r j ↔
    r = ⟨cascaded F key cases inner, s, []⟩ ∧
      j = cases.map fun c => .label F.body.method c.2 := by
  induction cases generalizing inner r j with
  | nil => simp [cascade, cascaded]
  | cons c cases ih =>
    constructor
    · intro h
      obtain ⟨_, _, _, _, hj, h₁, rfl, rfl⟩ := gives_bind.1 h
      obtain ⟨rfl, rfl⟩ := gives_jumpTo.1 hj
      obtain ⟨rfl, rfl⟩ := ih.1 h₁
      exact ⟨rfl, rfl⟩
    · rintro ⟨rfl, rfl⟩
      exact gives_bind.2 ⟨_, _, _, _, gives_jumpTo.2 ⟨rfl, rfl⟩, ih.2 ⟨rfl, rfl⟩, rfl, rfl⟩

theorem gives_switch_nil : (switch n key [] other).Gives F s r j ↔
    r = ⟨(), s, [.plain (jump F other)]⟩ ∧ j = [.label F.body.method other, .diagnostic ⟨.note,
      F.body.locOf n, "switch without cases in `" ++ F.program.methodName F.method ++
        "` reduced to its default branch"⟩] := by
  simp only [switch, List.isEmpty_nil, ↓reduceIte, gives_bind, gives_jumpTo, gives_methodName,
    gives_diagnose, gives_emit]
  constructor
  · rintro ⟨_, _, _, _, ⟨rfl, rfl⟩, ⟨_, _, _, _, ⟨rfl, rfl⟩, ⟨_, _, _, _, ⟨rfl, rfl⟩, ⟨rfl, rfl⟩,
      rfl, rfl⟩, rfl, rfl⟩, rfl, rfl⟩
    exact ⟨rfl, rfl⟩
  · rintro ⟨rfl, rfl⟩
    exact ⟨_, _, _, _, ⟨rfl, rfl⟩, ⟨_, _, _, _, ⟨rfl, rfl⟩, ⟨_, _, _, _, ⟨rfl, rfl⟩, ⟨rfl, rfl⟩,
      rfl, rfl⟩, rfl, rfl⟩, rfl, rfl⟩

theorem gives_switch_cons : (switch n key (c :: cases) other).Gives F s r j ↔
    ∃ k s' code j₁ k', (value key).Gives F s ⟨k, s', code⟩ j₁ ∧ Converts k .int k' ∧
      r = ⟨(), s', code ++ [Outline.plain (cascaded F k' (c :: cases) (jump F other))]⟩ ∧
      j = [Event.label F.body.method other] ++ j₁ ++
        (c :: cases).map fun c => Event.label F.body.method c.2 := by
  constructor
  · intro h
    obtain ⟨_, _, _, _, hj, h₁, rfl, rfl⟩ := gives_bind.1 h
    obtain ⟨rfl, rfl⟩ := gives_jumpTo.1 hj
    obtain ⟨⟨k, s', code⟩, j₁, _, _, ho, h₂, rfl, rfl⟩ := gives_bind.1 h₁
    obtain ⟨k', hc, h₃⟩ := gives_coerce_bind.1 h₂
    obtain ⟨_, _, _, _, hk, h₄, rfl, rfl⟩ := gives_bind.1 h₃
    obtain ⟨rfl, rfl⟩ := gives_cascade.1 hk
    obtain ⟨rfl, rfl⟩ := gives_emit.1 h₄
    exact ⟨k, s', code, j₁, k', ho, hc, by simp, by simp⟩
  · rintro ⟨k, s', code, j₁, k', ho, hc, rfl, rfl⟩
    refine gives_bind.2 ⟨_, _, _, _, gives_jumpTo.2 ⟨rfl, rfl⟩, gives_bind.2 ⟨_, _, _, _, ho,
      gives_coerce_bind.2 ⟨k', hc, gives_bind.2 ⟨_, _, _, _, gives_cascade.2 ⟨rfl, rfl⟩,
        gives_emit.2 ⟨rfl, rfl⟩, rfl, rfl⟩⟩, rfl, rfl⟩, ?_, ?_⟩ <;> simp

theorem switch_gives (h : (switch n key cases other).Gives F s r j) :
    Switched F n key cases other s r j := by
  cases cases with
  | nil =>
    obtain ⟨rfl, rfl⟩ := gives_switch_nil.1 h
    exact .empty rfl
  | cons c cases =>
    obtain ⟨k, s', code, j₁, k', ho, hc, rfl, rfl⟩ := gives_switch_cons.1 h
    exact .cascade (List.cons_ne_nil _ _) (value_gives ho) hc

theorem catchJumps_gives : ∀ {ids : List ClassId} {s : Scratch} {r : Emitted Unit}
    {j : List Event}, (catchJumps handler ids).Gives F s r j →
    ∃ code, CatchJumps F handler ids code j ∧ r = ⟨(), s, code⟩
  | [], s, r, j, h => by
    obtain ⟨rfl, rfl⟩ := gives_pure.1 h
    exact ⟨[], .nil, rfl⟩
  | i :: ids, s, r, j, h => by
    obtain ⟨_, _, _, _, hc, h₁, rfl, rfl⟩ := gives_bind.1 (gives_frame_bind.1 h)
    obtain ⟨τ, hτ, rfl, rfl⟩ := gives_catches.1 hc
    obtain ⟨_, _, _, _, hl, h₂, rfl, rfl⟩ := gives_bind.1 h₁
    obtain ⟨rfl, rfl⟩ := gives_jumpTo.1 hl
    obtain ⟨_, _, _, _, he, h₃, rfl, rfl⟩ := gives_bind.1 h₂
    obtain ⟨rfl, rfl⟩ := gives_emit.1 he
    obtain ⟨code, hrest, rfl⟩ := catchJumps_gives h₃
    exact ⟨_, .cons hτ hrest, by simp⟩

theorem handlerJumps_gives : ∀ {handlers : List Nat} {s : Scratch} {r : Emitted Unit}
    {j : List Event}, (handlerJumps traps handlers).Gives F s r j →
    ∃ code, HandlerJumps F traps handlers code j ∧ r = ⟨(), s, code⟩
  | [], s, r, j, h => by
    obtain ⟨rfl, rfl⟩ := gives_pure.1 h
    exact ⟨[], .nil, rfl⟩
  | handler :: handlers, s, r, j, h => by
    obtain ⟨_, _, _, _, hc, h₁, rfl, rfl⟩ := gives_bind.1 h
    obtain ⟨c₁, hcatch, rfl⟩ := catchJumps_gives hc
    obtain ⟨c₂, hrest, rfl⟩ := handlerJumps_gives h₁
    exact ⟨_, .cons hcatch hrest, rfl⟩

theorem raise_gives (h : (raise n v).Gives F s r j) : Executed F n s (.raise v) r j := by
  obtain ⟨e, _, _, _, ho, h₁, rfl, rfl⟩ := gives_bind.1 (gives_frame_bind.1 h)
  obtain ⟨e', hc, h₂⟩ := gives_coerce_bind.1 h₁
  obtain ⟨_, _, r, j, ha, h₃, rfl, rfl⟩ := gives_bind.1 h₂
  obtain ⟨rfl, rfl⟩ := gives_emit.1 ha
  dsimp only at h₃
  split at h₃
  · exact (not_gives_refuse h₃).elim
  · rename_i hfind
    have hb : ∀ handler ∈ F.body.handlersAt n, bindsCaughtAt F handler = true := by
      intro handler hmem
      have hn : ¬ (!bindsCaughtAt F handler) = true := List.find?_eq_none.1 hfind handler hmem
      simpa using hn
    have ⟨c₂, hh, hr⟩ : ∃ c₂, Handed F n c₂ j ∧ r = ⟨(), e.scratch, c₂⟩ := by
      split at h₃
      · rename_i hnil
        obtain ⟨rfl, rfl⟩ := gives_leave.1 h₃
        exact ⟨_, .leave hnil, rfl⟩
      · rename_i handler hone
        obtain ⟨_, _, _, _, hj, h₄, rfl, rfl⟩ := gives_bind.1 h₃
        obtain ⟨rfl, rfl⟩ := gives_jumpTo.1 hj
        obtain ⟨rfl, rfl⟩ := gives_emit.1 h₄
        exact ⟨_, .single hone, rfl⟩
      · rename_i hnil hone
        obtain ⟨_, _, _, _, hj, h₄, rfl, rfl⟩ := gives_bind.1 h₃
        obtain ⟨code, hjumps, rfl⟩ := handlerJumps_gives hj
        obtain ⟨rfl, rfl⟩ := gives_emit.1 h₄
        match hmany : F.body.handlersAt n with
        | [] => exact (hnil hmany).elim
        | [handler] => exact (hone handler hmany).elim
        | h₁ :: h₂ :: hs => exact ⟨_, by simpa using Handed.many hmany hjumps, rfl⟩
    subst hr
    simpa using Executed.raise (value_gives ho) hc hb hh

theorem dropSizes_gives : ∀ {sizes : List Value} {s : Scratch} {r : Emitted Unit} {j : List Event},
    (dropSizes sizes).Gives F s r j → Dropped F s sizes r j
  | [], s, r, j, h => by
    obtain ⟨rfl, rfl⟩ := gives_pure.1 h
    exact .nil
  | size :: sizes, s, r, j, h => by
    obtain ⟨e, _, _, _, ho, h₁, rfl, rfl⟩ := gives_bind.1 h
    obtain ⟨_, _, _, _, hl, h₂, rfl, rfl⟩ := gives_bind.1 h₁
    obtain ⟨rfl, rfl⟩ := gives_log.1 hl
    simpa using Dropped.cons (value_gives ho) (dropSizes_gives h₂)

theorem assign_gives (h : (assign n target v).Gives F s r j) : Assigned F n target s v r j := by
  have operand {v : Value} {r : Emitted Unit} {j : List Event}
      (h : (do assignTo target (← value v) : Lower Unit).Gives F s r j) :
      Assigned F n target s v r j := by
    obtain ⟨e, _, _, _, ho, h₁, rfl, rfl⟩ := gives_bind.1 h
    exact .value (value_gives ho) (assignTo_gives h₁)
  cases v
  case invoke kind m base args => exact .invoke (invoke_gives h)
  case new i =>
    obtain ⟨_, _, _, _, ha, h₁, rfl, rfl⟩ := gives_bind.1 h
    obtain ⟨τ, hτ, rfl, rfl⟩ := gives_allocate.1 ha
    exact .new hτ (assignTo_gives h₁)
  case newArray elem size =>
    obtain ⟨e, _, _, _, ho, h₁, rfl, rfl⟩ := gives_bind.1 h
    obtain ⟨e', hc, h₂⟩ := gives_coerce_bind.1 h₁
    obtain ⟨_, _, _, _, ha, h₃, rfl, rfl⟩ := gives_bind.1 h₂
    obtain ⟨τ, hτ, rfl, rfl⟩ := gives_allocate.1 ha
    obtain ⟨_, _, _, _, hm, h₄, rfl, rfl⟩ := gives_bind.1 h₃
    obtain ⟨rfl, rfl⟩ := gives_emit.1 hm
    simpa using Assigned.newArray (value_gives ho) hc hτ (assignTo_gives h₄)
  case newMultiArray ty sizes =>
    obtain ⟨_, _, _, _, hd, h₁, rfl, rfl⟩ := gives_bind.1 h
    obtain ⟨_, _, _, _, hg, h₂, rfl, rfl⟩ := gives_bind.1 h₁
    obtain ⟨rfl, rfl⟩ := gives_freshGlobal.1 hg
    obtain ⟨_, _, _, _, ha, h₃, rfl, rfl⟩ := gives_bind.1 h₂
    obtain ⟨τ, hτ, rfl, rfl⟩ := gives_allocateInto.1 ha
    simpa using Assigned.newMultiArray (dropSizes_gives hd) hτ (assignTo_gives h₃)
  all_goals exact operand h

theorem identity_gives (h : (identity index v).Gives F s r j) :
    Bound F s index v r ∧ j = [] := by
  obtain ⟨x, hx, h₁⟩ := gives_slot_bind.1 h
  replace h₁ := gives_frame_bind.1 h₁
  cases v
  case receiver =>
    obtain ⟨_, _, _, _, hs, h₂, rfl, rfl⟩ := gives_bind.1 h₁
    obtain ⟨rfl, rfl⟩ := gives_bindReceiver.1 hs
    obtain ⟨_, _, _, _, ho, h₃, rfl, rfl⟩ := gives_bind.1 h₂
    cases value_gives ho with
    | receiver hr =>
      obtain ⟨e, hc, h₄⟩ := gives_coerce_bind.1 h₃
      obtain ⟨rfl, rfl⟩ := gives_emit.1 h₄
      exact ⟨.receiver hx hr hc, rfl⟩
  case param i =>
    obtain ⟨_, _, _, _, ho, h₂, rfl, rfl⟩ := gives_bind.1 h₁
    cases value_gives ho with
    | param hp =>
      obtain ⟨e, hc, h₃⟩ := gives_coerce_bind.1 h₂
      obtain ⟨rfl, rfl⟩ := gives_emit.1 h₃
      exact ⟨.param hx hp hc, rfl⟩
  case caught =>
    obtain ⟨_, _, _, _, ha, h₂, rfl, rfl⟩ := gives_bind.1 h₁
    obtain ⟨rfl, rfl⟩ := gives_emit.1 ha
    obtain ⟨rfl, rfl⟩ := gives_emit.1 h₂
    exact ⟨.caught hx, rfl⟩
  all_goals exact (not_gives_refuse h₁).elim

/-- Every successful lowering of an instruction has a derivation. -/
theorem instr_gives (h : (instr n i).Gives F s r j) : Executed F n s i r j := by
  cases i with
  | assign target v => exact .assign (assign_gives h)
  | identity index v =>
    obtain ⟨hb, rfl⟩ := identity_gives h
    exact .identity hb
  | invoke call => exact .invoke (invoke_gives h)
  | goto target =>
    obtain ⟨_, _, _, _, hj, h₁, rfl, rfl⟩ := gives_bind.1 h
    obtain ⟨rfl, rfl⟩ := gives_jumpTo.1 hj
    obtain ⟨rfl, rfl⟩ := gives_emit.1 h₁
    exact .goto
  | branch condition target =>
    obtain ⟨e, _, _, _, ho, h₁, rfl, rfl⟩ := gives_bind.1 h
    obtain ⟨e', hc, h₂⟩ := gives_coerce_bind.1 h₁
    obtain ⟨_, _, _, _, hj, h₃, rfl, rfl⟩ := gives_bind.1 h₂
    obtain ⟨rfl, rfl⟩ := gives_jumpTo.1 hj
    obtain ⟨rfl, rfl⟩ := gives_emit.1 h₃
    exact .branch (value_gives ho) hc
  | lookupSwitch key cases other => exact .lookupSwitch (switch_gives h)
  | tableSwitch key low targets other =>
    obtain ⟨cases, ht, h₁⟩ := gives_promise_bind.1 h
    exact .tableSwitch ht (switch_gives h₁)
  | ret v =>
    replace h := gives_frame_bind.1 h
    split at h
    · exact (not_gives_refuse h).elim
    · rename_i x hx
      obtain ⟨e, _, _, _, ho, h₁, rfl, rfl⟩ := gives_bind.1 h
      obtain ⟨e', hc, h₂⟩ := gives_coerce_bind.1 h₁
      obtain ⟨_, _, _, _, ha, h₃, rfl, rfl⟩ := gives_bind.1 h₂
      obtain ⟨rfl, rfl⟩ := gives_emit.1 ha
      obtain ⟨rfl, rfl⟩ := gives_leave.1 h₃
      simpa using Executed.ret hx (value_gives ho) hc
  | retVoid =>
    obtain ⟨rfl, rfl⟩ := gives_leave.1 h
    exact .retVoid
  | raise v => exact raise_gives h
  | nop =>
    obtain ⟨rfl, rfl⟩ := gives_log.1 h
    exact .nop
  | breakpoint =>
    obtain ⟨rfl, rfl⟩ := gives_log.1 h
    exact .breakpoint
  | enterMonitor v =>
    obtain ⟨_, _, _, _, hd, h₁, rfl, rfl⟩ := gives_bind.1 h
    obtain ⟨e, s', code, ho, rfl⟩ := dereference_gives hd
    obtain ⟨rfl, rfl⟩ := gives_pure.1 h₁
    simpa using Executed.enterMonitor ho
  | exitMonitor v =>
    obtain ⟨_, _, _, _, hd, h₁, rfl, rfl⟩ := gives_bind.1 h
    obtain ⟨e, s', code, ho, rfl⟩ := dereference_gives hd
    obtain ⟨rfl, rfl⟩ := gives_pure.1 h₁
    simpa using Executed.exitMonitor ho
  | retSubroutine index =>
    obtain ⟨_, _, _, _, hd, h₁, rfl, rfl⟩ := gives_bind.1 (gives_methodName_bind.1 h)
    obtain ⟨rfl, rfl⟩ := gives_diagnose.1 hd
    obtain ⟨rfl, rfl⟩ := gives_oblige.1 h₁
    exact .retSubroutine

theorem node_gives (h : (node n nd).Gives F s r j) :
    ∃ s' code j', Executed F n s nd.instr ⟨(), s', code⟩ j' ∧
      r = ⟨(), s', entryCode F n ++ code⟩ ∧ j = entryEvents F n ++ j' := by
  replace h := gives_frame_bind.1 h
  split at h <;> rename_i ht
  · obtain ⟨_, _, _, _, hl, h₁, rfl, rfl⟩ := gives_bind.1 h
    obtain ⟨rfl, rfl⟩ := gives_label.1 hl
    obtain ⟨_, _, _, _, he, h₂, rfl, rfl⟩ := gives_bind.1 h₁
    obtain ⟨rfl, rfl⟩ := gives_emit.1 he
    exact ⟨_, _, _, instr_gives h₂, by simp [entryCode, ht], by simp [entryEvents, ht]⟩
  · exact ⟨_, _, _, instr_gives h, by simp [entryCode, ht], by simp [entryEvents, ht]⟩

theorem segments_gives : ∀ {nodes : List (Node × Nat)} {s : Scratch}
    {r : Emitted (List (List Outline))} {j : List Event}, (segments nodes F s).Gives r j →
    Segments F s nodes r.scratch r.value j
  | [], s, r, j, h => by
    obtain ⟨rfl, rfl⟩ := Trace.gives_pure.1 h
    exact .nil
  | (nd, n) :: nodes, s, r, j, h => by
    obtain ⟨_, _, _, hn, h₁, rfl⟩ := Trace.gives_bind.1 h
    obtain ⟨s', code, j', he, rfl, rfl⟩ := node_gives (Trace.gives_within.1 hn)
    obtain ⟨_, _, _, hrest, h₂, rfl⟩ := Trace.gives_bind.1 h₁
    obtain ⟨rfl, rfl⟩ := Trace.gives_pure.1 h₂
    simpa using Segments.cons he (segments_gives hrest)

end Lower

inductive BodyLowered (program : Program) (prelude : Prelude) (globals : Nat) (body : Body) :
    Lowered → List Event → Prop
  | intro (hm : program.method? body.method = .ok method)
      (hs : (Signature.build program prelude body.method).result = .ok signature)
      (hp : LocalPool.ofSlots body.slots = .ok pool)
      (hseg : Lower.Segments ⟨program, prelude, body, method, signature⟩
        { pool, globals } body.nodes.zipIdx s segments j) :
      BodyLowered program prelude globals body ⟨signature, s.pool, segments⟩
        ([.signature body.method, .log ⟨.debug,
          "translating body of `" ++ program.methodName method ++ "`"⟩] ++ j)

/-- Every successful lowering of a body has a derivation. -/
theorem lowerBody_gives (h : (lowerBody program prelude globals body).Gives l j) :
    BodyLowered program prelude globals body l j := by
  obtain ⟨method, _, _, gm, h₁, rfl⟩ := Trace.gives_bind.1 h
  obtain ⟨hm, rfl⟩ := Trace.gives_promise.1 gm
  obtain ⟨signature, _, _, gs, h₂, rfl⟩ := Trace.gives_bind.1 h₁
  obtain ⟨hs, rfl⟩ := Trace.gives_signature.1 gs
  obtain ⟨pool, _, _, gp, h₃, rfl⟩ := Trace.gives_bind.1 h₂
  obtain ⟨hp, rfl⟩ := Trace.gives_decision.1 (Trace.gives_within.1 gp)
  obtain ⟨_, _, _, gl, h₄, rfl⟩ := Trace.gives_bind.1 h₃
  obtain ⟨-, rfl⟩ := Trace.gives_emit.1 gl
  obtain ⟨r, _, _, hr, h₅, rfl⟩ := Trace.gives_bind.1 h₄
  obtain ⟨rfl, rfl⟩ := Trace.gives_pure.1 h₅
  simpa using BodyLowered.intro hm hs hp (Lower.segments_gives hr)

end Verilower
