import Verilower.Proofs.ControlFlow
import Verilower.Proofs.History
import Verilower.Proofs.Lowering.Inline

namespace Verilower
set_option autoImplicit true

open Ivl

mutual

/-- What stands in front of each return of a statement, in the list that the return stands in;
`before` stands in front of the statement itself. -/
def Ivl.Stmt.exits (before : List Stmt) : Stmt → List (List Stmt)
  | .ret => [before]
  | .ite _ thenBranch elseBranch => Stmt.exitsAll [] thenBranch ++ Stmt.exitsAll [] elseBranch
  | _ => []

def Ivl.Stmt.exitsAll (before : List Stmt) : List Stmt → List (List Stmt)
  | [] => []
  | s :: ss => s.exits before ++ Stmt.exitsAll (before ++ [s]) ss

end

namespace Encoding

mutual

/-- What stands in front of each return of encoded code, in the list that the return stands in; the
returns that end a violation are left out. -/
def exits (enc : Encoding) (before : List Stmt) : Outline → List (List Stmt)
  | .plain s => s.exits before
  | .oblige _ => []
  | .when _ body => enc.exitsAll [] body

def exitsAll (enc : Encoding) (before : List Stmt) : List Outline → List (List Stmt)
  | [] => []
  | o :: os => enc.exits before o ++ enc.exitsAll (before ++ enc.encode o) os

end

mutual

/-- What stands in front of each return that ends a violation, in the list that the return stands in:
every obligation of the code has its returns at its own place. -/
def violationExits (enc : Encoding) (before : List Stmt) : Outline → List (List Stmt)
  | .plain _ => []
  | .oblige o => Stmt.exitsAll before (enc.obligation o)
  | .when _ body => enc.violationExitsAll [] body

def violationExitsAll (enc : Encoding) (before : List Stmt) : List Outline → List (List Stmt)
  | [] => []
  | o :: os => enc.violationExits before o ++ enc.violationExitsAll (before ++ enc.encode o) os

end

def enforce (enc : Encoding) (formulas : List Expr) : List Stmt :=
  formulas.flatMap fun e => enc.obligation (.postcondition e)

end Encoding

/-- All postconditions are enforced right in front of each exit of the implementation. -/
def Lowered.Enforces (l : Lowered) (options : Options) : Prop :=
  ∀ front ∈ (l.encoding options).exitsAll (l.prologue options) l.segments.flatten,
    (l.encoding options).enforce l.signature.procedure.postconditions <:+ front

theorem Ivl.Stmt.exitsAll_append {before : List Stmt} : Stmt.exitsAll before (ss ++ ts) =
    Stmt.exitsAll before ss ++ Stmt.exitsAll (before ++ ss) ts := by
  induction ss generalizing before with
  | nil => simp [Stmt.exitsAll]
  | cons s ss ih => simp [Stmt.exitsAll, ih]

theorem Ivl.Stmt.exitsAll_simple {before : List Stmt} (h : ∀ s ∈ ss, s.isSimple = true) :
    Stmt.exitsAll before ss = [] := by
  induction ss generalizing before with
  | nil => rfl
  | cons s ss ih =>
    have hs : s.exits before = [] := by
      have hsimple := h s List.mem_cons_self
      cases s <;> first | rfl | cases hsimple
    rw [Stmt.exitsAll, hs, ih fun t ht => h t (List.mem_cons_of_mem _ ht), List.append_nil]

namespace Encoding

variable {enc : Encoding} {before : List Stmt}

mutual

theorem exits_encode_perm : ∀ {o : Outline} {before : List Stmt},
    (Stmt.exitsAll before (enc.encode o)).Perm (enc.exits before o ++ enc.violationExits before o)
  | .plain s, before => by simp [Stmt.exitsAll, exits, violationExits]
  | .oblige o, before => by simp [exits, violationExits]
  | .when c body, before => by
    have hbody : (Stmt.exitsAll [] (enc.encodeAll body)).Perm
        (enc.exitsAll [] body ++ enc.violationExitsAll [] body) := exitsAll_encodeAll_perm
    simpa [Stmt.exitsAll, Stmt.exits, Stmt.when, exits, violationExits] using hbody

/-- The returns of encoded code are its exits and those that end a violation, each once. -/
theorem exitsAll_encodeAll_perm : ∀ {os : List Outline} {before : List Stmt},
    (Stmt.exitsAll before (enc.encodeAll os)).Perm
      (enc.exitsAll before os ++ enc.violationExitsAll before os)
  | [], _ => .nil
  | o :: os, before => by
    rw [encodeAll_cons, Stmt.exitsAll_append, exitsAll, violationExitsAll, List.append_assoc]
    refine (exits_encode_perm.append exitsAll_encodeAll_perm).trans ?_
    rw [List.append_assoc]
    exact (List.perm_append_comm_assoc ..).append_left _

end

theorem exitsAll_append : enc.exitsAll before (os ++ ps) =
    enc.exitsAll before os ++ enc.exitsAll (before ++ enc.encodeAll os) ps := by
  induction os generalizing before with
  | nil => simp [exitsAll]
  | cons o os ih => simp [exitsAll, ih]

theorem exitsAll_plain : enc.exitsAll before [.plain s] = s.exits before := by
  simp [exitsAll, exits]

theorem exitsAll_oblige : enc.exitsAll before [.oblige o] = [] := by simp [exitsAll, exits]

theorem exitsAll_when : enc.exitsAll before [.when c body] = enc.exitsAll [] body := by
  simp [exitsAll, exits]

theorem encodeAll_postconditions {formulas : List Expr} :
    enc.encodeAll (formulas.map fun e => .oblige (.postcondition e)) = enc.enforce formulas := by
  induction formulas with
  | nil => rfl
  | cons e es ih =>
    rw [List.map_cons, encodeAll_cons, ih]
    rfl

theorem obligation_postcondition (enc : Encoding) (e : Expr) : enc.obligation (.postcondition e) =
    [.when (.not e) (enc.raise .postcondition)] ∨ enc.obligation (.postcondition e) = [.assert e] := by
  have hd : enc.drops (.postcondition e) = false := by
    simp [drops, Obligation.postcondition]
  simp only [obligation, hd]
  cases enc.model with
  | exception => exact .inl rfl
  | assertion => exact .inr rfl

theorem getLast?_enforce (enc : Encoding) {formulas : List Expr} (hne : formulas ≠ []) :
    ∃ s, (enc.enforce formulas).getLast? = some s ∧ ∀ c l, s ≠ .when c [.jump l] := by
  obtain ⟨es, e, rfl⟩ : ∃ es e, formulas = es ++ [e] :=
    ⟨_, _, (List.dropLast_append_getLast hne).symm⟩
  have hlast : (enc.enforce (es ++ [e])).getLast? = (enc.obligation (.postcondition e)).getLast? := by
    obtain h | h := enc.obligation_postcondition e <;> simp [enforce, h]
  rw [hlast]
  obtain h | h := enc.obligation_postcondition e
  · refine ⟨_, by rw [h]; rfl, ?_⟩
    intro c l he
    simp [Stmt.when, Stmt.jump, raise] at he
  · refine ⟨_, by rw [h]; rfl, ?_⟩
    intro c l he
    cases he

end Encoding

namespace Lower

/-- The code has no exit. -/
def Exitless (code : List Outline) : Prop :=
  ∀ (enc : Encoding) (before : List Stmt), enc.exitsAll before code = []

/-- The postconditions are enforced in front of each exit of the code. -/
def Enforcing (F : Frame) (code : List Outline) : Prop :=
  ∀ (enc : Encoding) (before : List Stmt), ∀ front ∈ enc.exitsAll before code,
    enc.enforce F.signature.procedure.postconditions <:+ front

theorem Exitless.append (ha : Exitless as) (hb : Exitless bs) : Exitless (as ++ bs) := by
  intro enc before
  rw [Encoding.exitsAll_append, ha, hb, List.append_nil]

theorem Exitless.cons (ho : Exitless [o]) (hos : Exitless os) : Exitless (o :: os) := ho.append hos

theorem exitless_nil : Exitless [] := fun _ _ => rfl

theorem exitless_plain {s : Stmt} (h : ∀ before, s.exits before = []) : Exitless [.plain s] := by
  intro enc before
  rw [Encoding.exitsAll_plain, h]

theorem exitless_jump : Exitless [.plain (jump F n)] := exitless_plain fun _ => rfl

theorem exitless_jumpWhen : Exitless [.plain (.when c [.jump l])] := exitless_plain fun _ => rfl

theorem Inline.exitless (h : Inline code) : Exitless code := by
  induction code with
  | nil => exact exitless_nil
  | cons o os ih =>
    obtain ⟨ho, hos⟩ := inline_cons.1 h
    apply Exitless.cons _ (ih hos)
    cases o with
    | oblige => exact fun _ _ => Encoding.exitsAll_oblige
    | plain s => cases s <;> first | exact exitless_plain fun _ => rfl | cases ho
    | when => cases ho

theorem exitless_entryCode : Exitless (entryCode F n) := by
  unfold entryCode
  split
  · exact exitless_plain fun _ => rfl
  · exact exitless_nil

theorem DirectCall.exitless (h : DirectCall F m callee actuals result captured code j) :
    Exitless code := by
  obtain ⟨-, -, -, ha⟩ := h
  apply Exitless.append _ ha.inline.exitless
  exact inline_preconditionCode.exitless.append (exitless_plain fun _ => rfl)

theorem GuardedCalls.exitless
    (h : GuardedCalls F receiver actuals result captured ts thrown code j) : Exitless code := by
  induction h with
  | nil => exact exitless_nil
  | cons _ hd _ _ ih =>
    apply Exitless.cons _ ih
    intro enc before
    rw [Encoding.exitsAll_when, hd.exitless]

theorem Performed.exitless
    (h : Performed F n call callee actuals result captured receiver thrown code j) :
    Exitless code := by
  cases h with
  | direct _ hd => exact hd.exitless
  | fallback _ _ _ _ hd => exact hd.exitless
  | devirtualized _ _ _ _ _ hg => exact hg.exitless

theorem TrapJumps.exitless (h : TrapJumps F ts code j) : Exitless code := by
  induction h with
  | nil => exact exitless_nil
  | cons _ _ ih => exact exitless_jumpWhen.cons ih

theorem exits_cascaded {inner : Stmt} (h : ∀ before, inner.exits before = []) (before : List Stmt) :
    (cascaded F key cases inner).exits before = [] := by
  induction cases generalizing inner before with
  | nil => exact h before
  | cons c cases ih =>
    apply ih
    intro before
    simp [Stmt.exits, Stmt.exitsAll, jump, Stmt.jump, h]

theorem Switched.exitless (h : Switched F n key cases other s r j) : Exitless r.code := by
  cases h with
  | empty => exact exitless_jump
  | cascade _ ho =>
    apply ho.inline.exitless.append
    exact exitless_plain (exits_cascaded fun _ => rfl)

theorem Exitless.enforcing (h : Exitless code) : Enforcing F code := by
  intro enc before front hf
  rw [h] at hf
  cases hf

theorem Enforcing.append (ha : Enforcing F as) (hb : Enforcing F bs) : Enforcing F (as ++ bs) := by
  intro enc before front hf
  rw [Encoding.exitsAll_append] at hf
  obtain hf | hf := List.mem_append.1 hf
  · exact ha enc _ front hf
  · exact hb enc _ front hf

theorem enforcing_exitCode : Enforcing F (exitCode F) := by
  intro enc before front hf
  rw [exitCode, Encoding.exitsAll_append, inline_obligations.exitless, Encoding.exitsAll_plain,
    Encoding.encodeAll_postconditions] at hf
  obtain rfl := List.mem_singleton.1 hf
  exact List.suffix_append _ _

theorem enforcing_when (h : Enforcing F body) : Enforcing F [.when c body] := by
  intro enc before front hf
  rw [Encoding.exitsAll_when] at hf
  exact h enc [] front hf

theorem EscapeExits.enforcing (h : EscapeExits F n fuel types code j) : Enforcing F code := by
  induction h with
  | spent | done => exact exitless_nil.enforcing
  | step _ _ _ _ ih => exact (enforcing_when enforcing_exitCode).append ih

theorem Continued.enforcing (h : Continued F n thrown code j) : Enforcing F code := by
  obtain ⟨hj, -, he⟩ := h
  exact hj.exitless.enforcing.append he.enforcing

theorem Invoked.enforcing {call : Call} (h : Invoked F n call target s r j) :
    Enforcing F r.code := by
  cases h with
  | exit => exact enforcing_exitCode
  | stringLengthDropped _ _ _ ho =>
    exact (ho.inline.exitless.append inline_nullGuard.exitless).enforcing
  | stringLength _ _ _ ho _ hs =>
    apply Exitless.enforcing
    exact (ho.inline.exitless.append inline_nullGuard.exitless).append hs.inline.exitless
  | call _ _ _ _ hr ha _ hp hx hw =>
    have hbefore := (hr.inline.exitless.append ha.inline.exitless).append hp.exitless
    exact (hbefore.enforcing.append hx.enforcing).append hw.inline.exitless.enforcing

theorem Assigned.enforcing (h : Assigned F n target s v r j) : Enforcing F r.code := by
  cases h with
  | invoke hi => exact hi.enforcing
  | new _ hs => exact (inline_newObject.exitless.append hs.inline.exitless).enforcing
  | newArray ho _ _ hs =>
    apply Exitless.enforcing
    apply Exitless.append _ hs.inline.exitless
    apply Exitless.append _ (exitless_plain fun _ => rfl)
    exact ho.inline.exitless.append inline_newObject.exitless
  | newMultiArray hd _ hs =>
    apply Exitless.enforcing
    exact (hd.inline.exitless.append inline_newObject.exitless).append hs.inline.exitless
  | value ho hs => exact (ho.inline.exitless.append hs.inline.exitless).enforcing

/-- A throw with one handler at most leaves by enforcing the postconditions, if it leaves at all. -/
theorem Handed.enforcing (h : Handed F n code j) (hn : (F.body.handlersAt n).length ≤ 1) :
    Enforcing F code := by
  cases h with
  | leave => exact enforcing_exitCode
  | single => exact exitless_jump.enforcing
  | many hh => simp [hh] at hn

/-- An instruction enforces the postconditions at its exits, unless it is a throw with several
handlers. -/
theorem Executed.enforcing (h : Executed F n s i r j)
    (hn : ∀ v, i = .raise v → (F.body.handlersAt n).length ≤ 1) : Enforcing F r.code := by
  cases h with
  | assign h => exact h.enforcing
  | identity h => exact h.inline.exitless.enforcing
  | invoke h => exact h.enforcing
  | goto => exact exitless_jump.enforcing
  | branch ho => exact (ho.inline.exitless.append exitless_jumpWhen).enforcing
  | lookupSwitch h => exact h.exitless.enforcing
  | tableSwitch _ h => exact h.exitless.enforcing
  | ret _ ho =>
    apply Enforcing.append _ enforcing_exitCode
    exact (ho.inline.exitless.append (exitless_plain fun _ => rfl)).enforcing
  | retVoid => exact enforcing_exitCode
  | raise ho _ _ hh =>
    apply Enforcing.append _ (hh.enforcing (hn _ rfl))
    exact (ho.inline.exitless.append (exitless_plain fun _ => rfl)).enforcing
  | nop | breakpoint => exact exitless_nil.enforcing
  | enterMonitor ho | exitMonitor ho =>
    exact (ho.inline.exitless.append inline_nullGuard.exitless).enforcing
  | retSubroutine => exact fun enc before => nofun

theorem Segments.enforcing (h : Segments F s nodes s' segs j)
    (hn : ∀ node ∈ nodes, ∀ v, node.1.instr = .raise v → (F.body.handlersAt node.2).length ≤ 1) :
    Enforcing F segs.flatten := by
  induction h with
  | nil => exact exitless_nil.enforcing
  | cons hx _ ih =>
    apply Enforcing.append _ (ih fun node h => hn node (List.mem_cons_of_mem _ h))
    exact exitless_entryCode.enforcing.append (hx.enforcing (hn _ List.mem_cons_self))

def EndsInJump (code : List Outline) : Prop :=
  ∃ front c l, code = front ++ [.plain (.when c [.jump l])]

theorem EndsInJump.prepend (h : EndsInJump code) (os : List Outline) : EndsInJump (os ++ code) := by
  obtain ⟨front, c, l, rfl⟩ := h
  exact ⟨os ++ front, c, l, (List.append_assoc ..).symm⟩

theorem CatchJumps.endsInJump (h : CatchJumps F handler ids code j) (hne : ids ≠ []) :
    EndsInJump code := by
  induction h with
  | nil => contradiction
  | @cons i τ ids code j ht hrest ih =>
    by_cases hids : ids = []
    · subst hids
      cases hrest
      exact ⟨[], _, _, rfl⟩
    · exact (ih hids).prepend [_]

theorem HandlerJumps.endsInJump (h : HandlerJumps F traps handlers code j)
    (ht : ∀ k ∈ handlers, ∃ t ∈ traps, t.handler = k) (hne : handlers ≠ []) :
    EndsInJump code := by
  induction h with
  | nil => contradiction
  | @cons handler c₁ j₁ handlers c₂ j₂ hc hrest ih =>
    by_cases hhs : handlers = []
    · subst hhs
      cases hrest
      obtain ⟨t, hmem, rfl⟩ := ht _ List.mem_cons_self
      rw [List.append_nil]
      apply hc.endsInJump
      apply List.ne_nil_of_mem (a := t.exception)
      exact List.mem_map_of_mem (List.mem_filter.2 ⟨hmem, by simp⟩)
    · exact (ih (fun k hk => ht k (List.mem_cons_of_mem _ hk)) hhs).prepend _

/-- A throw with several handlers has an exit right behind a guarded jump. -/
theorem Executed.exit_of_raise (h : Executed F n s (.raise v) r j)
    (hn : 1 < (F.body.handlersAt n).length) :
    ∃ code, EndsInJump code ∧ r.code = code ++ [.plain .ret] := by
  cases h with
  | raise _ _ _ hh =>
    cases hh with
    | leave h | single h => simp [h] at hn
    | many h hj =>
      refine ⟨_, ?_, (List.append_assoc ..).symm⟩
      apply EndsInJump.prepend
      exact hj.endsInJump (fun k hk => mem_handlersAt.1 hk) (by simp [h])

theorem Segments.exit_of_raise (h : Segments F s nodes s' segs j) (hnode : (nd, n) ∈ nodes)
    (hi : nd.instr = .raise v) (hn : 1 < (F.body.handlersAt n).length) :
    ∃ code post, EndsInJump code ∧ segs.flatten = code ++ [.plain .ret] ++ post := by
  induction h with
  | nil => cases hnode
  | @cons _ _ _ _ _ _ _ segs _ _ hx _ ih =>
    rw [List.flatten_cons]
    cases hnode with
    | head =>
      rw [hi] at hx
      obtain ⟨code, hjump, rfl⟩ := hx.exit_of_raise hn
      refine ⟨entryCode F n ++ code, segs.flatten, hjump.prepend _, ?_⟩
      simp only [List.append_assoc]
    | tail _ hmem =>
      obtain ⟨code, post, hjump, hsegs⟩ := ih hmem
      exact ⟨_, post, hjump.prepend _, by rw [hsegs, ← List.append_assoc, ← List.append_assoc]⟩

end Lower

/-- Postconditions are not enforced in front of an exit right behind a guarded jump. -/
theorem Encoding.not_enforced_of_jump {enc : Encoding} {formulas : List Expr} (hne : formulas ≠ [])
    (hjump : Lower.EndsInJump code) (before : List Stmt) (post : List Outline) :
    ∃ front ∈ enc.exitsAll before (code ++ [.plain .ret] ++ post),
      ¬ enc.enforce formulas <:+ front := by
  refine ⟨before ++ enc.encodeAll code, ?_, ?_⟩
  · rw [exitsAll_append, exitsAll_append, exitsAll_plain]
    exact List.mem_append_left _ (List.mem_append_right _ List.mem_cons_self)
  · obtain ⟨init, c, l, rfl⟩ := hjump
    obtain ⟨s, hs, hnot⟩ := enc.getLast?_enforce hne
    rintro ⟨start, heq⟩
    have hlast := congrArg List.getLast? heq
    rw [List.getLast?_append, hs] at hlast
    simp at hlast
    exact hnot c l hlast

theorem BodyLowered.enforces_iff (h : BodyLowered p q g body low j) (options : Options) :
    low.Enforces options ↔ low.signature.procedure.postconditions = [] ∨
      ∀ (k : Nat) node v, body.nodes[k]? = some node → node.instr = .raise v →
        (body.handlersAt k).length ≤ 1 := by
  constructor
  · intro henf
    by_cases hne : low.signature.procedure.postconditions = []
    · exact .inl hne
    right
    intro k node v hnode hi
    by_contra hk
    obtain ⟨-, -, -, hseg⟩ := h
    have hmem : (node, k) ∈ body.nodes.zipIdx := List.mem_zipIdx_iff_getElem?.2 hnode
    obtain ⟨code, post, hjump, hsegs⟩ := hseg.exit_of_raise hmem hi (Nat.lt_of_not_le hk)
    rw [Lowered.Enforces, hsegs] at henf
    obtain ⟨front, hfront, hnot⟩ := Encoding.not_enforced_of_jump hne hjump _ post
    exact hnot (henf front hfront)
  · rintro (hnone | hraise) front hfront
    · rw [hnone]
      exact List.nil_suffix
    · obtain ⟨-, -, -, hseg⟩ := h
      refine hseg.enforcing ?_ _ _ front hfront
      intro node hnode v hi
      exact hraise _ _ v (List.mem_zipIdx_iff_getElem?.1 hnode) hi

/-- Exits of a lowered body: the returns are the exits and those that end a violation of an obligation
of the body, each once, and all postconditions are enforced right in front of every exit, unless there
are postconditions and a throw with several handlers. -/
theorem lower_exits {s : Session} {body : Body} {i : Implementation}
    (h : (s.lower body).1 = .ok i) :
    ∃ low : Lowered,
      (lowerBody s.program s.prelude s.registry.globals.length body).result = .ok low ∧
      i = low.implementation s.options ∧
      (Stmt.exitsAll [] i.body).Perm
        ((low.encoding s.options).exitsAll (low.prologue s.options) low.segments.flatten ++
          (low.encoding s.options).violationExitsAll (low.prologue s.options)
            low.segments.flatten) ∧
      (low.Enforces s.options ↔ i.procedure.postconditions = [] ∨
        ∀ (k : Nat) node v, body.nodes[k]? = some node → node.instr = .raise v →
          (body.handlersAt k).length ≤ 1) := by
  obtain ⟨low, j, hgives, rfl, -⟩ := Session.lower_result h
  refine ⟨low, congrArg Trace.result hgives, rfl, ?_,
    (lowerBody_gives hgives).enforces_iff s.options⟩
  rw [Lowered.implementation, Stmt.exitsAll_append,
    Stmt.exitsAll_simple (low.prologue_isSimple s.options), List.nil_append, List.nil_append,
    ← Encoding.encodeAll_flatten]
  exact Encoding.exitsAll_encodeAll_perm

/-- A static method whose result is never null, and two classes of exceptions. -/
def picking : Program := .declaring [
  .addClass "Early" (some ClassId.throwable),
  .addClass "Late" (some ClassId.throwable),
  .addMethod ClassId.object {
    name := "pick", params := [.cls ClassId.throwable], returns := .cls ClassId.throwable,
    isStatic := true, annotations := [.nonNull] }] (by decide +kernel)

def pickingSession : Session := Session.start (.ofProgram picking) .standard {}

/-- A throw, and two nodes that bind a caught exception. -/
def pickingNodes : List Node := [
  { instr := .identity 0 (.param 0) },
  { instr := .raise (.slot 0) },
  { instr := .identity 1 .caught },
  { instr := .ret (.slot 1) },
  { instr := .identity 1 .caught },
  { instr := .ret (.slot 0) }]

def pickingBody : Body where
  method := 0
  slots := [⟨"x", .cls ClassId.throwable⟩, ⟨"e", .cls ClassId.throwable⟩]
  nodes := pickingNodes
  traps := [⟨1, 2, 3, 2⟩, ⟨1, 2, 4, 2⟩]
  sound := by decide

def partingBody : Body where
  method := 0
  slots := [⟨"x", .cls ClassId.throwable⟩, ⟨"e", .cls ClassId.throwable⟩]
  nodes := pickingNodes
  traps := [⟨1, 2, 3, 2⟩, ⟨1, 2, 4, 4⟩]
  sound := by decide

theorem lower_exits_picking :
    ∃ i, (pickingSession.lower pickingBody).1 = .ok i ∧ i.procedure.postconditions.length = 1 ∧
      ∃ low : Lowered, i = low.implementation pickingSession.options ∧
        low.Enforces pickingSession.options := by
  have hrun : ((pickingSession.lower pickingBody).1.toOption.map fun i =>
      i.procedure.postconditions.length) = some 1 := by decide +kernel
  obtain ⟨i, hi, hpost⟩ := exists_of_toOption_map hrun
  obtain ⟨low, -, hlow, -, henf⟩ := lower_exits hi
  refine ⟨i, hi, hpost, low, hlow, henf.2 (.inr ?_)⟩
  have hone : ∀ k < 6, (pickingBody.handlersAt k).length ≤ 1 := by decide
  intro k node v hnode _
  exact hone k (List.getElem?_eq_some_iff.1 hnode).1

/-- A throw that neither handler catches leaves the method without its postcondition. -/
theorem parting_unenforced :
    ∃ low : Lowered, (pickingSession.lower partingBody).1 =
        .ok (low.implementation pickingSession.options) ∧
      ¬ low.Enforces pickingSession.options := by
  have hrun : ((pickingSession.lower partingBody).1.toOption.map fun i =>
      i.procedure.postconditions.length) = some 1 := by decide +kernel
  obtain ⟨i, hi, hpost⟩ := exists_of_toOption_map hrun
  obtain ⟨low, j, hlow, rfl, -⟩ := Session.lower_gives hi
  refine ⟨low, hi, ?_⟩
  rw [hlow.enforces_iff]
  rintro (hnone | hraise)
  · simp [Lowered.implementation, hnone] at hpost
  · have htwo : ¬ (partingBody.handlersAt 1).length ≤ 1 := by decide
    exact htwo (hraise 1 _ _ rfl rfl)

end Verilower
