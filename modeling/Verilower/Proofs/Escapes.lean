import Mathlib.Data.Finset.Max
import Verilower.Proofs.Devirtualization
import Verilower.Proofs.Exits
import Verilower.Proofs.Lowering.Quiet
import Verilower.Proofs.Lowering.Safe
import Verilower.Proofs.NonInterference

namespace Verilower
set_option autoImplicit true

open Ivl
open Verilower.Digraph (Within Acyclic Reach)

/-- In a graph without cycles, some node of a list leads to no other node of the list. -/
theorem Digraph.Acyclic.exists_last {next : Nat → List Nat} (hac : Acyclic size next)
    (hnext : Within size next) {l : List Nat} (hl : ∀ a ∈ l, a < size) (hne : l ≠ []) :
    ∃ a ∈ l, ∀ b ∈ l, Reach next a b → b = a := by
  obtain ⟨a, ha, hmin⟩ := Finset.exists_min_image l.toFinset
    (fun a => (preorder size next a).length) (List.toFinset_nonempty_iff l |>.2 hne)
  simp only [List.mem_toFinset] at ha hmin
  refine ⟨a, ha, fun b hb hr => ?_⟩
  obtain rfl | ⟨c, hc, hcb⟩ := hr.cases_head
  · rfl
  · have hca := hnext a (hl a ha) c hc
    have hsub : (preorder size next b).length ≤ (preorder size next c).length := by
      apply (preorder_nodup hnext (hl b hb)).length_le_of_subset
      intro d hd
      rw [mem_preorder hnext (hl b hb)] at hd
      rw [mem_preorder hnext hca]
      exact hcb.trans hd
    have hlt := length_preorder_lt hnext hac (hl a ha) hc
    exact absurd (hmin b hb) (by omega)

theorem anyOf_eq_ok {test : α → Except Fault Bool} {g : α → Bool} {as : List α}
    (h : anyOf test as = .ok found) (ht : ∀ a ∈ as, ∀ x, test a = .ok x → x = g a) :
    found = as.any g := by
  induction as with
  | nil =>
    cases h
    rfl
  | cons a as ih =>
    obtain ⟨x, hx, h⟩ := except_bind_eq_ok.1 h
    have hg := ht a List.mem_cons_self x hx
    rw [List.any_cons, ← hg]
    cases x with
    | true =>
      cases h
      rfl
    | false => exact ih h fun b hb => ht b (List.mem_cons_of_mem _ hb)

theorem exists_of_anyOf {test : α → Except Fault Bool} {as : List α}
    (h : anyOf test as = .ok true) :
    ∃ a ∈ as, test a = .ok true := by
  induction as with
  | nil => cases h
  | cons a as ih =>
    obtain ⟨x, hx, h⟩ := except_bind_eq_ok.1 h
    cases x with
    | true => exact ⟨a, List.mem_cons_self, hx⟩
    | false =>
      obtain ⟨b, hb, ht⟩ := ih h
      exact ⟨b, List.mem_cons_of_mem _ hb, ht⟩

theorem filterM_eq_ok {f : α → Except ε Bool} {g : α → Bool} {xs : List α}
    (h : xs.filterM f = .ok ys) (hf : ∀ a ∈ xs, ∀ x, f a = .ok x → x = g a) :
    ys = xs.filter g := by
  have haux : ∀ acc zs, List.filterAuxM f xs acc = .ok zs → zs = (xs.filter g).reverse ++ acc := by
    clear h
    induction xs with
    | nil =>
      intro acc zs h
      exact (Except.ok.inj h).symm
    | cons x xs ih =>
      intro acc zs h
      obtain ⟨y, hy, h⟩ := except_bind_eq_ok.1 h
      rw [ih (fun a ha => hf a (List.mem_cons_of_mem _ ha)) _ _ h,
        hf x List.mem_cons_self y hy]
      cases hg : g x <;> simp [hg]
  obtain ⟨zs, hz, h⟩ := except_bind_eq_ok.1 h
  rw [← Except.ok.inj h, haux _ _ hz]
  simp

namespace Program

variable {p : Program} {a b : ClassId}

theorem testSubtype_eq_ok (h : p.testSubtype a b = .ok x) : x = p.isSubtype a b := by
  unfold Draft.testSubtype at h
  split at h
  · exact (Except.ok.inj h).symm
  · cases h

theorem lt_of_testSubtype (h : p.testSubtype a b = .ok true) (hne : a ≠ b) :
    ClassId.node a < p.classes.length ∧ ClassId.node b < p.classes.length := by
  have hsub := (testSubtype_eq_ok h).symm
  unfold Draft.testSubtype at h
  split at h
  · rename_i hor
    have ha : ClassId.node a < p.classes.length := by simpa [hne] using hor
    simp only [Draft.isSubtype, Draft.supertypes, hne, beq_iff_eq, Bool.or_eq_true, false_or,
      List.contains_iff_mem, Digraph.mem_preorder within_declaredSupertypes ha] at hsub
    exact ⟨ha, hsub.lt within_declaredSupertypes ha⟩
  · cases h

theorem mostSpecific?_eq_some (h : p.mostSpecific? types rest = .ok (some i)) :
    i ∈ rest ∧ ∀ c ∈ types, c ≠ i → p.isSubtype c i = false := by
  induction rest with
  | nil => cases h
  | cons ty rest ih =>
    obtain ⟨x, hx, h⟩ := except_bind_eq_ok.1 h
    cases x with
    | true =>
      obtain ⟨hi, hmin⟩ := ih h
      exact ⟨List.mem_cons_of_mem _ hi, hmin⟩
    | false =>
      cases h
      have hany := anyOf_eq_ok hx fun c _ _ hc => testSubtype_eq_ok hc
      refine ⟨List.mem_cons_self, fun c hc hne => ?_⟩
      simpa using List.any_eq_false.1 hany.symm c (by simp [hc, hne])

theorem mostSpecific?_eq_none (h : p.mostSpecific? types rest = .ok none) (hty : ty ∈ rest) :
    ∃ c ∈ types, c ≠ ty ∧ p.testSubtype c ty = .ok true := by
  induction rest with
  | nil => cases hty
  | cons ty' rest ih =>
    obtain ⟨x, hx, h⟩ := except_bind_eq_ok.1 h
    cases x with
    | false => cases h
    | true =>
      obtain rfl | hty := List.mem_cons.1 hty
      · obtain ⟨c, hc, htest⟩ := exists_of_anyOf hx
        obtain ⟨hc, hne⟩ := List.mem_filter.1 hc
        exact ⟨c, hc, by simpa using hne, htest⟩
      · exact ih h hty

/-- Among types that have their own nodes there is a most specific one. -/
theorem mostSpecific?_ne_none (hids : ∀ c ∈ types, ClassId.node c = c) (hne : types ≠ []) :
    p.mostSpecific? types types ≠ .ok none := by
  intro h
  have hlt : ∀ c ∈ types, c < p.classes.length := by
    intro c hc
    obtain ⟨d, -, hdc, htest⟩ := mostSpecific?_eq_none h hc
    simpa [hids c hc] using (lt_of_testSubtype htest hdc).2
  -- Otherwise each type would have a proper subtype among them, also a last one on the way down.
  obtain ⟨c, hc, hlast⟩ := acyclic_directSubtypes.exists_last within_directSubtypes hlt hne
  obtain ⟨d, hd, hdc, htest⟩ := mostSpecific?_eq_none h hc
  have hsub := (isSubtype_iff (hlt d hd) (hlt c hc)).1 (testSubtype_eq_ok htest).symm
  exact hdc (hlast d hd ((reach_iff (hlt d hd) (hlt c hc)).2 hsub))

theorem escaping_eq_ok (h : p.escaping thrown caught = .ok types) :
    types = thrown.filter fun c => !caught.any (p.isSubtype c) := by
  refine filterM_eq_ok h fun c _ x hx => ?_
  obtain ⟨found, hfound, hx⟩ := except_bind_eq_ok.1 hx
  rw [← Except.ok.inj hx, anyOf_eq_ok hfound fun d _ _ hd => testSubtype_eq_ok hd]

/-- The loop over types: the most specific one is taken out until there is none. -/
inductive Drains (p : Program) : List ClassId → List ClassId → Prop
  | done (h : p.mostSpecific? types types = .ok none) : Drains p types []
  | take (h : p.mostSpecific? types types = .ok (some i))
      (hrest : Drains p (types.filter (· ≠ i)) order) : Drains p types (i :: order)

namespace Drains

theorem subset (h : Drains p types order) : order ⊆ types := by
  induction h with
  | done => exact List.nil_subset _
  | take h _ ih =>
    refine List.cons_subset.2 ⟨(mostSpecific?_eq_some h).1, ?_⟩
    exact List.Subset.trans ih (List.filter_subset_self _)

theorem nodup (h : Drains p types order) : order.Nodup := by
  induction h with
  | done => exact .nil
  | take _ hrest ih =>
    refine List.nodup_cons.2 ⟨fun hi => ?_, ih⟩
    simpa using (List.mem_filter.1 (hrest.subset hi)).2

theorem sublist (h : Drains p types order) (ha : a ∈ order) (hb : b ∈ order)
    (hab : p.isStrictSubtype a b = true) : [a, b].Sublist order := by
  obtain ⟨hne, hsub⟩ : a ≠ b ∧ p.isSubtype a b = true := by simpa [Draft.isStrictSubtype] using hab
  induction h with
  | done => cases ha
  | @take types i order h hrest ih =>
    obtain rfl | ha' := List.mem_cons.1 ha
    · have hb' := (List.mem_cons.1 hb).resolve_left hne.symm
      exact (List.singleton_sublist.2 hb').cons_cons a
    · obtain rfl | hb' := List.mem_cons.1 hb
      · have hmem := List.mem_filter.1 (hrest.subset ha')
        rw [(mostSpecific?_eq_some h).2 a hmem.1 hne] at hsub
        cases hsub
      · exact (ih ha' hb').cons i

theorem mem_iff (h : Drains p types order) (hids : ∀ c ∈ types, ClassId.node c = c) :
    c ∈ order ↔ c ∈ types := by
  induction h with
  | @done types h =>
    have hnil : types = [] := by
      by_contra hne
      exact mostSpecific?_ne_none hids hne h
    rw [hnil]
  | @take types i order h _ ih =>
    have hi := (mostSpecific?_eq_some h).1
    rw [List.mem_cons, ih fun c hc => hids c (List.mem_filter.1 hc).1]
    by_cases hc : c = i
    · simp [hc, hi]
    · simp [hc]

end Drains

/-- What is said of an exception that escapes without being declared. -/
def escapeMessage (p : Program) (caller : Method) (c : ClassId) : String :=
  "`" ++ p.className c ++ "` may escape `" ++ p.methodName caller ++ "` without being declared"

/-- The reports about types that escape a node: those that the method declares no supertype of. -/
def escapeReports (p : Program) (body : Body) (n : Nat) (caller : Method) (types : List ClassId) :
    List Diagnostic :=
  (types.filter fun c => !caller.throws.any (p.isSubtype c)).map fun c =>
    ⟨.warning, body.locOf n, p.escapeMessage caller c⟩

theorem escapeReports_cons : p.escapeReports body n caller (c :: types) =
    p.escapeReports body n caller [c] ++ p.escapeReports body n caller types := by
  simp only [escapeReports, ← List.map_append, ← List.filter_append, List.singleton_append]

/-- The statement guards a block by a test of the exception in the slot against a class. -/
def Tests (p : Program) (slot : Ident) (block : List Stmt) (c : ClassId) (st : Stmt) : Prop :=
  ∃ τ, p.tag (.cls c) = .ok τ ∧ st = .when (.and (Prelude.isNonNull slot.expr)
    (.subtype (Prelude.typeOf slot.expr) τ.expr)) block

def ProcedureOf (p : Program) (q : Prelude) (m : MethodId) (name : String) : Prop :=
  ∃ sig, (Signature.build p q m).result = .ok sig ∧ sig.name = name

def thrownBy (p : Program) (ms : List MethodId) : List ClassId :=
  ms.flatMap fun m => (p.methods[m]?.map (·.throws)).getD []

theorem thrownBy_cons (h : p.method? m = .ok callee) :
    p.thrownBy (m :: ms) = callee.throws ++ p.thrownBy ms := by
  simp [thrownBy, entry_eq_ok.1 h]

theorem thrownBy_singleton (h : p.method? m = .ok callee) : p.thrownBy [m] = callee.throws :=
  (thrownBy_cons h).trans (List.append_nil _)

end Program

/-- The methods that a call may run: those that a dynamic call is dispatched to, or else the method
that it names. -/
def Code.mayRun (c : Code) (p : Program) (call : Call) (callee : Method) :
    Except Fault (List MethodId) :=
  match call.kind.isDynamic, call.base with
  | true, some base => do
    let ts ← p.dispatch (Lower.startClass callee (← c.typeOf p base)) callee
    return if ts = [] then [call.method] else ts.map Target.method
  | _, _ => .ok [call.method]

theorem Code.mayRun_direct {c : Code} {call : Call} (hk : call.kind.isDynamic = false) :
    c.mayRun p call callee = .ok [call.method] := by
  simp [mayRun, hk]

theorem Code.mayRun_dynamic {c : Code} {call : Call} (hk : call.kind.isDynamic = true)
    (hb : call.base = some base) (hty : c.typeOf p base = .ok ty)
    (ht : p.dispatch (Lower.startClass callee ty) callee = .ok ts) :
    c.mayRun p call callee = .ok (if ts = [] then [call.method] else ts.map Target.method) := by
  simp only [mayRun, hk, hb]
  exact except_bind_eq_ok.2 ⟨ty, hty, except_bind_eq_ok.2 ⟨ts, ht, rfl⟩⟩

/-- A call at a node of a body that is no intrinsic. -/
structure Body.Invokes (b : Body) (p : Program) (k : Nat) (call : Call) (callee : Method) :
    Prop where
  node : ∃ node target, b.nodes[k]? = some node ∧ node.instr.call? = some (call, target)
  declared : p.method? call.method = .ok callee
  plain : p.intrinsic? callee = none

/-- The statements that leave the procedure: all postconditions are enforced first. -/
abbrev Encoding.exit (enc : Encoding) (sig : Signature) : List Stmt :=
  enc.enforce sig.procedure.postconditions ++ [.ret]

/-- What follows a call: for each trap that covers the node a guarded jump, in table order, and then
for each declared exception that no trap catches a guarded exit, in the order of the loop. -/
inductive Continuation (p : Program) (body : Body) (k : Nat) (slot : Ident) (exit : List Stmt)
    (thrown : List ClassId) : List ClassId → List Stmt → Prop
  | intro (hj : List.Forall₂ (fun t : Trap =>
        p.Tests slot [.jump (labelName body.method t.handler)] t.exception) (body.trapsAt k) guards)
      (ht : p.escaping (sortIds thrown) ((body.trapsAt k).map Trap.exception) = .ok types)
      (hd : p.Drains types order) (he : List.Forall₂ (p.Tests slot exit) order exits) :
      Continuation p body k slot exit thrown order (guards ++ exits)

/-- The order in which the declared exceptions that nothing catches are tested: the loop ends, each
of them is tested once and nothing else is, and a proper subtype comes before its supertype. -/
structure Program.EscapeOrder (p : Program) (thrown caught order : List ClassId) : Prop where
  drains : ∃ types, p.escaping (sortIds thrown) caught = .ok types ∧ p.Drains types order
  nodup : order.Nodup
  mem_iff : ∀ c, c ∈ order ↔ c ∈ thrown ∧ ∀ d ∈ caught, p.isSubtype c d = false
  sorted : ∀ a ∈ order, ∀ b ∈ order, p.isStrictSubtype a b = true → [a, b].Sublist order

theorem Program.escapeOrder {p : Program} (ht : p.escaping (sortIds thrown) caught = .ok types)
    (hd : p.Drains types order) (hids : ∀ c ∈ thrown, ClassId.node c = c) :
    p.EscapeOrder thrown caught order := by
  have hmem : ∀ c, c ∈ types ↔ c ∈ thrown ∧ ∀ d ∈ caught, p.isSubtype c d = false := by
    simp [escaping_eq_ok ht, Lower.mem_sortIds]
  have hids' : ∀ c ∈ types, ClassId.node c = c := fun c hc => hids c ((hmem c).1 hc).1
  exact ⟨⟨types, ht, hd⟩, hd.nodup, fun c => (hd.mem_iff hids').trans (hmem c),
    fun a ha b hb => hd.sublist ha hb⟩

namespace Lower

theorem encodeAll_exitCode (enc : Encoding) :
    enc.encodeAll (exitCode F) = enc.exit F.signature := by
  rw [exitCode, Encoding.encodeAll_append, Encoding.encodeAll_postconditions]
  rfl

theorem TrapJumps.tests (h : TrapJumps F ts code j) (enc : Encoding) :
    List.Forall₂ (fun t : Trap => F.program.Tests F.signature.exception
      [.jump (labelName F.body.method t.handler)] t.exception) ts (enc.encodeAll code) := by
  induction h with
  | nil => exact .nil
  | cons ht _ ih => exact .cons ⟨_, ht, rfl⟩ ih

theorem EscapeWarning.reports_eq (h : EscapeWarning F n i j) :
    reports j = F.program.escapeReports F.body n F.method [i] := by
  cases h with
  | declared h =>
    have hany := anyOf_eq_ok h fun t _ _ ht => Program.testSubtype_eq_ok ht
    simp [Program.escapeReports, ← hany]
  | undeclared h hc =>
    have hany := anyOf_eq_ok h fun t _ _ ht => Program.testSubtype_eq_ok ht
    simp [Program.escapeReports, ← hany, Program.escapeMessage, Program.className,
      entry_eq_ok.1 hc, reports, Event.diagnostic?]

/-- With a type of fuel each, the loop runs to its end. -/
theorem EscapeExits.drains (h : EscapeExits F n fuel types code j) (hfuel : types.length ≤ fuel)
    (enc : Encoding) : ∃ order, F.program.Drains types order ∧
      List.Forall₂ (F.program.Tests F.signature.exception (enc.encodeAll (exitCode F))) order
        (enc.encodeAll code) ∧
      reports j = F.program.escapeReports F.body n F.method order := by
  induction h with
  | spent =>
    obtain rfl := List.eq_nil_of_length_eq_zero (Nat.le_zero.1 hfuel)
    exact ⟨[], .done rfl, .nil, rfl⟩
  | done h => exact ⟨[], .done h, .nil, rfl⟩
  | @step types i jw τ fuel code j h hw ht _ ih =>
    have hi := (Program.mostSpecific?_eq_some h).1
    have hlt : (types.filter (· ≠ i)).length < types.length :=
      List.length_filter_lt_length_iff_exists.2 ⟨i, hi, by simp⟩
    obtain ⟨order, hd, hcode, hj⟩ := ih (by omega)
    refine ⟨i :: order, .take h hd, .cons ⟨τ, ht, rfl⟩ hcode, ?_⟩
    have htag : reports [Event.tag (.cls i)] = [] := rfl
    rw [reports_append, reports_append, hw.reports_eq, htag, List.append_nil, hj]
    exact Program.escapeReports_cons.symm

theorem Continued.continuation (h : Continued F n (sortIds thrown) code j) (enc : Encoding) :
    ∃ order, Continuation F.program F.body n F.signature.exception (enc.exit F.signature) thrown
        order (enc.encodeAll code) ∧
      reports j = F.program.escapeReports F.body n F.method order := by
  obtain ⟨hj, ht, he⟩ := h
  obtain ⟨order, hd, hcode, hreports⟩ := he.drains le_rfl enc
  rw [encodeAll_exitCode] at hcode
  refine ⟨order, ?_, by rw [reports_append, hj.reports_eq, hreports, List.nil_append]⟩
  rw [Encoding.encodeAll_append]
  exact .intro (hj.tests enc) ht hd hcode

theorem DirectCall.callees (h : DirectCall F m callee actuals result captured code j)
    (enc : Encoding) : ∃ name, F.program.ProcedureOf F.prelude m name ∧
      Ivl.callees (enc.encodeAll code) = [name] := by
  obtain ⟨hs, -, -, ha⟩ := h
  obtain ⟨es, rfl⟩ := ha.formulas
  refine ⟨_, ⟨_, hs, rfl⟩, ?_⟩
  rw [Encoding.encodeAll_append, Encoding.encodeAll_append, Encoding.encodeAll_plain,
    callees_append, callees_append, inline_preconditionCode.callFree, inline_assumptions.callFree,
    callees_flat rfl]
  rfl

theorem GuardedCalls.callees
    (h : GuardedCalls F receiver actuals result captured ts thrown code j) (enc : Encoding) :
    thrown = F.program.thrownBy (ts.map Target.method) ∧
      List.Forall₂ (F.program.ProcedureOf F.prelude) (ts.map Target.method)
        (Ivl.callees (enc.encodeAll code)) := by
  induction h with
  | nil => exact ⟨rfl, .nil⟩
  | cons hm hd _ _ ih =>
    obtain ⟨name, hname, hcall⟩ := hd.callees enc
    refine ⟨by rw [List.map_cons, Program.thrownBy_cons hm, ih.1], ?_⟩
    rw [Encoding.encodeAll_cons, Encoding.encode_when, List.singleton_append, callees_when, hcall]
    exact .cons hname ih.2

/-- A call that is performed calls the methods that it may run, and throws what they declare. -/
theorem Performed.callees {call : Call}
    (h : Performed F n call callee actuals result captured receiver thrown code j)
    (hm : F.program.method? call.method = .ok callee) (enc : Encoding) :
    ∃ ms, F.body.mayRun F.program call callee = .ok ms ∧ thrown = F.program.thrownBy ms ∧
      List.Forall₂ (F.program.ProcedureOf F.prelude) ms (Ivl.callees (enc.encodeAll code)) ∧
      ∀ d ∈ reports j, d.message = F.program.noOverride callee := by
  cases h with
  | direct hk hd =>
    obtain ⟨name, hname, hcall⟩ := hd.callees enc
    refine ⟨_, Code.mayRun_direct hk, (Program.thrownBy_singleton hm).symm, ?_, ?_⟩
    · exact hcall ▸ .cons hname .nil
    · exact hd.reports_eq ▸ nofun
  | fallback hk hb hty ht hd =>
    obtain ⟨name, hname, hcall⟩ := hd.callees enc
    refine ⟨_, Code.mayRun_dynamic hk hb hty ht, (Program.thrownBy_singleton hm).symm, ?_, ?_⟩
    · exact hcall ▸ .cons hname .nil
    · rw [reports_diagnostic, hd.reports_eq]
      exact List.forall_mem_singleton.2 rfl
  | devirtualized hk hb hty ht hne hg =>
    obtain ⟨hthrown, hcalls⟩ := hg.callees enc
    refine ⟨_, (Code.mayRun_dynamic hk hb hty ht).trans (congrArg _ (if_neg hne)), hthrown, hcalls,
      ?_⟩
    rw [reports_log, hg.reports_eq]
    exact nofun

/-- A call that is no intrinsic: the calls of what it may run, its continuation, and the rest. -/
theorem Invoked.continuation {call : Call} (h : Invoked F n call target s r j) (enc : Encoding)
    (hm : F.program.method? call.method = .ok callee) (hi : F.program.intrinsic? callee = none) :
    ∃ ms before code after early order, F.body.mayRun F.program call callee = .ok ms ∧
      r.code = before ++ code ++ after ∧
      List.Forall₂ (F.program.ProcedureOf F.prelude) ms (callees (enc.encodeAll before)) ∧
      callees (enc.encodeAll (code ++ after)) = [] ∧
      Continuation F.program F.body n F.signature.exception (enc.exit F.signature)
        (F.program.thrownBy ms) order (enc.encodeAll code) ∧
      reports j = early ++ F.program.escapeReports F.body n F.method order ∧
      ∀ d ∈ early, d.message = F.program.noOverride callee := by
  cases h with
  | exit hm' hi' | stringLengthDropped hm' hi' | stringLength hm' hi' =>
    cases hm.symm.trans hm'
    cases hi.symm.trans hi'
  | call hm' _ _ _ hr ha _ hp hx hw =>
    cases hm.symm.trans hm'
    obtain ⟨ms, hms, rfl, hcalls, hearly⟩ := hp.callees hm enc
    obtain ⟨order, hcont, hreports⟩ := hx.continuation enc
    refine ⟨ms, _, _, _, _, order, hms, rfl, ?_, ?_, hcont, ?_, hearly⟩
    · have hbefore := hr.inline.callFree.append ha.inline.callFree enc
      rwa [Encoding.encodeAll_append, callees_append, hbefore, List.nil_append]
    · exact hx.callFree.append hw.inline.callFree enc
    · simp only [reports_append, hr.reports_eq, ha.reports_eq, hreports, hw.reports_eq,
        List.nil_append, List.append_nil]

end Lower

/-- How a session encodes the obligations of a method with the signature. -/
def Session.encoding (s : Session) (sig : Signature) : Encoding where
  model := s.options.errorModel
  slot := sig.exception
  dropBounds := s.options.noArrayBoundsChecks

/-- Every call of a lowered body that is no intrinsic has its continuation in its own segment, after
the calls of what it may run, and its own reports. -/
theorem Session.lower_continued {s : Session} {body : Body} {i : Implementation}
    (h : (s.lower body).1 = .ok i) :
    ∃ (prologue : List Stmt) (segments : List (List Stmt)) (ds : List (List Diagnostic))
        (sig : Signature) (caller : Method),
      i.body = prologue ++ segments.flatten ∧ segments.length = body.nodes.length ∧
      (s.lower body).2.registry.diagnostics.toList =
        s.registry.diagnostics.toList ++ ds.flatten ∧ ds.length = body.nodes.length ∧
      (Signature.build s.program s.prelude body.method).result = .ok sig ∧
      s.program.method? body.method = .ok caller ∧
      ∀ k call callee, body.Invokes s.program k call callee →
        ∃ ms before code after early order, body.mayRun s.program call callee = .ok ms ∧
          segments[k]? = some (before ++ code ++ after) ∧
          List.Forall₂ (s.program.ProcedureOf s.prelude) ms (callees before) ∧
          callees (code ++ after) = [] ∧
          Continuation s.program body k sig.exception ((s.encoding sig).exit sig)
            (s.program.thrownBy ms) order code ∧
          ds[k]? = some (early ++ s.program.escapeReports body k caller order) ∧
          ∀ d ∈ early, d.message = s.program.noOverride callee := by
  obtain ⟨low, j, hgives, rfl, -⟩ := Session.lower_result h
  have hlow := lowerBody_gives hgives
  obtain ⟨ds, hds, hreports, hget⟩ := hlow.shares
  obtain ⟨caller, hcaller⟩ : ∃ caller, s.program.method? body.method = .ok caller := by
    cases hlow with
    | intro hm => exact ⟨_, hm⟩
  let enc := s.encoding low.signature
  refine ⟨low.prologue s.options, low.segments.map enc.encodeAll, ds, low.signature, caller,
    congrArg (_ ++ ·) (List.flatMap_def ..), by simpa using hlow.segments_length, ?_, hds,
    hlow.signature_eq, hcaller, ?_⟩
  · rw [Session.lower_diagnostics, Trace.diagnostics, hgives, ← hreports]
    rfl
  · intro k call callee hcall
    obtain ⟨⟨node, target, hnode, hinstr⟩, hm, hi⟩ := hcall
    obtain ⟨F, _, r, _, hx, ⟨hp, hq, hb, hsig, hmethod⟩, hcode, hd⟩ := hget k node hnode
    cases hcaller.symm.trans hmethod
    rw [← hp] at hm hi
    obtain ⟨ms, before, code, after, early, order, hms, hr, hcalls, hquiet, hcont, hj, hearly⟩ :=
      (hx.invoked hinstr).continuation enc hm hi
    rw [hp] at hms hcalls hcont hj hearly
    rw [hb] at hms hcont hj
    rw [hsig] at hcont
    rw [hq] at hcalls
    refine ⟨ms, enc.encodeAll (Lower.entryCode F k ++ before), enc.encodeAll code,
      enc.encodeAll after, early, order, hms, ?_, ?_, ?_, hcont, hj ▸ hd, hearly⟩
    · rw [List.getElem?_map, hcode, hr]
      simp
    · rwa [Encoding.encodeAll_append, callees_append, Lower.callFree_entryCode enc,
        List.nil_append]
    · rwa [← Encoding.encodeAll_append]

/-- Escaping exceptions are tested most specific first, each once. At every call that is no
intrinsic the exits follow the jumps of the traps, one for each declared exception that no trap
catches, and those that the method does not declare are reported. An id that is no number of 32 bits
names no class. -/
theorem Session.lower_escapes {s : Session} {body : Body} {i : Implementation}
    (h : (s.lower body).1 = .ok i) :
    ∃ (prologue : List Stmt) (segments : List (List Stmt)) (ds : List (List Diagnostic))
        (sig : Signature) (caller : Method),
      i.body = prologue ++ segments.flatten ∧ segments.length = body.nodes.length ∧
      (s.lower body).2.registry.diagnostics.toList =
        s.registry.diagnostics.toList ++ ds.flatten ∧ ds.length = body.nodes.length ∧
      (Signature.build s.program s.prelude body.method).result = .ok sig ∧
      s.program.method? body.method = .ok caller ∧
      ∀ k call callee, body.Invokes s.program k call callee →
        ∃ ms, body.mayRun s.program call callee = .ok ms ∧
          ((∀ c ∈ s.program.thrownBy ms, ClassId.node c = c) →
            ∃ before guards exits after early order,
              segments[k]? = some (before ++ guards ++ exits ++ after) ∧
              List.Forall₂ (s.program.ProcedureOf s.prelude) ms (callees before) ∧
              callees (guards ++ exits ++ after) = [] ∧
              List.Forall₂ (fun t : Trap => s.program.Tests sig.exception
                [.jump (labelName body.method t.handler)] t.exception) (body.trapsAt k) guards ∧
              s.program.EscapeOrder (s.program.thrownBy ms)
                ((body.trapsAt k).map Trap.exception) order ∧
              List.Forall₂ (s.program.Tests sig.exception ((s.encoding sig).exit sig)) order exits ∧
              ds[k]? = some (early ++ s.program.escapeReports body k caller order) ∧
              ∀ d ∈ early, d.message = s.program.noOverride callee) := by
  obtain ⟨prologue, segments, ds, sig, caller, hbody, hlen, hdiag, hds, hsig, hcaller, hcalls⟩ :=
    Session.lower_continued h
  refine ⟨prologue, segments, ds, sig, caller, hbody, hlen, hdiag, hds, hsig, hcaller, ?_⟩
  intro k call callee hcall
  obtain ⟨ms, before, code, after, early, order, hms, hseg, hprocs, hquiet, hcont, hd, hearly⟩ :=
    hcalls k call callee hcall
  refine ⟨ms, hms, fun hids => ?_⟩
  obtain @⟨guards, types, _, exits, hj, ht, hdrain, he⟩ := hcont
  exact ⟨before, guards, exits, after, early, order, by simpa using hseg, hprocs, hquiet, hj,
    Program.escapeOrder ht hdrain hids, he, hd, hearly⟩

/-- A method that declares an exception with its supertype, and one that its caller catches. -/
def escapingProgram : Program := .declaring [
  .addClass "Failure" (some ClassId.throwable),
  .addClass "Timeout" (some 3),
  .addClass "Retry" (some ClassId.throwable),
  .addMethod ClassId.object { name := "fetch", isStatic := true, throws := [3, 4, 5] },
  .addMethod ClassId.object { name := "run", isStatic := true, throws := [4] }] (by decide +kernel)

def escapingBody : Body where
  method := 1
  slots := []
  nodes := [{ instr := .invoke ⟨.static, 0, none, []⟩ }, { instr := .retVoid }]
  traps := [⟨0, 1, 5, 1⟩]
  sound := by decide

def escapingSession : Session := Session.start (.ofProgram escapingProgram) .standard {}

/-- `Timeout` is tested before `Failure`, which is reported; `Retry` is not tested again. -/
theorem lower_escapes_fetch :
    ∃ i before guards exits after early slot exit,
      ∃ (segments : List (List Stmt)) (ds : List (List Diagnostic)),
        (escapingSession.lower escapingBody).1 = .ok i ∧
        segments[0]? = some (before ++ guards ++ exits ++ after) ∧
        escapingProgram.EscapeOrder [3, 4, 5] [5] [4, 3] ∧
        List.Forall₂ (escapingProgram.Tests slot exit) [4, 3] exits ∧
        ds[0]? = some (early ++ [⟨.warning, escapingBody.locOf 0,
          "`Failure` may escape `java.lang.Object.run` without being declared"⟩]) := by
  obtain ⟨i, hi⟩ := exists_of_isOk (x := (escapingSession.lower escapingBody).1) (by decide +kernel)
  obtain ⟨_, segments, ds, sig, caller, -, -, -, -, -, hcaller, hcalls⟩ :=
    Session.lower_escapes hi
  obtain ⟨ms, hms, hcall⟩ := hcalls 0 _ _ ⟨⟨_, _, rfl, rfl⟩, rfl, by decide⟩
  cases hms
  obtain ⟨before, guards, exits, after, early, order, hseg, -, -, -, horder, he, hd, -⟩ :=
    hcall (by decide)
  have hsub : [4, 3].Sublist order := by
    apply horder.sorted
    · exact (horder.mem_iff 4).2 (by decide)
    · exact (horder.mem_iff 3).2 (by decide)
    · decide
  have hle : order.length ≤ [4, 3].length := by
    apply horder.nodup.length_le_of_subset
    have hfree : ∀ c ∈ [3, 4, 5], (∀ d ∈ [5], escapingProgram.isSubtype c d = false) →
        c ∈ [4, 3] := by decide
    intro c hc
    obtain ⟨hthrown, hc⟩ := (horder.mem_iff c).1 hc
    exact hfree c hthrown hc
  obtain rfl := hsub.eq_of_length_le hle
  cases hcaller
  exact ⟨i, before, guards, exits, after, early, _, _, segments, ds, hi, hseg, horder, he, hd⟩

end Verilower
