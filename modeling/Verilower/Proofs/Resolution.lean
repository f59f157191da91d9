import Verilower.Proofs.CallSites

namespace Verilower
set_option autoImplicit true

open Ivl

theorem Dispatched.encodeAll_code (d : Dispatched) (enc : Encoding) (l : List Candidate) :
    enc.encodeAll (d.code l) = l.map fun c => .when (d.guard c) (enc.encodeAll (d.branch c)) := by
  induction l with
  | nil => rfl
  | cons c l ih => exact congrArg (_ :: ·) ih

theorem Dispatched.callees_branch (d : Dispatched) (enc : Encoding) (c : Candidate) :
    callees (enc.encodeAll (d.branch c)) = [c.procedure] := by
  rw [encodeAll_branch, callees_append, callees_flat rfl,
    Lower.inline_obligations.callFree, Lower.inline_assumptions.callFree]
  rfl

/-- The statements of a dynamic call of `m` with the operands: for each target a branch with one
call, behind a test of the tag of the receiver, or, if there is none, the call of `m` itself. -/
inductive Delegates (p : Program) (q : Prelude) (enc : Encoding) (o : Operands) (m : MethodId) :
    List Target → List Stmt → Prop
  | guarded (hne : ts ≠ []) (hr : o.receiver = some receiver)
      (ha : List.Forall₂ (Candidate.Answers p q) ts l)
      (hc : ∀ c ∈ l, callees (enc.encodeAll ((o.through receiver).branch c)) = [c.procedure]) :
      Delegates p q enc o m ts (l.map fun c => .when ((o.through receiver).guard c)
        (enc.encodeAll ((o.through receiver).branch c)))
  | declared (hs : (Signature.build p q m).result = .ok sig) (hbefore : callees before = [])
      (hafter : callees after = []) :
      Delegates p q enc o m [] (before ++ [o.call sig.name] ++ after)

theorem Lower.Calls.delegates (h : Lower.Calls p q o m ts code) (enc : Encoding) :
    Delegates p q enc o m ts (enc.encodeAll code) := by
  cases h with
  | single h =>
    obtain ⟨hs, -, -, facts⟩ := h
    rw [Encoding.encodeAll_append, Encoding.encodeAll_append, Encoding.encodeAll_plain]
    exact .declared hs (inline_preconditionCode.callFree enc) (inline_assumptions.callFree enc)
  | guarded hne hr h =>
    obtain ⟨l, rfl, ha⟩ := CalledAt.candidates h
    rw [Dispatched.encodeAll_code]
    exact .guarded hne hr ha fun c _ => Dispatched.callees_branch _ enc c

/-- What is reported of overrides at a node whose call has the targets. -/
def overrideReport (p : Program) (body : Body) (n : Nat) (callee : Method) (ts : List Target) :
    List Diagnostic :=
  if ts = [] then [⟨.warning, body.locOf n, p.noOverride callee⟩] else []

namespace Lower

theorem Performed.reports_filter {call : Call}
    (h : Performed F n call callee actuals result captured receiver thrown code j)
    (hts : F.body.Targets F.program call callee ts) (hk : call.kind.isDynamic = true) :
    ((reports j).filter fun d => d.message = F.program.noOverride callee) =
      overrideReport F.program F.body n callee ts := by
  cases h with
  | direct hk' => simp [hk] at hk'
  | fallback _ hb hty ht hd =>
    obtain rfl := hts.eq_of_dispatch hk hb hty ht
    rw [reports_diagnostic, hd.reports_eq, overrideReport, if_pos rfl]
    exact List.filter_cons_of_pos (decide_eq_true rfl)
  | devirtualized _ hb hty ht hne hg =>
    obtain rfl := hts.eq_of_dispatch hk hb hty ht
    rw [reports_log, hg.reports_eq, overrideReport, if_neg hne, List.filter_nil]

theorem Invoked.reports_filter {call : Call} (h : Invoked F n call target s r j)
    (hm : F.program.method? call.method = .ok callee) (hi : F.program.intrinsic? callee = none)
    (hts : F.body.Targets F.program call callee ts) (hk : call.kind.isDynamic = true) :
    ((reports j).filter fun d => d.message = F.program.noOverride callee) =
      overrideReport F.program F.body n callee ts := by
  cases h with
  | exit hm' hi' | stringLengthDropped hm' hi' | stringLength hm' hi' =>
    cases hm.symm.trans hm'
    cases hi.symm.trans hi'
  | call hm' _ _ _ hr ha _ hp hx hw =>
    cases hm.symm.trans hm'
    rw [← hp.reports_filter hts hk]
    simp only [reports_append, List.filter_append, hr.reports_eq, ha.reports_eq,
      hx.reports_filter, hw.reports_eq, List.nil_append, List.append_nil]

end Lower

theorem Program.resolution_of_dispatch {p : Program} (h : p.dispatch i m = .ok ts) :
    p.Resolution i m ts := by
  obtain ⟨_, hc, -⟩ := except_bind_eq_ok.1 h
  have hlt := (List.getElem?_eq_some_iff.1 (entry_eq_ok.1 hc)).1
  obtain ⟨ts', hts, hres⟩ := p.dispatch_resolution hlt m
  exact Except.ok.inj (h.symm.trans hts) ▸ hres

structure Body.CallsAt (b : Body) (p : Program) (k : Nat) (call : Call) (callee : Method) : Prop where
  node : ∃ node target, b.nodes[k]? = some node ∧ node.instr.call? = some (call, target)
  dynamic : call.kind.isDynamic = true
  declared : p.method? call.method = .ok callee
  plain : p.intrinsic? callee = none

/-- The statements and the reports of a dynamic call: it delegates to the targets that it resolves
to, makes no other call, and reports only that there is no target. -/
structure CallSite.Delegation (x : CallSite) (s : Session) (body : Body) (enc : Encoding)
    (ds : List Diagnostic) : Prop where
  resolved : ∃ base ty, x.call.base = some base ∧ body.typeOf s.program base = .ok ty ∧
    s.program.dispatch (Lower.startClass x.callee ty) x.callee = .ok x.targets ∧
    s.program.Resolution (Lower.startClass x.callee ty) x.callee x.targets
  delegates : Delegates s.program s.prelude enc x.operands x.call.method x.targets
    (enc.encodeAll x.calls)
  before : callees (enc.encodeAll x.before) = []
  after : callees (enc.encodeAll x.after) = []
  reported : (ds.filter fun d => d.message = s.program.noOverride x.callee) =
    overrideReport s.program body x.node x.callee x.targets

theorem Code.Targets.resolution {c : Code} {call : Call} (h : c.Targets p call callee ts)
    (hk : call.kind.isDynamic = true) : ∃ base ty, call.base = some base ∧
      c.typeOf p base = .ok ty ∧ p.dispatch (Lower.startClass callee ty) callee = .ok ts ∧
      p.Resolution (Lower.startClass callee ty) callee ts := by
  cases h with
  | direct hk' => simp [hk] at hk'
  | dynamic _ hb hty ht => exact ⟨_, _, hb, hty, ht, Program.resolution_of_dispatch ht⟩

theorem Body.CallsAt.exists_site {s : Session} {body : Body} {call : Call}
    (hcall : body.CallsAt s.program k call callee)
    (h : (lowerBody s.program s.prelude s.registry.globals.length body).Gives low j) :
    ∃ x : CallSite, x.Of s body low ∧ x.node = k ∧ x.call = call ∧ x.callee = callee := by
  obtain ⟨node, target, hnode, hinstr⟩ := hcall.node
  obtain ⟨x, hof, hk, hc, -, hm⟩ := exists_callSite h hnode hinstr hcall.declared hcall.plain
  exact ⟨x, hof, hk, hc, hm⟩

/-- Resolution is exact: each class has the overrides at or below it as targets, where the walk goes
to direct subtypes in the order of their ids. Every dynamic call that is lowered delegates to its
targets, in its own segment and with its own reports. -/
theorem Session.lower_resolution (s : Session) :
    (∀ R < s.program.classes.length, (s.program.directSubtypes R).Pairwise (· < ·) ∧
      (∀ c, c ∈ s.program.directSubtypes R ↔
        c < s.program.classes.length ∧ R ∈ s.program.declaredSupertypes c) ∧
      ∀ m, ∃ ts, s.program.dispatch R m = .ok ts ∧ s.program.Resolution R m ts) ∧
    ∀ (body : Body) i, (s.lower body).1 = .ok i →
      ∃ (low : Lowered) (ds : List (List Diagnostic)),
        (lowerBody s.program s.prelude s.registry.globals.length body).result = .ok low ∧
        i = low.implementation s.options ∧ low.segments.length = body.nodes.length ∧
        (s.lower body).2.registry.diagnostics.toList =
          s.registry.diagnostics.toList ++ ds.flatten ∧ ds.length = body.nodes.length ∧
        ∀ k call callee, body.CallsAt s.program k call callee →
          ∃ (x : CallSite) (d : List Diagnostic), x.Of s body low ∧
            (x.node = k ∧ x.call = call ∧ x.callee = callee) ∧ ds[k]? = some d ∧
            x.Delegation s body (low.encoding s.options) d := by
  constructor
  · intro R hR
    exact ⟨Program.directSubtypes_sorted, fun c => Program.mem_directSubtypes hR,
      s.program.dispatch_resolution hR⟩
  · intro body i h
    obtain ⟨low, j, hgives, rfl, -⟩ := Session.lower_result h
    have hlow := lowerBody_gives hgives
    obtain ⟨ds, hds, hreports, hget⟩ := hlow.shares
    refine ⟨low, ds, congrArg Trace.result hgives, rfl, hlow.segments_length, ?_, hds, ?_⟩
    · rw [Session.lower_diagnostics, Trace.diagnostics, hgives, ← hreports]
      rfl
    · intro k call callee hcall
      obtain ⟨x, hof, rfl, rfl, rfl⟩ := hcall.exists_site hgives
      obtain ⟨node, target, hnode, hinstr⟩ := hcall.node
      obtain ⟨F, _, r, j', hx, ⟨hp, -, hb, -⟩, -, hd⟩ := hget x.node node hnode
      have hts := hof.resolved
      have hm := hcall.declared
      have hi := hcall.plain
      rw [← hp, ← hb] at hts
      rw [← hp] at hm hi
      have hreported := (hx.invoked hinstr).reports_filter hm hi hts hcall.dynamic
      rw [hp, hb] at hreported
      exact ⟨x, _, hof, ⟨rfl, rfl, rfl⟩, hd, hof.resolved.resolution hcall.dynamic,
        hof.called.delegates _, hof.quietBefore _, hof.quietAfter _, hreported⟩

/-- The area of a shape; only circles say what theirs is. -/
def shapeArea : Method := { name := "area", returns := .int, isAbstract := true, owner := 3 }

def shapeDraw : Method := { name := "draw", isAbstract := true, owner := 3 }

def shapes : Program := .declaring [
  .addAbstractClass "Shape",
  .addClass "Circle" (some 3),
  .addClass "Disc" (some 4),
  .addMethod 3 shapeArea.toMethodDecl,
  .addMethod 3 shapeDraw.toMethodDecl,
  .addOverride 4 0,
  .addMethod 3 { name := "measure", params := [.cls 3], isStatic := true }] (by decide +kernel)

/-- A shape is asked for its area, then it is drawn. -/
def shapesBody : Body where
  method := 3
  slots := [⟨"x", .cls 3⟩]
  nodes := [
    { instr := .identity 0 (.param 0) },
    { instr := .invoke ⟨.virtual, 0, some (.slot 0), []⟩ },
    { instr := .invoke ⟨.virtual, 1, some (.slot 0), []⟩ },
    { instr := .retVoid }]
  sound := by decide

def shapesSession : Session := Session.start (.ofProgram shapes) .standard {}

theorem shapesBody_area :
    shapesBody.CallsAt shapes 1 ⟨.virtual, 0, some (.slot 0), []⟩ shapeArea where
  node := ⟨_, _, rfl, rfl⟩
  dynamic := rfl
  declared := rfl
  plain := by decide

theorem shapesBody_draw :
    shapesBody.CallsAt shapes 2 ⟨.virtual, 1, some (.slot 0), []⟩ shapeDraw where
  node := ⟨_, _, rfl, rfl⟩
  dynamic := rfl
  declared := rfl
  plain := by decide

theorem lower_resolution_shapes :
    (∃ ts, shapes.dispatch 3 shapeArea = .ok ts ∧ shapes.Resolution 3 shapeArea ts) ∧
    ∃ i, (shapesSession.lower shapesBody).1 = .ok i ∧
      ∃ (low : Lowered) (ds : List (List Diagnostic)),
        (lowerBody shapes .standard 0 shapesBody).result = .ok low ∧ i = low.implementation {} ∧
        (∃ (x : CallSite) (d : List Diagnostic), x.Of shapesSession shapesBody low ∧
          (x.node = 1 ∧ x.call = ⟨.virtual, 0, some (.slot 0), []⟩ ∧ x.callee = shapeArea) ∧
          ds[1]? = some d ∧ x.Delegation shapesSession shapesBody (low.encoding {}) d) ∧
        ∃ (x : CallSite) (d : List Diagnostic), x.Of shapesSession shapesBody low ∧
          (x.node = 2 ∧ x.call = ⟨.virtual, 1, some (.slot 0), []⟩ ∧ x.callee = shapeDraw) ∧
          ds[2]? = some d ∧ x.Delegation shapesSession shapesBody (low.encoding {}) d := by
  obtain ⟨i, hi⟩ := exists_of_isOk (x := (shapesSession.lower shapesBody).1) (by decide +kernel)
  obtain ⟨hres, hlower⟩ := Session.lower_resolution shapesSession
  obtain ⟨low, ds, hlow, himp, -, -, -, hcalls⟩ := hlower shapesBody i hi
  exact ⟨(hres 3 (by decide)).2.2 shapeArea, i, hi, low, ds, hlow, himp,
    hcalls 1 _ _ shapesBody_area, hcalls 2 _ _ shapesBody_draw⟩

end Verilower
