import Verilower.Proofs.Lowering.Outcome

namespace Verilower
set_option autoImplicit true

open Ivl (Ident Expr Stmt Implementation)

theorem Request.replay_journal {x : Request α} :
    (x.trace p).journal.foldl (Registry.recordBasic p) r = r.replay p q (x.trace p).journal := by
  cases x with
  | tag ty =>
    simp only [trace, Trace.tag]
    cases p.tag ty <;> rfl
  | field i =>
    simp only [trace, Trace.field]
    cases p.fieldIdent i <;> rfl
  | label | diagnose | log => rfl

namespace Workspace

/-- The workspace stands where the state does. The flag is left out: only the encoding of
obligations raises it. -/
structure Follows (F : Frame) (w : Workspace) (s : Scratch) : Prop where
  coherent : w.registry.Coherent F.program F.prelude
  pool : w.pool = { s.pool with flagged := w.pool.flagged }
  receivers : w.receivers = s.receivers
  globals : w.registry.globals.length = s.globals

/-- A run that ends as a trace does: with its value or its failure, with its journal replayed, and
with its outlines encoded behind the statements from before. -/
inductive Mirrors (F : Frame) (enc : Encoding) (w : Workspace) :
    Trace (Emitted α) → Except Failure α × Workspace → Prop
  | ok {r : Emitted α} {j : List Event} (follows : w'.Follows F r.scratch)
      (registry : w'.registry = w.registry.replay F.program F.prelude j)
      (out : w'.out.toList = w.out.toList ++ enc.encodeAll r.code)
      (flagged : w'.pool.flagged = (w.pool.flagged || enc.raisesAny r.code)) :
      Mirrors F enc w ⟨j, .ok r⟩ (.ok r.value, w')
  | error (registry : w'.registry = w.registry.replay F.program F.prelude j) :
      Mirrors F enc w ⟨j, .error e⟩ (.error e, w')

theorem Mirrors.silent {w w' : Workspace} (follows : w'.Follows F s)
    (registry : w'.registry = w.registry.replay F.program F.prelude j) (out : w'.out = w.out)
    (flagged : w'.pool.flagged = w.pool.flagged) :
    w.Mirrors F enc ⟨j, .ok ⟨a, s, []⟩⟩ (.ok a, w') :=
  .ok (r := ⟨a, s, []⟩) follows registry (by simp [out]) (by simp [flagged, Encoding.raisesAny])

/-- A step that only asks, of a registry that answers as the trace does. -/
theorem Mirrors.asked {w : Workspace} {t : Trace α} {x : Except Failure α × Registry}
    (h : w.Follows F s)
    (hx : x = (t.result, w.registry.replay F.program F.prelude t.journal))
    (hc : x.2.Coherent F.program F.prelude) (hg : x.2.globals = w.registry.globals) :
    w.Mirrors F enc (do return ⟨← t, s, []⟩) (x.1, { w with registry := x.2 }) := by
  subst hx
  have hw : Follows F { w with registry := w.registry.replay F.program F.prelude t.journal } s :=
    { h with coherent := hc, globals := (congrArg List.length hg).trans h.globals }
  obtain ⟨j, e | a⟩ := t
  · exact .error rfl
  · simp only [Bind.bind, Trace.bind, Trace.after, Pure.pure, Trace.pure, List.append_nil]
    exact .silent hw rfl rfl rfl

theorem Mirrors.andThen {w w' : Workspace} {f : β → Scratch → Trace (Emitted α)}
    {g : β → Workspace → Except Failure α × Workspace} (h : w.Mirrors F enc t (found, w'))
    (hf : ∀ b s w, Follows F w s → w.Mirrors F enc (f b s) (g b w)) :
    w.Mirrors F enc (t.andThen f)
      (match found with
      | .error e => (.error e, w')
      | .ok b => g b w') := by
  cases h with
  | error registry => exact .error registry
  | @ok _ r j follows registry out flagged =>
    have hnext := hf r.value r.scratch w' follows
    rcases ht : f r.value r.scratch with ⟨j', e | r'⟩
    · rw [ht] at hnext
      rcases hg : g r.value w' with ⟨found', w''⟩
      rw [hg] at hnext
      cases hnext with
      | error registry' =>
        simp only [Trace.andThen, Bind.bind, Trace.bind, Trace.after, ht, hg]
        exact .error (by rw [registry', registry, Registry.replay_append])
    · rw [ht] at hnext
      rcases hg : g r.value w' with ⟨found', w''⟩
      rw [hg] at hnext
      cases hnext with
      | ok follows' registry' out' flagged' =>
        simp only [Trace.andThen, Bind.bind, Trace.bind, Trace.after, ht, hg, Pure.pure, Trace.pure,
          List.append_nil]
        refine .ok (r := r'.after r.code) follows' ?_ ?_ ?_
        · rw [registry', registry, Registry.replay_append]
        · simp [out', out, Emitted.after]
        · simp [flagged', flagged, Emitted.after, Bool.or_assoc]

theorem Mirrors.branched {w inner : Workspace} {condition : Scratch → Trace (Emitted Expr)}
    {g : Workspace → Except Failure Expr × Workspace}
    (h : Mirrors F enc { w with out := #[] } t (found, inner))
    (hc : ∀ s w, Follows F w s → w.Mirrors F enc (condition s) (g w)) :
    w.Mirrors F enc (Lower.branched t condition)
      (match found with
      | .error e => (.error e, { inner with out := w.out })
      | .ok _ =>
        match g { inner with out := w.out } with
        | (.error e, w) => (.error e, w)
        | (.ok c, w) => (.ok (), { w with out := w.out.push (.when c inner.out.toList) })) := by
  cases h with
  | error registry => exact .error registry
  | @ok _ r j follows registry out flagged =>
    have hnext := hc r.scratch { inner with out := w.out } { follows with }
    generalize hg : g { inner with out := w.out } = after at hnext ⊢
    cases ht : condition r.scratch with
    | mk j' result =>
      rw [ht] at hnext
      cases hnext with
      | error registry' =>
        simp only [Lower.branched, Bind.bind, Trace.bind, Trace.after, ht]
        exact .error (by rw [registry', registry, Registry.replay_append])
      | @ok last c _ follows' registry' out' flagged' =>
        have hlast : Follows F { last with out := last.out.push (.when c.value inner.out.toList) }
            c.scratch := { follows' with }
        simp only [Lower.branched, Bind.bind, Trace.bind, Trace.after, ht, Pure.pure, Trace.pure,
          List.append_nil]
        refine .ok (r := ⟨(), c.scratch, c.code ++ [.when c.value r.code]⟩) hlast ?_ ?_ ?_
        · rw [registry', registry, Registry.replay_append]
        · simp [out', out]
        · simp [flagged', flagged, Encoding.raisesAny_when, Bool.or_assoc, Bool.or_comm]

theorem Mirrors.within {w : Workspace} (h : w.Mirrors F enc t (found, w')) :
    w.Mirrors F enc (t.within context) (found.mapError (Failure.within context), w') := by
  cases h with
  | error registry => exact .error registry
  | ok follows registry out flagged => exact .ok follows registry out flagged

end Workspace

theorem Command.run_mirrors {w : Workspace} (c : Command α) (enc : Encoding) (h : w.Follows F s) :
    w.Mirrors F enc (c.trace F s) (c.run F enc w) := by
  cases c with
  | frame => exact .silent h rfl rfl rfl
  | receivers =>
    rw [run, h.receivers]
    exact .silent h rfl rfl rfl
  | bindReceiver index =>
    exact .silent { h with receivers := congrArg (index :: ·) h.receivers } rfl rfl rfl
  | slot index =>
    have hslot : w.pool.slot index = s.pool.slot index := by
      rw [h.pool]
      rfl
    rw [run, trace, hslot]
    cases s.pool.slot index with
    | error => exact .error rfl
    | ok x => exact .silent h rfl rfl rfl
  | fresh ty =>
    have hfresh : w.pool.fresh ty =
        ({ (s.pool.fresh ty).1 with flagged := w.pool.flagged }, (s.pool.fresh ty).2) := by
      rw [h.pool]
      rfl
    rw [run, hfresh]
    exact .silent { h with pool := rfl } rfl rfl rfl
  | freshGlobal ty =>
    have hg := h.coherent.freshGlobal ty
    simp only [run, trace]
    unfold Registry.freshGlobal at hg ⊢
    rw [h.globals] at hg ⊢
    exact .silent { h with coherent := hg, globals := by simp [h.globals] } rfl rfl rfl
  | signature id =>
    have hx : w.registry.signature F.program F.prelude id =
        ((Trace.signature F.program F.prelude id).result,
          w.registry.replay F.program F.prelude [.signature id]) :=
      Prod.ext (Registry.signature_fst h.coherent) rfl
    exact .asked h hx (h.coherent.signature id).2 Registry.signature_globals
  | request x =>
    have hx := x.run_eq h.coherent
    rw [Request.replay_journal (q := F.prelude)] at hx
    exact .asked h hx (h.coherent.request x).2 Request.run_globals
  | emit st =>
    exact .ok { h with } rfl (by simp) (by simp [Encoding.raisesAny, Encoding.raises])
  | oblige o =>
    exact .ok { h with pool := by rw [h.pool] } rfl (by simp) (by simp [Encoding.raisesAny_oblige])

theorem Lower.run_mirrors {w : Workspace} (x : Lower α) (enc : Encoding) (h : w.Follows F s) :
    w.Mirrors F enc (x F s) (x.run F enc w) := by
  induction x generalizing w s with
  | pure a => exact .ok h rfl (by simp) (by simp [Encoding.raisesAny])
  | fail e => exact .error rfl
  | step c k ih =>
    have hc := c.run_mirrors enc h
    rw [run, trace]
    generalize c.run F enc w = found at hc
    obtain ⟨found, w'⟩ := found
    have := hc.andThen (fun b s w hw => ih b hw)
    cases found <;> exact this
  | branch body condition k ihb ihc ihk =>
    have hb := ihb (w := { w with out := #[] }) { h with }
    rw [run, trace]
    generalize body.run F enc { w with out := #[] } = found at hb
    obtain ⟨e | _, inner⟩ := found
    · exact (hb.branched fun s w hw => ihc hw).andThen fun _ s w hw => ihk hw
    · have hbranch := hb.branched fun s w hw => ihc hw
      dsimp only at hbranch ⊢
      generalize condition.run F enc { inner with out := w.out } = found at hbranch
      obtain ⟨e | c, w'⟩ := found <;> exact hbranch.andThen fun _ s w hw => ihk hw
  | scope context x k ihx ihk =>
    have hx := ihx h
    rw [run, trace]
    generalize x.run F enc w = found at hx
    obtain ⟨e | b, w'⟩ := found <;> exact hx.within.andThen fun b s w hw => ihk b hw

theorem Lower.nodes_run {r : Registry} (enc : Encoding) (h : r.Coherent F.program F.prelude)
    (hn : r.globals.length = n) (hp : pool.flagged = false) :
    match segments l F { pool, globals := n } with
    | ⟨j, .error e⟩ => ∃ w, (Lower.nodes l).run F enc { registry := r, pool } = (.error e, w) ∧
        w.registry = r.replay F.program F.prelude j
    | ⟨j, .ok segs⟩ => ∃ w, (Lower.nodes l).run F enc { registry := r, pool } = (.ok (), w) ∧
        w.registry = r.replay F.program F.prelude j ∧
        w.out.toList = segs.value.flatMap enc.encodeAll ∧
        w.pool = { segs.scratch.pool with flagged := segs.value.any enc.raisesAny } := by
  have hrun := (Lower.nodes l).run_mirrors enc (w := { registry := r, pool })
    (s := { pool, globals := n }) ⟨h, rfl, rfl, hn⟩
  rw [nodes_apply] at hrun
  generalize (Lower.nodes l).run F enc { registry := r, pool } = found at hrun ⊢
  obtain ⟨found, w⟩ := found
  generalize segments l F { pool, globals := n } = t at hrun ⊢
  obtain ⟨j, e | segs⟩ := t
  · cases hrun with
    | error registry => exact ⟨w, rfl, registry⟩
  · simp only [Bind.bind, Trace.bind, Trace.after, Pure.pure, Trace.pure, List.append_nil] at hrun
    cases hrun with
    | ok follows registry out flagged =>
      rw [Encoding.encodeAll_flatten] at out
      rw [hp, Bool.false_or, Encoding.raisesAny_flatten] at flagged
      exact ⟨w, rfl, registry, out, flagged ▸ follows.pool⟩

theorem LocalPool.ofSlots_flagged {slots : List Slot} (h : ofSlots slots = .ok pool) :
    pool.flagged = false := by
  obtain ⟨tys, -, hpool⟩ := except_bind_eq_ok.1 h
  cases hpool
  rfl

/-- The lowering of a body that reads and fills the tables, and encodes each obligation on the spot,
is the one that does neither, with its journal replayed and its outlines encoded afterwards. -/
theorem Registry.lower_eq {r : Registry} (h : r.Coherent p q) : ∃ record,
    r.lower p q o b =
      match lowerBody p q r.globals.length b with
      | ⟨j, .error e⟩ => (.error e, r.replay p q j)
      | ⟨j, .ok l⟩ => (.ok (l.implementation o), (r.replay p q j).addRecord record) := by
  unfold lower lowerBody
  cases p.method? b.method with
  | error e => exact ⟨default, rfl⟩
  | ok method =>
    have hfound : r.signature p q b.method =
        ((Signature.build p q b.method).result, r.replay p q [.signature b.method]) :=
      Prod.ext (signature_fst h) rfl
    have hglobals : (r.replay p q [.signature b.method]).globals = r.globals := signature_globals
    have hcoherent := h.replay [.signature b.method]
    simp only [hfound, Trace.signature]
    cases (Signature.build p q b.method).result with
    | error e => exact ⟨default, rfl⟩
    | ok sig =>
      cases hpool : LocalPool.ofSlots b.slots with
      | error e => exact ⟨default, rfl⟩
      | ok pool =>
        have hnodes := Lower.nodes_run (F := ⟨p, q, b, method, sig⟩) (sig.encoding o)
          (l := b.nodes.zipIdx) (hcoherent.addRecord
            ⟨.debug, "translating body of `" ++ p.methodName method ++ "`"⟩)
          (congrArg List.length hglobals) (LocalPool.ofSlots_flagged hpool)
        rcases hsegs : Lower.segments b.nodes.zipIdx ⟨p, q, b, method, sig⟩
          { pool, globals := r.globals.length } with ⟨j, e | segs⟩
        · rw [hsegs] at hnodes
          obtain ⟨w, hw, hr⟩ := hnodes
          refine ⟨default, ?_⟩
          simp only [hw, hr]
          simp only [Bind.bind, Trace.bind, Trace.promise, Trace.decision, Trace.ofExcept, Trace.emit,
            Trace.within, Trace.after, Except.mapError, hsegs]
          rfl
        · rw [hsegs] at hnodes
          obtain ⟨w, hw, hr, hout, hpool⟩ := hnodes
          apply Exists.intro
          simp only [hw, hr, hout, hpool]
          simp only [Bind.bind, Trace.bind, Trace.promise, Trace.decision, Trace.ofExcept, Trace.emit,
            Trace.within, Trace.after, Except.mapError, hsegs, Pure.pure, Trace.pure, List.append_nil]
          rfl

theorem Registry.lower_fst {r : Registry} (h : r.Coherent p q) : (r.lower p q o b).1 =
    (lowerBody p q r.globals.length b).result.map (·.implementation o) := by
  obtain ⟨record, hlower⟩ := lower_eq (o := o) (b := b) h
  rw [hlower]
  obtain ⟨j, e | l⟩ := lowerBody p q r.globals.length b <;> rfl

end Verilower
