import Verilower.Proofs.ControlFlow
import Verilower.Proofs.Framing
import Verilower.Proofs.Lowering.Inline
import Verilower.Proofs.Lowering.Twins

namespace Verilower
set_option autoImplicit true

open Ivl

namespace Ivl

@[simp] theorem callees_nil : callees [] = [] := rfl

@[simp] theorem callees_append : callees (as ++ bs) = callees as ++ callees bs := collect_append

theorem callees_flat (hs : Stmt.isFlat s = true) :
    callees (s :: ss) = s.ownCallees ++ callees ss := collect_flat hs

@[simp] theorem callees_when : callees (.when c body :: ss) = callees body ++ callees ss := by
  simp [callees, Stmt.when, collect_ite, Stmt.ownCallees]

end Ivl

theorem Encoding.callees_obligation (enc : Encoding) (o : Obligation) :
    callees (enc.obligation o) = [] := by
  have hraise : callees (enc.raise o.violation) = [] := by
    rw [raise, callees_flat rfl, callees_flat rfl, callees_flat rfl]
    rfl
  obtain h | ⟨g, -, h⟩ | ⟨-, h⟩ | ⟨g, -, h⟩ | ⟨-, h⟩ := enc.obligation_cases o <;> rw [h]
  · exact callees_nil
  · rw [callees_when, hraise, callees_nil, List.append_nil]
  · exact hraise
  · exact callees_flat rfl
  · exact callees_flat rfl

namespace Lower

/-- The code calls nothing, however its obligations are encoded. -/
def CallFree (code : List Outline) : Prop :=
  ∀ enc : Encoding, callees (enc.encodeAll code) = []

theorem CallFree.append (ha : CallFree as) (hb : CallFree bs) : CallFree (as ++ bs) := by
  intro enc
  rw [Encoding.encodeAll_append, callees_append, ha enc, hb enc, List.append_nil]

theorem CallFree.cons (ho : CallFree [o]) (hos : CallFree os) : CallFree (o :: os) := ho.append hos

theorem callFree_plain (hf : s.isFlat = true) (hs : s.ownCallees = []) : CallFree [.plain s] := by
  intro enc
  rw [Encoding.encodeAll_plain, callees_flat hf, hs, callees_nil, List.append_nil]

theorem Inline.callFree (h : Inline code) : CallFree code := by
  induction code with
  | nil => exact fun _ => rfl
  | cons o os ih =>
    obtain ⟨ho, hos⟩ := inline_cons.1 h
    apply CallFree.cons _ (ih hos)
    cases o with
    | oblige o =>
      intro enc
      rw [Encoding.encodeAll_oblige, Encoding.callees_obligation]
    | plain s => cases s <;> first | exact callFree_plain rfl rfl | cases ho
    | when => cases ho

theorem callFree_when (h : CallFree body) : CallFree [.when c body] := by
  intro enc
  rw [Encoding.encodeAll_when, callees_when, h enc, callees_nil, List.append_nil]

theorem callFree_exitCode : CallFree (exitCode F) :=
  CallFree.append inline_obligations.callFree (callFree_plain rfl rfl)

theorem callFree_entryCode : CallFree (entryCode F n) := by
  unfold entryCode
  split
  · exact callFree_plain rfl rfl
  · exact fun _ => rfl

theorem callFree_jumpWhen : CallFree [.plain (.when c [.jump l])] := by
  intro enc
  rw [Encoding.encodeAll_plain, callees_when, Stmt.jump, callees_flat rfl]
  rfl

theorem TrapJumps.callFree (h : TrapJumps F ts code j) : CallFree code := by
  induction h with
  | nil => exact fun _ => rfl
  | cons _ _ ih => exact callFree_jumpWhen.cons ih

theorem EscapeExits.callFree (h : EscapeExits F n fuel types code j) : CallFree code := by
  induction h with
  | spent | done => exact fun _ => rfl
  | step _ _ _ _ ih => exact CallFree.cons (callFree_when callFree_exitCode) ih

theorem Continued.callFree (h : Continued F n thrown code j) : CallFree code := by
  obtain ⟨hj, -, he⟩ := h
  exact hj.callFree.append he.callFree

end Lower

def reports (j : List Event) : List Diagnostic := j.filterMap Event.diagnostic?

@[simp] theorem reports_nil : reports [] = [] := rfl

theorem reports_diagnostic : reports (.diagnostic d :: j) = d :: reports j := rfl

theorem reports_log : reports (.log r :: j) = reports j := rfl

@[simp] theorem reports_append : reports (j ++ j') = reports j ++ reports j' :=
  List.filterMap_append

namespace Lower

theorem Operand.reports_eq (h : Operand F s v r j) : reports j = [] := by
  induction h <;> simp_all [reports, Event.diagnostic?]

theorem Stored.reports_eq (h : Stored F s target e r j) : reports j = [] := by
  cases h with
  | slot => rfl
  | field _ hl => exact hl.reports_eq
  | element hl => exact hl.reports_eq

theorem Arguments.reports_eq (h : Arguments F s args r j) : reports j = [] := by
  induction h with
  | nil => rfl
  | cons ha _ _ _ ih => rw [reports_append, ha.reports_eq, ih, List.append_nil]

theorem ReceiverOf.reports_eq (h : ReceiverOf F s call r j) : reports j = [] := by
  cases h with
  | none => rfl
  | dynamic _ _ ho | direct _ _ ho => exact ho.reports_eq

theorem WrittenBack.reports_eq (h : WrittenBack F s w r j) : reports j = [] := by
  cases h with
  | none => rfl
  | some hs => exact hs.reports_eq

theorem DirectCall.reports_eq (h : DirectCall F m callee actuals result captured code j) :
    reports j = [] := by
  obtain ⟨-, -, -, ha⟩ := h
  cases ha <;> rfl

theorem GuardedCalls.reports_eq
    (h : GuardedCalls F receiver actuals result captured ts thrown code j) : reports j = [] := by
  induction h with
  | nil => rfl
  | cons _ hd _ _ ih =>
    rw [reports_append, reports_append, hd.reports_eq, ih]
    rfl

theorem TrapJumps.reports_eq (h : TrapJumps F ts code j) : reports j = [] := by
  induction h with
  | nil => rfl
  | cons _ _ ih => simpa [reports, Event.diagnostic?] using ih

end Lower

/-- What is reported of a call whose method nothing overrides. -/
def Program.noOverride (p : Program) (callee : Method) : String :=
  "no concrete override of `" ++ p.methodName callee ++ "` found, calling the declared method"

theorem head?_toList_append {x y : String} (h : x.toList.head? = some c) :
    (x ++ y).toList.head? = some c := by
  rw [String.toList_append, List.head?_append, h, Option.some_or]

theorem Program.noOverride_head (p : Program) (callee : Method) :
    (p.noOverride callee).toList.head? = some 'n' :=
  head?_toList_append (head?_toList_append (by decide +kernel))

namespace Lower

theorem EscapeWarning.message_head (h : EscapeWarning F n i j) :
    ∀ d ∈ reports j, d.message.toList.head? = some '`' := by
  cases h with
  | declared => exact nofun
  | undeclared =>
    intro d hd
    simp only [reports, List.filterMap_cons, List.filterMap_nil, Event.diagnostic?,
      List.mem_singleton] at hd
    rw [hd]
    simp

theorem EscapeExits.message_head (h : EscapeExits F n fuel types code j) :
    ∀ d ∈ reports j, d.message.toList.head? = some '`' := by
  induction h with
  | spent | done => exact nofun
  | step _ hw _ _ ih =>
    intro d hd
    simp only [reports_append, List.mem_append] at hd
    obtain (hd | hd) | hd := hd
    · exact hw.message_head d hd
    · cases hd
    · exact ih d hd

theorem Continued.reports_filter (h : Continued F n thrown code j) (p : Program) (m : Method) :
    ((reports j).filter fun d => d.message = p.noOverride m) = [] := by
  obtain ⟨hj, -, he⟩ := h
  rw [reports_append, hj.reports_eq, List.nil_append, List.filter_eq_nil_iff]
  intro d hd hm
  have hsame : d.message = p.noOverride m := by simpa using hm
  have hhead := he.message_head d hd
  rw [hsame, p.noOverride_head] at hhead
  cases hhead

end Lower

namespace Lower

theorem reports_entryEvents : reports (entryEvents F n) = [] := by
  unfold entryEvents
  split <;> rfl

/-- Each node has its own share of the code and of the reports. -/
theorem Segments.shares (h : Segments F s nodes s' segs j) :
    ∃ ds : List (List Diagnostic), ds.length = nodes.length ∧ reports j = ds.flatten ∧
      ∀ (k : Nat) node, nodes[k]? = some node → ∃ s r j, Executed F node.2 s node.1.instr r j ∧
        segs[k]? = some (entryCode F node.2 ++ r.code) ∧ ds[k]? = some (reports j) := by
  induction h with
  | nil => exact ⟨[], rfl, rfl, nofun⟩
  | @cons n s s₁ code j₁ nodes s₂ segs j₂ nd hn _ ih =>
    obtain ⟨ds, hlen, hds, hget⟩ := ih
    refine ⟨reports j₁ :: ds, congrArg (· + 1) hlen, ?_, ?_⟩
    · rw [reports_append, reports_append, reports_entryEvents, hds]
      rfl
    · intro k node hnode
      cases k with
      | zero =>
        cases hnode
        exact ⟨_, _, _, hn, rfl, rfl⟩
      | succ k => exact hget k node hnode

end Lower

theorem BodyLowered.shares (h : BodyLowered p q g body low j) :
    ∃ ds : List (List Diagnostic), ds.length = body.nodes.length ∧ reports j = ds.flatten ∧
      ∀ (k : Nat) node, body.nodes[k]? = some node → ∃ F s r j, Lower.Executed F k s node.instr r j ∧
        (F.program = p ∧ F.prelude = q ∧ F.body = body ∧ F.signature = low.signature ∧
          p.method? body.method = .ok F.method) ∧
        low.segments[k]? = some (Lower.entryCode F k ++ r.code) ∧ ds[k]? = some (reports j) := by
  cases h with
  | intro hm _ _ hseg =>
    obtain ⟨ds, hlen, hds, hget⟩ := hseg.shares
    refine ⟨ds, by simpa using hlen, hds, ?_⟩
    intro k node hnode
    obtain ⟨s, r, j, hx, hcode, hd⟩ := hget k (node, k) (by simp [hnode])
    exact ⟨_, s, r, j, hx, ⟨rfl, rfl, rfl, rfl, hm⟩, hcode, hd⟩

end Verilower
