import Verilower.Proofs.ControlFlow
import Verilower.Proofs.History
import Verilower.Proofs.Lowering.Safe

namespace Verilower
set_option autoImplicit true

/-- What lowering looks up or cuts without a fault of its own is there: classes of members, methods
of classes, handlers, and among the parameters of a procedure a first one for the receiver. -/
structure Session.Resolved (s : Session) (body : Body) : Prop where
  methods : ∀ m ∈ s.program.methods, m.owner < s.program.classes.length
  fields : ∀ f ∈ s.program.fields, f.owner < s.program.classes.length
  declared : ∀ c ∈ s.program.classes, ∀ i ∈ c.methods, i < s.program.methods.length
  handlers : ∀ k, ∀ handler ∈ body.handlersAt k, handler < body.nodes.length
  receivers : ∀ i m sig, s.program.method? i = .ok m →
    (Signature.build s.program s.prelude i).result = .ok sig →
    sig.receiver.isSome = !m.isStatic ∧ sig.receiver.toList ++ sig.params = sig.procedure.ins

theorem Body.handlersAt_lt (b : Body) (h : handler ∈ b.handlersAt k) : handler < b.nodes.length := by
  obtain ⟨t, ht, rfl⟩ := Lower.mem_handlersAt.1 h
  exact b.handler_lt (List.mem_filter.1 ht).1

theorem Session.resolved {s : Session} (hb : s.program.toDraft.Built)
    (hp : s.program.inRange = true) (body : Body) : s.Resolved body where
  methods := hb.tidy.methods
  fields := hb.tidy.fields
  declared c hc i hi := by
    have hclass := (Program.inRange_iff.1 hp).1 c hc
    simp only [ClassDecl.inRange, Bool.and_eq_true, List.all_eq_true, decide_eq_true_eq] at hclass
    exact hclass.1.2 i hi
  handlers _ _ := body.handlersAt_lt
  receivers i m sig hm h := by
    obtain ⟨j, hsig⟩ := Signature.built_of_result h
    have hnone := hsig.receiver_isNone hm
    exact ⟨by rw [← hnone, Option.not_isNone], hsig.ins_eq.symm⟩

end Verilower
