import Verilower.Proofs.Escapes
import Verilower.Proofs.Handlers

namespace Verilower
set_option autoImplicit true

open Ivl

/-- Where control goes after a call. -/
inductive Course where
  /-- To what follows the continuation. -/
  | onward
  | handler (node : Nat)
  /-- Out of the procedure. -/
  | exit
deriving DecidableEq

namespace Ivl.World

variable {W : World} {σ : W.State}

theorem Leads.trans (h : W.Leads σ ss ts) (h' : W.Leads σ ts us) : W.Leads σ ss us := by
  refine ⟨h.reaches.trans h'.reaches, fun cs σ' ss' hexec => ?_⟩
  obtain ⟨rfl, rfl, hon⟩ | hexec := h.only _ _ _ hexec
  · exact .inl ⟨rfl, rfl, hon.trans h'.reaches⟩
  · exact h'.only _ _ _ hexec

/-- The statements lead control on a course; `exit` is what is executed to leave. -/
def Takes (W : World) (σ : W.State) (code : List Stmt) (m : MethodId) (exit : List Stmt) :
    Course → Prop
  | .onward => ∀ rest, W.Leads σ (code ++ rest) rest
  | .handler node => ∀ rest, ∃ ts, W.Leads σ (code ++ rest) (.jump (labelName m node) :: ts)
  | .exit => ∀ rest, ∃ ts, W.Leads σ (code ++ rest) (exit ++ ts)

end Ivl.World

namespace Program

variable {p : Program} {W : World} {σ : W.State}

theorem lt_of_tag (h : p.tag (.cls c) = .ok τ) : c < p.classes.length := by
  obtain ⟨_, hc, -⟩ := tag_cls.1 h
  exact (List.getElem?_eq_some_iff.1 hc).1

theorem Thrown.lt (h : p.Thrown W σ slot c) : c < p.classes.length := by
  obtain ⟨τ, hτ, -⟩ := h.tagged
  exact lt_of_tag hτ

end Program

namespace Continuation

variable {p : Program} {W : World} {σ : W.State}

theorem mem_iff (h : Continuation p body k slot exit thrown order code)
    (hids : ∀ c ∈ thrown, ClassId.node c = c) :
    c ∈ order ↔ c ∈ thrown ∧ ∀ t ∈ body.trapsAt k, p.isSubtype c t.exception = false := by
  obtain @⟨_, _, _, _, -, ht, hdrain, -⟩ := h
  simpa using (Program.escapeOrder ht hdrain hids).mem_iff c

end Continuation

end Verilower
