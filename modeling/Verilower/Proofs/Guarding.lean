import Verilower.Proofs.Lowering.Guards
import Verilower.Proofs.Receivers

namespace Verilower
set_option autoImplicit true

open Ivl

section Statements

variable {p : Program} {X : Expr → Prop} (enc : Encoding)

theorem covered_obligation {o : Obligation}
    (h : ∀ e ∈ (Outline.oblige o).expressions, Covered p X front e) :
    ∀ st ∈ enc.obligation o, ∀ e ∈ (Outline.plain st).expressions, Covered p X front e := by
  have hraise : ∀ st ∈ enc.raise o.violation, ∀ e ∈ (Outline.plain st).expressions,
      Covered p X front e := by
    simp [Encoding.raise]
  have hguard : ∀ g, o.guard = some g → Covered p X front g := fun g hg =>
    h g (Option.mem_toList.2 hg)
  obtain hnone | ⟨g, hg, hwhen⟩ | ⟨-, hr⟩ | ⟨g, hg, hassert⟩ | ⟨-, hret⟩ := enc.obligation_cases o
  · simp [hnone]
  · rw [hwhen, List.forall_mem_singleton, Stmt.when, expressions_ite, List.forall_mem_cons]
    refine ⟨covered_unary.2 (hguard g hg), fun e he => ?_⟩
    rw [List.flatMap_nil, List.append_nil] at he
    obtain ⟨st, hst, he⟩ := List.mem_flatMap.1 he
    exact hraise st hst e he
  · rw [hr]
    exact hraise
  · rw [hassert, List.forall_mem_singleton, expressions_flat rfl]
    exact List.forall_mem_singleton.2 (hguard g hg)
  · simp [hret]

mutual

theorem covered_encode : ∀ {o : Outline}, (∀ e ∈ o.expressions, Covered p X front e) →
    ∀ st ∈ enc.encode o, ∀ e ∈ (Outline.plain st).expressions, Covered p X front e
  | .plain s, h => List.forall_mem_singleton.2 h
  | .oblige _, h => covered_obligation enc h
  | .when c body, h => by
    obtain ⟨hc, hbody⟩ := List.forall_mem_cons.1 h
    rw [Encoding.encode_when, List.forall_mem_singleton, Stmt.when, expressions_ite,
      List.forall_mem_cons]
    refine ⟨hc, fun e he => ?_⟩
    rw [List.flatMap_nil, List.append_nil] at he
    obtain ⟨st, hst, he⟩ := List.mem_flatMap.1 he
    exact covered_encodeAll hbody st hst e he

theorem covered_encodeAll : ∀ {os : List Outline}, Settled p X front os →
    ∀ st ∈ enc.encodeAll os, ∀ e ∈ (Outline.plain st).expressions, Covered p X front e
  | [], _ => nofun
  | _ :: _, h => by
    obtain ⟨ho, hos⟩ := settled_cons.1 h
    exact List.forall_mem_append.2 ⟨covered_encode ho, covered_encodeAll hos⟩

end

end Statements

namespace Encoding

variable {enc : Encoding}

/-- A statement of encoded code comes from an outline, after what the outlines in front of that one
are encoded to. -/
theorem exists_outline {os : List Outline} (h : enc.encodeAll os = front ++ st :: back) :
    ∃ as o bs, os = as ++ o :: bs ∧ enc.encodeAll as <+: front ∧ st ∈ enc.encode o := by
  induction os generalizing front with
  | nil => simp at h
  | cons o os ih =>
    rw [encodeAll_cons] at h
    have later {rest : List Stmt} (hrest : enc.encodeAll os = rest ++ st :: back)
        (hf : front = enc.encode o ++ rest) : ∃ as o' bs, o :: os = as ++ o' :: bs ∧
          enc.encodeAll as <+: front ∧ st ∈ enc.encode o' := by
      obtain ⟨as, o', bs, rfl, hfront, hst⟩ := ih hrest
      refine ⟨o :: as, o', bs, rfl, ?_, hst⟩
      rw [hf, encodeAll_cons]
      exact (List.prefix_append_right_inj _).2 hfront
    obtain ⟨rest, hf, hrest⟩ | ⟨rest, ho, hrest⟩ := List.append_eq_append_iff.1 h
    · exact later hrest hf
    · cases rest with
      | nil =>
        have hnil : enc.encodeAll os = [] ++ st :: back := hrest.symm
        exact later hnil (by simpa using ho.symm)
      | cons st' rest =>
        obtain rfl := (List.cons.inj hrest).1
        exact ⟨[], o, os, rfl, List.nil_prefix, ho ▸ List.mem_append_right _ List.mem_cons_self⟩

theorem encodeAll_infix (h : as <:+: bs) : enc.encodeAll as <:+: enc.encodeAll bs := by
  obtain ⟨front, back, rfl⟩ := h
  rw [encodeAll_append, encodeAll_append]
  exact ⟨_, _, rfl⟩

theorem encode_infix (h : o ∈ os) : enc.encode o <:+: enc.encodeAll os := by
  obtain ⟨front, back, rfl⟩ := List.append_of_mem h
  rw [encodeAll_append, encodeAll_cons, ← List.append_assoc]
  exact ⟨_, _, rfl⟩

end Encoding

/-- The expression is that of the receiver, or of a local to which a node in front of node `k`
binds it. -/
def Lowered.IsReceiver (low : Lowered) (body : Body) (k : Nat) (b : Expr) : Prop :=
  (∃ x, low.signature.receiver = some x ∧ b = x.expr) ∨
    ∃ index x, body.BoundBefore k index ∧ low.pool.slots[index]? = some x ∧ b = x.expr

/-- What the expression accesses is guarded by the statements in front, in the segment of node
`k`. -/
structure Lowered.Guards (low : Lowered) (s : Session) (body : Body) (k : Nat) (front : List Stmt)
    (e : Expr) : Prop where
  nonNull : ∀ b, Dereferences s.program e b →
    (low.encoding s.options).obligation (.nonNull b) <:+: front ∨ low.IsReceiver body k b
  bounds : s.options.noArrayBoundsChecks = false → ∀ b i, Indexes e b i →
    (low.encoding s.options).encode (Lower.boundsGuard b i) <:+: front
  fresh : ∀ b, Resizes e b → ∃ x τ, b = x.expr ∧
    (low.encoding s.options).encodeAll (Lower.newObject x τ) <:+: front

theorem BodyLowered.guarded (h : BodyLowered p .standard g body low j)
    (hseg : low.segments[k]? = some seg) : Guarded p (low.IsReceiver body k) [] seg := by
  have hlt := h.segments_length ▸ (List.getElem?_eq_some_iff.1 hseg).1
  obtain ⟨F, t, r, _, hexec, rfl, hq, -, hsig, hk, hslots, hbound⟩ :=
    h.node (List.getElem?_eq_getElem hlt)
  obtain ⟨_, hown⟩ := Signature.built_of_result h.signature_eq
  obtain rfl := Option.some.inj (hk.symm.trans hseg)
  have hF : Lower.Standard F := ⟨hq, fun e he => hown.postcondition_standard (hsig ▸ he)⟩
  have hX : Lower.Exempts (low.IsReceiver body k) F t := by
    constructor
    · intro x hx
      exact .inl ⟨x, hsig ▸ hx, rfl⟩
    · intro index hi x hx
      exact .inr ⟨index, x, (hbound index).1 hi, hslots ▸ hx, rfl⟩
  exact guarded_append.2 ⟨Lower.guarded_entryCode, hexec.guarded hF hX _⟩

/-- Accesses are guarded. In every segment, whatever part of whatever statement accesses an object
comes after the obligations of the access. -/
theorem Session.lower_accesses {s : Session} {body : Body} {i : Implementation}
    (hq : s.prelude = .standard) (h : (s.lower body).1 = .ok i) :
    ∃ low : Lowered,
      (lowerBody s.program s.prelude s.registry.globals.length body).result = .ok low ∧
      i = low.implementation s.options ∧
      ∀ (k : Nat) seg, low.segments[k]? = some seg → ∀ front st back,
        (low.encoding s.options).encodeAll seg = front ++ st :: back →
        ∀ t ∈ st.nested, ∀ e ∈ t.expressions, ∀ a ∈ e.parts, low.Guards s body k front a := by
  obtain ⟨low, j, hgives, rfl, -⟩ := Session.lower_result h
  refine ⟨low, congrArg Trace.result hgives, rfl, ?_⟩
  intro k seg hseg front st back hsplit t ht e he a ha
  have hguarded := (hq ▸ lowerBody_gives hgives).guarded hseg
  obtain ⟨as, o, bs, rfl, hfront, hst⟩ := Encoding.exists_outline hsplit
  have hcovered := covered_encode _ (guarded_append.1 hguarded).2.1 st hst e
    (List.mem_flatMap.2 ⟨t, ht, he⟩) a ha
  rw [List.nil_append] at hcovered
  constructor
  · intro b hb
    obtain hb | hb := hcovered.nonNull b hb
    · exact .inr hb
    · exact .inl ((Encoding.encode_infix hb).trans hfront.isInfix)
  · intro _ b i hi
    exact (Encoding.encode_infix (hcovered.bounds b i hi)).trans hfront.isInfix
  · intro b hb
    obtain ⟨x, τ, hx, hobject⟩ := hcovered.fresh b hb
    exact ⟨x, τ, hx, (Encoding.encodeAll_infix hobject).trans hfront.isInfix⟩

/-- Links of a chain, each with numbers of its own. -/
def chains : Program := .declaring [
  .addClass "Link",
  .addField 3 { name := "next", ty := .cls 3 },
  .addField 3 { name := "data", ty := .array .int },
  .addMethod 3 { name := "put", params := [.cls 3] }] (by decide +kernel)

/-- A store in the array of the link after another one, at the length of the receiver's array. -/
def chainsBody : Body where
  method := 0
  slots := [⟨"self", .cls 3⟩, ⟨"x", .cls 3⟩, ⟨"n", .int⟩]
  nodes := [
    { instr := .identity 0 .receiver },
    { instr := .identity 1 (.param 0) },
    { instr := .assign (.element (.instanceField (.instanceField (.slot 1) 0) 1)
        (.length (.instanceField (.slot 0) 1))) (.slot 2) },
    { instr := .retVoid }]
  sound := by decide

def chainsSession : Session := .start (.ofProgram chains) .standard { errorModel := .assertion }

abbrev chainsField (object : Expr) (name : String) (ty : Ivl.Ty) : Expr :=
  Prelude.read object ⟨name, .field ty⟩

abbrev chainsNext : Expr := chainsField (.ident ⟨"x", .ref⟩) "Link.next" .ref

abbrev chainsArray : Expr := chainsField chainsNext "Link.data" .ref

abbrev chainsData : Expr := chainsField (.ident ⟨"self", .ref⟩) "Link.data" .ref

abbrev chainsIndex : Expr := .select Prelude.arraySize.expr [chainsData]

/-- The obligations in front of the store. The local that holds the receiver has none. -/
abbrev chainsChecks : List Stmt := [
  .assert (Prelude.isNonNull (.ident ⟨"x", .ref⟩)), .assert (Prelude.isNonNull chainsNext),
  .assert (Prelude.isNonNull chainsArray), .assert (Prelude.isNonNull chainsData),
  .assert (.and (.binary .le (.int 0) chainsIndex)
    (.binary .lt chainsIndex (.select Prelude.arraySize.expr [chainsArray])))]

abbrev chainsStore : Stmt :=
  .assign Prelude.intArrays (.store Prelude.intArrays.expr [chainsArray]
    (.store (.select Prelude.intArrays.expr [chainsArray]) [chainsIndex] (.ident ⟨"n", .int⟩)))

theorem lower_accesses_chains :
    ∃ (i : Implementation) (low : Lowered), (chainsSession.lower chainsBody).1 = .ok i ∧
      low.segments[2]?.map (low.encoding chainsSession.options).encodeAll =
        some (chainsChecks ++ [chainsStore]) ∧
      ∀ t ∈ chainsStore.nested, ∀ e ∈ t.expressions, ∀ a ∈ e.parts,
        low.Guards chainsSession chainsBody 2 chainsChecks a := by
  have hrun : (chainsSession.lower chainsBody).1.toOption.map Implementation.name =
      some "Link$void$put$Link" := by decide +kernel
  have hsegment : ((lowerBody chains .standard 0 chainsBody).result.toOption.map fun low =>
      low.segments[2]?.map (low.encoding chainsSession.options).encodeAll) =
      some (some (chainsChecks ++ [chainsStore])) := by decide +kernel
  obtain ⟨i, hi, -⟩ := exists_of_toOption_map hrun
  obtain ⟨low, hlow, -, hguards⟩ := Session.lower_accesses rfl hi
  obtain ⟨low', hlow', hcode⟩ := exists_of_toOption_map hsegment
  cases hlow.symm.trans hlow'
  obtain ⟨seg, hseg, hencoded⟩ := Option.map_eq_some_iff.1 hcode
  exact ⟨i, low, hi, hcode, hguards 2 seg hseg chainsChecks chainsStore [] hencoded⟩

end Verilower
