import Verilower.Lowering.Body

namespace Verilower

open Ivl (Ident)

/-- Every entry of the table is what would be made for its key. -/
def Remembers {κ ν : Type} (make : κ → Except Failure ν) (table : List (κ × ν)) : Prop :=
  ∀ k v, (k, v) ∈ table → make k = .ok v

theorem Remembers.concat {κ ν : Type} {make : κ → Except Failure ν} {table : List (κ × ν)} {k : κ}
    {v : ν} (h : Remembers make table) (hv : make k = .ok v) :
    Remembers make (table ++ [(k, v)]) := by
  intro k' v' hmem
  obtain hmem | hmem := List.mem_append.1 hmem
  · exact h k' v' hmem
  · cases List.mem_singleton.1 hmem
    exact hv

theorem mem_of_lookup {κ ν : Type} [BEq κ] [LawfulBEq κ] {k : κ} {v : ν} {table : List (κ × ν)}
    (h : table.lookup k = some v) : (k, v) ∈ table := by
  induction table with
  | nil => cases h
  | cons entry table ih =>
    obtain ⟨k', v'⟩ := entry
    rw [List.lookup_cons] at h
    split at h
    · rename_i hk
      cases h
      cases eq_of_beq hk
      exact List.mem_cons_self
    · exact List.mem_cons_of_mem _ (ih h)

/-- A table that remembers gives what would be made, and it goes on to remember. -/
theorem fetch_remembers {κ ν : Type} [BEq κ] [LawfulBEq κ] {make : κ → Except Failure ν}
    {table : List (κ × ν)} (h : Remembers make table) (k : κ) :
    (fetch table k (make k)).1 = make k ∧ Remembers make (fetch table k (make k)).2 := by
  unfold fetch
  split
  · rename_i v hv
    exact ⟨(h k v (mem_of_lookup hv)).symm, h⟩
  · split
    · rename_i e he
      exact ⟨he.symm, h⟩
    · rename_i v hv
      exact ⟨hv.symm, h.concat hv⟩

/-- Every pair of the map has the label that its node would get. -/
def LabelMap.Named (m : LabelMap) : Prop := ∀ i n l, ((i, n), l) ∈ m.pairs → l = labelName i n

/-- What is stored is what would be computed: an answer from the tables is the one that the program
and the prelude determine. -/
structure Registry.Coherent (p : Program) (q : Prelude) (r : Registry) : Prop where
  tags : Remembers (fun ty => (p.tag ty).mapError .fault) r.tagTable
  fields : Remembers p.fieldIdent r.fieldTable
  signatures : Remembers (fun id => (Signature.builder p q id).answer p) r.signatureTable
  labels : r.labels.Named

namespace Registry.Coherent

variable {p : Program} {q : Prelude} {r : Registry}

theorem tag (h : r.Coherent p q) (ty : Ty) :
    (r.tag p ty).1 = (p.tag ty).mapError .fault ∧ (r.tag p ty).2.Coherent p q := by
  obtain ⟨hfound, htable⟩ := fetch_remembers h.tags ty
  exact ⟨hfound, { h with tags := htable }⟩

theorem field (h : r.Coherent p q) (id : FieldId) :
    (r.field p id).1 = p.fieldIdent id ∧ (r.field p id).2.Coherent p q := by
  obtain ⟨hfound, htable⟩ := fetch_remembers h.fields id
  exact ⟨hfound, { h with fields := htable }⟩

theorem label (h : r.Coherent p q) (m : MethodId) (n : Nat) :
    (r.label m n).1 = labelName m n ∧ (r.label m n).2.Coherent p q := by
  unfold Registry.label
  split
  · rename_i l hl
    obtain ⟨⟨node, l'⟩, hfind, rfl⟩ := Option.map_eq_some_iff.1 hl
    have hnode : node = (m, n) := by simpa using List.find?_some hfind
    subst hnode
    exact ⟨h.labels m n l' (List.mem_of_find?_eq_some hfind), h⟩
  · refine ⟨rfl, { h with labels := ?_ }⟩
    intro i k l hmem
    obtain hmem | hmem := List.mem_append.1 hmem
    · exact h.labels i k l (List.mem_filter.1 hmem).1
    · cases List.mem_singleton.1 hmem
      rfl

theorem addRecord (h : r.Coherent p q) (record : Record) : (r.addRecord record).Coherent p q :=
  { h with }

theorem addDiagnostic (h : r.Coherent p q) (d : Diagnostic) : (r.addDiagnostic p d).Coherent p q :=
  { h with }

theorem freshGlobal (h : r.Coherent p q) (ty : Ivl.Ty) : (r.freshGlobal ty).2.Coherent p q :=
  { h with }

theorem request {α : Type} (h : r.Coherent p q) (x : Request α) :
    (x.run p r).1 = x.answer p ∧ (x.run p r).2.Coherent p q := by
  cases x with
  | tag ty => exact h.tag ty
  | field id => exact h.field id
  | label m n =>
    obtain ⟨hl, hr⟩ := h.label m n
    exact ⟨congrArg Except.ok hl, hr⟩
  | diagnose d => exact ⟨rfl, h.addDiagnostic d⟩
  | log record => exact ⟨rfl, h.addRecord record⟩

theorem ask {α : Type} (h : r.Coherent p q) (x : Ask α) :
    (x.run p r).1 = x.answer p ∧ (x.run p r).2.Coherent p q := by
  induction x generalizing r with
  | done | fail => exact ⟨rfl, h⟩
  | request x k ih =>
    obtain ⟨hx, hr⟩ := h.request x
    rw [Ask.run, Ask.answer, ← hx]
    generalize x.run p r = found at hr
    obtain ⟨e | b, r'⟩ := found
    · exact ⟨rfl, hr⟩
    · exact ih b hr

theorem signature (h : r.Coherent p q) (id : MethodId) :
    (r.signature p q id).1 = (Signature.builder p q id).answer p ∧
      (r.signature p q id).2.Coherent p q := by
  unfold Registry.signature
  split
  · rename_i found hf
    exact ⟨(h.signatures id found (mem_of_lookup hf)).symm, h⟩
  · obtain ⟨hx, hr⟩ := h.ask (Signature.builder p q id)
    generalize (Signature.builder p q id).run p r = built at hx hr
    obtain ⟨e | made, r'⟩ := built
    · exact ⟨hx, hr⟩
    · exact ⟨hx, { hr with signatures := hr.signatures.concat hx.symm }⟩

theorem command {α : Type} {F : Frame} {w : Workspace}
    (h : w.registry.Coherent F.program F.prelude) (enc : Encoding) (c : Command α) :
    (c.run F enc w).2.registry.Coherent F.program F.prelude := by
  cases c with
  | freshGlobal ty => exact h.freshGlobal ty
  | signature id => exact (h.signature id).2
  | request x => exact (h.request x).2
  | frame | slot | fresh | receivers | bindReceiver | emit | oblige => exact h

theorem run {α : Type} {F : Frame} {w : Workspace}
    (h : w.registry.Coherent F.program F.prelude) (enc : Encoding) (x : Lower α) :
    (x.run F enc w).2.registry.Coherent F.program F.prelude := by
  induction x generalizing w with
  | pure | fail => exact h
  | step c k ih =>
    have hc := h.command enc c
    rw [Lower.run]
    generalize c.run F enc w = found at hc
    obtain ⟨e | b, w'⟩ := found
    · exact hc
    · exact ih b hc
  | branch body condition k ihb ihc ihk =>
    have hb := ihb (w := { w with out := #[] }) h
    rw [Lower.run]
    generalize body.run F enc { w with out := #[] } = found at hb
    obtain ⟨e | _, inner⟩ := found
    · exact hb
    · have hc := ihc (w := { inner with out := w.out }) hb
      dsimp only
      generalize condition.run F enc { inner with out := w.out } = found at hc
      obtain ⟨e | c, w'⟩ := found
      · exact hc
      · exact ihk hc
  | scope context x k ihx ihk =>
    have hx := ihx h
    rw [Lower.run]
    generalize x.run F enc w = found at hx
    obtain ⟨e | b, w'⟩ := found
    · exact hx
    · exact ihk b hx

theorem of_run {α : Type} {F : Frame} {enc : Encoding} {w w' : Workspace} {x : Lower α}
    {found : Except Failure α} (hx : x.run F enc w = (found, w'))
    (h : w.registry.Coherent F.program F.prelude) :
    w'.registry.Coherent F.program F.prelude := by
  have hrun := h.run enc x
  rwa [hx] at hrun

theorem lower (h : r.Coherent p q) (o : Options) (body : Body) :
    (r.lower p q o body).2.Coherent p q := by
  unfold Registry.lower
  cases p.method? body.method with
  | error => exact h
  | ok method =>
    have hsig := (h.signature body.method).2
    dsimp only
    generalize r.signature p q body.method = found at hsig
    obtain ⟨e | signature, r'⟩ := found
    · exact hsig
    · cases LocalPool.ofSlots body.slots with
      | error => exact hsig
      | ok pool =>
        dsimp only
        split
        · rename_i hw
          exact of_run hw (hsig.addRecord _)
        · rename_i hw
          exact (of_run hw (hsig.addRecord _)).addRecord _

end Registry.Coherent

end Verilower
