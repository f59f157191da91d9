import Mathlib.Data.List.Nodup
import Verilower.Proofs.History
import Verilower.Proofs.Lowering.Signature

namespace Verilower
set_option autoImplicit true

section Fetch

variable {κ ν : Type} [BEq κ] [LawfulBEq κ] {table : List (κ × ν)} {k : κ}
  {make : Except Failure ν}

theorem notMem_of_lookup (h : table.lookup k = none) : k ∉ table.map Prod.fst := by
  intro hmem
  obtain ⟨entry, hentry, rfl⟩ := List.mem_map.1 hmem
  simpa using List.lookup_eq_none_iff.1 h entry hentry

/-- A look-up leaves the table as it is, or adds an entry for a key that has none. -/
theorem fetch_cases (table : List (κ × ν)) (k : κ) (make : Except Failure ν) :
    (fetch table k make).2 = table ∨
    ∃ v, k ∉ table.map Prod.fst ∧ make = .ok v ∧ (fetch table k make).2 = table ++ [(k, v)] := by
  unfold fetch
  split
  · exact .inl rfl
  · rename_i hnone
    split
    · exact .inl rfl
    · exact .inr ⟨_, notMem_of_lookup hnone, rfl, rfl⟩

theorem fetch_subset : table ⊆ (fetch table k make).2 := by
  obtain h | ⟨v, -, -, h⟩ := fetch_cases table k make
  · rw [h]
    exact List.Subset.refl _
  · rw [h]
    exact List.subset_append_left _ _

theorem fetch_nodup (h : (table.map Prod.fst).Nodup) :
    ((fetch table k make).2.map Prod.fst).Nodup := by
  obtain heq | ⟨v, hnew, -, heq⟩ := fetch_cases table k make
  · rwa [heq]
  · rw [heq, List.map_append, List.map_singleton, ← List.concat_eq_append]
    exact h.concat hnew

end Fetch

theorem mem_fetch {κ ν : Type} [BEq κ] [LawfulBEq κ] {make : κ → Except Failure ν}
    {table : List (κ × ν)} {k : κ} {v : ν} (h : Remembers make table) (hk : make k = .ok v) :
    (k, v) ∈ (fetch table k (make k)).2 := by
  unfold fetch
  split
  · rename_i found hl
    have hmem := mem_of_lookup hl
    cases hk.symm.trans (h k found hmem)
    exact hmem
  · rw [hk]
    exact List.mem_append_right _ List.mem_cons_self

namespace Registry

/-- The registry has what the event asked for. -/
def Has (p : Program) (q : Prelude) (r : Registry) : Event → Prop
  | .tag ty => ∀ x, p.tag ty = .ok x → (ty, x) ∈ r.tagTable
  | .field i => ∀ x, p.fieldIdent i = .ok x → (i, x) ∈ r.fieldTable
  | .signature m => ∀ sig, (Signature.build p q m).result = .ok sig → (m, sig) ∈ r.signatureTable
  | .global x => x ∈ r.globals
  | .label _ _ | .diagnostic _ | .log _ => True

/-- The tables of the second registry contain those of the first. -/
structure Below (r r' : Registry) : Prop where
  tags : r.tagTable ⊆ r'.tagTable
  fields : r.fieldTable ⊆ r'.fieldTable
  signatures : r.signatureTable ⊆ r'.signatureTable
  globals : r.globals ⊆ r'.globals

structure Distinct (r : Registry) : Prop where
  tags : r.tags.Nodup
  fields : r.fields.Nodup
  signatures : (r.signatureTable.map Prod.fst).Nodup

theorem Below.refl (r : Registry) : r.Below r := ⟨.refl _, .refl _, .refl _, .refl _⟩

theorem Below.trans (h : Below r s) (h' : Below s t) : Below r t :=
  ⟨List.Subset.trans h.tags h'.tags, List.Subset.trans h.fields h'.fields,
    List.Subset.trans h.signatures h'.signatures, List.Subset.trans h.globals h'.globals⟩

theorem Has.mono (h : Has p q r e) (hb : Below r s) : Has p q s e := by
  cases e with
  | tag => exact fun x hx => hb.tags (h x hx)
  | field => exact fun x hx => hb.fields (h x hx)
  | signature => exact fun sig hs => hb.signatures (h sig hs)
  | global => exact hb.globals h
  | label | diagnostic | log => trivial

theorem request_kept (x : Request α) (r : Registry) :
    r.Below (x.run p r).2 ∧ (x.run p r).2.signatureTable = r.signatureTable ∧
      (r.Distinct → (x.run p r).2.Distinct) := by
  cases x with
  | tag ty =>
    exact ⟨{ Below.refl r with tags := fetch_subset }, rfl,
      fun h => { h with tags := fetch_nodup h.tags }⟩
  | field i =>
    exact ⟨{ Below.refl r with fields := fetch_subset }, rfl,
      fun h => { h with fields := fetch_nodup h.fields }⟩
  | label m n =>
    simp only [Request.run, Registry.label]
    split <;> exact ⟨{ Below.refl r with }, rfl, fun h => { h with }⟩
  | diagnose | log => exact ⟨{ Below.refl r with }, rfl, fun h => { h with }⟩

theorem ask_kept (x : Ask α) (r : Registry) :
    r.Below (x.run p r).2 ∧ (x.run p r).2.signatureTable = r.signatureTable ∧
      (r.Distinct → (x.run p r).2.Distinct) := by
  induction x generalizing r with
  | done | fail => exact ⟨.refl r, rfl, id⟩
  | request x k ih =>
    have hx := request_kept (p := p) x r
    rw [Ask.run]
    generalize x.run p r = found at hx
    obtain ⟨e | b, r'⟩ := found
    · exact hx
    · obtain ⟨hbelow, hsame, hdistinct⟩ := hx
      obtain ⟨hbelow', hsame', hdistinct'⟩ := ih b r'
      exact ⟨hbelow.trans hbelow', hsame'.trans hsame, hdistinct' ∘ hdistinct⟩

theorem signature_kept : Below r (signature p q r i).2 ∧
    (Distinct r → (signature p q r i).2.Distinct) := by
  unfold signature
  split
  · exact ⟨.refl r, id⟩
  · rename_i hnone
    have hx := ask_kept (p := p) (Signature.builder p q i) r
    generalize (Signature.builder p q i).run p r = found at hx
    obtain ⟨e | made, r'⟩ := found
    · exact ⟨hx.1, hx.2.2⟩
    · obtain ⟨hbelow, hsame, hdistinct⟩ := hx
      refine ⟨hbelow.trans { Below.refl _ with signatures := List.subset_append_left _ _ }, ?_⟩
      intro h
      refine { hdistinct h with signatures := ?_ }
      rw [List.map_append, hsame, List.map_singleton, ← List.concat_eq_append]
      exact h.signatures.concat (notMem_of_lookup hnone)

theorem record_kept (p : Program) (q : Prelude) (r : Registry) (e : Event) :
    Below r (record p q r e) ∧ (Distinct r → Distinct (record p q r e)) := by
  have request : ∀ {α} (x : Request α), Below r (x.run p r).2 ∧
      (Distinct r → (x.run p r).2.Distinct) := fun x =>
    ⟨(request_kept x r).1, (request_kept x r).2.2⟩
  cases e with
  | tag ty => exact request (.tag ty)
  | field i => exact request (.field i)
  | signature i => exact signature_kept
  | label m n => exact request (.label m n)
  | global x =>
    exact ⟨{ Below.refl r with globals := List.subset_append_left _ _ }, fun h => { h with }⟩
  | diagnostic d => exact request (.diagnose d)
  | log record => exact request (.log record)

theorem replay_below : Below r (replay p q r j) := by
  induction j generalizing r with
  | nil => exact .refl r
  | cons e j ih => exact (record_kept p q r e).1.trans ih

theorem Coherent.tag_eq {r : Registry} (h : r.Coherent p q) (hx : (ty, x) ∈ r.tagTable) :
    p.tag ty = .ok x := mapError_eq_ok.1 (h.tags ty x hx)

theorem Coherent.fieldIdent_eq {r : Registry} (h : r.Coherent p q) (hx : (i, x) ∈ r.fieldTable) :
    p.fieldIdent i = .ok x := h.fields i x hx

theorem Coherent.mem_tagTable {r : Registry} (h : r.Coherent p q) :
    (ty, x) ∈ r.tagTable ↔ ty ∈ r.tags ∧ p.tag ty = .ok x := by
  constructor
  · exact fun hx => ⟨List.mem_map.2 ⟨_, hx, rfl⟩, h.tag_eq hx⟩
  · rintro ⟨hty, hx⟩
    obtain ⟨⟨_, y⟩, hy, rfl⟩ := List.mem_map.1 hty
    cases hx.symm.trans (h.tag_eq hy)
    exact hy

theorem Coherent.mem_fieldTable {r : Registry} (h : r.Coherent p q) :
    (i, x) ∈ r.fieldTable ↔ i ∈ r.fields ∧ p.fieldIdent i = .ok x := by
  constructor
  · exact fun hx => ⟨List.mem_map.2 ⟨_, hx, rfl⟩, h.fieldIdent_eq hx⟩
  · rintro ⟨hi, hx⟩
    obtain ⟨⟨_, y⟩, hy, rfl⟩ := List.mem_map.1 hi
    cases hx.symm.trans (h.fieldIdent_eq hy)
    exact hy

theorem mem_signatures {r : Registry} (h : (i, sig) ∈ r.signatureTable) : sig ∈ r.signatures :=
  List.mem_map.2 ⟨(i, sig), h, rfl⟩

theorem Coherent.method_eq {r : Registry} (h : r.Coherent p q) (hmem : (i, sig) ∈ r.signatureTable) :
    sig.method = i := (Signature.build_gives (Trace.gives_of_result (h.build i sig hmem))).method_eq

theorem Coherent.map_method {r : Registry} (h : r.Coherent p q) :
    r.signatures.map Signature.method = r.signatureTable.map Prod.fst := by
  rw [Registry.signatures, List.map_map]
  exact List.map_congr_left fun entry hmem => h.method_eq hmem

theorem Coherent.sound {r : Registry} (h : r.Coherent p q) (hsig : sig ∈ r.signatures) :
    (Signature.build p q sig.method).result = .ok sig := by
  obtain ⟨⟨i, _⟩, hmem, rfl⟩ := List.mem_map.1 hsig
  rw [h.method_eq hmem]
  exact h.build i _ hmem

/-- A signature that has been asked for is there, if the method has one. -/
theorem mem_signature {r : Registry} (h : r.Coherent p q)
    (hb : (Signature.build p q i).result = .ok sig) :
    (i, sig) ∈ (r.signature p q i).2.signatureTable := by
  rw [signature_snd h]
  split
  · rename_i found hf
    have hmem := mem_of_lookup hf
    cases hb.symm.trans (h.build i found hmem)
    exact hmem
  · dsimp only
    rw [hb]
    exact List.mem_append_right _ List.mem_cons_self

theorem has_record {r : Registry} (h : r.Coherent p q) : Has p q (record p q r e) e := by
  cases e with
  | tag ty => exact fun x hx => mem_fetch h.tags (by rw [hx]; rfl)
  | field i => exact fun x hx => mem_fetch h.fields hx
  | signature i => exact fun sig hs => mem_signature h hs
  | global x => exact List.mem_append_right _ List.mem_cons_self
  | label | diagnostic | log => trivial

theorem has_replay {r : Registry} (h : r.Coherent p q) (he : e ∈ j) : Has p q (replay p q r j) e := by
  induction j generalizing r with
  | nil => cases he
  | cons e' j ih =>
    obtain rfl | he := List.mem_cons.1 he
    · exact (has_record h).mono replay_below
    · exact ih (h.record e') he

end Registry

namespace Session

theorem Reachable.distinct (h : Reachable p q o s) : s.registry.Distinct := by
  have hreplay : ∀ (j : List Event) (r : Registry), r.Distinct → (r.replay p q j).Distinct := by
    intro j
    induction j with
    | nil => exact fun r hr => hr
    | cons e j ih => exact fun r hr => ih _ ((Registry.record_kept p q r e).2 hr)
  induction h with
  | start => exact ⟨.nil, .nil, .nil⟩
  | step h hs ih =>
    obtain ⟨rfl, rfl, -⟩ := h.setting
    obtain ⟨j, rfl⟩ := hs.extends.journal
    exact hreplay j _ ih

end Session

end Verilower
