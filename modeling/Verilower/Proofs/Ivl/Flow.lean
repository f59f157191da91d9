import Verilower.Proofs.Framing
import Verilower.Proofs.Ivl.Semantics

namespace Verilower.Ivl
set_option autoImplicit true

theorem Path.mem_jumps (h : Path ss (.jump l)) : l ∈ jumps ss := by
  generalize he : Exit.jump l = e at h
  induction h with
  | nil | ret => cases he
  | simple hs _ ih =>
    rw [jumps_simple hs]
    exact ih he
  | label _ ih =>
    rw [jumps_label]
    exact ih he
  | goto hl =>
    cases he
    rw [jumps_goto]
    exact List.mem_append_left _ hl
  | thenBranch _ ih | elseBranch _ ih =>
    have hl := ih he
    simp only [jumps_append, jumps_ite, List.mem_append] at hl ⊢
    tauto

namespace World

/-- The configurations of an execution of `code` from `σ₀`. A jump goes to any of its labels. -/
inductive Reaches (W : World) (code : List Stmt) (σ₀ : W.State) : W.State → List Stmt → Prop
  | start : Reaches W code σ₀ σ₀ code
  | step (h : Reaches W code σ₀ σ ss) (hs : W.Step σ ss cs σ' ss') : Reaches W code σ₀ σ' ss'
  | jump (h : Reaches W code σ₀ σ (.goto ls :: ss)) (hl : l ∈ ls)
      (hc : code = front ++ .label l :: back) : Reaches W code σ₀ σ (.label l :: back)

/-- The segments that an execution from `σ₀` enters, each with the state there. -/
inductive Enters (W : World) (prologue : List Stmt) (segments : List (List Stmt)) (σ₀ : W.State) :
    Nat → W.State → Prop
  | start (h : W.Exec σ₀ prologue cs σ []) : Enters W prologue segments σ₀ 0 σ
  | next (h : Enters W prologue segments σ₀ k σ) (hk : segments[k]? = some seg)
      (hs : W.Exec σ seg cs σ' []) : Enters W prologue segments σ₀ (k + 1) σ'
  | jump (h : Enters W prologue segments σ₀ k σ) (hk : segments[k]? = some seg)
      (hs : W.Exec σ seg cs σ' (.goto ls :: ss)) (hl : l ∈ ls)
      (hm : segments[m]? = some (.label l :: rest)) : Enters W prologue segments σ₀ m σ'

/-- A configuration in the prologue or in a segment that is entered. -/
inductive Inside (W : World) (prologue : List Stmt) (segments : List (List Stmt)) (σ₀ : W.State) :
    W.State → List Stmt → Prop
  | before (h : W.Exec σ₀ prologue cs σ cur) :
      Inside W prologue segments σ₀ σ (cur ++ segments.flatten)
  | within (h : Enters W prologue segments σ₀ k τ) (hk : segments[k]? = some seg)
      (hs : W.Exec τ seg cs σ cur) :
      Inside W prologue segments σ₀ σ (cur ++ (segments.drop (k + 1)).flatten)

section

variable {W : World} {σ σ' : W.State}

theorem Step.path (h : W.Step σ ss cs σ' ss') (hp : Path ss' e) : Path ss e := by
  cases h with
  | assign | assert | assume | havoc | call => exact hp.simple rfl
  | label => exact hp.label
  | thenBranch => exact hp.thenBranch
  | elseBranch => exact hp.elseBranch

theorem Exec.path (h : W.Exec σ ss cs σ' ss') (hp : Path ss' e) : Path ss e := by
  induction h with
  | refl => exact hp
  | step hs _ ih => exact hs.path (ih hp)

/-- A step changes what it assigns and what callees may assign. -/
theorem Step.frame (h : W.Step σ ss cs σ' ss') (hx : x ∉ targets ss)
    (hg : W.isGlobal x = false) : σ' x = σ x ∧ x ∉ targets ss' := by
  cases h with
  | assign =>
    rw [targets_flat rfl, Stmt.ownTargets, List.singleton_append, List.mem_cons, not_or] at hx
    exact ⟨if_neg hx.1, hx.2⟩
  | assert | assume | label =>
    rw [targets_flat rfl] at hx
    exact ⟨rfl, hx⟩
  | havoc h =>
    rw [targets_flat rfl, List.mem_append, not_or] at hx
    exact ⟨h x hx.1, hx.2⟩
  | call =>
    rw [targets_flat rfl, List.mem_append, not_or] at hx
    exact ⟨after_of_notMem hx.1 hg, hx.2⟩
  | thenBranch | elseBranch =>
    rw [targets, collect_ite] at hx
    simp only [List.mem_append, not_or] at hx
    rw [targets_append, List.mem_append, not_or]
    exact ⟨rfl, by tauto⟩

/-- Code that does not assign a local variable leaves it alone. -/
theorem Exec.frame (h : W.Exec σ ss cs σ' ss') (hx : x ∉ targets ss)
    (hg : W.isGlobal x = false) : σ' x = σ x := by
  induction h with
  | refl => rfl
  | step hs _ ih =>
    obtain ⟨heq, hx'⟩ := hs.frame hx hg
    exact (ih hx').trans heq

end

end World

/-- Labels stand only at the starts of the segments. -/
def LabelsLead (segments : List (List Stmt)) : Prop :=
  ∀ seg ∈ segments, ∀ before l after, seg = before ++ Stmt.label l :: after → before = []

theorem exists_of_flatten_eq {segments : List (List α)} {before after : List α}
    (h : segments.flatten = before ++ a :: after) :
    ∃ (k : Nat) (seg as bs : List α), segments[k]? = some seg ∧ seg = as ++ a :: bs ∧
      after = bs ++ (segments.drop (k + 1)).flatten := by
  induction segments generalizing before with
  | nil => simp at h
  | cons seg segments ih =>
    rw [List.flatten_cons, List.append_eq_append_iff] at h
    have later : ∀ before, segments.flatten = before ++ a :: after →
        ∃ (k : Nat) (seg' as bs : List α), (seg :: segments)[k]? = some seg' ∧
          seg' = as ++ a :: bs ∧ after = bs ++ ((seg :: segments).drop (k + 1)).flatten := by
      intro before h
      obtain ⟨k, seg', as, bs, hk, hseg, hafter⟩ := ih h
      exact ⟨k + 1, seg', as, bs, hk, hseg, hafter⟩
    obtain ⟨before', -, h⟩ | ⟨cs, hseg, h⟩ := h
    · exact later _ h
    · cases cs with
      | nil => exact later [] h.symm
      | cons c cs =>
        obtain ⟨rfl, rfl⟩ := List.cons.inj h
        exact ⟨0, seg, before, cs, rfl, hseg, rfl⟩

namespace World

variable {W : World} {σ σ' σ₀ : W.State} {segments : List (List Stmt)}

/-- What comes next stands in a segment that is entered, as empty segments are entered and left. -/
theorem Enters.reaches_next (h : W.Enters prologue segments σ₀ k σ)
    (hd : (segments.drop k).flatten = st :: rest) :
    ∃ m seg, W.Enters prologue segments σ₀ m σ ∧ segments[m]? = some (st :: seg) ∧
      rest = seg ++ (segments.drop (m + 1)).flatten := by
  induction hn : segments.length - k generalizing k with
  | zero =>
    rw [List.drop_eq_nil_of_le (by omega)] at hd
    cases hd
  | succ n ih =>
    have hlt : k < segments.length := by omega
    have hk := List.getElem?_eq_getElem hlt
    rw [List.drop_eq_getElem_cons hlt, List.flatten_cons] at hd
    generalize segments[k] = seg at hk hd
    cases seg with
    | nil => exact ih (h.next hk .refl) hd (by omega)
    | cons st' seg =>
      obtain ⟨rfl, rfl⟩ := List.cons.inj hd
      exact ⟨k, seg, h, hk, rfl⟩

/-- The next statement of a configuration is the next one of the prologue or of a segment. -/
theorem Inside.next (h : W.Inside prologue segments σ₀ σ (st :: rest)) :
    (∃ cs cur, W.Exec σ₀ prologue cs σ (st :: cur) ∧ rest = cur ++ segments.flatten) ∨
    ∃ k τ seg cs cur, W.Enters prologue segments σ₀ k τ ∧ segments[k]? = some seg ∧
      W.Exec τ seg cs σ (st :: cur) ∧ rest = cur ++ (segments.drop (k + 1)).flatten := by
  have entered : ∀ k, W.Enters prologue segments σ₀ k σ →
      (segments.drop k).flatten = st :: rest →
      ∃ k τ seg cs cur, W.Enters prologue segments σ₀ k τ ∧ segments[k]? = some seg ∧
        W.Exec τ seg cs σ (st :: cur) ∧ rest = cur ++ (segments.drop (k + 1)).flatten := by
    intro k hk hd
    obtain ⟨m, seg, hm, hseg, hrest⟩ := hk.reaches_next hd
    exact ⟨m, σ, _, [], seg, hm, hseg, .refl, hrest⟩
  generalize hss : st :: rest = ss at h
  cases h with
  | @before _ _ cur h =>
    cases cur with
    | nil => exact .inr (entered 0 (.start h) hss.symm)
    | cons st' cur =>
      obtain ⟨rfl, rfl⟩ := List.cons.inj hss
      exact .inl ⟨_, cur, h, rfl⟩
  | @within k τ seg cs _ cur h hk hs =>
    cases cur with
    | nil => exact .inr (entered (k + 1) (h.next hk hs) hss.symm)
    | cons st' cur =>
      obtain ⟨rfl, rfl⟩ := List.cons.inj hss
      exact .inr ⟨k, τ, seg, cs, cur, h, hk, hs, rfl⟩

/-- One step of the code is one step in the prologue or in a segment. -/
theorem Inside.step (h : W.Inside prologue segments σ₀ σ ss) (hs : W.Step σ ss cs σ' ss') :
    W.Inside prologue segments σ₀ σ' ss' := by
  cases ss with
  | nil => cases hs
  | cons st rest =>
    obtain ⟨_, cur, hexec, rfl⟩ | ⟨k, τ, seg, _, cur, hk, hseg, hexec, rfl⟩ := h.next
    · have hs' : W.Step σ (st :: cur ++ segments.flatten) cs σ' ss' := hs
      obtain ⟨cur', rfl, hcur⟩ := hs'.of_append
      exact .before (hexec.trans (.step hcur .refl))
    · have hs' : W.Step σ (st :: cur ++ (segments.drop (k + 1)).flatten) cs σ' ss' := hs
      obtain ⟨cur', rfl, hcur⟩ := hs'.of_append
      exact .within hk hseg (hexec.trans (.step hcur .refl))

theorem Inside.jump (h : W.Inside prologue segments σ₀ σ (.goto ls :: ss)) (hl : l ∈ ls)
    (hp : labels prologue = [] ∧ jumps prologue = []) (hlead : LabelsLead segments)
    (hc : prologue ++ segments.flatten = front ++ .label l :: back) :
    W.Inside prologue segments σ₀ σ (.label l :: back) := by
  obtain ⟨_, cur, hexec, -⟩ | ⟨k, τ, seg, _, cur, hk, hseg, hexec, -⟩ := h.next
  · have hmem := (hexec.path (.goto hl)).mem_jumps
    rw [hp.2] at hmem
    cases hmem
  have hlabel : ∀ as bs, prologue ≠ as ++ Stmt.label l :: bs := by
    rintro as bs rfl
    simp at hp
  have ⟨before', hflat⟩ : ∃ before', segments.flatten = before' ++ Stmt.label l :: back := by
    rcases List.append_eq_append_iff.1 hc with ⟨before', -, hflat⟩ | ⟨cs, rfl, hflat⟩
    · exact ⟨before', hflat⟩
    · cases cs with
      | nil => exact ⟨[], hflat.symm⟩
      | cons c cs =>
        obtain ⟨rfl, -⟩ := List.cons.inj hflat
        exact (hlabel _ _ rfl).elim
  obtain ⟨m, seg', as, bs, hm, rfl, rfl⟩ := exists_of_flatten_eq hflat
  obtain rfl := hlead _ (List.mem_of_getElem? hm) as l bs rfl
  exact .within (hk.jump hseg hexec hl hm) hm .refl

/-- Every configuration of an execution is in the prologue or in a segment that is entered. -/
theorem Reaches.inside (h : W.Reaches (prologue ++ segments.flatten) σ₀ σ ss)
    (hp : labels prologue = [] ∧ jumps prologue = []) (hlead : LabelsLead segments) :
    W.Inside prologue segments σ₀ σ ss := by
  induction h with
  | start => exact .before .refl
  | step _ hs ih => exact ih.step hs
  | jump _ hl hc ih => exact ih.jump hl hp hlead hc

end World

end Verilower.Ivl
