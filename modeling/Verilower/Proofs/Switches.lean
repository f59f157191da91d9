import Verilower.Proofs.CallSites
import Verilower.Proofs.Handlers
import Verilower.Proofs.Indexing

namespace Verilower
set_option autoImplicit true

open Ivl

/-- The target of the last case with the value, or else the other node. -/
def lastCase (cases : List (Int × Nat)) (other : Nat) (v : Int) : Nat :=
  (cases.reverse.lookup v).getD other

/-- The target at the position of the value in a table that begins at `first`, or else the other
node. -/
def tableEntry (first : Int) (table : List Nat) (other : Nat) (v : Int) : Nat :=
  if h : first ≤ v ∧ v < first + table.length then table[(v - first).toNat] else other

def tabulated (first : Int) (table : List Nat) : List (Int × Nat) :=
  table.zipIdx.map fun (target, offset) => (first + (offset : Int), target)

/-- A case stands behind all later ones, in front of the other node. -/
theorem lastCase_cons :
    lastCase ((k, n) :: cases) other v = lastCase cases (if v = k then n else other) v := by
  simp only [lastCase, List.reverse_cons, List.lookup_append]
  cases cases.reverse.lookup v with
  | some => rfl
  | none =>
    by_cases hv : v = k
    · simp [hv]
    · simp [List.lookup_cons, beq_false_of_ne hv, hv]

theorem lookup_reverse {cases : List (Int × Nat)} (h : (cases.map Prod.fst).Nodup) :
    cases.reverse.lookup v = cases.lookup v := by
  induction cases with
  | nil => rfl
  | cons c cases ih =>
    obtain ⟨k, n⟩ := c
    obtain ⟨hk, hnodup⟩ := List.nodup_cons.1 h
    rw [List.reverse_cons, List.lookup_append, ih hnodup]
    by_cases hv : v = k
    · subst hv
      have hnone : cases.lookup v = none := by
        refine List.lookup_eq_none_iff.2 fun p hp => bne_iff_ne.2 fun he => ?_
        exact hk (List.mem_map.2 ⟨p, hp, he.symm⟩)
      simp [hnone]
    · simp [List.lookup_cons, beq_false_of_ne hv]

theorem lastCase_of_nodup (h : (cases.map Prod.fst).Nodup) :
    lastCase cases other = fun v => (cases.lookup v).getD other :=
  funext fun v => by rw [lastCase, lookup_reverse h]

theorem nodup_tabulated : ((tabulated first table).map Prod.fst).Nodup := by
  have hfst : (tabulated first table).map Prod.fst =
      (table.zipIdx.map Prod.snd).map fun offset : Nat => first + (offset : Int) := by
    rw [tabulated, List.map_map, List.map_map]
    rfl
  have hinj : Function.Injective fun offset : Nat => first + (offset : Int) := by
    intro a b hab
    have hab : first + (a : Int) = first + (b : Int) := hab
    omega
  rw [hfst, List.zipIdx_map_snd]
  exact List.Nodup.map hinj List.nodup_range'

theorem lookup_zipIdx {table : List Nat} {k : Nat} :
    ((table.zipIdx k).map fun (t, i) => (first + (i : Int), t)).lookup v =
      if first + k ≤ v then table[(v - (first + k)).toNat]? else none := by
  induction table generalizing k with
  | nil => simp
  | cons t table ih =>
    rw [List.zipIdx_cons, List.map_cons, List.lookup_cons, ih]
    by_cases hv : v = first + k
    · simp [hv]
    · rw [beq_false_of_ne hv]
      by_cases hle : first + k ≤ v
      · have hnext : first + ((k + 1 : Nat) : Int) ≤ v := by omega
        have hpos : (v - (first + k)).toNat = (v - (first + ((k + 1 : Nat) : Int))).toNat + 1 := by
          omega
        rw [if_pos hle, if_pos hnext, hpos, List.getElem?_cons_succ]
      · have hnext : ¬ first + ((k + 1 : Nat) : Int) ≤ v := by omega
        rw [if_neg hle, if_neg hnext]

theorem lastCase_tabulated :
    lastCase (tabulated first table) other = tableEntry first table other := by
  funext v
  have hlookup : (tabulated first table).lookup v =
      if first ≤ v then table[(v - first).toNat]? else none := by
    simpa [tabulated] using lookup_zipIdx (k := 0)
  rw [lastCase_of_nodup nodup_tabulated]
  simp only [hlookup, tableEntry]
  by_cases hle : first ≤ v
  · by_cases hlt : v < first + table.length
    · have hin : (v - first).toNat < table.length := by omega
      simp [hle, hlt, hin]
    · have hout : table.length ≤ (v - first).toNat := by omega
      simp [hle, hlt, List.getElem?_eq_none hout]
  · simp [hle]

theorem mapM_eq_ok_iff {f : α → Except ε β} {c : α → Prop} {g : α → β} {xs : List α}
    {ys : List β} (hf : ∀ x ∈ xs, ∀ y, f x = .ok y ↔ c x ∧ y = g x) :
    xs.mapM f = .ok ys ↔ (∀ x ∈ xs, c x) ∧ ys = xs.map g := by
  induction xs generalizing ys with
  | nil => simp [Pure.pure, Except.pure, eq_comm]
  | cons x xs ih =>
    obtain ⟨hx, hxs⟩ := List.forall_mem_cons.1 hf
    simp only [List.mapM_cons, except_bind_eq_ok, hx, ih hxs]
    simp [Pure.pure, Except.pure, and_assoc, @eq_comm _ ys]

/-- A table whose offsets are numbers of 32 bits has a case for each of its positions, and it must
end within 32 bits. -/
theorem tableCases_eq_ok (hlength : table.length ≤ 2147483648) :
    tableCases first table = .ok cases ↔
      (table = [] ∨ first.toInt + ((table.length : Int) - 1) ≤ 2147483647) ∧
        cases = tabulated first.toInt table := by
  have hcase : ∀ p ∈ table.zipIdx, ∀ c : Int × Nat,
      (do return (← tableValue first p.2, p.1)) = Except.ok c ↔
        first.toInt + (p.2 : Int) ≤ 2147483647 ∧ c = (first.toInt + (p.2 : Int), p.1) := by
    rintro ⟨t, offset⟩ hmem c
    have hlt := (List.mem_zipIdx hmem).2.1
    simp only [except_bind_eq_ok, tableValue_of_lt (show offset < 2147483648 by omega)]
    by_cases hle : first.toInt + (offset : Int) ≤ 2147483647
    · simp [hle, Pure.pure, Except.pure, eq_comm]
    · simp [hle]
  refine (mapM_eq_ok_iff hcase).trans (and_congr_left fun _ => ?_)
  constructor
  · intro h
    refine or_iff_not_imp_left.2 fun hne => ?_
    have hpos := List.length_pos_iff.2 hne
    have hmem : (table[table.length - 1], table.length - 1) ∈ table.zipIdx := by
      simp [List.mem_zipIdx_iff_getElem?]
    have hlast := h _ hmem
    simp only at hlast
    omega
  · rintro h ⟨t, offset⟩ hmem
    have hlt := (List.mem_zipIdx hmem).2.1
    simp only
    obtain rfl | h := h
    · simp at hlt
    · omega

/-- The first offset that is no number of 32 bits becomes the least one, so that no table goes on
there unless it begins at zero. -/
theorem length_le_of_tableCases (h : tableCases first table = .ok cases)
    (hfits : first.toInt + ((table.length : Int) - 1) ≤ 2147483647) :
    table.length ≤ 2147483648 := by
  by_contra hlong
  have hlt : 2147483648 < table.length := Nat.lt_of_not_le hlong
  have hmem : (table[2147483648], 2147483648) ∈ table.zipIdx := by
    simp [List.mem_zipIdx_iff_getElem?]
  obtain ⟨c, hc⟩ := exists_of_mapM h hmem
  obtain ⟨v, hv, -⟩ := except_bind_eq_ok.1 hc
  have hwrap : (Int32.ofNat 2147483648).toInt = -2147483648 := by decide
  rw [tableValue, hwrap] at hv
  split at hv
  · omega
  · cases hv

namespace Lower

/-- Control goes where the innermost statement sends it unless a case around it has the value. -/
theorem selects_cascaded {W : World} {σ : W.State} {inner : Stmt} (hint : Function.Injective W.int)
    (hkey : key.eval W.toInterp σ = W.int v)
    (h : W.Selects σ [inner] F.body.method (some other)) :
    W.Selects σ [cascaded F key cases inner] F.body.method (some (lastCase cases other v)) := by
  induction cases generalizing inner other with
  | nil => exact h
  | cons c cases ih =>
    obtain ⟨k, n⟩ := c
    have hsat : W.Sat σ (.eq key (.int k)) ↔ v = k := by
      refine W.holds_eq.trans ?_
      rw [hkey]
      exact hint.eq_iff
    rw [cascaded, lastCase_cons]
    refine ih fun rest => ?_
    by_cases hv : v = k
    · rw [if_pos hv]
      exact ⟨_, .ite_of_sat (hsat.2 hv) .refl⟩
    · rw [if_neg hv]
      obtain ⟨ts, hts⟩ := h rest
      exact ⟨ts, .ite_of_not_sat (fun hs => hv (hsat.1 hs)) hts⟩

/-- Code that sends every value of a key to a node. The key is evaluated, and one statement goes by
its value. Code that can go to one node only need not evaluate the key. -/
inductive Chooses (F : Frame) (t : Scratch) (enc : Encoding) (key : Value) (choice : Int → Nat) :
    List Stmt → Prop
  | always (h : ∀ v, choice v = n) : Chooses F t enc key choice [jump F n]
  | byKey (hk : (value key).Gives F t ⟨e, t', code⟩ j) (hc : Converts e .int e')
      (hs : ∀ (W : World) (σ : W.State) v, Function.Injective W.int →
        e'.eval W.toInterp σ = W.int v → W.Selects σ [st] F.body.method (some (choice v))) :
      Chooses F t enc key choice (enc.encodeAll code ++ [st])

theorem switch_chooses (h : (switch n key cases other).Gives F t r j) (enc : Encoding) :
    Chooses F t enc key (lastCase cases other) (enc.encodeAll r.code) := by
  cases cases with
  | nil =>
    obtain ⟨rfl, -⟩ := gives_switch_nil.1 h
    rw [Encoding.encodeAll_plain]
    exact .always fun _ => rfl
  | cons c cases =>
    obtain ⟨e, t', code, j', e', hk, hc, rfl, -⟩ := gives_switch_cons.1 h
    rw [Encoding.encodeAll_append, Encoding.encodeAll_plain]
    refine .byKey hk hc fun W σ v hint hkey => ?_
    exact selects_cascaded hint hkey fun rest => ⟨rest, .refl⟩

theorem exists_switch (hk : (value key).Gives F t ⟨e, t', code⟩ j) (hc : Converts e .int e') :
    ∃ r j, (switch n key cases other).Gives F t r j := by
  cases cases with
  | nil => exact ⟨_, _, gives_switch_nil.2 ⟨rfl, rfl⟩⟩
  | cons c cases => exact ⟨_, _, gives_switch_cons.2 ⟨e, t', code, j, e', hk, hc, rfl, rfl⟩⟩

theorem gives_tableSwitch (hlength : table.length ≤ 2147483648) :
    (instr n (.tableSwitch key first table other)).Gives F t r j ↔
      (table = [] ∨ first.toInt + ((table.length : Int) - 1) ≤ 2147483647) ∧
        (switch n key (tabulated first.toInt table) other).Gives F t r j := by
  refine gives_promise_bind.trans ?_
  simp [tableCases_eq_ok hlength, and_assoc]

theorem tableSwitch_length_le (h : (instr n (.tableSwitch key first table other)).Gives F t r j)
    (hfits : first.toInt + ((table.length : Int) - 1) ≤ 2147483647) :
    table.length ≤ 2147483648 := by
  obtain ⟨cases, hcases, -⟩ := gives_promise_bind.1 h
  exact length_le_of_tableCases hcases hfits

end Lower

/-- Where control goes at the switches of a lowered body: to the last case with the value of the
key, which is the only one if the values are distinct, and in a table switch to the position of the
key. A switch is lowered whenever its key is, if its table ends within 32 bits and its offsets do. -/
theorem Session.lower_switches {s : Session} {body : Body} {i : Implementation}
    (h : (s.lower body).1 = .ok i) :
    ∃ low caller F enc, s.program.method? body.method = .ok caller ∧
      i = low.implementation s.options ∧ F = s.frame body caller low ∧
      enc = low.encoding s.options ∧
      (∀ (k : Nat) node, body.nodes[k]? = some node → ∃ t code,
        Lower.Reaches F s.registry.globals.length k t ∧
        low.segments[k]? = some (Lower.entryCode F k ++ code) ∧
        (∀ key cases other, node.instr = .lookupSwitch key cases other →
          Lower.Chooses F t enc key (lastCase cases other) (enc.encodeAll code) ∧
          ((cases.map Prod.fst).Nodup →
            Lower.Chooses F t enc key (fun v => (cases.lookup v).getD other)
              (enc.encodeAll code))) ∧
        ∀ key first table other, node.instr = .tableSwitch key first table other →
          table.length ≤ 2147483648 ∨
            first.toInt + ((table.length : Int) - 1) ≤ 2147483647 →
          Lower.Chooses F t enc key (tableEntry first.toInt table other) (enc.encodeAll code)) ∧
      ∀ F t n key other e t' code j e', (Lower.value key).Gives F t ⟨e, t', code⟩ j →
        Lower.Converts e .int e' →
        (∀ cases, ∃ r j, (Lower.instr n (.lookupSwitch key cases other)).Gives F t r j) ∧
        ∀ first table, table.length ≤ 2147483648 →
          first.toInt + ((table.length : Int) - 1) ≤ 2147483647 →
          ∃ r j, (Lower.instr n (.tableSwitch key first table other)).Gives F t r j := by
  obtain ⟨low, j, hlow, rfl, -⟩ := Session.lower_result h
  obtain ⟨caller, hcaller, hat⟩ := lowerBody_node hlow
  refine ⟨low, caller, _, _, hcaller, rfl, rfl, rfl, fun k node hnode => ?_, ?_⟩
  · obtain ⟨t, r, j', ht, hinstr, hseg, -⟩ := hat k node hnode
    refine ⟨t, r.code, ht, hseg, ?_, ?_⟩
    · intro key cases other hi
      rw [hi] at hinstr
      have hlast := Lower.switch_chooses hinstr (low.encoding s.options)
      exact ⟨hlast, fun hnodup => lastCase_of_nodup hnodup ▸ hlast⟩
    · intro key first table other hi hfits
      rw [hi] at hinstr
      have hlength := hfits.elim id (Lower.tableSwitch_length_le hinstr)
      rw [← lastCase_tabulated]
      exact Lower.switch_chooses ((Lower.gives_tableSwitch hlength).1 hinstr).2 _
  · intro F t n key other e t' code j e' hk hc
    refine ⟨fun cases => Lower.exists_switch hk hc, fun first table hlength hle => ?_⟩
    obtain ⟨r, j, hr⟩ : ∃ r j,
        (Lower.switch n key (tabulated first.toInt table) other).Gives F t r j :=
      Lower.exists_switch hk hc
    exact ⟨r, j, (Lower.gives_tableSwitch hlength).2 ⟨.inr hle, hr⟩⟩

/-- A program with one static method that takes a number. -/
def routing : Program := .declaring [
  .addClass "Router",
  .addMethod 3 { name := "route", params := [.int], isStatic := true }] (by decide +kernel)

/-- A switch with two cases for one value, and a table switch that begins below zero. -/
def routingBody : Body where
  method := 0
  slots := [⟨"x", .int⟩]
  nodes := [
    { instr := .identity 0 (.param 0) },
    { instr := .lookupSwitch (.slot 0) [(5, 2), (7, 3), (5, 4)] 3 },
    { instr := .tableSwitch (.slot 0) (-1) [3, 4] 1 },
    { instr := .retVoid },
    { instr := .goto 2 }]
  sound := by decide

def routingSession : Session := Session.start (.ofProgram routing) .standard {}

theorem lower_switches_routing :
    ∃ i F enc t₁ code₁ t₂ code₂, ∃ low : Lowered, (routingSession.lower routingBody).1 = .ok i ∧
      i = low.implementation routingSession.options ∧ F.body = routingBody ∧
      low.segments[1]? = some (Lower.entryCode F 1 ++ code₁) ∧
      Lower.Chooses F t₁ enc (.slot 0) (lastCase [(5, 2), (7, 3), (5, 4)] 3)
        (enc.encodeAll code₁) ∧
      low.segments[2]? = some (Lower.entryCode F 2 ++ code₂) ∧
      Lower.Chooses F t₂ enc (.slot 0) (tableEntry (-1) [3, 4] 1) (enc.encodeAll code₂) ∧
      lastCase [(5, 2), (7, 3), (5, 4)] 3 5 = 4 ∧ tableEntry (-1) [3, 4] 1 (-1) = 3 ∧
      Function.Injective walkWorld.int := by
  obtain ⟨i, hi⟩ := exists_of_isOk (x := (routingSession.lower routingBody).1) (by decide +kernel)
  obtain ⟨low, caller, F, enc, -, himpl, rfl, rfl, hat, -⟩ := Session.lower_switches hi
  obtain ⟨t₁, code₁, -, hseg₁, hlookup, -⟩ := hat 1 _ rfl
  obtain ⟨t₂, code₂, -, hseg₂, -, htable⟩ := hat 2 _ rfl
  exact ⟨i, _, _, t₁, code₁, t₂, code₂, low, hi, himpl, rfl, hseg₁, (hlookup _ _ _ rfl).1, hseg₂,
    htable _ _ _ _ rfl (.inl (by decide)), by decide, by decide, fun _ _ => Free.int.inj⟩

end Verilower
