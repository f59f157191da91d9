import Mathlib.Data.List.Nodup
import Mathlib.Data.List.TakeWhile
import Verilower.Proofs.Naming

namespace Verilower
set_option autoImplicit true

open Spelling

/-- The search for a name that is not in use: as long as `name` is, the next one to try is the base
with the number behind a dollar sign, and the number goes up. -/
inductive Renames (base : String) (used : List String) : String → Nat → String → Prop
  | free (h : name ∉ used) : Renames base used name number name
  | taken (h : name ∈ used)
      (hnext : Renames base used (base ++ "$" ++ toString number) (number + 1) result) :
      Renames base used name number result

theorem Renames.notMem (h : Renames base used name number result) : result ∉ used := by
  induction h with
  | free h => exact h
  | taken _ _ ih => exact ih

theorem Renames.congr (h : Renames base used name number result)
    (hused : ∀ n, n ∈ used ↔ n ∈ used') : Renames base used' name number result := by
  induction h with
  | free h => exact .free (mt (hused _).2 h)
  | taken h _ ih => exact .taken ((hused _).1 h) ih

theorem Renames.cases (h : Renames base used name number result) :
    result = name ∨ ∃ n : Nat, result = base ++ "$" ++ toString n := by
  induction h with
  | free => exact .inl rfl
  | taken _ _ ih =>
    obtain rfl | hnumber := ih
    · exact .inr ⟨_, rfl⟩
    · exact .inr hnumber

def numberedNames (base : String) (first count : Nat) : List String :=
  (List.range' first count).map fun n => base ++ "$" ++ toString n

theorem numberedNames_nodup : (numberedNames base first count).Nodup :=
  (List.nodup_range' 1).map fun _ _ h => toString_injective ((String.append_right_inj _).1 h)

theorem exists_notMem_numberedNames (base : String) (first : Nat) (used : List String) :
    ∃ name ∈ numberedNames base first (used.length + 1), name ∉ used := by
  by_contra hall
  push Not at hall
  have hle := numberedNames_nodup.length_le_of_subset (List.subset_def.2 fun {a} => hall a)
  rw [numberedNames, List.length_map, List.length_range'] at hle
  omega

/-- The search tries the numbered names in order. -/
theorem renames_of_find? (h : (numberedNames base first count).find? (!used.contains ·) = some name) :
    Renames base used (base ++ "$" ++ toString first) (first + 1) name := by
  induction count generalizing first with
  | zero => cases h
  | succ count ih =>
    rw [numberedNames, List.range'_succ, List.map_cons, List.find?_cons] at h
    split at h
    · rename_i hfree
      cases h
      exact .free (by simpa using hfree)
    · rename_i htaken
      exact .taken (by simpa using htaken) (ih h)

theorem renames_freshName (base : String) (index : Nat) (used : List String) :
    Renames base used base index (freshName base index used) := by
  have hcandidates : (List.range (used.length + 1)).map (fun i => base ++ "$" ++ toString (index + i)) =
      numberedNames base index (used.length + 1) := by
    rw [numberedNames, List.range'_eq_map_range, List.map_map]
    rfl
  unfold freshName
  split
  · rename_i hused
    dsimp only
    rw [hcandidates]
    cases hfind : (numberedNames base index (used.length + 1)).find? (!used.contains ·) with
    | none =>
      obtain ⟨name, hmem, hfree⟩ := exists_notMem_numberedNames base index used
      exact absurd hfree (by simpa using List.find?_eq_none.1 hfind name hmem)
    | some name => exact .taken (List.contains_iff_mem.1 hused) (renames_of_find? hfind)
  · rename_i hfree
    exact .free fun hused => hfree (List.contains_iff_mem.2 hused)

theorem freshName_notMem : freshName base index used ∉ used := (renames_freshName ..).notMem

theorem freshName_append (base : String) (index : Nat) (used : List String) :
    ∃ rest, (freshName base index used).toList = base.toList ++ rest ∧
      ∀ c ∈ rest, isIdentChar c = true := by
  obtain h | ⟨n, h⟩ := (renames_freshName base index used).cases
  · exact ⟨[], by rw [h, List.append_nil], by simp⟩
  · refine ⟨("$" ++ toString n).toList, by rw [h, String.append_assoc, String.toList_append], ?_⟩
    intro c hc
    rw [String.toList_append, List.mem_append, Nat.toString_eq_repr, Nat.toList_repr] at hc
    obtain hc | hc := hc
    · rw [List.mem_singleton.1 hc]
      decide
    · have hdigit := Nat.isDigit_of_mem_toDigits (Nat.succ_pos 9) le_rfl hc
      simp [isIdentChar, Char.isAlphanum, hdigit]

theorem clean_isIdentChar (c : Char) : isIdentChar (clean c) = true := by
  unfold clean
  split
  · assumption
  · decide

theorem clean_isDigit (c : Char) : (clean c).isDigit = c.isDigit := by
  unfold clean
  split
  · rfl
  · rename_i hc
    have hdigit : c.isDigit = false := by
      by_contra h
      simp [isIdentChar, Char.isAlphanum, h] at hc
    rw [hdigit]
    decide

theorem dropWhile_sanitize (source : String) : (sanitize source).toList.dropWhile (· = '$') =
    (source.toList.dropWhile (· = '$')).map clean := by
  have hsame : ((fun c : Char => decide (c = '$')) ∘ clean) = fun c => decide (c = '$') := by
    funext c
    simp [clean_eq_iff (d := '$') (by decide) (by decide)]
  rw [sanitize_toList, List.dropWhile_map, hsame]

theorem slotBase_isIdentChar : ∀ c ∈ (slotBase source).toList, isIdentChar c = true := by
  have hdefault : "local".toList.all isIdentChar = true := by decide
  unfold slotBase
  split
  · exact List.all_eq_true.1 hdefault
  · rw [String.toList_ofList, dropWhile_sanitize]
    intro c hc
    obtain ⟨d, -, rfl⟩ := List.mem_map.1 hc
    exact clean_isIdentChar d

theorem slotBase_head? (source : String) : (slotBase source).toList.head? =
    some ((source.toList.find? (· ≠ '$')).elim 'l' clean) := by
  have hfind : source.toList.find? (· ≠ '$') = (source.toList.dropWhile (· = '$')).head? := by
    rw [List.find?_eq_head?_dropWhile_not]
    simp
  rw [hfind]
  unfold slotBase
  rw [dropWhile_sanitize]
  cases source.toList.dropWhile (· = '$') with
  | nil => decide
  | cons c cs => simp

theorem slotBase_head (source : String) : ∃ c cs, (slotBase source).toList = c :: cs ∧ c ≠ '$' := by
  obtain ⟨cs, hcs⟩ := List.head?_eq_some_iff.1 (slotBase_head? source)
  refine ⟨_, cs, hcs, ?_⟩
  cases hfind : source.toList.find? (· ≠ '$') with
  | none => decide
  | some c =>
    have hc := List.find?_some hfind
    rw [Option.elim_some, Ne, clean_eq_iff (by decide) (by decide)]
    simpa using hc

/-- A name that the target language takes. -/
structure Ivl.IsIdentifier (name : String) : Prop where
  nonempty : name ≠ ""
  chars : ∀ c ∈ name.toList, isIdentChar c = true
  start : ∀ c, name.toList.head? = some c → c.isDigit = false

theorem freshName_head? (index : Nat) (used : List String) :
    (freshName (slotBase source) index used).toList.head? = (slotBase source).toList.head? := by
  obtain ⟨c, cs, hc, -⟩ := slotBase_head source
  obtain ⟨rest, hrest, -⟩ := freshName_append (slotBase source) index used
  rw [hrest, hc]
  rfl

/-- The name of a local is never empty and has only characters of identifiers. It is an identifier
exactly if no digit stands behind the leading dollar signs of the source. -/
theorem localName_isIdentifier_iff (source : String) (index : Nat) (used : List String) :
    freshName (slotBase source) index used ≠ "" ∧
      (∀ c ∈ (freshName (slotBase source) index used).toList, isIdentChar c = true) ∧
      (Ivl.IsIdentifier (freshName (slotBase source) index used) ↔
        ∀ c, source.toList.find? (· ≠ '$') = some c → c.isDigit = false) := by
  have hhead := (freshName_head? index used).trans (slotBase_head? source)
  have hnonempty : freshName (slotBase source) index used ≠ "" := by
    intro h
    rw [h] at hhead
    cases hhead
  have hchars : ∀ c ∈ (freshName (slotBase source) index used).toList, isIdentChar c = true := by
    obtain ⟨rest, hrest, hident⟩ := freshName_append (slotBase source) index used
    intro c hc
    rw [hrest, List.mem_append] at hc
    exact hc.elim (slotBase_isIdentChar c) (hident c)
  refine ⟨hnonempty, hchars, ?_, ?_⟩
  · intro h c hc
    have hstart := h.start _ hhead
    rwa [hc, Option.elim_some, clean_isDigit] at hstart
  · refine fun h => ⟨hnonempty, hchars, fun c hc => ?_⟩
    rw [hhead] at hc
    cases hc
    cases hfind : source.toList.find? (· ≠ '$') with
    | none => decide
    | some c => exact (clean_isDigit c).trans (h c hfind)

theorem localName_isIdentifier_iff_price :
    freshName (slotBase "$$price") 3 ["price", "price$3"] = "price$4" ∧
      Ivl.IsIdentifier (freshName (slotBase "$$price") 3 ["price", "price$3"]) := by
  have hfirst : "$$price".toList.find? (· ≠ '$') = some 'p' := by decide
  refine ⟨by decide +kernel, (localName_isIdentifier_iff _ _ _).2.2.2 fun c hc => ?_⟩
  cases hfirst.symm.trans hc
  decide

/-- A local `$1` is left with its digit. -/
theorem dollarDigit_not_isIdentifier :
    freshName (slotBase "$1") 0 [] = "1" ∧ ¬ Ivl.IsIdentifier (freshName (slotBase "$1") 0 []) := by
  have hname : freshName (slotBase "$1") 0 [] = "1" := by decide +kernel
  refine ⟨hname, fun h => ?_⟩
  rw [hname] at h
  exact absurd (h.start '1' (by decide)) (by decide)

theorem slotNames_length : (slotNames index used sources).length = sources.length := by
  induction sources generalizing index used with
  | nil => rfl
  | cons source sources ih => exact congrArg (· + 1) ih

theorem notMem_of_mem_slotNames (h : name ∈ slotNames index used sources) : name ∉ used := by
  induction sources generalizing index used with
  | nil => cases h
  | cons source sources ih =>
    obtain rfl | h := List.mem_cons.1 h
    · exact freshName_notMem
    · exact fun hused => ih h (List.mem_cons_of_mem _ hused)

theorem slotNames_nodup : (slotNames index used sources).Nodup := by
  induction sources generalizing index used with
  | nil => exact .nil
  | cons source sources ih =>
    exact List.nodup_cons.2 ⟨fun h => notMem_of_mem_slotNames h List.mem_cons_self, ih⟩

/-- Every local gets the name with which its search among the names before it ends. -/
theorem slotNames_renames {sources : List String} {i : Nat} (h : sources[i]? = some source) :
    ∃ name, (slotNames index used sources)[i]? = some name ∧
      Renames (slotBase source) ((slotNames index used sources).take i ++ used)
        (slotBase source) (index + i) name := by
  induction sources generalizing index used i with
  | nil => cases h
  | cons first sources ih =>
    cases i with
    | zero =>
      cases h
      exact ⟨_, rfl, renames_freshName ..⟩
    | succ i =>
      obtain ⟨name, hname, hrenames⟩ :=
        @ih (index + 1) (freshName (slotBase first) index used :: used) i h
      rw [Nat.add_right_comm] at hrenames
      refine ⟨name, hname, hrenames.congr fun n => ?_⟩
      simp [slotNames, or_left_comm]

theorem slotNames_head : ∀ {sources : List String} {index : Nat} {used : List String},
    ∀ name ∈ slotNames index used sources, ∃ c cs, name.toList = c :: cs ∧ c ≠ '$'
  | [], _, _, _, h => nomatch h
  | source :: sources, index, used, name, h => by
    obtain rfl | h := List.mem_cons.1 h
    · obtain ⟨c, cs, hc, hne⟩ := slotBase_head source
      obtain ⟨rest, hr, -⟩ := freshName_append (slotBase source) index used
      exact ⟨c, cs ++ rest, by rw [hr, hc, List.cons_append], hne⟩
    · exact slotNames_head name h

end Verilower
