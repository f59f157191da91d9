import Verilower.Ivl.Stmt

namespace Verilower
set_option autoImplicit true

namespace Text

theorem splitOn_cons (sep c : Char) (cs : List Char) : splitOn sep (c :: cs) =
    if c = sep then [] :: splitOn sep cs else (splitOn sep cs).modifyHead (c :: ·) := by
  obtain ⟨piece, pieces, h⟩ := List.exists_cons_of_ne_nil (splitOn_ne_nil sep cs)
  simp [splitOn, h]

theorem splitOn_eq (sep : Char) (cs : List Char) : splitOn sep cs = cs.splitOn sep := by
  induction cs with
  | nil => rfl
  | cons c cs ih =>
    rw [splitOn_cons, ih, List.splitOn, List.splitOn, List.splitOnP_cons_eq_if_modifyHead]
    simp

theorem notMem_of_mem_splitOn (h : piece ∈ splitOn sep cs) : sep ∉ piece := by
  induction cs generalizing piece with
  | nil => simp_all [splitOn]
  | cons c cs ih =>
    obtain ⟨first, rest, hcs⟩ := List.exists_cons_of_ne_nil (splitOn_ne_nil sep cs)
    rw [splitOn_cons, hcs] at h
    rw [hcs] at ih
    split at h
    · obtain rfl | h := List.mem_cons.1 h
      · exact List.not_mem_nil
      · exact ih h
    · rename_i hc
      rw [List.modifyHead_cons] at h
      obtain rfl | h := List.mem_cons.1 h
      · rw [List.mem_cons, not_or]
        exact ⟨Ne.symm hc, ih List.mem_cons_self⟩
      · exact ih (List.mem_cons_of_mem _ h)

def Separate (ls : List String) : Prop := ∀ l ∈ ls, '\n' ∉ l.toList

theorem separate_lines (s : String) : Separate (lines s) := by
  intro l hl
  obtain ⟨piece, hp, rfl⟩ := List.mem_map.1 hl
  rw [String.toList_ofList]
  exact notMem_of_mem_splitOn hp

theorem lines_ne_nil (s : String) : lines s ≠ [] := by
  simp [lines, splitOn_ne_nil]

theorem toList_unlines (ls : List String) :
    (unlines ls).toList = ['\n'].intercalate (ls.map String.toList) := by
  simp [unlines]

theorem unlines_singleton (l : String) : unlines [l] = l := String.intercalate_singleton

theorem unlines_lines (s : String) : unlines (lines s) = s := by
  have hid : String.toList ∘ String.ofList = id := funext fun _ => String.toList_ofList
  rw [← String.toList_inj, toList_unlines, lines, List.map_map, hid, List.map_id, splitOn_eq,
    List.intercalate_splitOn]

theorem lines_unlines (h : Separate ls) (hne : ls ≠ []) : lines (unlines ls) = ls := by
  rw [lines, toList_unlines, splitOn_eq, List.splitOn_intercalate]
  · simp
  · intro cs hcs
    obtain ⟨l, hl, rfl⟩ := List.mem_map.1 hcs
    exact h l hl
  · simpa using hne

/-- The lines are those of the texts, one text after the other. -/
inductive Joins : List String → List String → Prop
  | nil : Joins [] []
  | cons (h : ls ≠ []) (rest : Joins texts ms) : Joins (unlines ls :: texts) (ls ++ ms)

theorem Joins.single (h : ls ≠ []) : Joins [unlines ls] ls := by
  have hjoin := Joins.cons h .nil
  rwa [List.append_nil] at hjoin

theorem Joins.text (s : String) : Joins [s] (lines s) := by
  have hjoin := Joins.single (lines_ne_nil s)
  rwa [unlines_lines] at hjoin

theorem Joins.append (h : Joins ts ls) (h' : Joins us ms) : Joins (ts ++ us) (ls ++ ms) := by
  induction h with
  | nil => exact h'
  | cons hne _ ih =>
    rw [List.cons_append, List.append_assoc]
    exact .cons hne ih

theorem Joins.unlines_eq (h : Joins ts ls) : unlines ts = unlines ls := by
  induction h with
  | nil => rfl
  | @cons ls texts ms hne rest ih =>
    cases rest with
    | nil => rw [List.append_nil, unlines_singleton]
    | @cons ls' texts' ms' hne' _ =>
      have hms : ls' ++ ms' ≠ [] := List.append_ne_nil_of_left_ne_nil hne' ms'
      calc unlines (unlines ls :: unlines ls' :: texts')
        _ = unlines ls ++ "\n" ++ unlines (unlines ls' :: texts') :=
          String.intercalate_cons_of_ne_nil (List.cons_ne_nil _ _)
        _ = unlines ls ++ "\n" ++ unlines (ls' ++ ms') := by rw [ih]
        _ = unlines (ls ++ (ls' ++ ms')) :=
          (String.intercalate_append_of_ne_nil hne hms).symm

/-- A line moved right by a number of blanks; an empty line stays empty. -/
def shift (blanks : Nat) (line : String) : String :=
  if line = "" then "" else String.ofList (List.replicate blanks ' ') ++ line

theorem indentLine_eq_shift (depth : Nat) : indentLine depth = shift (4 * depth) := by
  funext line
  simp [indentLine, shift, margin, String.isEmpty_iff]

theorem shift_zero : shift 0 = id := by
  funext line
  by_cases h : line = "" <;> simp [shift, h]

theorem shift_shift (m n : Nat) : shift m ∘ shift n = shift (m + n) := by
  funext line
  by_cases h : line = ""
  · simp [shift, h]
  · have hne : String.ofList (List.replicate n ' ') ++ line ≠ "" := by simp [h]
    rw [Function.comp, shift, shift, shift, if_neg h, if_neg hne, if_neg h, ← String.append_assoc,
      ← String.ofList_append, List.replicate_append_replicate]

theorem Separate.shift (h : Separate ls) : Separate (ls.map (shift n)) := by
  intro l hl
  obtain ⟨line, hline, rfl⟩ := List.mem_map.1 hl
  unfold Text.shift
  split
  · simp
  · simpa using h line hline

def inset (blanks : Nat) (text : String) : String := unlines ((lines text).map (shift blanks))

end Text

namespace Ivl

open Text (Separate)

/-- An action of a writer puts the lines after those that are there, with the margin of the depth,
and comes back to the depth. -/
structure Writer.Writes (act : Writer → Writer) (ls : List String) : Prop where
  effect : ∀ w, act w = ⟨w.lines ++ (ls.map (Text.shift (4 * w.depth))).toArray, w.depth⟩
  separate : Separate ls

namespace Writer.Writes

theorem congr (h : Writes f ls) (hfg : ∀ w, g w = f w) : Writes g ls :=
  ⟨fun w => (hfg w).trans (h.effect w), h.separate⟩

theorem idle : Writes (fun w => w) [] := ⟨fun w => by simp, nofun⟩

theorem line (text : String) : Writes (fun w => w.line text) (Text.lines text) := by
  refine ⟨fun w => ?_, Text.separate_lines text⟩
  rw [Writer.line, Text.indentLine_eq_shift]

theorem comp (hf : Writes f ls) (hg : Writes g ms) : Writes (fun w => g (f w)) (ls ++ ms) := by
  constructor
  · intro w
    rw [hg.effect, hf.effect]
    simp
  · intro l hl
    exact (List.mem_append.1 hl).elim (hf.separate l) (hg.separate l)

theorem block (hf : Writes f ls) :
    Writes (fun w => (f w.indent).dedent) (ls.map (Text.shift 4)) := by
  constructor
  · intro w
    rw [hf.effect, List.map_map, Text.shift_shift]
    rfl
  · exact hf.separate.shift

theorem skipIf (skip : Bool) (h : Writes f ls) :
    Writes (fun w => if skip then w else f w) (if skip then [] else ls) := by
  cases skip with
  | true => exact idle
  | false => exact h

end Writer.Writes

open Writer (Writes)

def Stmt.header (condition : Expr) : String := "if (" ++ condition.renderTop ++ ") \x7b"

theorem Stmt.writes_ite (ha : Writes (Stmt.writeAll a) ls) (hb : Writes (Stmt.writeAll b) ms) :
    Writes (Stmt.ite c a b).write (Text.lines (Stmt.header c) ++ ls.map (Text.shift 4) ++
      (if b.isEmpty then [] else "\x7d else \x7b" :: ms.map (Text.shift 4)) ++ ["\x7d"]) := by
  have hopen := (Writes.line (Stmt.header c)).comp ha.block
  have helse := ((Writes.line "\x7d else \x7b").comp hb.block).skipIf b.isEmpty
  apply ((hopen.comp helse).comp (Writes.line "\x7d")).congr
  intro w
  rw [Stmt.write]
  rfl

mutual

theorem Stmt.writes : ∀ s : Stmt, ∃ ls, Writes s.write ls ∧ ls ≠ []
  | .ite c a b => by
    obtain ⟨ls, ha, -⟩ := Stmt.writes_all a
    obtain ⟨ms, hb, -⟩ := Stmt.writes_all b
    exact ⟨_, Stmt.writes_ite ha hb, by simp⟩
  | .call procedure args outs => by
    cases outs with
    | nil => exact ⟨_, Writes.line _, Text.lines_ne_nil _⟩
    | cons x xs => exact ⟨_, Writes.line _, Text.lines_ne_nil _⟩
  | .assign .. | .assert _ | .assume _ | .havoc _ | .label _ | .goto _ | .ret =>
    ⟨_, Writes.line _, Text.lines_ne_nil _⟩

theorem Stmt.writes_all : ∀ ss : List Stmt,
    ∃ ls, Writes (Stmt.writeAll ss) ls ∧ (ls = [] ↔ ss = [])
  | [] => ⟨[], Writes.idle, by simp⟩
  | s :: rest => by
    obtain ⟨ls, hs, hne⟩ := s.writes
    obtain ⟨ms, hrest, -⟩ := Stmt.writes_all rest
    exact ⟨ls ++ ms, hs.comp hrest, by simp [hne]⟩

end

theorem Stmt.renderAll_eq (h : Writes (Stmt.writeAll ss) ls) :
    Stmt.renderAll ss = Text.unlines ls := by
  rw [Stmt.renderAll, h.effect]
  simp [Writer.finish, Text.shift_zero]

theorem Stmt.render_eq {s : Stmt} (h : Writes s.write ls) : s.render = Text.unlines ls :=
  Stmt.renderAll_eq (h.congr fun _ => rfl)

/-- The text of a branch, four blanks to the right, if there is any. -/
def Stmt.inset (body : List Stmt) : List String :=
  if body.isEmpty then [] else [Text.inset 4 (Stmt.renderAll body)]

theorem Stmt.joins_inset (h : Writes (Stmt.writeAll body) ls) (hne : ls = [] ↔ body = []) :
    Text.Joins (Stmt.inset body) (ls.map (Text.shift 4)) := by
  cases body with
  | nil =>
    rw [hne.2 rfl]
    exact .nil
  | cons s rest =>
    have hls : ls ≠ [] := by simp [hne]
    have htext : Stmt.inset (s :: rest) = [Text.unlines (ls.map (Text.shift 4))] := by
      simp [Stmt.inset, Text.inset, Stmt.renderAll_eq h, Text.lines_unlines h.separate hls]
    rw [htext]
    exact .single (by simpa using hls)

theorem Stmt.render_ite (c : Expr) (a b : List Stmt) : (Stmt.ite c a b).render =
    Text.unlines ([Stmt.header c] ++ Stmt.inset a ++
      (if b.isEmpty then [] else "\x7d else \x7b" :: Stmt.inset b) ++ ["\x7d"]) := by
  obtain ⟨ls, ha, hls⟩ := Stmt.writes_all a
  obtain ⟨ms, hb, hms⟩ := Stmt.writes_all b
  have helse : Text.Joins (if b.isEmpty then [] else "\x7d else \x7b" :: Stmt.inset b)
      (if b.isEmpty then [] else "\x7d else \x7b" :: ms.map (Text.shift 4)) := by
    split
    · exact .nil
    · exact (Text.Joins.text "\x7d else \x7b").append (Stmt.joins_inset hb hms)
  have hopen := (Text.Joins.text (Stmt.header c)).append (Stmt.joins_inset ha hls)
  have hjoins := (hopen.append helse).append (Text.Joins.text "\x7d")
  rw [Stmt.render_eq (Stmt.writes_ite ha hb)]
  exact hjoins.unlines_eq.symm

/-- Writing keeps the depth and adds the lines of depth zero with the margin of the depth. So the
text of a conditional is its header, its branches moved right, and the braces around them. -/
theorem Stmt.write_compositional :
    (∀ s : Stmt, ∃ ls : Array String, s.render = Text.unlines ls.toList ∧
      (∀ l ∈ ls, '\n' ∉ l.toList) ∧ ∀ w : Writer,
        (s.write w).depth = w.depth ∧
        (s.write { w with depth := 0 }).lines = w.lines ++ ls ∧
        (s.write w).lines = w.lines ++ ls.map (Text.shift (4 * w.depth))) ∧
    ∀ (c : Expr) (a b : List Stmt), (Stmt.ite c a b).render =
      Text.unlines (["if (" ++ c.renderTop ++ ") \x7b"] ++ Stmt.inset a ++
        (if b.isEmpty then [] else "\x7d else \x7b" :: Stmt.inset b) ++ ["\x7d"]) := by
  constructor
  · intro s
    obtain ⟨ls, h, -⟩ := s.writes
    refine ⟨ls.toArray, s.render_eq h, ?_, fun w => ⟨?_, ?_, ?_⟩⟩
    · exact fun l hl => h.separate l (List.mem_toArray.1 hl)
    · rw [h.effect]
    · rw [h.effect]
      simp [Text.shift_zero]
    · rw [h.effect]
      simp
  · exact Stmt.render_ite

end Ivl

end Verilower
