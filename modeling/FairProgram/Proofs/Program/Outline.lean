import FairProgram.Program.Line
import Mathlib

/-!
# Reading indented text

A text is split into lines, each with the number of its leading tabs (`Line.split`), and lines nest
by these numbers: a line holds the deeper lines behind it (`Outline.read?`). Both undo what a printer
of lines does (`Line.split_join`, `Outline.read?_forestLines`).
-/

namespace FairProgram

-- ---------------------------------------------------------------------------
-- Lines
-- ---------------------------------------------------------------------------

namespace Line

/-- The line that a text without line feeds is: leading tabs and the rest. -/
def ofChars (chars : List Char) : Line :=
  ⟨(chars.takeWhile (· == '\t')).length, String.ofList (chars.dropWhile (· == '\t'))⟩

/-- The lines of a text, each ended by a line feed. -/
def split (text : String) : List Line :=
  (text.toList.splitOn '\n').dropLast.map ofChars

/-- A line that reads back as it is: its content has no line feed and does not start with a tab. -/
structure Plain (line : Line) : Prop where
  feed : '\n' ∉ line.content.toList
  tab : ∀ c ∈ line.content.toList.head?, c ≠ '\t'

theorem ofChars_append {indent : Nat} {chars : List Char} (h : ∀ c ∈ chars.head?, c ≠ '\t') :
    ofChars (List.replicate indent '\t' ++ chars) = ⟨indent, String.ofList chars⟩ := by
  have htabs : ∀ c ∈ List.replicate indent '\t', (c == '\t') = true := by simp
  have hstart : chars.takeWhile (· == '\t') = [] ∧ chars.dropWhile (· == '\t') = chars := by
    cases chars with
    | nil => simp
    | cons c rest => simp [h c rfl]
  simp [ofChars, List.takeWhile_append_of_pos htabs, List.dropWhile_append_of_pos htabs, hstart]

theorem split_append (first : List Char) (rest : String) :
    split (String.ofList first ++ "\n" ++ rest) =
      (first.splitOn '\n').map ofChars ++ split rest := by
  have hne : rest.toList.splitOn '\n' ≠ [] := by
    rw [List.splitOn_eq_splitOnP]
    exact List.splitOnP_ne_nil _ _
  have hsplit : (String.ofList first ++ "\n" ++ rest).toList.splitOn '\n' =
      first.splitOn '\n' ++ rest.toList.splitOn '\n' := by
    simp only [String.toList_append, String.toList_ofList, List.append_assoc,
      List.splitOn_eq_splitOnP]
    exact List.splitOnP_append_cons _ _ (by decide)
  rw [split, hsplit, List.dropLast_append_of_ne_nil hne, List.map_append, split]

theorem split_text {line : Line} (h : line.Plain) (rest : String) :
    split (line.text ++ rest) = line :: split rest := by
  have htext : line.text = String.ofList (List.replicate line.indent '\t' ++ line.content.toList) ++
      "\n" := by
    simp [text, String.ofList_append]
  have hfeed : ∀ c ∈ List.replicate line.indent '\t' ++ line.content.toList, (c == '\n') = false := by
    intro c hc
    rcases List.mem_append.mp hc with hc | hc
    · simp [List.eq_of_mem_replicate hc]
    · exact beq_eq_false_iff_ne.mpr fun hfeed => h.feed (hfeed ▸ hc)
  rw [htext, split_append, List.splitOn_eq_splitOnP, List.splitOnP_eq_singleton hfeed,
    List.map_singleton, ofChars_append h.tab]
  simp

theorem split_join {lines : List Line} (h : ∀ line ∈ lines, line.Plain) (rest : String) :
    split (join lines ++ rest) = lines ++ split rest := by
  induction lines with
  | nil => simp [join]
  | cons line lines ih =>
    obtain ⟨hline, hlines⟩ := List.forall_mem_cons.mp h
    have hjoin : join (line :: lines) ++ rest = line.text ++ (join lines ++ rest) := by
      simp [join, String.append_assoc]
    rw [hjoin, split_text hline, ih hlines, List.cons_append]

end Line

-- ---------------------------------------------------------------------------
-- Outlines
-- ---------------------------------------------------------------------------

/-- A line and the lines one deeper that it holds. -/
inductive Outline where
  | mk (content : String) (body : List Outline)

namespace Outline

/-- A line in front of outlines with their depths. It holds the deeper ones, all of which must be
exactly one deeper. -/
def holding? (line : Line) (ahead : List (Nat × Outline)) : Option (List (Nat × Outline)) :=
  let body := ahead.takeWhile fun next => line.indent < next.1
  let beside := ahead.dropWhile fun next => line.indent < next.1
  if body.all (·.1 == line.indent + 1) then
    some ((line.indent, mk line.content (body.map (·.2))) :: beside)
  else none

def gather? : List Line → Option (List (Nat × Outline))
  | [] => some []
  | line :: rest => (gather? rest).bind (holding? line)

/-- The outlines of lines that start at a depth. -/
def read? (depth : Nat) (lines : List Line) : Option (List Outline) := do
  let found ← gather? lines
  if found.all (·.1 == depth) then some (found.map (·.2)) else none

mutual
def lines (depth : Nat) : Outline → List Line
  | mk content body => ⟨depth, content⟩ :: forestLines (depth + 1) body
def forestLines (depth : Nat) : List Outline → List Line
  | [] => []
  | outline :: rest => outline.lines depth ++ forestLines depth rest
end

theorem forestLines_append (depth : Nat) (first second : List Outline) :
    forestLines depth (first ++ second) = forestLines depth first ++ forestLines depth second := by
  induction first with
  | nil => rfl
  | cons outline rest ih => simp [forestLines, ih]

mutual
theorem gather?_lines {depth : Nat} {rest : List Line} {ahead : List (Nat × Outline)}
    (h : gather? rest = some ahead) (hd : ∀ next ∈ ahead.head?, next.1 ≤ depth) :
    (outline : Outline) →
      gather? (outline.lines depth ++ rest) = some ((depth, outline) :: ahead)
  | mk content body => by
    have hbody := gather?_forestLines h (fun next hn => Nat.le_succ_of_le (hd next hn)) body
    have hdeeper : ∀ next ∈ body.map (Prod.mk (depth + 1)), (decide (depth < next.1)) = true := by
      simp
    have hbeside : ahead.takeWhile (fun next => decide (depth < next.1)) = [] ∧
        ahead.dropWhile (fun next => decide (depth < next.1)) = ahead := by
      cases ahead with
      | nil => simp
      | cons next ahead => simp [Nat.not_lt.mpr (hd next rfl)]
    simp only [lines, List.cons_append, gather?, hbody, Option.bind_some, holding?,
      List.takeWhile_append_of_pos hdeeper, List.dropWhile_append_of_pos hdeeper, hbeside]
    simp
theorem gather?_forestLines {depth : Nat} {rest : List Line} {ahead : List (Nat × Outline)}
    (h : gather? rest = some ahead) (hd : ∀ next ∈ ahead.head?, next.1 ≤ depth) :
    (forest : List Outline) →
      gather? (forestLines depth forest ++ rest) = some (forest.map (depth, ·) ++ ahead)
  | [] => h
  | outline :: others => by
    have hothers := gather?_forestLines h hd others
    have hhead : ∀ next ∈ (others.map (depth, ·) ++ ahead).head?, next.1 ≤ depth := by
      cases others with
      | nil => exact hd
      | cons other others => simp
    rw [forestLines, List.append_assoc, gather?_lines hothers hhead outline, List.map_cons,
      List.cons_append]
end

theorem read?_forestLines (depth : Nat) (forest : List Outline) :
    read? depth (forestLines depth forest) = some forest := by
  have h : gather? (forestLines depth forest ++ []) = some (forest.map (depth, ·) ++ []) :=
    gather?_forestLines rfl (by simp) forest
  rw [List.append_nil, List.append_nil] at h
  simp [read?, h]

end Outline

end FairProgram
