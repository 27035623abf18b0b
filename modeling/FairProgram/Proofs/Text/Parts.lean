import FairProgram.Text.Blank
import Mathlib

/-!
# Parts of texts

Only one part of a text begins and ends in no blank and leaves nothing but blanks around it
(`trims_iff`). Places in a text are counted in the bytes of its UTF-8 encoding; a text
can be cut at the ends of its parts (`cut?_append`), and not within a character.
-/

namespace FairProgram.Text

-- ---------------------------------------------------------------------------
-- Blanks at the ends
-- ---------------------------------------------------------------------------

/-- The part of a text between the blanks at its ends. -/
structure Trims (text middle : List Char) : Prop where
  exists_blanks : ∃ before after, text = before ++ (middle ++ after) ∧
    (∀ c ∈ before, isBlank c = true) ∧ ∀ c ∈ after, isBlank c = true
  head : ∀ c ∈ middle.head?, isBlank c = false
  last : ∀ c ∈ middle.getLast?, isBlank c = false

variable {text middle : List Char}

theorem dropWhile_of_head {p : Char → Bool} (h : ∀ c ∈ text.head?, p c = false) :
    text.dropWhile p = text := by
  cases text with
  | nil => rfl
  | cons c rest => exact List.dropWhile_cons_of_neg (by simp [h c rfl])

/-- Characters of a kind in front of one of another kind, and the rest. -/
theorem span_append {p : Char → Bool} {front back : List Char} (hfront : ∀ c ∈ front, p c = true)
    (hback : ∀ c ∈ back.head?, p c = false) :
    (front ++ back).takeWhile p = front ∧ (front ++ back).dropWhile p = back := by
  have hnone : back.takeWhile p = [] := by
    cases back with
    | nil => rfl
    | cons c rest => exact List.takeWhile_cons_of_neg (by simp [hback c rfl])
  rw [List.takeWhile_append_of_pos hfront, List.dropWhile_append_of_pos hfront, hnone,
    dropWhile_of_head hback, List.append_nil]
  exact ⟨rfl, rfl⟩

theorem eq_false_of_mem_head?_dropWhile {p : Char → Bool} {c : Char}
    (h : c ∈ (text.dropWhile p).head?) : p c = false := by
  have := List.head?_dropWhile_not p text
  rwa [Option.mem_def.mp h] at this

theorem trims_trim (text : List Char) : Trims text (trim text) := by
  set inner := text.dropWhile isBlank with hinner
  have hend : inner = trim text ++ (inner.reverse.takeWhile isBlank).reverse := by
    rw [trim, ← hinner, ← List.reverse_append, List.takeWhile_append_dropWhile, List.reverse_reverse]
  exact {
    exists_blanks := ⟨text.takeWhile isBlank, (inner.reverse.takeWhile isBlank).reverse,
      by rw [← hend, hinner, List.takeWhile_append_dropWhile],
      fun c hc => List.mem_takeWhile_imp hc,
      fun c hc => List.mem_takeWhile_imp (List.mem_reverse.mp hc)⟩
    head := fun c hc => by
      have hhead : c ∈ (text.dropWhile isBlank).head? := by
        rw [← hinner, hend, List.head?_append, Option.mem_def.mp hc]
        rfl
      exact eq_false_of_mem_head?_dropWhile hhead
    last := fun c hc => by
      rw [trim, ← hinner, List.getLast?_reverse] at hc
      exact eq_false_of_mem_head?_dropWhile hc }

theorem Trims.trim_eq (h : Trims text middle) : trim text = middle := by
  obtain ⟨before, after, rfl, hbefore, hafter⟩ := h.exists_blanks
  rw [trim, List.dropWhile_append_of_pos hbefore]
  cases middle with
  | nil =>
    rw [List.nil_append, List.dropWhile_eq_nil_iff.mpr hafter]
    rfl
  | cons c rest =>
    have hfront : ((c :: rest) ++ after).dropWhile isBlank = (c :: rest) ++ after :=
      dropWhile_of_head h.head
    have hback : (c :: rest).reverse.dropWhile isBlank = (c :: rest).reverse :=
      dropWhile_of_head fun d hd => h.last d (by rwa [List.head?_reverse] at hd)
    rw [hfront, List.reverse_append, List.dropWhile_append_of_pos (by simpa using hafter), hback,
      List.reverse_reverse]

theorem trims_iff : Trims text middle ↔ trim text = middle :=
  ⟨Trims.trim_eq, fun h => h ▸ trims_trim text⟩

theorem trims_self (head : ∀ c ∈ text.head?, isBlank c = false)
    (last : ∀ c ∈ text.getLast?, isBlank c = false) : Trims text text :=
  ⟨⟨[], [], by simp⟩, head, last⟩

theorem Trims.self (h : Trims text middle) : Trims middle middle :=
  trims_self h.head h.last

theorem isBlank_of_isDigit {c : Char} (h : c.isDigit = true) : isBlank c = false := by
  have hdigit : 48 ≤ c.toNat ∧ c.toNat ≤ 57 := by
    simpa [Char.isDigit, UInt32.le_iff_toNat_le] using h
  simp [isBlank]
  omega

-- ---------------------------------------------------------------------------
-- Cuts
-- ---------------------------------------------------------------------------

/-- How many bytes come before the first character of a kind. -/
def firstByte? (p : Char → Bool) (text : String) : Option Nat :=
  (text.find? p).map fun position => position.offset.byteIdx

/-- The text from one byte to another, unless one of them is within a character or outside the text
or the end comes before the start. -/
def cut? (text : String) (start stop : Nat) : Option String := do
  let first ← text.pos? ⟨start⟩
  let last ← text.pos? ⟨stop⟩
  let slice ← text.slice? first last
  return slice.copy

section
variable {p : Char → Bool} {text front middle back : String} {c : Char}

theorem exists_pos? (h : text = front ++ back) :
    ∃ position, text.pos? ⟨front.utf8ByteSize⟩ = some position ∧ position.Splits front back := by
  subst h
  have hvalid : String.Pos.Raw.IsValid (front ++ back) ⟨front.utf8ByteSize⟩ :=
    String.Pos.Raw.isValid_rawEndPos.append_right back
  refine ⟨(front ++ back).pos ⟨front.utf8ByteSize⟩ hvalid, ?_, rfl, rfl⟩
  simp [String.pos?, String.Slice.pos?, hvalid, String.pos]

theorem cut?_append (h : text = front ++ middle ++ back) :
    cut? text front.utf8ByteSize (front.utf8ByteSize + middle.utf8ByteSize) = some middle := by
  obtain ⟨first, hfirst, hsplits⟩ := exists_pos? (h.trans String.append_assoc)
  obtain ⟨last, hlast, hsplits'⟩ := exists_pos? h
  rw [String.utf8ByteSize_append] at hlast
  obtain ⟨hle, hcopy⟩ := String.copy_slice_eq_iff_splits.mpr ⟨front, back, hsplits, hsplits'⟩
  simp [cut?, hfirst, hlast, String.slice?, hle, hcopy]

theorem firstByte?_eq_none (h : ∀ c ∈ text.toList, p c = false) : firstByte? p text = none := by
  rw [firstByte?, Option.map_eq_none_iff, Option.eq_none_iff_forall_ne_some]
  intro position hposition
  obtain ⟨front, c, back, hsplits, hc, -⟩ :=
    String.find?_bool_eq_some_iff_splits.mp hposition
  have hmem : c ∈ text.toList := by
    rw [hsplits.eq_append]
    simp
  rw [h c hmem] at hc
  cases hc

theorem firstByte?_append (h : text = front ++ (String.singleton c ++ back)) (hc : p c = true)
    (hfront : ∀ d ∈ front.toList, p d = false) : firstByte? p text = some front.utf8ByteSize := by
  obtain ⟨position, -, hsplits⟩ := exists_pos? h
  rw [firstByte?,
    String.find?_bool_eq_some_iff_splits.mpr ⟨front, c, back, hsplits, hc, hfront⟩,
    Option.map_some, hsplits.offset_eq_rawEndPos]
  rfl

end

/-- The second character takes up two bytes, and no cut is between them. -/
example : cut? "aé>b" 1 3 = some "é" ∧ cut? "aé>b" 2 3 = none := by decide +kernel

end FairProgram.Text
