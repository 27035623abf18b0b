import FairProgram.Predicate
import FairProgram.Proofs.Text.Parts
import Mathlib

/-!
# The grammar of predicates

A text is a predicate exactly if it is a name, a `<` or a `>`, and a finite number, blanks around each
of them left out. Of several faults the one that comes first in `Reads` is reported, and no reading
cuts a text within a character (`parse_grammar`).
-/

namespace FairProgram.Predicate

open Text

def operatorChars : List Char :=
  ['<', '>', '=', '!']

/-- A text with operator characters, taken apart in front of the first run of them and behind it. -/
structure Parts (text left run rest : List Char) : Prop where
  text_eq : text = left ++ (run ++ rest)
  left_plain : ∀ c ∈ left, c ∉ operatorChars
  run_operators : ∀ c ∈ run, c ∈ operatorChars
  run_ne_nil : run ≠ []
  rest_plain : ∀ c ∈ rest.head?, c ∉ operatorChars

/-- What a text reads as: a predicate, or the first of its faults. -/
inductive Reads (text : String) : Except PredicateError Predicate → Prop
  | empty (h : Trims text.toList []) : Reads text (.error .empty)
  | noOperator {trimmed : List Char} (h : Trims text.toList trimmed) (hne : trimmed ≠ [])
      (hnone : ∀ c ∈ trimmed, c ∉ operatorChars) :
      Reads text (.error (.noOperator (String.ofList trimmed)))
  | unsupportedOperator {trimmed left run rest : List Char} (h : Trims text.toList trimmed)
      (parts : Parts trimmed left run rest) (hgreater : run ≠ ['>']) (hless : run ≠ ['<']) :
      Reads text (.error (.unsupportedOperator (String.ofList run)))
  | noAttribute {trimmed left rest : List Char} {op : Comparison} (h : Trims text.toList trimmed)
      (parts : Parts trimmed left op.symbol.toList rest) (hname : Trims left []) :
      Reads text (.error (.noAttribute (String.ofList trimmed)))
  | badThreshold {trimmed left rest name raw : List Char} {op : Comparison}
      (h : Trims text.toList trimmed) (parts : Parts trimmed left op.symbol.toList rest)
      (hname : Trims left name) (hne : name ≠ []) (hraw : Trims rest raw)
      (hnot : ∀ threshold, Decimal.read? raw = some threshold → threshold.isFinite = false) :
      Reads text (.error (.badThreshold (String.ofList raw)))
  | ok {trimmed left rest name raw : List Char} {op : Comparison} {threshold : Float}
      (h : Trims text.toList trimmed) (parts : Parts trimmed left op.symbol.toList rest)
      (hname : Trims left name) (hne : name ≠ []) (hraw : Trims rest raw)
      (hread : Decimal.read? raw = some threshold) (hfinite : threshold.isFinite = true) :
      Reads text (.ok ⟨String.ofList name, op, threshold⟩)

-- ---------------------------------------------------------------------------
-- Parts
-- ---------------------------------------------------------------------------

section
variable {text left run rest : List Char}

theorem isOperatorChar_iff {c : Char} : isOperatorChar c = true ↔ c ∈ operatorChars := by
  simp [isOperatorChar, operatorChars, or_assoc]

theorem isOperatorChar_eq_false_iff {c : Char} :
    isOperatorChar c = false ↔ c ∉ operatorChars := by
  rw [← isOperatorChar_iff, Bool.not_eq_true]

theorem comparison?_eq_some_iff {op : Comparison} :
    comparison? run = some op ↔ run = op.symbol.toList := by
  cases op <;> (unfold comparison?; split <;> simp_all [Comparison.symbol])

theorem comparison?_eq_none_iff : comparison? run = none ↔ run ≠ ['>'] ∧ run ≠ ['<'] := by
  unfold comparison?
  split <;> simp_all

theorem exists_parts {c : Char} (hc : c ∈ text) (hop : c ∈ operatorChars) :
    ∃ left run rest, Parts text left run rest := by
  have hsplit := List.takeWhile_append_dropWhile (p := fun c => !isOperatorChar c) (l := text)
  set behind := text.dropWhile fun c => !isOperatorChar c with hbehind
  have hne : behind ≠ [] := fun hnil => by
    have := List.dropWhile_eq_nil_iff.mp hnil c hc
    simp [isOperatorChar_iff.mpr hop] at this
  obtain ⟨d, more, hd⟩ := List.exists_cons_of_ne_nil hne
  have hhead : isOperatorChar d = true := by
    have hmem : d ∈ (text.dropWhile fun c => !isOperatorChar c).head? := by
      rw [← hbehind, hd]
      rfl
    simpa using eq_false_of_mem_head?_dropWhile hmem
  exact ⟨text.takeWhile fun c => !isOperatorChar c, behind.takeWhile isOperatorChar,
    behind.dropWhile isOperatorChar, {
      text_eq := by rw [List.takeWhile_append_dropWhile, hsplit]
      left_plain := fun c hc => isOperatorChar_eq_false_iff.mp (by
        simpa using List.mem_takeWhile_imp hc)
      run_operators := fun c hc => isOperatorChar_iff.mp (List.mem_takeWhile_imp hc)
      run_ne_nil := by
        rw [hd, List.takeWhile_cons_of_pos hhead]
        exact List.cons_ne_nil _ _
      rest_plain := fun c hc =>
        isOperatorChar_eq_false_iff.mp (eq_false_of_mem_head?_dropWhile hc) }⟩

/-- The parts of a text are those that reading finds. -/
theorem Parts.spans (h : Parts text left run rest) :
    text.takeWhile (fun c => !isOperatorChar c) = left ∧
      (text.dropWhile fun c => !isOperatorChar c).takeWhile isOperatorChar = run ∧
      (text.dropWhile fun c => !isOperatorChar c).dropWhile isOperatorChar = rest := by
  obtain ⟨c, more, hc⟩ := List.exists_cons_of_ne_nil h.run_ne_nil
  have hhead : ∀ d ∈ (run ++ rest).head?, (!isOperatorChar d) = false := by
    intro d hd
    obtain rfl : c = d := by simpa [hc] using hd
    simpa using isOperatorChar_iff.mpr (h.run_operators c (hc ▸ List.mem_cons_self))
  have hleft : ∀ c ∈ left, (!isOperatorChar c) = true := fun c hc => by
    simpa using isOperatorChar_eq_false_iff.mpr (h.left_plain c hc)
  obtain ⟨htake, hdrop⟩ := span_append hleft hhead
  rw [h.text_eq, htake, hdrop]
  exact ⟨rfl, span_append (fun c hc => isOperatorChar_iff.mpr (h.run_operators c hc))
    fun c hc => isOperatorChar_eq_false_iff.mpr (h.rest_plain c hc)⟩

end

-- ---------------------------------------------------------------------------
-- Readings
-- ---------------------------------------------------------------------------

section
variable {text : String} {trimmed left run rest name raw : List Char}

theorem parse_of_plain (h : Trims text.toList trimmed) (hne : trimmed ≠ [])
    (hnone : ∀ c ∈ trimmed, c ∉ operatorChars) :
    parse text = .error (.noOperator (String.ofList trimmed)) := by
  have hdrop : (trimmed.dropWhile fun c => !isOperatorChar c) = [] :=
    List.dropWhile_eq_nil_iff.mpr fun c hc => by
      simpa using isOperatorChar_eq_false_iff.mpr (hnone c hc)
  simp [parse, h.trim_eq, hdrop, hne]

/-- Once a text is taken apart, its operator decides, then its name and at last its number. -/
theorem parse_of_parts (h : Trims text.toList trimmed) (parts : Parts trimmed left run rest) :
    parse text = (comparison? run).elim (.error (.unsupportedOperator (String.ofList run))) fun op =>
      if (trim left).isEmpty then .error (.noAttribute (String.ofList trimmed))
      else (Decimal.read? (trim rest)).elim (.error (.badThreshold (String.ofList (trim rest))))
        fun threshold =>
          if threshold.isFinite then .ok ⟨String.ofList (trim left), op, threshold⟩
          else .error (.badThreshold (String.ofList (trim rest))) := by
  obtain ⟨hleft, hrun, hrest⟩ := parts.spans
  have hne : trimmed.isEmpty = false := by
    rw [parts.text_eq, List.isEmpty_eq_false_iff]
    simp [parts.run_ne_nil]
  have hrunEmpty : run.isEmpty = false := List.isEmpty_eq_false_iff.mpr parts.run_ne_nil
  simp only [parse, h.trim_eq, hleft, hrun, hrest, hne, hrunEmpty, Bool.false_eq_true, if_false]
  cases comparison? run with
  | none => rfl
  | some op => cases Decimal.read? (trim rest) <;> rfl

theorem Reads.parse_eq {outcome : Except PredicateError Predicate} (h : Reads text outcome) :
    parse text = outcome := by
  cases h with
  | empty h => simp [parse, h.trim_eq]
  | noOperator h hne hnone => exact parse_of_plain h hne hnone
  | unsupportedOperator h parts hgreater hless =>
    rw [parse_of_parts h parts, comparison?_eq_none_iff.mpr ⟨hgreater, hless⟩, Option.elim_none]
  | noAttribute h parts hname =>
    rw [parse_of_parts h parts, comparison?_eq_some_iff.mpr rfl, hname.trim_eq]
    rfl
  | badThreshold h parts hname hne hraw hnot =>
    rw [parse_of_parts h parts, comparison?_eq_some_iff.mpr rfl, hname.trim_eq, hraw.trim_eq]
    simp only [List.isEmpty_eq_false_iff.mpr hne, Bool.false_eq_true, if_false, Option.elim_some]
    cases hread : Decimal.read? _ with
    | none => rfl
    | some threshold => simp [hnot threshold hread]
  | ok h parts hname hne hraw hread hfinite =>
    rw [parse_of_parts h parts, comparison?_eq_some_iff.mpr rfl, hname.trim_eq, hraw.trim_eq, hread]
    simp [hne, hfinite]

theorem reads_of_parts (h : Trims text.toList trimmed) (parts : Parts trimmed left run rest) :
    ∃ outcome, Reads text outcome := by
  cases hop : comparison? run with
  | none =>
    obtain ⟨hgreater, hless⟩ := comparison?_eq_none_iff.mp hop
    exact ⟨_, .unsupportedOperator h parts hgreater hless⟩
  | some op =>
    obtain rfl := comparison?_eq_some_iff.mp hop
    by_cases hne : trim left = []
    · exact ⟨_, .noAttribute h parts (trims_iff.mpr hne)⟩
    by_cases hread : ∃ threshold, Decimal.read? (trim rest) = some threshold ∧
        threshold.isFinite = true
    · obtain ⟨threshold, hread, hfinite⟩ := hread
      exact ⟨_, .ok h parts (trims_trim left) hne (trims_trim rest) hread hfinite⟩
    · refine ⟨_, .badThreshold h parts (trims_trim left) hne (trims_trim rest) fun t ht => ?_⟩
      exact Bool.eq_false_iff.mpr fun hfinite => hread ⟨t, ht, hfinite⟩

theorem exists_reads (text : String) : ∃ outcome, Reads text outcome := by
  have h := trims_trim text.toList
  by_cases hempty : trim text.toList = []
  · exact ⟨_, .empty (hempty ▸ h)⟩
  by_cases hnone : ∀ c ∈ trim text.toList, c ∉ operatorChars
  · exact ⟨_, .noOperator h hempty hnone⟩
  · push Not at hnone
    obtain ⟨c, hc, hop⟩ := hnone
    obtain ⟨left, run, rest, parts⟩ := exists_parts hc hop
    exact reads_of_parts h parts

theorem parse_eq_iff {outcome : Except PredicateError Predicate} :
    parse text = outcome ↔ Reads text outcome := by
  refine ⟨?_, Reads.parse_eq⟩
  rintro rfl
  obtain ⟨outcome, h⟩ := exists_reads text
  exact h.parse_eq ▸ h

-- ---------------------------------------------------------------------------
-- Readings by bytes
-- ---------------------------------------------------------------------------

/-- Reading by the bytes at which the operator begins and ends; it has no result where it would cut
the text within a character. -/
def parseCuts? (text : String) : Option (Except PredicateError Predicate) := do
  let text := String.ofList (trim text.toList)
  if text.isEmpty then return .error .empty
  match firstByte? isOperatorChar text with
  | none => return .error (.noOperator text)
  | some start =>
    let behind ← cut? text start text.utf8ByteSize
    let stop := (firstByte? (fun c => !isOperatorChar c) behind).elim text.utf8ByteSize (start + ·)
    let run ← cut? text start stop
    match comparison? run.toList with
    | none => return .error (.unsupportedOperator run)
    | some op =>
      let left ← cut? text 0 start
      let name := trim left.toList
      if name.isEmpty then return .error (.noAttribute text)
      let rest ← cut? text stop text.utf8ByteSize
      let raw := trim rest.toList
      match Decimal.read? raw with
      | none => return .error (.badThreshold (String.ofList raw))
      | some threshold =>
        return if threshold.isFinite then .ok ⟨String.ofList name, op, threshold⟩
          else .error (.badThreshold (String.ofList raw))

/-- The operator's bytes, and the texts before, in and behind it. -/
theorem Parts.cuts (parts : Parts trimmed left run rest) :
    let text := String.ofList trimmed
    let start := (String.ofList left).utf8ByteSize
    let stop := start + (String.ofList run).utf8ByteSize
    firstByte? isOperatorChar text = some start ∧
      cut? text start text.utf8ByteSize = some (String.ofList (run ++ rest)) ∧
      (firstByte? (fun c => !isOperatorChar c) (String.ofList (run ++ rest))).elim
        text.utf8ByteSize (start + ·) = stop ∧
      cut? text start stop = some (String.ofList run) ∧
      cut? text 0 start = some (String.ofList left) ∧
      cut? text stop text.utf8ByteSize = some (String.ofList rest) := by
  intro text start stop
  set l := String.ofList left with hl
  set r := String.ofList run with hr
  set s := String.ofList rest with hs
  have htext : text = l ++ (r ++ s) := by
    simp only [text, parts.text_eq, String.ofList_append, hl, hr, hs]
  have hsize : text.utf8ByteSize = stop + s.utf8ByteSize := by
    rw [htext, String.utf8ByteSize_append, String.utf8ByteSize_append, ← Nat.add_assoc]
  have hbehind : String.ofList (run ++ rest) = r ++ s := String.ofList_append
  have hrun : ∀ c ∈ run, isOperatorChar c = true := fun c hc =>
    isOperatorChar_iff.mpr (parts.run_operators c hc)
  refine ⟨?_, ?_, ?_, ?_, ?_, ?_⟩
  · obtain ⟨c, more, hc⟩ := List.exists_cons_of_ne_nil parts.run_ne_nil
    have hfirst : r ++ s = String.singleton c ++ String.ofList (more ++ rest) := by
      rw [← hbehind, hc, List.cons_append, ← List.singleton_append, String.ofList_append]
      rfl
    refine firstByte?_append (htext.trans (congrArg (l ++ ·) hfirst))
      (hrun c (hc ▸ List.mem_cons_self)) fun d hd => ?_
    rw [String.toList_ofList] at hd
    exact isOperatorChar_eq_false_iff.mpr (parts.left_plain d hd)
  · have hparts : text = l ++ (r ++ s) ++ "" := by rw [htext, String.append_empty]
    rw [hbehind, hsize, Nat.add_assoc, ← String.utf8ByteSize_append]
    exact cut?_append hparts
  · cases hrest : rest with
    | nil =>
      have hnone : ∀ c ∈ (String.ofList (run ++ [])).toList, (!isOperatorChar c) = false := by
        simpa using hrun
      rw [firstByte?_eq_none hnone, Option.elim_none, hsize, hs, hrest]
      rfl
    | cons c more =>
      have hc : isOperatorChar c = false :=
        isOperatorChar_eq_false_iff.mpr (parts.rest_plain c (by rw [hrest]; rfl))
      have hfirst : String.ofList (run ++ c :: more) =
          r ++ (String.singleton c ++ String.ofList more) := by
        rw [← List.singleton_append, String.ofList_append, String.ofList_append]
        rfl
      rw [firstByte?_append hfirst (by simp [hc]) (by simpa [hr] using hrun)]
      rfl
  · exact cut?_append (htext.trans String.append_assoc.symm)
  · have hparts : text = "" ++ l ++ (r ++ s) := by rw [htext, String.empty_append]
    have hcut := cut?_append hparts
    rwa [String.utf8ByteSize_empty, Nat.zero_add] at hcut
  · have hparts : text = l ++ r ++ s ++ "" := by
      rw [htext, String.append_empty, String.append_assoc]
    have hcut := cut?_append hparts
    rwa [String.utf8ByteSize_append, ← hsize] at hcut

theorem parseCuts?_of_parts (h : Trims text.toList trimmed) (parts : Parts trimmed left run rest) :
    parseCuts? text = some (parse text) := by
  obtain ⟨hstart, hbehind, hstop, hrun, hleft, hrest⟩ := parts.cuts
  have hne : (String.ofList trimmed).isEmpty = false := by
    rw [parts.text_eq]
    simp [parts.run_ne_nil]
  rw [parse_of_parts h parts]
  simp only [parseCuts?, h.trim_eq, hne, hstart, hbehind, Bool.false_eq_true, if_false,
    Option.bind_eq_bind, Option.bind_some, hstop, hrun, hleft, hrest, String.toList_ofList]
  cases comparison? run with
  | none => rfl
  | some op =>
    dsimp only
    split
    · rfl
    · cases Decimal.read? (trim rest) <;> rfl

theorem parseCuts?_eq (text : String) : parseCuts? text = some (parse text) := by
  have h := trims_trim text.toList
  by_cases hempty : trim text.toList = []
  · rw [Reads.parse_eq (.empty (hempty ▸ h))]
    simp [parseCuts?, hempty]
  by_cases hnone : ∀ c ∈ trim text.toList, c ∉ operatorChars
  · have hbyte : firstByte? isOperatorChar (String.ofList (trim text.toList)) = none :=
      firstByte?_eq_none (by simpa [isOperatorChar_eq_false_iff] using hnone)
    rw [parse_of_plain h hempty hnone]
    simp [parseCuts?, hempty, hbyte]
  · push Not at hnone
    obtain ⟨c, hc, hop⟩ := hnone
    obtain ⟨left, run, rest, parts⟩ := exists_parts hc hop
    exact parseCuts?_of_parts h parts

end

/-- Every text reads as just what the grammar says of it, a predicate or one fault, and the cuts that
reading makes at bytes are between characters. -/
theorem parse_grammar (text : String) :
    (∀ outcome, parse text = outcome ↔ Reads text outcome) ∧
      parseCuts? text = some (parse text) :=
  ⟨fun _ => parse_eq_iff, parseCuts?_eq text⟩

/-- An operator that is not supported goes before a name that is missing and a bad number. -/
example : parse "  >= old" = .error (.unsupportedOperator ">=") := by
  rfl

end FairProgram.Predicate
