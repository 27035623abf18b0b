import FairProgram.Proofs.Decimal.Reading
import FairProgram.Proofs.Predicate.Grammar
import Mathlib

/-!
# Printing predicates

A predicate that was read, printed with any number of places and read again keeps its name and its
operator, whatever characters the name is of, and its threshold becomes the double nearest to the
number printed. Printed with as many places that is the same text (`parse_render`).
-/

namespace FairProgram.Predicate

open Double Text

/-- A name that reading leaves as it is. -/
structure IsName (name : List Char) : Prop where
  ne_nil : name ≠ []
  trims : Trims name name
  plain : ∀ c ∈ name, c ∉ operatorChars

variable {text : String} {name raw : List Char} {p : Predicate} {threshold : Float} {places : Nat}

theorem isName_of_parse (h : parse text = .ok p) :
    IsName p.name.toList ∧ p.threshold.isFinite = true := by
  cases parse_eq_iff.mp h with
  | ok htext parts hname hne hraw hread hfinite =>
    rw [String.toList_ofList]
    refine ⟨⟨hne, hname.self, fun c hc => parts.left_plain c ?_⟩, hfinite⟩
    obtain ⟨before, after, rfl, -⟩ := hname.exists_blanks
    simp [hc]

/-- A name, an operator and a number with one blank between them are read as they are. -/
theorem parse_spelled (op : Comparison) (hname : IsName name) (hraw : Trims raw raw)
    (hread : Decimal.read? raw = some threshold) (hfinite : threshold.isFinite = true) :
    parse (String.ofList name ++ " " ++ op.symbol ++ " " ++ String.ofList raw) =
      .ok ⟨String.ofList name, op, threshold⟩ := by
  have hne : raw ≠ [] := by
    rintro rfl
    cases hread
  have hblank : ∀ c ∈ [' '], isBlank c = true := List.forall_mem_singleton.mpr rfl
  have hsymbol : op.symbol.toList ≠ [] ∧ ∀ c ∈ op.symbol.toList, c ∈ operatorChars := by
    cases op <;> simp [Comparison.symbol, operatorChars]
  have htext : Trims (String.ofList name ++ " " ++ op.symbol ++ " " ++ String.ofList raw).toList
      (name ++ [' '] ++ (op.symbol.toList ++ ([' '] ++ raw))) := by
    have hlist : (String.ofList name ++ " " ++ op.symbol ++ " " ++ String.ofList raw).toList =
        name ++ [' '] ++ (op.symbol.toList ++ ([' '] ++ raw)) := by
      simp
    rw [hlist]
    refine trims_self ?_ ?_
    · rw [List.append_assoc, List.head?_append_of_ne_nil _ hname.ne_nil]
      exact hname.trims.head
    · rw [← List.append_assoc, ← List.append_assoc, List.getLast?_append_of_ne_nil _ hne]
      exact hraw.last
  have parts : Parts (name ++ [' '] ++ (op.symbol.toList ++ ([' '] ++ raw))) (name ++ [' '])
      op.symbol.toList ([' '] ++ raw) := {
    text_eq := rfl
    left_plain := List.forall_mem_append.mpr ⟨hname.plain, by simp [operatorChars]⟩
    run_operators := hsymbol.2
    run_ne_nil := hsymbol.1
    rest_plain := by simp [operatorChars] }
  refine Reads.parse_eq (.ok htext parts ?_ hname.ne_nil ?_ hread hfinite)
  · exact ⟨⟨[], [' '], rfl, by simp, hblank⟩, hname.trims.head, hname.trims.last⟩
  · exact ⟨⟨[' '], [], by simp, hblank, by simp⟩, hraw.head, hraw.last⟩

theorem trims_literal {x : Float} (hx : x.isFinite = true) (places : Nat) :
    Trims (Decimal.literal x places).toList (Decimal.literal x places).toList := by
  have hblank : ∀ c ∈ (Decimal.literal x places).toList, isBlank c = false := by
    intro c hc
    obtain hdigit | rfl | rfl := Decimal.mem_literal_of_isFinite hx hc
    · exact isBlank_of_isDigit hdigit
    · rfl
    · rfl
  exact trims_self (fun c hc => hblank c (List.mem_of_mem_head? hc))
    fun c hc => hblank c (List.mem_of_mem_getLast? hc)

/-- Printing and reading a predicate again rounds its threshold once and for all. -/
theorem parse_render (h : parse text = .ok p) (hplaces : places ≤ Decimal.maxPlaces) :
    let rounded : ℚ := halfEven (value p.threshold * 10 ^ places) / 10 ^ places
    ∃ printed number threshold,
      p.render? places = some printed ∧
      printed = p.name ++ " " ++ p.op.symbol ++ " " ++ number ∧
      Token.numeral? number.toList = some rounded ∧
      parse printed = .ok ⟨p.name, p.op, threshold⟩ ∧
      (threshold.isFinite = true ∧ Rounds threshold rounded ∧
        ∀ x, |value threshold - rounded| ≤ |value x - rounded|) ∧
      render? places ⟨p.name, p.op, threshold⟩ = some printed := by
  intro rounded
  obtain ⟨hname, hfinite⟩ := isName_of_parse h
  have hrounded : Decimal.fixedValue p.threshold places = rounded :=
    Decimal.fixedValue_eq hfinite places
  have hnumeral := Token.numeral?_literal hfinite places
  obtain ⟨threshold, hread, hthreshold, hrounds, hliteral⟩ :=
    Decimal.exists_read?_literal hfinite places
  rw [hrounded] at hnumeral hrounds
  have hparse := parse_spelled p.op hname (trims_literal hfinite places) hread hthreshold
  simp only [String.ofList_toList] at hparse
  refine ⟨p.render places, Decimal.literal p.threshold places, threshold, ?_, rfl, hnumeral, hparse,
    ⟨hthreshold, hrounds, fun x => ?_⟩, ?_⟩
  · exact if_neg (not_lt.mpr hplaces)
  · rw [hrounds.value_eq hthreshold]
    exact abs_nearest_sub_le_value rounded x
  · rw [render?, if_neg (not_lt.mpr hplaces), render, hliteral]
    rfl

/-- A threshold in the middle between two numbers of one place is printed as the even one. -/
theorem parse_render_tie : parse "delta < -2.25" = .ok ⟨"delta", .less, -2.25⟩ ∧
    ∃ threshold, render? 1 ⟨"delta", .less, -2.25⟩ = some "delta < -2.2" ∧
      parse "delta < -2.2" = .ok ⟨"delta", .less, threshold⟩ ∧
      render? 1 ⟨"delta", .less, threshold⟩ = some "delta < -2.2" := by
  have hparse : parse "delta < -2.25" = .ok ⟨"delta", .less, -2.25⟩ := by
    rfl
  have hrender : render? 1 ⟨"delta", .less, -2.25⟩ = some "delta < -2.2" := by
    rfl
  have hplaces : 1 ≤ Decimal.maxPlaces := by decide
  obtain ⟨printed, -, threshold, hprinted, -, -, hread, -, hagain⟩ := parse_render hparse hplaces
  obtain rfl : printed = "delta < -2.2" := Option.some.inj (hprinted.symm.trans hrender)
  exact ⟨hparse, threshold, hrender, hread, hagain⟩

end FairProgram.Predicate
