import FairProgram.Proofs.Program.Tokens
import Mathlib

/-!
# Step literals

The literal of a step distribution is read field by field, as bounds and masses of buckets
(`StepFit.readBuckets?`). Each mass is a decimal with all places of the fit and no others that
matter: without its point it is the units of the bucket, so that the masses of a fit add up as its
units do (`StepFit.printed_exactly`).
-/

namespace FairProgram

-- ---------------------------------------------------------------------------
-- Buckets between edges
-- ---------------------------------------------------------------------------

namespace Stats.Bucket

variable {α : Type}

theorem map_mass_ofEdges : (edges masses : List α) → edges.length = masses.length + 1 →
    (ofEdges edges masses).map Bucket.mass = masses
  | lower :: upper :: edges, mass :: masses, h => by
    rw [ofEdges, List.map_cons, map_mass_ofEdges (upper :: edges) masses (by simpa using h)]
  | [_], [], _ => rfl

/-- Each bucket starts where the one before it ends. -/
theorem isChain_ofEdges : (edges masses : List α) →
    (ofEdges edges masses).IsChain fun a b => a.upper = b.lower
  | lower :: upper :: next :: edges, mass :: other :: masses => by
    have hrest := isChain_ofEdges (upper :: next :: edges) (other :: masses)
    rw [ofEdges] at hrest ⊢
    rw [ofEdges]
    exact List.isChain_cons_cons.mpr ⟨rfl, hrest⟩
  | [_, _], mass :: masses | _ :: _ :: _ :: _, [mass] => by simp [ofEdges]
  | [], _ | [_], _ | _ :: _ :: _, [] => by simp [ofEdges]

theorem rel_of_pairwise {R : α → α → Prop} {b : Bucket α} : {edges masses : List α} →
    edges.Pairwise R → b ∈ ofEdges edges masses → R b.lower b.upper
  | lower :: upper :: edges, mass :: masses, h, hb => by
    obtain ⟨hfirst, hrest⟩ := List.pairwise_cons.mp h
    obtain rfl | hb := List.mem_cons.mp hb
    · exact hfirst upper List.mem_cons_self
    · exact rel_of_pairwise hrest hb

end Stats.Bucket

open Stats

namespace StepFit

/-- The bounds and the mass of a bucket as they are printed. -/
abbrev BucketText := Bucket (List Char)

/-- Buckets of three fields each, in parentheses. -/
def gatherBuckets? : List (List Char) → Option (List BucketText)
  | [] => some []
  | ('(' :: lower) :: upper :: mass :: rest =>
    if mass.getLast? = some ')' then (gatherBuckets? rest).map (⟨lower, upper, mass.dropLast⟩ :: ·)
    else none
  | _ => none

/-- The buckets of a step literal: fields between commas. Blanks do not count. -/
def readBuckets? : List Char → Option (List BucketText)
  | 's' :: 't' :: 'e' :: 'p' :: '(' :: '[' :: rest =>
    let body := rest.dropLast.dropLast
    if rest = body ++ [']', ')'] then gatherBuckets? ((body.filter (· != ' ')).splitOn ',') else none
  | _ => none

-- ---------------------------------------------------------------------------
-- Fields
-- ---------------------------------------------------------------------------

/-- Neither a comma nor a blank. -/
def IsField (text : List Char) : Prop :=
  ',' ∉ text ∧ ' ' ∉ text

/-- A bucket in print. -/
def bucketChars (b : BucketText) : List Char :=
  '(' :: (b.lower ++ ',' :: ' ' :: (b.upper ++ ',' :: ' ' :: (b.mass ++ [')'])))

def fields (b : BucketText) : List (List Char) :=
  ['(' :: b.lower, b.upper, b.mass ++ [')']]

structure Legible (b : BucketText) : Prop where
  lower : IsField b.lower
  upper : IsField b.upper
  mass : IsField b.mass

variable {b : BucketText} {buckets : List BucketText}

theorem gatherBuckets?_fields (buckets : List BucketText) :
    gatherBuckets? (buckets.flatMap fields) = some buckets := by
  induction buckets with
  | nil => rfl
  | cons b rest ih => simp [fields, gatherBuckets?, ih]

theorem filter_of_isField {text : List Char} (h : IsField text) : text.filter (· != ' ') = text := by
  rw [List.filter_eq_self]
  intro c hc
  simpa using fun hblank : c = ' ' => h.2 (hblank ▸ hc)

theorem splitOn_of_isField {text : List Char} (h : IsField text) : text.splitOn ',' = [text] := by
  rw [List.splitOn_eq_splitOnP]
  refine List.splitOnP_eq_singleton fun c hc => ?_
  exact beq_eq_false_iff_ne.mpr fun hcomma => h.1 (hcomma ▸ hc)

theorem splitOn_comma (text others : List Char) :
    (text ++ ',' :: others).splitOn ',' = text.splitOn ',' ++ others.splitOn ',' := by
  simp only [List.splitOn_eq_splitOnP]
  exact List.splitOnP_append_cons _ _ (by decide)

theorem splitOn_bucketChars (h : Legible b) :
    ((bucketChars b).filter (· != ' ')).splitOn ',' = fields b := by
  have hblank : (bucketChars b).filter (· != ' ') =
      ('(' :: b.lower) ++ ',' :: (b.upper ++ ',' :: (b.mass ++ [')'])) := by
    simp [bucketChars, filter_of_isField h.lower, filter_of_isField h.upper,
      filter_of_isField h.mass]
  have hlower : IsField ('(' :: b.lower) := by simpa [IsField] using h.lower
  have hmass : IsField (b.mass ++ [')']) := by simpa [IsField] using h.mass
  rw [hblank, splitOn_comma, splitOn_comma, splitOn_of_isField hlower, splitOn_of_isField h.upper,
    splitOn_of_isField hmass]
  rfl

theorem splitOn_buckets : (buckets : List BucketText) → buckets ≠ [] → (∀ b ∈ buckets, Legible b) →
    (([',', ' '].intercalate (buckets.map bucketChars)).filter (· != ' ')).splitOn ',' =
      buckets.flatMap fields
  | [b], _, h => by
    simpa using splitOn_bucketChars (h b List.mem_cons_self)
  | b :: next :: rest, _, h => by
    obtain ⟨hb, hrest⟩ := List.forall_mem_cons.mp h
    have hrest := splitOn_buckets (next :: rest) (List.cons_ne_nil _ _) hrest
    rw [List.map_cons, List.map_cons, List.intercalate_cons_cons, ← List.map_cons, List.append_assoc,
      List.filter_append, List.filter_append, List.flatMap_cons, ← splitOn_bucketChars hb, ← hrest]
    exact splitOn_comma _ _

theorem readBuckets?_of_legible (hne : buckets ≠ []) (h : ∀ b ∈ buckets, Legible b) :
    readBuckets? ('s' :: 't' :: 'e' :: 'p' :: '(' :: '[' ::
      ([',', ' '].intercalate (buckets.map bucketChars) ++ [']', ')'])) = some buckets := by
  have hfields := splitOn_buckets buckets hne h
  generalize [',', ' '].intercalate (buckets.map bucketChars) = body at hfields ⊢
  have hbody : (body ++ [']', ')']).dropLast.dropLast = body := by simp
  simp only [readBuckets?, hbody, if_pos, hfields, gatherBuckets?_fields]

-- ---------------------------------------------------------------------------
-- Literals of step fits
-- ---------------------------------------------------------------------------

/-- The buckets of a step fit in print. -/
def printed (s : StepFit) (places : Nat) : List BucketText :=
  Bucket.ofEdges (s.edges.map fun edge => (Decimal.literal edge places).toList)
    (s.units.map fun units => (Decimal.unitsText units s.places).toList)

theorem toList_bucketTexts (places fitPlaces : Nat) : (edges : List Float) → (units : List Nat) →
    (bucketTexts places fitPlaces edges units).map String.toList =
      (Bucket.ofEdges (edges.map fun edge => (Decimal.literal edge places).toList)
        (units.map fun units => (Decimal.unitsText units fitPlaces).toList)).map bucketChars
  | lower :: upper :: edges, unit :: units => by
    have hrest := toList_bucketTexts places fitPlaces (upper :: edges) units
    rw [List.map_cons] at hrest
    simp [bucketTexts, Bucket.ofEdges, hrest, bucketText, bucketChars]
  | [], _ | [_], _ | _ :: _ :: _, [] => by simp [bucketTexts, Bucket.ofEdges]

theorem isField_literal (x : Float) (places : Nat) : IsField (Decimal.literal x places).toList := by
  constructor <;> intro hc <;> have hc := Decimal.mem_literal hc <;> revert hc <;> decide

theorem isField_unitsText (units places : Nat) :
    IsField (Decimal.unitsText units places).toList := by
  constructor <;> intro hc <;> have hc := Decimal.mem_unitsText hc <;> revert hc <;> decide

theorem legible_ofEdges : (edges masses : List (List Char)) → (∀ edge ∈ edges, IsField edge) →
    (∀ mass ∈ masses, IsField mass) → ∀ b ∈ Bucket.ofEdges edges masses, Legible b
  | lower :: upper :: edges, mass :: masses, he, hm => by
    obtain ⟨hlower, he⟩ := List.forall_mem_cons.mp he
    obtain ⟨hmass, hm⟩ := List.forall_mem_cons.mp hm
    exact List.forall_mem_cons.mpr ⟨⟨hlower, he upper List.mem_cons_self, hmass⟩,
      legible_ofEdges (upper :: edges) masses he hm⟩
  | [], _, _, _ | [_], _, _, _ | _ :: _ :: _, [], _, _ => by simp [Bucket.ofEdges]

theorem map_mass_printed (s : StepFit) (places : Nat) : (s.printed places).map Bucket.mass =
    s.units.map fun units => (Decimal.unitsText units s.places).toList :=
  Bucket.map_mass_ofEdges _ _ (by simpa using s.length_edges)

theorem printed_ne_nil (s : StepFit) (places : Nat) : s.printed places ≠ [] := by
  intro h
  have hmass := s.map_mass_printed places
  rw [h, List.map_nil, eq_comm, List.map_eq_nil_iff] at hmass
  exact s.units_ne_nil hmass

/-- A step literal reads as the buckets of its fit. -/
theorem readBuckets?_render (s : StepFit) (places : Nat) :
    readBuckets? ((Fit.step s).render places).toList = some (s.printed places) := by
  have htext : ((Fit.step s).render places).toList = 's' :: 't' :: 'e' :: 'p' :: '(' :: '[' ::
      ([',', ' '].intercalate ((s.printed places).map bucketChars) ++ [']', ')']) := by
    simp [Fit.render, Fit.kind, String.toList_intercalate, toList_bucketTexts, printed]
  rw [htext]
  refine readBuckets?_of_legible (s.printed_ne_nil places) (legible_ofEdges _ _ ?_ ?_)
  · exact List.forall_mem_map.mpr fun edge _ => isField_literal edge places
  · exact List.forall_mem_map.mpr fun units _ => isField_unitsText units s.places

-- ---------------------------------------------------------------------------
-- Masses
-- ---------------------------------------------------------------------------

/-- Digits in front of a point and as many behind it as there are places, which without the point
are the units. -/
def Exact (units places : Nat) (mass : List Char) : Prop :=
  ∃ whole fraction, mass = whole ++ '.' :: fraction ∧ whole ≠ [] ∧
    (∀ c ∈ whole ++ fraction, c.isDigit = true) ∧ fraction.length = places ∧
    Decimal.ofDigits (whole ++ fraction) = units

variable {s : StepFit} {units places : Nat}

theorem magnitude_eq_unitsText (hp : 0 < places) :
    Decimal.magnitude units places = Decimal.unitsText units places :=
  if_neg hp.ne'

theorem exact_unitsText (hp : 0 < places) :
    Exact units places (Decimal.unitsText units places).toList := by
  obtain ⟨whole, fraction, htext, hne, hall, hlength, hunits⟩ :=
    Decimal.magnitude_digits units places
  have hfraction : fraction.isEmpty = false := by
    rw [List.isEmpty_eq_false_iff, ← List.length_pos_iff, hlength]
    exact hp
  refine ⟨whole, fraction, ?_, hne, hall, hlength, hunits⟩
  rw [← magnitude_eq_unitsText hp, htext, Decimal.point, hfraction]
  rfl

theorem numeral?_unitsText (hp : 0 < places) :
    Token.numeral? (Decimal.unitsText units places).toList = some ((units : ℚ) / 10 ^ places) := by
  rw [← magnitude_eq_unitsText hp]
  exact (Token.numeral?_magnitude units places).1

theorem sum_div_powTen (units : List Nat) (places : Nat) :
    (units.map fun (n : Nat) => (n : ℚ) / 10 ^ places).sum = (units.sum : ℚ) / 10 ^ places := by
  induction units with
  | nil => simp
  | cons n rest ih => rw [List.map_cons, List.sum_cons, ih, List.sum_cons, Nat.cast_add, add_div]

/-- The literal of a step fit has a mass for each of its units, with all of the fit's places and
without rounding, so that the masses add up to the sum of the units. -/
theorem printed_exactly (hs : 0 < s.places) (hp : places ≤ Decimal.maxPlaces) :
    ∃ text buckets, (Fit.step s).render? places = some text ∧
      readBuckets? text.toList = some buckets ∧
      List.Forall₂ (fun b units => Exact units s.places b.mass) buckets s.units ∧
      ∃ masses : List ℚ, buckets.map (fun b => Token.numeral? b.mass) = masses.map some ∧
        masses.sum = (s.units.sum : ℚ) / 10 ^ s.places := by
  refine ⟨_, s.printed places, if_neg (Nat.not_lt.mpr hp), readBuckets?_render s places, ?_,
    s.units.map fun (units : Nat) => (units : ℚ) / 10 ^ s.places, ?_, sum_div_powTen _ _⟩
  · have hmasses : List.Forall₂ (fun mass units => Exact units s.places mass)
        ((s.printed places).map Bucket.mass) s.units := by
      rw [map_mass_printed, List.forall₂_map_left_iff, List.forall₂_same]
      exact fun units _ => exact_unitsText hs
    exact List.forall₂_map_left_iff.mp hmasses
  · have hmap : (s.printed places).map (fun b => Token.numeral? b.mass) =
        ((s.printed places).map Bucket.mass).map Token.numeral? := by
      rw [List.map_map]
      rfl
    rw [hmap, map_mass_printed, List.map_map, List.map_map]
    exact List.map_congr_left fun units _ => numeral?_unitsText hs

/-- Zeros behind the point, and units of more than one. -/
def lopsided : StepFit where
  edges := [0, 1.5, 3]
  units := [5, 18446744073709551615]
  places := 3
  units_ne_nil := List.cons_ne_nil _ _
  length_edges := rfl

theorem printed_exactly_lopsided : 0 < lopsided.places ∧ 6 ≤ Decimal.maxPlaces ∧
    ∃ text buckets, (Fit.step lopsided).render? 6 = some text ∧
      readBuckets? text.toList = some buckets ∧
      List.Forall₂ (fun b units => Exact units 3 b.mass) buckets [5, 18446744073709551615] ∧
      ∃ masses : List ℚ, buckets.map (fun b => Token.numeral? b.mass) = masses.map some ∧
        masses.sum = ((5 + 18446744073709551615 : Nat) : ℚ) / 10 ^ 3 :=
  ⟨by decide, by decide, printed_exactly (s := lopsided) (by decide) (by decide)⟩

end StepFit

end FairProgram
