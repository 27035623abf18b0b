import FairProgram.Proofs.Double.Order
import FairProgram.Proofs.Double.Rounding
import Mathlib

/-!
# Arithmetic of doubles

Sums, differences, products and quotients of finite doubles, and doubles of whole numbers, are the
nearest doubles to what they would be in exact arithmetic, or an infinity beyond the greatest double
(`Rounds`). Comparisons of finite doubles are those of their values.
-/

namespace FairProgram.Double

open Float.Model Float.Model.UnpackedFloat

def signed : Sign → ℚ → ℚ
  | .negative, q => -q
  | .positive, q => q

/-- The value of a finite double. -/
def value (x : Float) : ℚ :=
  match x.toModel.unpack with
  | .finite sign mantissa exponent _ => signed sign (mantissa * 2 ^ exponent)
  | _ => 0

/-- The nearest double to a number, an infinity where that would have too large an exponent. -/
def Rounds (x : Float) (q : ℚ) : Prop :=
  if |nearest q| < 2 ^ (1024 : ℤ) then x.isFinite = true ∧ value x = nearest q
  else x.toModel.unpack = .infinity (if q < 0 then .negative else .positive)

-- ---------------------------------------------------------------------------
-- Values
-- ---------------------------------------------------------------------------

section
variable {x y : Float} {sign : Sign} {q r : ℚ}

@[simp] theorem abs_signed (sign : Sign) (q : ℚ) : |signed sign q| = |q| := by
  cases sign
  · exact abs_neg q
  · rfl

theorem nearest_signed (sign : Sign) (q : ℚ) :
    nearest (signed sign q) = signed sign (nearest q) := by
  cases sign
  · exact nearest_neg q
  · rfl

theorem finite_cases (hx : x.isFinite = true) :
    (∃ sign, x.toModel.unpack = .zero sign) ∨
      ∃ sign mantissa exponent hpos, x.toModel.unpack = .finite sign mantissa exponent hpos := by
  have hx : x.toModel.unpack.isFinite = true := hx
  cases hu : x.toModel.unpack <;> simp_all [UnpackedFloat.isFinite]

theorem value_of_zero (h : x.toModel.unpack = .zero sign) : value x = 0 := by
  rw [value, h]

theorem value_of_finite {mantissa : Nat} {exponent : ℤ} {hpos : 0 < mantissa}
    (h : x.toModel.unpack = .finite sign mantissa exponent hpos) :
    value x = signed sign (mantissa * 2 ^ exponent) := by
  rw [value, h]

theorem isFinite_of_unpack (h : x.toModel.unpack.isFinite = true) : x.isFinite = true := h

theorem value_mem_grid (x : Float) : ∃ (m e : ℤ), |m| < 2 ^ 53 ∧ -1074 ≤ e ∧ e ≤ 971 ∧
    value x = m * 2 ^ e := by
  cases hu : x.toModel.unpack with
  | finite sign mantissa exponent hpos =>
    obtain ⟨⟨hlt, hleast, -⟩, hmost⟩ := canonical_of_unpack hu
    rw [value_of_finite hu]
    cases sign with
    | negative => exact ⟨-mantissa, exponent, by simpa using hlt, hleast, hmost, by simp [signed]⟩
    | positive => exact ⟨mantissa, exponent, by simpa using hlt, hleast, hmost, by simp [signed]⟩
  | infinity _ | notANumber | zero _ =>
    exact ⟨0, 0, by norm_num, by norm_num, by norm_num, by simp [value, hu]⟩

/-- The values of doubles are their own nearest ones. -/
@[simp] theorem nearest_value (x : Float) : nearest (value x) = value x := by
  obtain ⟨m, e, hm, hleast, -, hx⟩ := value_mem_grid x
  rw [hx, nearest_mul_zpow hm hleast]

theorem abs_value_lt (x : Float) : |value x| < 2 ^ (1024 : ℤ) := by
  obtain ⟨m, e, hm, -, hmost, hx⟩ := value_mem_grid x
  have hm : |(m : ℚ)| < 2 ^ 53 := by exact_mod_cast hm
  rw [hx, abs_mul, abs_of_pos (show (0 : ℚ) < 2 ^ e by positivity)]
  calc |(m : ℚ)| * 2 ^ e < 2 ^ 53 * 2 ^ e := mul_lt_mul_of_pos_right hm (by positivity)
    _ = 2 ^ (53 + e) := by rw [zpow_add₀ two_ne_zero]; rfl
    _ ≤ 2 ^ (1024 : ℤ) := zpow_le_zpow_right₀ one_le_two (by omega)

/-- What the model packs is the nearest double. -/
theorem IsNearest.rounds {u : UnpackedFloat} (h : IsNearest u sign q) (hq : 0 < q)
    (hx : x.toModel = Float.Model.pack u) : Rounds x (signed sign q) := by
  rw [Rounds, nearest_signed, abs_signed]
  obtain ⟨hzero, rfl⟩ | ⟨mantissa, exponent, hpos, rfl, hcanonical, hnearest⟩ := h
  · have hu : x.toModel.unpack = .zero sign := by rw [hx, unpack_pack_zero]
    rw [hzero, if_pos (by norm_num), value_of_zero hu]
    refine ⟨isFinite_of_unpack (by rw [hu]; rfl), ?_⟩
    cases sign <;> simp [signed]
  · rw [← hnearest, abs_of_pos (by positivity)]
    obtain hmost | hmost := le_or_gt exponent 971
    · have hu : x.toModel.unpack = .finite sign mantissa exponent hpos := by
        rw [hx, unpack_pack_finite hcanonical hmost]
      have hv := value_of_finite hu
      have hlt := abs_value_lt x
      rw [hv, abs_signed, abs_of_pos (by positivity)] at hlt
      rw [if_pos hlt, hv]
      exact ⟨isFinite_of_unpack (by rw [hu]; rfl), rfl⟩
    · have hover : ¬ (mantissa : ℚ) * 2 ^ exponent < 2 ^ (1024 : ℤ) := by
        have hm : (2 : ℚ) ^ 52 ≤ mantissa := by exact_mod_cast hcanonical.leading (by omega)
        rw [not_lt]
        calc (2 : ℚ) ^ (1024 : ℤ) ≤ 2 ^ (52 + exponent) :=
              zpow_le_zpow_right₀ one_le_two (by omega)
          _ = 2 ^ 52 * 2 ^ exponent := by rw [zpow_add₀ two_ne_zero]; rfl
          _ ≤ mantissa * 2 ^ exponent := mul_le_mul_of_nonneg_right hm (by positivity)
      rw [if_neg hover, hx, pack_overflow hmost, unpack_pack_infinity]
      cases sign
      · rw [signed, if_pos (by linarith)]
      · rw [signed, if_neg (by linarith)]

theorem rounds_of_zero (h : x.toModel.unpack = .zero sign) : Rounds x 0 := by
  rw [Rounds, nearest_zero, abs_zero, if_pos (by positivity), value_of_zero h]
  exact ⟨isFinite_of_unpack (by rw [h]; rfl), rfl⟩

theorem rounds_value (hx : x.isFinite = true) : Rounds x (value x) := by
  rw [Rounds, nearest_value, if_pos (abs_value_lt x)]
  exact ⟨hx, rfl⟩

theorem Rounds.isNaN (h : Rounds x q) : x.isNaN = false := by
  unfold Rounds at h
  split at h
  · exact isNaN_of_isFinite h.1
  · show x.toModel.unpack.isNaN = false
    rw [h]
    rfl

theorem Rounds.of_lt (h : Rounds x q) (hlt : |nearest q| < 2 ^ (1024 : ℤ)) :
    x.isFinite = true ∧ value x = nearest q := by
  rwa [Rounds, if_pos hlt] at h

/-- A number that some double has as its value is not rounded. -/
theorem Rounds.of_value (h : Rounds x (value y)) : x.isFinite = true ∧ value x = value y := by
  have hlt : |nearest (value y)| < 2 ^ (1024 : ℤ) := by
    rw [nearest_value]
    exact abs_value_lt y
  obtain ⟨hx, hv⟩ := h.of_lt hlt
  exact ⟨hx, hv.trans (nearest_value y)⟩

end

-- ---------------------------------------------------------------------------
-- Operations
-- ---------------------------------------------------------------------------

section
variable {x y : Float}

theorem rounds_round {sign : Sign} {mantissa : Nat} {exponent : ℤ} (hpos : 0 < mantissa)
    (hx : x.toModel = Float.Model.pack (UnpackedFloat.round .binary64 sign mantissa exponent)) :
    Rounds x (signed sign (mantissa * 2 ^ exponent)) :=
  (round_isNearest hpos).rounds (by positivity) hx

theorem rounds_normalize {mantissa exponent : ℤ} {sign : Sign}
    (hx : x.toModel = Float.Model.pack (UnpackedFloat.normalize .binary64 mantissa exponent sign)) :
    Rounds x (mantissa * 2 ^ exponent) := by
  unfold UnpackedFloat.normalize at hx
  obtain hlt | rfl | hgt := lt_trichotomy mantissa 0
  · rw [compare_lt_iff_lt.mpr hlt] at hx
    have h := rounds_round (by omega) hx
    have habs : (((-mantissa).toNat : ℕ) : ℚ) = -mantissa := by
      exact_mod_cast Int.toNat_of_nonneg (by omega)
    rwa [signed, habs, neg_mul, neg_neg] at h
  · rw [Int.cast_zero, zero_mul]
    exact rounds_of_zero (hx ▸ unpack_pack_zero sign)
  · rw [compare_gt_iff_gt.mpr hgt] at hx
    have h := rounds_round (by omega) hx
    have habs : ((mantissa.toNat : ℕ) : ℚ) = mantissa := by
      exact_mod_cast Int.toNat_of_nonneg (by omega)
    rwa [signed, habs] at h

theorem signed_mul (sign sign' : Sign) (q r : ℚ) :
    signed (sign * sign') (q * r) = signed sign q * signed sign' r := by
  cases sign <;> cases sign'
  · exact (neg_mul_neg q r).symm
  · exact (neg_mul q r).symm
  · exact (mul_neg q r).symm
  · rfl

theorem signed_div (sign sign' : Sign) (q r : ℚ) :
    signed (sign / sign') (q / r) = signed sign q / signed sign' r := by
  cases sign <;> cases sign'
  · exact (neg_div_neg_eq q r).symm
  · exact (neg_div r q).symm
  · exact (div_neg q).symm
  · rfl

theorem mul_rounds (hx : x.isFinite = true) (hy : y.isFinite = true) :
    Rounds (x * y) (value x * value y) := by
  have hmul : (x * y).toModel =
      Float.Model.pack (UnpackedFloat.mul .binary64 x.toModel.unpack y.toModel.unpack) := rfl
  obtain ⟨sign, hux⟩ | ⟨sign, mantissa, exponent, hpos, hux⟩ := finite_cases hx
  · rw [value_of_zero hux, zero_mul]
    obtain ⟨sign', huy⟩ | ⟨sign', mantissa', exponent', hpos', huy⟩ := finite_cases hy <;>
    · rw [hux, huy] at hmul
      exact rounds_of_zero (hmul ▸ unpack_pack_zero (sign * sign'))
  · obtain ⟨sign', huy⟩ | ⟨sign', mantissa', exponent', hpos', huy⟩ := finite_cases hy
    · rw [value_of_zero huy, mul_zero]
      rw [hux, huy] at hmul
      exact rounds_of_zero (hmul ▸ unpack_pack_zero (sign * sign'))
    · rw [hux, huy] at hmul
      have hc := (canonical_of_unpack hux).1
      have hc' := (canonical_of_unpack huy).1
      have hlog : 52 ≤ (mantissa * mantissa').log2 ∨ exponent + exponent' ≤ -1074 := by
        have hle {places : Nat} (h : 2 ^ 52 ≤ places) (hdvd : places ∣ mantissa * mantissa') :
            52 ≤ (mantissa * mantissa').log2 := by
          have hprod : 0 < mantissa * mantissa' := Nat.mul_pos hpos hpos'
          exact (Nat.le_log2 hprod.ne').mpr (h.trans (Nat.le_of_dvd hprod hdvd))
        obtain h | h := lt_or_ge (-1074) exponent
        · exact .inl (hle (hc.leading h) (Nat.dvd_mul_right _ _))
        · obtain h' | h' := lt_or_ge (-1074) exponent'
          · exact .inl (hle (hc'.leading h') (Nat.dvd_mul_left _ _))
          · exact .inr (by omega)
      have hplace : exponent + exponent' ≤ Format.binary64.targetExponent
          (totalExponent (mantissa * mantissa') (exponent + exponent')) := by
        rw [targetExponent_eq]
        omega
      have h := (roundWithAccuracy_exact (Nat.mul_pos hpos hpos') hplace).rounds
        (by positivity) hmul
      have hprod : ((mantissa * mantissa' : ℕ) : ℚ) * 2 ^ (exponent + exponent') =
          mantissa * 2 ^ exponent * (mantissa' * 2 ^ exponent') := by
        rw [zpow_add₀ two_ne_zero]
        push_cast
        ring
      rwa [hprod, signed_mul, ← value_of_finite hux, ← value_of_finite huy] at h

theorem eq_of_toModel (h : x.toModel = y.toModel) : x = y :=
  Float.toBits_inj.mp (congrArg Float.Model.toBits h)

theorem toModel_of_unpack {u : UnpackedFloat} (h : x.toModel.unpack = u) :
    x.toModel = Float.Model.pack u := by
  have hbits : UnpackedFloat.pack .binary64 u = x.toModel.toBits.toBitVec := by
    rw [← h]
    exact pack_unpack_of_valid x.toModel.valid
  obtain ⟨model⟩ := x
  cases model
  simp_all [Float.Model.pack]

/-- A double is brought to a lesser exponent without loss. -/
theorem signed_shiftLeft {sign : Sign} {mantissa : Nat} {exponent least : ℤ}
    (h : least ≤ exponent) :
    ((sign.apply (mantissa <<< (exponent - least).toNat : ℕ) : ℤ) : ℚ) * 2 ^ least =
      signed sign (mantissa * 2 ^ exponent) := by
  obtain ⟨shift, rfl⟩ := Int.le.dest h
  have hshift : (least + shift - least).toNat = shift := by omega
  have hvalue : ((mantissa <<< shift : ℕ) : ℚ) * 2 ^ least = mantissa * 2 ^ (least + shift) := by
    rw [Nat.shiftLeft_eq, zpow_add₀ two_ne_zero, zpow_natCast]
    push_cast
    ring
  rw [hshift, ← hvalue]
  cases sign
  · show ((-((mantissa <<< shift : ℕ) : ℤ) : ℤ) : ℚ) * 2 ^ least = -(_ * 2 ^ least)
    rw [Int.cast_neg, neg_mul, Int.cast_natCast]
  · show (((mantissa <<< shift : ℕ) : ℤ) : ℚ) * 2 ^ least = _ * 2 ^ least
    rw [Int.cast_natCast]

theorem add_rounds (hx : x.isFinite = true) (hy : y.isFinite = true) :
    Rounds (x + y) (value x + value y) := by
  have hadd : (x + y).toModel =
      Float.Model.pack (UnpackedFloat.add .binary64 x.toModel.unpack y.toModel.unpack) := rfl
  obtain ⟨sign, hux⟩ | ⟨sign, mantissa, exponent, hpos, hux⟩ := finite_cases hx
  · obtain ⟨sign', huy⟩ | ⟨sign', mantissa', exponent', hpos', huy⟩ := finite_cases hy
    · rw [value_of_zero hux, value_of_zero huy, add_zero]
      rw [hux, huy] at hadd
      simp only [UnpackedFloat.add] at hadd
      split at hadd <;> exact rounds_of_zero (hadd ▸ unpack_pack_zero _)
    · rw [value_of_zero hux, zero_add]
      rw [hux, huy] at hadd
      have hsame : x + y = y := eq_of_toModel (hadd.trans (toModel_of_unpack huy).symm)
      rw [hsame]
      exact rounds_value hy
  · obtain ⟨sign', huy⟩ | ⟨sign', mantissa', exponent', hpos', huy⟩ := finite_cases hy
    · rw [value_of_zero huy, add_zero]
      rw [hux, huy] at hadd
      have hsame : x + y = x := eq_of_toModel (hadd.trans (toModel_of_unpack hux).symm)
      rw [hsame]
      exact rounds_value hx
    · rw [hux, huy] at hadd
      have h := rounds_normalize hadd
      rw [Int.cast_add, add_mul, signed_shiftLeft (min_le_left _ _),
        signed_shiftLeft (min_le_right _ _), ← value_of_finite hux, ← value_of_finite huy] at h
      exact h

theorem unpack_neg (x : Float) : (-x).toModel.unpack = x.toModel.unpack.neg := by
  have hneg : (-x).toModel = Float.Model.pack x.toModel.unpack.neg := rfl
  rw [hneg]
  cases hu : x.toModel.unpack with
  | notANumber => rfl
  | infinity sign => exact unpack_pack_infinity _
  | zero sign => exact unpack_pack_zero _
  | finite sign mantissa exponent hpos =>
    obtain ⟨hcanonical, hmost⟩ := canonical_of_unpack hu
    exact unpack_pack_finite hcanonical hmost

@[simp] theorem isFinite_neg (x : Float) : (-x).isFinite = x.isFinite := by
  show (-x).toModel.unpack.isFinite = x.toModel.unpack.isFinite
  rw [unpack_neg]
  cases x.toModel.unpack <;> rfl

@[simp] theorem isNaN_neg (x : Float) : (-x).isNaN = x.isNaN := by
  show (-x).toModel.unpack.isNaN = x.toModel.unpack.isNaN
  rw [unpack_neg]
  cases x.toModel.unpack <;> rfl

@[simp] theorem value_neg (x : Float) : value (-x) = -value x := by
  unfold value
  rw [unpack_neg]
  cases x.toModel.unpack with
  | finite sign _ _ _ =>
    cases sign
    · exact (neg_neg _).symm
    · rfl
  | _ => exact neg_zero.symm

theorem Rounds.neg {q : ℚ} (h : Rounds x q) : Rounds (-x) (-q) := by
  unfold Rounds at h ⊢
  rw [nearest_neg, abs_neg]
  split at h
  · rename_i hlt
    rw [if_pos hlt]
    exact ⟨(isFinite_neg x).trans h.1, by rw [value_neg, h.2]⟩
  · rename_i hover
    have hne : q ≠ 0 := by
      rintro rfl
      rw [nearest_zero, abs_zero] at hover
      exact hover (by positivity)
    rw [if_neg hover, unpack_neg, h]
    obtain hq | hq := lt_or_gt_of_ne hne
    · rw [if_pos hq, if_neg (not_lt.mpr (neg_nonneg.mpr hq.le))]
      rfl
    · rw [if_neg hq.not_gt, if_pos (neg_lt_zero.mpr hq)]
      rfl

/-- A difference is a sum, also of infinities and of zeros with signs. -/
theorem sub_eq_add (x y : Float) : x - y = x + -y := by
  apply eq_of_toModel
  show Float.Model.pack (UnpackedFloat.sub .binary64 x.toModel.unpack y.toModel.unpack) =
    Float.Model.pack (UnpackedFloat.add .binary64 x.toModel.unpack (-y).toModel.unpack)
  rw [unpack_neg]
  cases x.toModel.unpack with
  | finite _ _ _ _ =>
    cases y.toModel.unpack with
    | finite sign _ _ _ =>
      cases sign
      · exact congrArg (fun n => Float.Model.pack (UnpackedFloat.normalize .binary64 n _ _))
          (Int.sub_neg _ _)
      · exact congrArg (fun n => Float.Model.pack (UnpackedFloat.normalize .binary64 n _ _))
          Int.sub_eq_add_neg
    | _ => rfl
  | _ => cases y.toModel.unpack <;> rfl

theorem sub_rounds (hx : x.isFinite = true) (hy : y.isFinite = true) :
    Rounds (x - y) (value x - value y) := by
  rw [sub_eq_add, sub_eq_add_neg, ← value_neg]
  exact add_rounds hx ((isFinite_neg y).trans hy)

theorem log2_zpow_le {mantissa : Nat} (exponent : ℤ) (hpos : 0 < mantissa) :
    (2 : ℚ) ^ (totalExponent mantissa exponent - 1) ≤ mantissa * 2 ^ exponent := by
  have hle : (2 : ℚ) ^ mantissa.log2 ≤ mantissa := by exact_mod_cast Nat.log2_self_le hpos.ne'
  have hsplit : totalExponent mantissa exponent - 1 = mantissa.log2 + exponent := by
    unfold totalExponent
    omega
  rw [hsplit, zpow_add₀ two_ne_zero, zpow_natCast]
  exact mul_le_mul_of_nonneg_right hle (by positivity)

theorem lt_zpow_log2 (mantissa : Nat) (exponent : ℤ) :
    (mantissa : ℚ) * 2 ^ exponent < 2 ^ totalExponent mantissa exponent := by
  have hlt : (mantissa : ℚ) < 2 ^ (mantissa.log2 + 1) := by exact_mod_cast Nat.lt_log2_self
  rw [totalExponent, zpow_add₀ two_ne_zero]
  exact mul_lt_mul_of_pos_right (by exact_mod_cast hlt) (by positivity)

/-- The quotient of mantissas is taken with so many places that the last one of the double is
among them, or with as many as the least double has. -/
theorem divCore_isNearest {mantissa mantissa' quotient : Nat} {exponent exponent' place : ℤ}
    {accuracy : Accuracy} (sign : Sign) (hpos : 0 < mantissa) (hpos' : 0 < mantissa')
    (hcore : divCore .binary64 mantissa exponent mantissa' exponent' =
      (quotient, place, accuracy)) :
    IsNearest (roundWithAccuracy .binary64 sign quotient place accuracy) sign
      (mantissa * 2 ^ exponent / (mantissa' * 2 ^ exponent')) := by
  set total := totalExponent mantissa exponent - totalExponent mantissa' exponent' with htotal
  set least := min (exponent - exponent') (Format.binary64.targetExponent total) with hleast
  have htarget : Format.binary64.targetExponent total = max (total - 53) (-1074) := rfl
  obtain ⟨shift, hshift⟩ := Int.le.dest (min_le_left (exponent - exponent')
    (Format.binary64.targetExponent total))
  rw [← hleast] at hshift
  have hamount : (exponent - exponent' - least).toNat = shift := by omega
  set scaled := mantissa <<< shift with hscaled
  have hden : (0 : ℚ) < mantissa' := by exact_mod_cast hpos'
  have hmod : scaled % mantissa' < mantissa' := Nat.mod_lt _ hpos'
  have hexact : ((scaled / mantissa' : ℕ) : ℚ) + (scaled % mantissa' : ℕ) / mantissa' =
      scaled / mantissa' := by
    rw [eq_div_iff hden.ne', add_mul, div_mul_cancel₀ _ hden.ne']
    exact_mod_cast Nat.div_add_mod' scaled mantissa'
  have hq : (mantissa : ℚ) * 2 ^ exponent / (mantissa' * 2 ^ exponent') =
      scaled / mantissa' * 2 ^ least := by
    have hsplit : exponent = shift + least + exponent' := by omega
    rw [hscaled, Nat.shiftLeft_eq, hsplit, zpow_add₀ two_ne_zero, zpow_add₀ two_ne_zero]
    push_cast
    field_simp
    rw [zpow_natCast]
  have hlow : (2 : ℚ) ^ (total - 1) ≤ scaled / mantissa' * 2 ^ least := by
    rw [← hq, le_div_iff₀ (by positivity)]
    calc (2 : ℚ) ^ (total - 1) * (mantissa' * 2 ^ exponent')
        ≤ 2 ^ (total - 1) * 2 ^ totalExponent mantissa' exponent' :=
          mul_le_mul_of_nonneg_left (lt_zpow_log2 _ _).le (by positivity)
      _ = 2 ^ (totalExponent mantissa exponent - 1) := by
          rw [← zpow_add₀ two_ne_zero, htotal]
          congr 1
          ring
      _ ≤ mantissa * 2 ^ exponent := log2_zpow_le exponent hpos
  have hv : (0 : ℚ) < scaled / mantissa' * 2 ^ least := (zpow_pos two_pos _).trans_le hlow
  have hle : least ≤ lastPlace (scaled / mantissa' * 2 ^ least) := by
    have hmono := lastPlace_mono (zpow_pos two_pos _) hlow
    rw [lastPlace_eq le_rfl (zpow_lt_zpow_right₀ one_lt_two (lt_add_one _))] at hmono
    omega
  rw [divCore, ← htotal, ← hleast, hamount, ← hscaled] at hcore
  obtain ⟨hquotient, hplace, haccuracy⟩ := by simpa only [Prod.mk.injEq] using hcore
  rw [hq, ← hquotient, ← hplace, ← haccuracy]
  refine roundWithAccuracy_isNearest (pos_of_mul_pos_left hv (by positivity))
    (hexact ▸ describes_accuracyOfFraction _ hmod) ?_ hle
  obtain hzero | hquotient := Nat.eq_zero_or_pos (scaled / mantissa')
  · have hsmall : (scaled : ℚ) / mantissa' < 1 := by
      rw [div_lt_one hden]
      exact_mod_cast (Nat.div_eq_zero_iff_lt hpos').mp hzero
    have hlt : (scaled : ℚ) / mantissa' * 2 ^ least < 2 ^ least :=
      mul_lt_of_lt_one_left (by positivity) hsmall
    have htotal : total - 1 < least :=
      (zpow_lt_zpow_iff_right₀ one_lt_two).mp (hlow.trans_lt hlt)
    have hplace : lastPlace (scaled / mantissa' * 2 ^ least) ≤ -1074 := by
      refine lastPlace_le le_rfl hv.ne' ?_
      rw [abs_of_pos hv]
      exact hlt.trans_le (zpow_le_zpow_right₀ one_le_two (by omega))
    rw [hzero, targetExponent_eq, Nat.log2_zero]
    have := neg_1074_le_lastPlace (scaled / mantissa' * 2 ^ least)
    omega
  · apply lastPlace_of_mantissa hquotient
    · rw [← hexact]
      exact le_add_of_nonneg_right (by positivity)
    · rw [← hexact]
      have hlt : ((scaled % mantissa' : ℕ) : ℚ) < mantissa' := by exact_mod_cast hmod
      have := (div_lt_one hden).mpr hlt
      linarith

theorem div_rounds (hx : x.isFinite = true) (hy : y.isFinite = true) (hzero : value y ≠ 0) :
    Rounds (x / y) (value x / value y) := by
  have hdiv : (x / y).toModel =
      Float.Model.pack (UnpackedFloat.div .binary64 x.toModel.unpack y.toModel.unpack) := rfl
  obtain ⟨sign', huy⟩ | ⟨sign', mantissa', exponent', hpos', huy⟩ := finite_cases hy
  · exact absurd (value_of_zero huy) hzero
  obtain ⟨sign, hux⟩ | ⟨sign, mantissa, exponent, hpos, hux⟩ := finite_cases hx
  · rw [hux, huy] at hdiv
    rw [value_of_zero hux, zero_div]
    exact rounds_of_zero (hdiv ▸ unpack_pack_zero (sign / sign'))
  · rw [hux, huy] at hdiv
    have h := (divCore_isNearest (sign / sign') hpos hpos' rfl).rounds (by positivity) hdiv
    rwa [signed_div, ← value_of_finite hux, ← value_of_finite huy] at h

end

end FairProgram.Double
