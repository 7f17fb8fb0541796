import RuleGraph.Proofs.Nearest
import RuleGraph.Proofs.Numerals

/-!
# Numerals that are measured exactly

The measure of a numeral multiplies or divides its digits, as one whole number, by a power of ten.
If both are doubles exactly (`Numeral.IsShort`), this rounds once, and the result is the double that
the value of the numeral is nearest to. The value of a shortest decimal is nearest to the double
that it stands for, and so a double with a short text is read back from it.
-/

namespace RuleGraph

open Float.Model UnpackedFloat

/-! ## Scaling -/

def IsDouble.toFloat {m : Nat} {e : Int} (h : IsDouble m e) : Float :=
  .ofModel (Float.Model.pack (.finite .positive m e h.pos))

namespace Numeral

/-- A scaled whole number is the double that its value is nearest to, if the number and the power
are exact. -/
theorem scaled_of_nearest {n m : Nat} {scale e : Int} (steps : Nat) (hpos : 0 < n)
    (hlt : n < 2 ^ 53) (hscale : scale.natAbs ≤ 22) (hdouble : IsDouble m e)
    (hnearest : IsNearest m e (n * 10 ^ scale / 2 ^ e)) :
    scaled (steps + 1) (UInt64.ofNat n).toFloat scale = some hdouble.toFloat := by
  obtain ⟨m₁, e₁, h₁, hwhole, hvalue₁, hfull, hleast⟩ := unpack_toFloat hpos hlt
  obtain ⟨m₂, e₂, h₂, hpower, hvalue₂, hmost⟩ := unpack_power_of_le hscale
  rw [scaled, if_pos (by omega)]
  by_cases hsign : 0 ≤ scale
  · have hcast : (10 : ℚ) ^ scale = 10 ^ scale.natAbs := by
      rw [← zpow_natCast]
      congr 1
      omega
    rw [hcast, ← hvalue₁, ← hvalue₂] at hnearest
    have hproduct : (UInt64.ofNat n).toFloat * power scale.natAbs = hdouble.toFloat := by
      show Float.ofModel (Float.Model.pack (UnpackedFloat.mul Format.binary64
        (UInt64.ofNat n).toFloat.toModel.unpack (power scale.natAbs).toModel.unpack)) = _
      rw [hwhole, hpower, mul_of_nearest hdouble hfull hnearest]
      rfl
    have hfinite : hdouble.toFloat.isFinite = true := by
      show (Float.Model.pack (.finite .positive m e hdouble.pos)).unpack.isFinite = true
      rw [unpack_pack hdouble]
      rfl
    rw [if_pos hsign]
    dsimp only
    rw [hproduct, if_pos hfinite]
  · have hcast : (10 : ℚ) ^ scale = (10 ^ scale.natAbs)⁻¹ := by
      rw [← zpow_natCast, ← zpow_neg]
      congr 1
      omega
    rw [hcast, ← div_eq_mul_inv, ← hvalue₁, ← hvalue₂] at hnearest
    have hratio : -1021 ≤ totalExponent m₁ e₁ - totalExponent m₂ e₂ := by
      simp only [totalExponent] at hmost ⊢
      omega
    have hquotient : (UInt64.ofNat n).toFloat / power scale.natAbs = hdouble.toFloat := by
      show Float.ofModel (Float.Model.pack (UnpackedFloat.div Format.binary64
        (UInt64.ofNat n).toFloat.toModel.unpack (power scale.natAbs).toModel.unpack)) = _
      rw [hwhole, hpower, div_of_nearest hdouble hratio hnearest]
      rfl
    rw [if_neg hsign, hquotient]

/-! ## Digits -/

/-- The digits of a numeral as one whole number, the point left out. -/
def significand (n : Numeral) : Nat :=
  natural (n.whole ++ n.fraction)

def statedExponent (n : Numeral) : Int :=
  match n.exponent with
  | none => 0
  | some (negative, digits) => if negative then -(natural digits : Int) else natural digits

/-- The power of ten that the significand is scaled with. -/
def scale (n : Numeral) : Int :=
  n.statedExponent - n.fraction.length

theorem le_foldl_digits (s : Nat) (digits : List Nat) :
    s ≤ digits.foldl (fun n digit => n * 10 + digit) s := by
  induction digits generalizing s with
  | nil => exact le_refl s
  | cons digit rest ih =>
      have hstep := ih (s * 10 + digit)
      rw [List.foldl_cons]
      omega

/-- All digits are collected if they fit into a word. -/
theorem collect_eq {s : Nat} {digits : List Nat}
    (h : digits.foldl (fun n digit => n * 10 + digit) s < UInt64.size) :
    collect s digits = (digits.foldl (fun n digit => n * 10 + digit) s, []) := by
  induction digits generalizing s with
  | nil => rfl
  | cons digit rest ih =>
      rw [List.foldl_cons] at h ⊢
      have hfits := (le_foldl_digits (s * 10 + digit) rest).trans_lt h
      rw [collect, if_pos hfits, ih h]

theorem magnitude_eq {n : Numeral} (hsignificand : n.significand < 2 ^ 53)
    (hstated : n.statedExponent.natAbs < 2 ^ 31) (hscale : n.scale.natAbs ≤ 22) :
    n.magnitude = scaled 3 (UInt64.ofNat n.significand).toFloat n.scale := by
  have hword : n.significand < UInt64.size := hsignificand.trans (by decide)
  have hdigits : n.significand =
      n.fraction.foldl (fun n digit => n * 10 + digit) (natural n.whole) := by
    rw [significand, natural_append]
  rw [hdigits] at hword
  have hwhole : collect 0 n.whole = (natural n.whole, []) :=
    collect_eq ((le_foldl_digits _ n.fraction).trans_lt hword)
  have hfraction : collect (natural n.whole) n.fraction = (n.significand, []) := by
    rw [collect_eq hword, hdigits]
  have hclamp : clampExponent n.scale = n.scale := by
    rw [clampExponent]
    omega
  unfold magnitude
  simp only [hwhole, hfraction, List.length_nil, Nat.sub_zero, Int.natCast_zero, zero_sub]
  cases hexponent : n.exponent with
  | none => simp [scale, statedExponent, hexponent]
  | some stated =>
      obtain ⟨negative, digits⟩ := stated
      have hrange : ¬2147483647 < natural digits := by
        cases negative <;> simp [statedExponent, hexponent] at hstated <;> omega
      have hsum : (if negative = true then -(n.fraction.length : Int) - natural digits
          else -(n.fraction.length : Int) + natural digits) = n.scale := by
        cases negative <;> simp [scale, statedExponent, hexponent] <;> omega
      dsimp only
      rw [if_neg hrange, hsum, hclamp]

theorem natural_append_zeros (digits : List Nat) (count : Nat) :
    natural (digits ++ List.replicate count 0) = natural digits * 10 ^ count := by
  induction count with
  | zero => simp
  | succ count ih =>
      rw [List.replicate_succ', ← List.append_assoc, natural_append, ih, pow_succ]
      simp [mul_assoc]

theorem natural_zeros_append (digits : List Nat) (count : Nat) :
    natural (List.replicate count 0 ++ digits) = natural digits := by
  have hzeros : natural (List.replicate count 0) = 0 := by
    have happended := natural_append_zeros [] count
    simpa [natural] using happended
  rw [natural_append, hzeros]
  rfl

end Numeral

namespace Decimal

variable (negative : Bool) (d : Decimal)

/-- The point and the zeros of a written decimal do not change its value. -/
theorem value_positionalNumeral :
    ((d.positionalNumeral negative).significand : ℚ) * 10 ^ (d.positionalNumeral negative).scale =
      d.digits * 10 ^ d.exponent := by
  have hlength := d.length_digits_pos
  have hdigits := natural_decimalDigits d.digits
  unfold positionalNumeral Numeral.scale Numeral.significand Numeral.statedExponent
  dsimp only
  by_cases hexponent : 0 ≤ d.exponent
  · rw [if_pos hexponent]
    have hzeros : decimalDigits d.digits ++ List.replicate d.exponent.toNat 0 ++ [0] =
        decimalDigits d.digits ++ List.replicate (d.exponent.toNat + 1) 0 := by
      rw [List.replicate_succ', List.append_assoc]
    have hcast : (10 : ℚ) ^ d.exponent = 10 ^ d.exponent.toNat := by
      rw [← zpow_natCast]
      congr 1
      omega
    dsimp only
    rw [hzeros, Numeral.natural_append_zeros, hdigits, hcast, pow_succ]
    push_cast
    simp only [List.length_singleton, Nat.cast_one, zero_sub, zpow_neg_one]
    field_simp
  · rw [if_neg hexponent]
    by_cases hpoint : 0 < ((decimalDigits d.digits).length : Int) + d.exponent
    · rw [if_pos hpoint]
      have hscale : (0 : Int) - ((decimalDigits d.digits).drop
          (((decimalDigits d.digits).length : Int) + d.exponent).toNat).length = d.exponent := by
        rw [List.length_drop]
        omega
      dsimp only
      rw [List.take_append_drop, hdigits, hscale]
    · rw [if_neg hpoint]
      have hscale : (0 : Int) - (List.replicate
          (-(((decimalDigits d.digits).length : Int) + d.exponent)).toNat 0 ++
            decimalDigits d.digits).length = d.exponent := by
        rw [List.length_append, List.length_replicate]
        omega
      have hzeros : Numeral.natural ([0] ++ (List.replicate
          (-(((decimalDigits d.digits).length : Int) + d.exponent)).toNat 0 ++
            decimalDigits d.digits)) = d.digits := by
        rw [← List.append_assoc]
        exact (Numeral.natural_zeros_append _ (_ + 1)).trans hdigits
      dsimp only
      rw [hzeros, hscale]

theorem statedExponent_scientificNumeral (leading : Int) :
    (d.scientificNumeral negative leading).statedExponent = leading := by
  unfold scientificNumeral Numeral.statedExponent
  dsimp only
  rw [natural_decimalDigits]
  by_cases hsign : leading < 0
  · rw [decide_eq_true hsign, if_pos rfl]
    omega
  · rw [decide_eq_false hsign, if_neg Bool.false_ne_true]
    omega

theorem significand_scientificNumeral (leading : Int) :
    (d.scientificNumeral negative leading).significand = d.digits := by
  unfold scientificNumeral Numeral.significand
  dsimp only
  rw [List.take_append_drop, natural_decimalDigits]

theorem scale_scientificNumeral (leading : Int) :
    (d.scientificNumeral negative leading).scale = leading - (digitCount d.digits - 1) := by
  have hlength := d.length_digits_pos
  rw [Numeral.scale, statedExponent_scientificNumeral, ← length_decimalDigits]
  unfold scientificNumeral
  dsimp only
  rw [List.length_drop]
  omega

/-- A written decimal has the value of the decimal. -/
theorem value_of_numeral :
    ((d.numeral negative).significand : ℚ) * 10 ^ (d.numeral negative).scale =
      d.digits * 10 ^ d.exponent := by
  rw [numeral]
  split
  · exact d.value_positionalNumeral negative
  · rw [significand_scientificNumeral, scale_scientificNumeral]
    congr 2
    omega

theorem statedExponent_positionalNumeral :
    (d.positionalNumeral negative).statedExponent = 0 := by
  unfold positionalNumeral
  dsimp only
  split
  · rfl
  · split <;> rfl

/-- With few digits and a small scale, the stated exponent is small too. -/
theorem statedExponent_numeral (hdigits : (d.numeral negative).significand < 2 ^ 53)
    (hscale : (d.numeral negative).scale.natAbs ≤ 22) :
    (d.numeral negative).statedExponent.natAbs < 2 ^ 31 := by
  rw [numeral] at hdigits hscale ⊢
  split at hdigits
  · rename_i hpositional
    rw [if_pos hpositional, statedExponent_positionalNumeral]
    decide
  · rename_i hpositional
    rw [if_neg hpositional, scale_scientificNumeral] at hscale
    rw [if_neg hpositional, statedExponent_scientificNumeral]
    rw [significand_scientificNumeral] at hdigits
    have hcount : digitCount d.digits ≤ 16 := by
      rw [digitCount, Nat.length_toDigits_le_iff (by decide) (by decide)]
      exact hdigits.trans (by decide)
    omega

end Decimal

/-! ## Shortest decimals -/

theorem zpow_eq_div {a : ℚ} (ha : a ≠ 0) (k : Int) : a ^ k = a ^ k.toNat / a ^ (-k).toNat := by
  rw [← zpow_natCast, ← zpow_natCast a (-k).toNat, ← zpow_sub₀ ha]
  congr 1
  omega

namespace Binary64

variable {x : Binary64} {grid : Int}

/-- What a step of the common grid is worth, in quarters of the unit of the mantissa. -/
def gridScale (x : Binary64) (grid : Int) : ℚ :=
  2 ^ x.exponent.toNat * 10 ^ (-grid).toNat

theorem gridScale_pos (x : Binary64) (grid : Int) : 0 < x.gridScale grid := by
  unfold gridScale
  positivity

theorem onGrid_eq (quarters : Nat) :
    (x.onGrid grid quarters : ℚ) = quarters * x.gridScale grid := by
  rw [onGrid, gridScale]
  push_cast [Nat.pow_eq]
  ring

theorem mul_gridUnit_eq (count : Nat) :
    ((count * x.gridUnit grid : Nat) : ℚ) =
      4 * (count * 10 ^ grid / 2 ^ x.exponent) * x.gridScale grid := by
  rw [gridUnit, denominator, gridScale, zpow_eq_div two_ne_zero, zpow_eq_div (by norm_num) grid]
  push_cast [Nat.pow_eq]
  field_simp

theorem onGrid_le_iff {quarters count : Nat} :
    x.onGrid grid quarters ≤ count * x.gridUnit grid ↔
      (quarters : ℚ) ≤ 4 * (count * 10 ^ grid / 2 ^ x.exponent) := by
  rw [← mul_le_mul_iff_of_pos_right (x.gridScale_pos grid), ← onGrid_eq, ← mul_gridUnit_eq]
  exact Nat.cast_le.symm

theorem le_onGrid_iff {quarters count : Nat} :
    count * x.gridUnit grid ≤ x.onGrid grid quarters ↔
      4 * (count * 10 ^ grid / 2 ^ x.exponent) ≤ (quarters : ℚ) := by
  rw [← mul_le_mul_iff_of_pos_right (x.gridScale_pos grid), ← onGrid_eq, ← mul_gridUnit_eq]
  exact Nat.cast_le.symm

/-- What reads back to a double is nearest to it. -/
theorem isNearest_of_readsBack (hpos : 0 < x.mantissa)
    (hnarrow : x.narrowBelow = (x.mantissa == 4503599627370496 && decide (-1074 < x.exponent)))
    {count : Nat} (h : x.readsBack grid count = true) :
    IsNearest x.mantissa x.exponent (count * 10 ^ grid / 2 ^ x.exponent) := by
  obtain ⟨low, hlow⟩ : ∃ low, low = 4 * x.mantissa - if x.narrowBelow then 1 else 2 := ⟨_, rfl⟩
  have hhalf : (4 * x.mantissa : ℚ) - 2 ≤ low := by
    have hle : 4 * x.mantissa ≤ low + 2 := by
      rw [hlow]
      split <;> omega
    have hcast : (4 * x.mantissa : ℚ) ≤ low + 2 := by exact_mod_cast hle
    linarith
  have hquarter : x.mantissa = 2 ^ 52 → -1074 < x.exponent →
      (4 * x.mantissa : ℚ) - 1 ≤ low := by
    intro hpower hleast
    have hdense : x.narrowBelow = true := by
      rw [hnarrow, hpower]
      simpa using hleast
    have hle : 4 * x.mantissa ≤ low + 1 := by
      rw [hlow, if_pos hdense]
      omega
    have hcast : (4 * x.mantissa : ℚ) ≤ low + 1 := by exact_mod_cast hle
    linarith
  rw [readsBack, ← hlow] at h
  split at h
  · rename_i heven
    obtain ⟨hbelow, habove⟩ := of_decide_eq_true h
    rw [onGrid_le_iff] at hbelow
    rw [le_onGrid_iff] at habove
    push_cast at habove
    refine ⟨by linarith, by linarith, Or.inl heven, fun hpower hleast => ?_⟩
    have hclose := hquarter hpower hleast
    linarith
  · rename_i hodd
    obtain ⟨hbelow, habove⟩ := of_decide_eq_true h
    rw [← not_le, le_onGrid_iff, not_le] at hbelow
    rw [← not_le, onGrid_le_iff, not_le] at habove
    push_cast at habove
    refine ⟨by linarith, by linarith, Or.inr ⟨by linarith, by linarith⟩, fun hpower hleast => ?_⟩
    have hclose := hquarter hpower hleast
    linarith

end Binary64

theorem Decimal.value_stripZeros (fuel : Nat) (d : Decimal) :
    ((d.stripZeros fuel).digits : ℚ) * 10 ^ (d.stripZeros fuel).exponent =
      d.digits * 10 ^ d.exponent := by
  induction fuel generalizing d with
  | zero => rfl
  | succ fuel ih =>
      rw [stripZeros]
      split
      · rename_i hzero
        have hdigits : (d.digits : ℚ) = 10 * (d.digits / 10 : Nat) := by
          have hsplit : d.digits = 10 * (d.digits / 10) := by omega
          exact_mod_cast hsplit
        rw [ih, hdigits, zpow_add_one₀ (by norm_num)]
        push_cast
        ring
      · rfl

theorem Binary64.value_exact (x : Binary64) :
    (x.exact.digits : ℚ) * 10 ^ x.exact.exponent = x.mantissa * 2 ^ x.exponent := by
  have hexponent : min x.exponent 0 = -((-x.exponent).toNat : Int) := by omega
  have hten : (10 : ℚ) ^ (-x.exponent).toNat =
      2 ^ (-x.exponent).toNat * 5 ^ (-x.exponent).toNat := by
    rw [← mul_pow]
    norm_num
  rw [exact, numerator, zpow_eq_div two_ne_zero x.exponent]
  dsimp only
  rw [hexponent, zpow_neg, zpow_natCast, hten]
  push_cast [Nat.pow_eq]
  field_simp

/-- A shortest decimal is nearest to the double that it stands for. -/
theorem Binary64.isNearest_shortest {x : Binary64} (tie : Tie) (hpos : 0 < x.mantissa)
    (hnarrow : x.narrowBelow = (x.mantissa == 4503599627370496 && decide (-1074 < x.exponent))) :
    IsNearest x.mantissa x.exponent
      ((x.shortest tie).digits * 10 ^ (x.shortest tie).exponent / 2 ^ x.exponent) := by
  rw [shortest, if_neg hpos.ne']
  dsimp only
  rw [Decimal.strip, Decimal.value_stripZeros]
  cases hhit : (List.range 17).findSome? fun (n : Nat) =>
      (x.nearestOnGrid? tie (x.scale - ((n : Int) + 1))).map fun count =>
        (⟨count, x.scale - ((n : Int) + 1)⟩ : Decimal) with
  | none =>
      rw [Option.getD_none, value_exact, mul_div_cancel_right₀ _ (by positivity)]
      exact isNearest_self _ _
  | some d =>
      obtain ⟨n, _, hn⟩ := List.exists_of_findSome?_eq_some hhit
      obtain ⟨count, hcount, rfl⟩ := Option.map_eq_some_iff.mp hn
      exact isNearest_of_readsBack hpos hnarrow (readsBack_of_nearestOnGrid? hcount)

/-! ## Short numbers -/

/-- The digits are few, and so is the power of ten: as one whole number the digits have no more than
53 bits, and the power is among the first, which are doubles exactly. -/
def Numeral.IsShort (n : Numeral) : Prop :=
  n.significand < 2 ^ 53 ∧ n.scale.natAbs ≤ 22

instance (n : Numeral) : Decidable n.IsShort :=
  inferInstanceAs (Decidable (_ ∧ _))

namespace Number

def IsShort (n : Number) : Prop :=
  ∃ numeral ∈ n.numeral?, numeral.IsShort

instance (n : Number) : Decidable n.IsShort :=
  inferInstanceAs (Decidable (∃ numeral ∈ n.numeral?, numeral.IsShort))

theorem magnitude_of_isShort {parts : Binary64} (hdouble : IsDouble parts.mantissa parts.exponent)
    (hnarrow : parts.narrowBelow =
      (parts.mantissa == 4503599627370496 && decide (-1074 < parts.exponent)))
    (hshort : ((parts.shortest .toEven).numeral parts.negative).IsShort) :
    ((parts.shortest .toEven).numeral parts.negative).magnitude = some hdouble.toFloat := by
  obtain ⟨hdigits, hscale⟩ := hshort
  have hnearest := Binary64.isNearest_shortest .toEven hdouble.pos hnarrow
  have hsignificand : 0 < ((parts.shortest .toEven).numeral parts.negative).significand := by
    have hvalue := (parts.shortest .toEven).value_of_numeral parts.negative
    have hpos := Binary64.shortest_digits_pos .toEven hdouble.pos.ne'
    apply Nat.pos_of_ne_zero
    intro hzero
    rw [hzero, Nat.cast_zero, zero_mul] at hvalue
    have hne : ((parts.shortest .toEven).digits : ℚ) *
        10 ^ (parts.shortest .toEven).exponent ≠ 0 := by
      positivity
    exact hne hvalue.symm
  rw [← Decimal.value_of_numeral parts.negative] at hnearest
  rw [Numeral.magnitude_eq hdigits (Decimal.statedExponent_numeral _ _ hdigits hscale) hscale]
  exact Numeral.scaled_of_nearest 2 hsignificand hdigits hscale hdouble hnearest

theorem reread?_zero (sign : Sign) :
    (real (.ofModel (Float.Model.pack (.zero sign)))).reread? =
      some (real (.ofModel (Float.Model.pack (.zero sign)))) := by
  cases sign <;> rw [reread?_eq_real (by decide +kernel)] <;> decide +kernel

/-- A number with a short text is read back from it. -/
theorem reread?_of_isShort {x : Float} (hx : x.isFinite = true) (h : (real x).IsShort) :
    (real x).reread? = some (real x) := by
  obtain ⟨hpacked, hdoubles⟩ := pack_unpack (hx : x.toModel.unpack.isFinite = true)
  have hparts := ofFloat?_eq_partsOf x
  have hfinite : x.toModel.unpack.isFinite = true := hx
  generalize hunpack : x.toModel.unpack = f at hpacked hdoubles hparts hfinite
  have hmodel : x = .ofModel (Float.Model.pack f) := by rw [hpacked]
  cases f with
  | infinity sign => cases hfinite
  | notANumber => cases hfinite
  | zero sign =>
      rw [hmodel]
      exact reread?_zero sign
  | finite sign m e hpos =>
      have hdouble := hdoubles sign m e hpos rfl
      obtain ⟨numeral, hnumeral, hshort⟩ := h
      rw [numeral?, hparts] at hnumeral
      cases hnumeral
      rw [reread?_real hparts, magnitude_of_isShort hdouble rfl hshort]
      cases sign with
      | positive => exact congrArg (some ∘ real) hmodel.symm
      | negative =>
          have hneg : -hdouble.toFloat = x := by
            show Float.ofModel (Float.Model.pack (Float.Model.pack
              (.finite .positive m e hpos)).unpack.neg) = x
            rw [unpack_pack hdouble, hmodel]
            rfl
          exact congrArg (some ∘ real) hneg

end Number

end RuleGraph
