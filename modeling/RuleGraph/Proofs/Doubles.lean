import Mathlib
import RuleGraph.Json.Numeral

/-!
# Doubles that are numbers

A double that is a number equals itself. Whole numbers of 64 bits are finite, and quotients by
powers of ten are numbers: up to the largest power that a double can hold, none of them is zero or
infinite. The powers are computed one by one, with the shifts of rounding, bit after bit by
definition, done at once.
-/

namespace RuleGraph

open Float.Model UnpackedFloat

/-! ## Packing -/

theorem compare_self {f : UnpackedFloat} (h : f.isNaN = false) : f.compare f = some .eq := by
  cases f with
  | infinity sign => cases sign <;> rfl
  | notANumber => cases h
  | zero sign => rfl
  | finite sign mantissa exponent hpos =>
      cases sign <;> simp [UnpackedFloat.compare, Std.ReflCmp.compare_self]

theorem beq_self_of_number {x : Float} (h : x.isNaN = false) : (x == x) = true := by
  change (x.toModel.unpack.compare x.toModel.unpack == some .eq) = true
  rw [compare_self h]
  rfl

theorem isNaN_unpack_packComponents {format : Format} {sign : Sign}
    {exponent : BitVec format.exponentBits} {mantissa : BitVec format.mantissaBitsWithoutImplicit}
    (h : exponent ≠ -1#_ ∨ mantissa = 0#_) :
    (UnpackedFloat.unpack format (packComponents format sign exponent mantissa)).isNaN = false := by
  unfold UnpackedFloat.unpack
  simp only [unpackMantissa_packComponents, unpackExponent_packComponents]
  split
  · split
    · rfl
    · rename_i hexponent hmantissa
      rcases h with h | h
      · exact absurd hexponent h
      · exact absurd h hmantissa
  · split
    · split <;> rfl
    · rfl

theorem isFinite_unpack_packComponents {format : Format} {sign : Sign}
    {exponent : BitVec format.exponentBits} {mantissa : BitVec format.mantissaBitsWithoutImplicit}
    (h : exponent ≠ -1#_) :
    (UnpackedFloat.unpack format (packComponents format sign exponent mantissa)).isFinite =
      true := by
  unfold UnpackedFloat.unpack
  simp only [unpackMantissa_packComponents, unpackExponent_packComponents]
  rw [if_neg h]
  split
  · split <;> rfl
  · rfl

theorem exponentField_ne {exponent : Int}
    (h : ¬2 ^ Format.binary64.exponentBits ≤ (exponent + Format.binary64.exponentBias +
      Format.binary64.mantissaBitsWithoutImplicit).toNat + 1) :
    BitVec.ofNat Format.binary64.exponentBits (exponent + Format.binary64.exponentBias +
      Format.binary64.mantissaBitsWithoutImplicit).toNat ≠ -1#_ := by
  intro heq
  have hfield := congrArg BitVec.toNat heq
  simp [Format.binary64, BitVec.toNat_ofNat] at hfield h
  omega

theorem isNaN_unpack_pack {f : UnpackedFloat} (h : f.isNaN = false) :
    (Float.Model.pack f).unpack.isNaN = false := by
  change (UnpackedFloat.unpack Format.binary64 (UnpackedFloat.pack Format.binary64 f)).isNaN = false
  cases f with
  | infinity sign => exact isNaN_unpack_packComponents (Or.inr rfl)
  | notANumber => cases h
  | zero sign => exact isNaN_unpack_packComponents (Or.inr rfl)
  | finite sign mantissa exponent hpos =>
      rw [UnpackedFloat.pack]
      dsimp only
      split
      · exact isNaN_unpack_packComponents (Or.inr rfl)
      · rename_i hrange
        split
        · exact isNaN_unpack_packComponents (Or.inl (exponentField_ne hrange))
        · exact isNaN_unpack_packComponents (Or.inl (by decide))

/-- Zero, or finite with an exponent in range, however large the significand. -/
def inRange : UnpackedFloat → Bool
  | .zero _ => true
  | .finite _ _ exponent _ => decide (exponent ≤ 971)
  | _ => false

theorem isFinite_unpack_pack {f : UnpackedFloat} (h : inRange f = true) :
    (Float.Model.pack f).unpack.isFinite = true := by
  change (UnpackedFloat.unpack Format.binary64 (UnpackedFloat.pack Format.binary64 f)).isFinite =
    true
  cases f with
  | infinity sign => cases h
  | notANumber => cases h
  | zero sign => exact isFinite_unpack_packComponents (by decide)
  | finite sign mantissa exponent hpos =>
      have hexponent : exponent ≤ 971 := of_decide_eq_true h
      have hrange : ¬2 ^ Format.binary64.exponentBits ≤ (exponent + Format.binary64.exponentBias +
          Format.binary64.mantissaBitsWithoutImplicit).toNat + 1 := by
        simp [Format.exponentBias]
        omega
      rw [UnpackedFloat.pack]
      dsimp only
      rw [if_neg hrange]
      split
      · exact isFinite_unpack_packComponents (exponentField_ne hrange)
      · exact isFinite_unpack_packComponents (by decide)

/-- Neither zero nor infinite, and a number. -/
def IsProper : UnpackedFloat → Bool
  | .finite _ _ _ _ => true
  | _ => false

/-- A value with a full significand and an exponent in range. -/
def isNormal : UnpackedFloat → Bool
  | .finite _ mantissa exponent _ =>
    mantissa.log2 == 52 && decide (-1074 ≤ exponent) && decide (exponent ≤ 971)
  | _ => false

theorem isProper_unpack_pack {f : UnpackedFloat} (h : isNormal f = true) :
    IsProper (Float.Model.pack f).unpack = true := by
  change IsProper (UnpackedFloat.unpack Format.binary64 (UnpackedFloat.pack Format.binary64 f)) =
    true
  cases f with
  | infinity sign => cases h
  | notANumber => cases h
  | zero sign => cases h
  | finite sign mantissa exponent hpos =>
      simp only [isNormal, Bool.and_eq_true, beq_iff_eq, decide_eq_true_eq] at h
      obtain ⟨⟨hmantissa, hleast⟩, hmost⟩ := h
      have hrange : ¬2 ^ Format.binary64.exponentBits ≤ (exponent + Format.binary64.exponentBias +
          Format.binary64.mantissaBitsWithoutImplicit).toNat + 1 := by
        simp [Format.exponentBias]
        omega
      have hzero : BitVec.ofNat Format.binary64.exponentBits (exponent +
          Format.binary64.exponentBias + Format.binary64.mantissaBitsWithoutImplicit).toNat ≠
            0#_ := by
        intro heq
        have hfield := congrArg BitVec.toNat heq
        simp [Format.binary64, Format.exponentBias, BitVec.toNat_ofNat] at hfield
        omega
      rw [UnpackedFloat.pack]
      dsimp only
      rw [if_neg hrange, if_pos (by rw [hmantissa]; rfl), UnpackedFloat.unpack]
      simp only [unpackMantissa_packComponents, unpackExponent_packComponents]
      rw [if_neg (exponentField_ne hrange), if_neg hzero]
      rfl

/-! ## Rounding -/

/-- The quotient by a power of two, rounded to the nearest integer, and to an even one in the
middle. -/
def nearestQuotient (m : Nat) : Nat → Nat
  | 0 => m
  | n + 1 =>
    let quotient := m / 2 ^ (n + 1)
    match m / 2 ^ n % 2 != 0, m % 2 ^ n != 0 with
    | false, _ => quotient
    | true, false => quotient + quotient % 2
    | true, true => quotient + 1

/-- The last bit shifted out is kept, and of all bits before whether there was one. -/
theorem shift_exact (m n : Nat) :
    (⟨m, false, false⟩ : ExtendedMantissa) >>> (n + 1) =
      (⟨m / 2 ^ (n + 1), m / 2 ^ n % 2 != 0, m % 2 ^ n != 0⟩ : ExtendedMantissa) := by
  induction n with
  | zero => simp [HShiftRight.hShiftRight, Nat.repeat, ExtendedMantissa.shiftRightOne, Nat.mod_one]
  | succ n ih =>
      have hstep : (⟨m, false, false⟩ : ExtendedMantissa) >>> (n + 1 + 1) =
          ExtendedMantissa.shiftRightOne ((⟨m, false, false⟩ : ExtendedMantissa) >>> (n + 1)) := rfl
      have hquotient : m / 2 ^ (n + 1) / 2 = m / 2 ^ (n + 1 + 1) := by
        rw [Nat.div_div_eq_div_mul, ← Nat.pow_succ]
      have hrest : m % 2 ^ (n + 1) = m % 2 ^ n + 2 ^ n * (m / 2 ^ n % 2) := Nat.mod_pow_succ
      rw [hstep, ih, ExtendedMantissa.shiftRightOne, hquotient, hrest]
      rcases Nat.mod_two_eq_zero_or_one (m / 2 ^ n) with hbit | hbit
      · simp [hbit]
      · simp [hbit]

theorem mantissa_shift (m n : Nat) :
    ((⟨m, false, false⟩ : ExtendedMantissa) >>> n).mantissa = m / 2 ^ n := by
  cases n with
  | zero => exact (Nat.div_one m).symm
  | succ n => rw [shift_exact]

theorem roundedMantissa_shift (m n : Nat) :
    ((⟨m, false, false⟩ : ExtendedMantissa) >>> n).roundedMantissa = nearestQuotient m n := by
  cases n with
  | zero => rfl
  | succ n =>
      rw [shift_exact, nearestQuotient, ExtendedMantissa.roundedMantissa]
      cases m / 2 ^ n % 2 != 0 <;> cases m % 2 ^ n != 0 <;> rfl

theorem nearestQuotient_le (m n : Nat) : nearestQuotient m n ≤ m + 1 := by
  cases n with
  | zero => exact Nat.le_succ m
  | succ n =>
      have hhalf : m / 2 ^ (n + 1) ≤ m / 2 := by
        rw [Nat.pow_succ']
        exact (Nat.div_div_eq_div_mul m 2 _).symm.trans_le (Nat.div_le_self _ _)
      rw [nearestQuotient]
      split <;> omega

/-- Rounding with each shift done at once. -/
def roundAtOnce (format : Format) (sign : Sign) (m : Nat) (e : Int) : UnpackedFloat :=
  let shift := (format.targetExponent (totalExponent m e) - e).toNat
  let rounded := nearestQuotient m shift
  let again := (format.targetExponent (totalExponent rounded (e + shift)) - (e + shift)).toNat
  if h : rounded / 2 ^ again = 0 then .zero sign
  else .finite sign (rounded / 2 ^ again) (e + shift + again) (Nat.pos_of_ne_zero h)

theorem roundWithAccuracy_exact (format : Format) (sign : Sign) (m : Nat) (e : Int) :
    roundWithAccuracy format sign m e .exact = roundAtOnce format sign m e := by
  unfold roundWithAccuracy roundAtOnce shiftToTargetExponent shiftToExponent
    ExtendedMantissa.ofMantissaAndAccuracy
  simp only [roundedMantissa_shift, mantissa_shift]

theorem targetExponent_eq (total : Int) :
    Format.binary64.targetExponent total = max (total - 53) (-1074) :=
  rfl

theorem log2_lt_of_lt {n k : Nat} (hk : 0 < k) (h : n < 2 ^ k) : n.log2 < k := by
  by_cases hzero : n = 0
  · simpa [hzero] using hk
  · exact (Nat.log2_lt hzero).mpr h

/-- Rounding a small number leaves the exponent small. -/
theorem inRange_roundAtOnce {sign : Sign} {m : Nat} {e : Int} (hm : m < 2 ^ 64) (he : e ≤ 0) :
    inRange (roundAtOnce Format.binary64 sign m e) = true := by
  unfold roundAtOnce
  dsimp only
  split
  · rfl
  · rw [inRange, decide_eq_true_eq]
    generalize hshift : (Format.binary64.targetExponent (totalExponent m e) - e).toNat = shift
    have hquotient := nearestQuotient_le m shift
    rw [targetExponent_eq, totalExponent] at hshift
    rw [targetExponent_eq, totalExponent]
    have hfirst : m.log2 < 64 := log2_lt_of_lt (by decide) hm
    have hsecond : (nearestQuotient m shift).log2 < 65 := log2_lt_of_lt (by decide) (by omega)
    omega

theorem isNaN_roundWithAccuracy (format : Format) (sign : Sign) (m : Nat) (e : Int)
    (accuracy : Accuracy) : (roundWithAccuracy format sign m e accuracy).isNaN = false := by
  unfold roundWithAccuracy
  dsimp only
  split <;> rfl

/-! ## Powers of ten -/

/-- Beyond the powers that are tabulated, a power is the product of two exact values. -/
theorem unpack_power {n : Nat} (htable : 22 < n) (hlargest : n ≤ 308) :
    (Numeral.power n).toModel.unpack =
      (Float.Model.pack
        (roundAtOnce Format.binary64 .positive (2 ^ 53 * 10 ^ n) (-53))).unpack := by
  have hscientific : Numeral.power n = Float.ofModel (Float.Model.ofScientific 1 (n : Int)) := by
    unfold Numeral.power Float.ofScientific
    rw [dif_neg (by omega)]
    rfl
  have hproduct : UnpackedFloat.ofScientific Format.binary64 1 (n : Int) =
      roundWithAccuracy Format.binary64 .positive (2 ^ 53 * 10 ^ n) (-53) .exact := by
    rw [UnpackedFloat.ofScientific, dif_neg (by decide), if_neg (by simp; omega),
      if_neg (by simp; omega), if_pos (by omega)]
    rfl
  rw [hscientific, Float.Model.ofScientific, hproduct, roundWithAccuracy_exact]

theorem isProper_power {n : Nat} (h : n ≤ 308) :
    IsProper (Numeral.power n).toModel.unpack = true := by
  have htabulated : ∀ n ≤ 22, IsProper (Numeral.power n).toModel.unpack = true := by
    decide +kernel
  have hcomputed : ∀ n ≤ 308,
      isNormal (roundAtOnce Format.binary64 .positive (2 ^ 53 * 10 ^ n) (-53)) = true := by
    decide +kernel
  rcases Nat.lt_or_ge 22 n with hn | hn
  · rw [unpack_power hn h]
    exact isProper_unpack_pack (hcomputed n h)
  · exact htabulated n hn

/-! ## Operations -/

theorem isNaN_div {x y : Float} (hx : x.isNaN = false) (hy : IsProper y.toModel.unpack = true) :
    (x / y).isNaN = false := by
  change (Float.Model.pack (UnpackedFloat.div Format.binary64 x.toModel.unpack
    y.toModel.unpack)).unpack.isNaN = false
  apply isNaN_unpack_pack
  change x.toModel.unpack.isNaN = false at hx
  generalize x.toModel.unpack = f at hx ⊢
  generalize y.toModel.unpack = g at hy ⊢
  cases g with
  | infinity sign => cases hy
  | notANumber => cases hy
  | zero sign => cases hy
  | finite sign mantissa exponent hpos =>
      cases f with
      | infinity sign' => rfl
      | notANumber => cases hx
      | zero sign' => rfl
      | finite sign' mantissa' exponent' hpos' => exact isNaN_roundWithAccuracy _ _ _ _ _

theorem isNaN_neg {x : Float} (h : x.isNaN = false) : (-x).isNaN = false := by
  change (Float.Model.pack x.toModel.unpack.neg).unpack.isNaN = false
  apply isNaN_unpack_pack
  change x.toModel.unpack.isNaN = false at h
  generalize x.toModel.unpack = f at h ⊢
  cases f <;> first | rfl | cases h

/-- A number whose leading bit is shifted to the fifty-third place has 53 bits. -/
theorem mul_two_pow_lt {n shift : Nat} (h : n.log2 + shift = 52) : n * 2 ^ shift < 2 ^ 53 := by
  calc n * 2 ^ shift < 2 ^ (n.log2 + 1) * 2 ^ shift :=
        Nat.mul_lt_mul_of_pos_right Nat.lt_log2_self (Nat.two_pow_pos _)
    _ = 2 ^ 53 := by
        rw [← Nat.pow_add]
        congr 1
        omega

theorem ofUInt64_eq_round {n : UInt64} (h : 0 < n.toNat) :
    UnpackedFloat.ofUInt64 Format.binary64 n =
      UnpackedFloat.round Format.binary64 .positive n.toNat 0 := by
  have hcompare : compare (n.toNat : Int) 0 = .gt := by
    rw [Int.compare_eq_gt]
    omega
  rw [UnpackedFloat.ofUInt64, UnpackedFloat.ofNat, UnpackedFloat.ofInt, UnpackedFloat.normalize,
    hcompare]
  rfl

theorem isFinite_toFloat (n : UInt64) : n.toFloat.isFinite = true := by
  change (Float.Model.pack (UnpackedFloat.ofUInt64 Format.binary64 n)).unpack.isFinite = true
  apply isFinite_unpack_pack
  by_cases hzero : n.toNat = 0
  · rw [UnpackedFloat.ofUInt64, hzero]
    rfl
  · rw [ofUInt64_eq_round (by omega), UnpackedFloat.round]
    dsimp only [decreaseExponent]
    rw [roundWithAccuracy_exact, targetExponent_eq, totalExponent, Nat.shiftLeft_eq]
    apply inRange_roundAtOnce
    · generalize hshift : (0 - max ((n.toNat.log2 : Int) + 1 + 0 - 53) (-1074)).toNat = shift
      rcases Nat.lt_or_ge n.toNat.log2 52 with hsmall | hlarge
      · exact (mul_two_pow_lt (by omega)).trans (by decide)
      · have hnone : shift = 0 := by omega
        rw [hnone, Nat.pow_zero, Nat.mul_one]
        exact n.toNat_lt
    · omega

theorem isNaN_of_isFinite {x : Float} (h : x.isFinite = true) : x.isNaN = false := by
  change x.toModel.unpack.isFinite = true at h
  change x.toModel.unpack.isNaN = false
  generalize x.toModel.unpack = f at h ⊢
  cases f <;> first | rfl | cases h

theorem isNaN_toFloat (n : UInt64) : n.toFloat.isNaN = false :=
  isNaN_of_isFinite (isFinite_toFloat n)

end RuleGraph
