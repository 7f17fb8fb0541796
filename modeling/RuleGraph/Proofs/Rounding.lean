import RuleGraph.Decimal.Binary64
import RuleGraph.Proofs.Doubles

/-!
# Doubles as scaled integers

The scaled integer behind the bits of a double (`Binary64`) is what the model of doubles unpacks it
to (`partsOf`).
-/

namespace RuleGraph

open Float.Model UnpackedFloat

/-! ## Parts -/

def isMinus : Sign → Bool
  | .negative => true
  | .positive => false

/-- The scaled integer behind an unpacked double. -/
def partsOf : UnpackedFloat → Option Binary64
  | .zero sign => some ⟨isMinus sign, 0, -1074, false⟩
  | .finite sign mantissa exponent _ =>
    some ⟨isMinus sign, mantissa, exponent,
      mantissa == 4503599627370496 && decide (-1074 < exponent)⟩
  | _ => none

theorem toNat_unpackExponent (bits : UInt64) :
    (@unpackExponent Format.binary64 bits.toBitVec).toNat = ((bits >>> 52) &&& 0x7FF).toNat := by
  simp [unpackExponent, Nat.shiftRight_eq_div_pow]
  rw [show 2047 = 2 ^ 11 - 1 from rfl, Nat.and_two_pow_sub_one_eq_mod]

theorem toNat_unpackMantissa (bits : UInt64) :
    (@unpackMantissa Format.binary64 bits.toBitVec).toNat = (bits &&& 0xFFFFFFFFFFFFF).toNat := by
  simp [unpackMantissa]
  rw [show 4503599627370495 = 2 ^ 52 - 1 from rfl, Nat.and_two_pow_sub_one_eq_mod]

theorem toNat_unpackSign (bits : UInt64) :
    (@unpackSign Format.binary64 bits.toBitVec).toNat = (bits >>> 63).toNat := by
  have hlt := bits.toNat_lt
  simp [unpackSign, Nat.shiftRight_eq_div_pow]
  omega

theorem bitVec_eq_zero_iff {n : Nat} {b : BitVec n} : b = 0#n ↔ b.toNat = 0 := by
  simp [← BitVec.toNat_inj]

theorem toNat_append {n k : Nat} (high : BitVec n) (low : BitVec k) :
    (high ++ low).toNat = high.toNat * 2 ^ k + low.toNat := by
  rw [BitVec.toNat_append, ← Nat.shiftLeft_add_eq_or_of_lt low.isLt, Nat.shiftLeft_eq]

theorem isMinus_unpackSign (bits : UInt64) :
    isMinus (.ofBitVec (@unpackSign Format.binary64 bits.toBitVec)) = (bits >>> 63 == 1) := by
  have hsign := toNat_unpackSign bits
  generalize @unpackSign Format.binary64 bits.toBitVec = b at hsign
  have hlt : (bits >>> 63).toNat < 2 := hsign ▸ b.isLt
  by_cases hzero : b = 0#1
  · have hplus : (bits >>> 63).toNat = 0 := by rw [← hsign, hzero]; rfl
    have hne : ¬ bits >>> 63 = 1 := fun h => by simp [h] at hplus
    simp [Sign.ofBitVec, hzero, isMinus, hne]
  · have hminus : (bits >>> 63).toNat = 1 := by
      rw [bitVec_eq_zero_iff, hsign] at hzero
      omega
    have hone : bits >>> 63 = 1 := UInt64.toNat_inj.mp hminus
    simp [Sign.ofBitVec, hzero, isMinus, hone]

/-- A double is taken apart as its model unpacks it. -/
theorem ofBits?_eq_partsOf (bits : UInt64) :
    Binary64.ofBits? bits = partsOf (UnpackedFloat.unpack Format.binary64 bits.toBitVec) := by
  have hones : @unpackExponent Format.binary64 bits.toBitVec = -1#_ ↔
      (@unpackExponent Format.binary64 bits.toBitVec).toNat = 0x7FF := by
    rw [← BitVec.toNat_inj]
    exact Iff.rfl
  unfold Binary64.ofBits? UnpackedFloat.unpack
  rw [← toNat_unpackExponent, ← toNat_unpackMantissa, ← isMinus_unpackSign]
  dsimp only
  by_cases hinfinite : (@unpackExponent Format.binary64 bits.toBitVec).toNat = 0x7FF
  · rw [if_pos hinfinite, if_pos (hones.mpr hinfinite)]
    split <;> rfl
  · rw [if_neg hinfinite, if_neg (mt hones.mp hinfinite)]
    by_cases hfield : (@unpackExponent Format.binary64 bits.toBitVec).toNat = 0
    · rw [if_pos hfield, if_pos (bitVec_eq_zero_iff.mpr hfield)]
      split
      · rename_i hzero
        rw [bitVec_eq_zero_iff.mp hzero]
        rfl
      · simp [partsOf, hfield, Format.exponentBias]
    · have happend : (1#1 ++ @unpackMantissa Format.binary64 bits.toBitVec).toNat =
          4503599627370496 + (@unpackMantissa Format.binary64 bits.toBitVec).toNat := by
        rw [toNat_append]
        rfl
      rw [if_neg hfield, if_neg (mt bitVec_eq_zero_iff.mp hfield)]
      simp [partsOf, happend, Format.exponentBias]
      rw [Bool.eq_iff_iff]
      simp
      omega

theorem ofFloat?_eq_partsOf (x : Float) :
    Binary64.ofFloat? x = partsOf x.toModel.unpack :=
  ofBits?_eq_partsOf _

theorem exists_ofFloat? {x : Float} (h : x.isFinite = true) :
    ∃ parts, Binary64.ofFloat? x = some parts := by
  change x.toModel.unpack.isFinite = true at h
  rw [ofFloat?_eq_partsOf]
  generalize x.toModel.unpack = f at h
  cases f with
  | infinity sign => cases h
  | notANumber => cases h
  | zero sign => exact ⟨_, rfl⟩
  | finite sign mantissa exponent hpos => exact ⟨_, rfl⟩

end RuleGraph
