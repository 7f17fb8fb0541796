import RuleGraph.Proofs.Rounding

/-!
# Doubles and their bits

The fields of a double determine it. A nonzero finite double is packed from its mantissa and
exponent (`IsDouble`), and unpacked into them again.
-/

namespace RuleGraph

open Float.Model UnpackedFloat

/-- The mantissa and the exponent of a double: the mantissa is full, or the exponent is the least
one. -/
structure IsDouble (m : Nat) (e : Int) : Prop where
  pos : 0 < m
  lt : m < 2 ^ 53
  least : -1074 ≤ e
  most : e ≤ 971
  full : 2 ^ 52 ≤ m ∨ e = -1074

/-! ## Fields -/

theorem toBitVec_ofBitVec (b : BitVec 1) : (Sign.ofBitVec b).toBitVec = b := by
  revert b
  decide

theorem ofBitVec_toBitVec (sign : Sign) : Sign.ofBitVec sign.toBitVec = sign := by
  cases sign <;> rfl

section Fields

variable {sign : Sign} {exponent : BitVec 11} {mantissa : BitVec 52}

theorem unpackSign_packComponents :
    unpackSign (packComponents Format.binary64 sign exponent mantissa) = sign.toBitVec := by
  simp only [packComponents, unpackSign, BitVec.extractLsb]
  ext i hi
  grind

/-- A word consists of its fields. -/
theorem exists_packComponents (b : BitVec Format.binary64.numBits) :
    ∃ (sign : Sign) (exponent : BitVec 11) (mantissa : BitVec 52),
      b = packComponents Format.binary64 sign exponent mantissa := by
  refine ⟨.ofBitVec (unpackSign b), unpackExponent b, unpackMantissa b, ?_⟩
  simp only [packComponents, toBitVec_ofBitVec, unpackSign, unpackExponent, unpackMantissa,
    BitVec.extractLsb]
  ext i hi
  grind

theorem unpack_ones :
    (UnpackedFloat.unpack Format.binary64
      (packComponents Format.binary64 sign (-1#_) mantissa)).isFinite = false := by
  unfold UnpackedFloat.unpack
  simp only [unpackMantissa_packComponents, unpackExponent_packComponents, if_true]
  split <;> rfl

theorem unpack_zero :
    UnpackedFloat.unpack Format.binary64 (packComponents Format.binary64 sign 0#_ 0#_) =
      .zero sign := by
  unfold UnpackedFloat.unpack
  simp only [unpackMantissa_packComponents, unpackExponent_packComponents,
    unpackSign_packComponents, ofBitVec_toBitVec]
  rfl

theorem unpack_subnormal (hmantissa : 0 < mantissa.toNat) :
    UnpackedFloat.unpack Format.binary64 (packComponents Format.binary64 sign 0#_ mantissa) =
      .finite sign mantissa.toNat (-1074) hmantissa := by
  have hne : mantissa ≠ 0#_ := by
    rw [Ne, bitVec_eq_zero_iff]
    omega
  unfold UnpackedFloat.unpack
  simp only [unpackMantissa_packComponents, unpackExponent_packComponents,
    unpackSign_packComponents, ofBitVec_toBitVec]
  rw [if_neg (by decide), if_pos trivial, dif_neg hne]
  rfl

theorem unpack_normal (hzero : exponent ≠ 0#_) (hones : exponent ≠ -1#_) :
    UnpackedFloat.unpack Format.binary64 (packComponents Format.binary64 sign exponent mantissa) =
      .finite sign (2 ^ 52 + mantissa.toNat) (exponent.toNat - 1075) (by omega) := by
  have hmantissa : (1#1 ++ mantissa).toNat = 2 ^ 52 + mantissa.toNat := by
    rw [toNat_append]
    rfl
  unfold UnpackedFloat.unpack
  simp only [unpackMantissa_packComponents, unpackExponent_packComponents,
    unpackSign_packComponents, ofBitVec_toBitVec]
  rw [if_neg hones, if_neg hzero]
  simp only [hmantissa]
  rfl

end Fields

/-! ## Packing -/

section Packing

variable {sign : Sign} {m : Nat}

theorem pack_subnormal (hpos : 0 < m) (hlt : m < 2 ^ 52) :
    UnpackedFloat.pack Format.binary64 (.finite sign m (-1074) hpos) =
      packComponents Format.binary64 sign 0#_ (BitVec.ofNat 52 m) := by
  have hlog : m.log2 + 1 ≠ Format.binary64.mantissaBits := by
    have hshort := (Nat.log2_lt (by omega)).mpr hlt
    show m.log2 + 1 ≠ 53
    omega
  rw [UnpackedFloat.pack]
  dsimp only
  rw [if_neg (by decide), if_neg hlog]

theorem pack_normal {field : Nat} (hpos : 0 < m) (hfull : 2 ^ 52 ≤ m) (hlt : m < 2 ^ 53)
    (hfield : field < 2047) :
    UnpackedFloat.pack Format.binary64 (.finite sign m (field - 1075) hpos) =
      packComponents Format.binary64 sign (BitVec.ofNat 11 field) (BitVec.ofNat 52 m) := by
  have hlog : m.log2 + 1 = Format.binary64.mantissaBits := by
    have hmost := (Nat.log2_lt (by omega)).mpr hlt
    have hleast := (Nat.le_log2 (by omega)).mpr hfull
    show m.log2 + 1 = 53
    omega
  have hbias : (((field : Int) - 1075) + Format.binary64.exponentBias +
      Format.binary64.mantissaBitsWithoutImplicit).toNat = field := by
    show ((field : Int) - 1075 + 1023 + 52).toNat = field
    omega
  have hrange : ¬2 ^ Format.binary64.exponentBits ≤ field + 1 := by
    show ¬2048 ≤ field + 1
    omega
  rw [UnpackedFloat.pack]
  dsimp only
  rw [hbias, if_neg hrange, if_pos hlog]

end Packing

/-- What is packed from a double is unpacked into it. -/
theorem unpack_pack {sign : Sign} {m : Nat} {e : Int} (h : IsDouble m e) :
    (Float.Model.pack (.finite sign m e h.pos)).unpack = .finite sign m e h.pos := by
  show UnpackedFloat.unpack Format.binary64
    (UnpackedFloat.pack Format.binary64 (.finite sign m e h.pos)) = _
  have hmantissa : (BitVec.ofNat 52 m).toNat = m % 2 ^ 52 := rfl
  by_cases hfull : 2 ^ 52 ≤ m
  · obtain ⟨field, hfield⟩ : ∃ field : Nat, e = field - 1075 := by
      have hleast := h.least
      exact ⟨(e + 1075).toNat, by omega⟩
    subst hfield
    have hleast := h.least
    have hmost := h.most
    have hlt := h.lt
    have hexponent : (BitVec.ofNat 11 field).toNat = field := by
      rw [BitVec.toNat_ofNat]
      omega
    have hzero : BitVec.ofNat 11 field ≠ 0#_ := by
      rw [Ne, bitVec_eq_zero_iff, hexponent]
      omega
    have hones : BitVec.ofNat 11 field ≠ -1#_ := by
      intro heq
      rw [heq] at hexponent
      have hfield : 2047 = field := hexponent
      omega
    rw [pack_normal h.pos hfull hlt (by omega), unpack_normal hzero hones]
    congr 1
    · omega
    · rw [hexponent]
  · have hleast : e = -1074 := h.full.resolve_left hfull
    have hpos := h.pos
    subst hleast
    rw [pack_subnormal hpos (by omega), unpack_subnormal (by omega)]
    congr 1
    omega

theorem pack_eq_of_bits {f : UnpackedFloat} {x : Float.Model}
    (h : UnpackedFloat.pack Format.binary64 f = x.toBits.toBitVec) : Float.Model.pack f = x := by
  obtain ⟨bits, valid⟩ := x
  rw [Float.Model.pack]
  congr 1
  rw [h]

/-- What is unpacked from a finite double is zero, or a double that is packed into it. -/
theorem pack_unpack {x : Float.Model} (h : x.unpack.isFinite = true) :
    Float.Model.pack x.unpack = x ∧
      ∀ sign m e hpos, x.unpack = .finite sign m e hpos → IsDouble m e := by
  obtain ⟨sign, exponent, mantissa, hbits⟩ := exists_packComponents x.toBits.toBitVec
  have hunpack : x.unpack = UnpackedFloat.unpack Format.binary64
      (packComponents Format.binary64 sign exponent mantissa) := by
    rw [Float.Model.unpack, hbits]
  have hmantissa := mantissa.isLt
  by_cases hones : exponent = -1#_
  · rw [hunpack, hones, unpack_ones] at h
    cases h
  · by_cases hzero : exponent = 0#_
    · subst hzero
      by_cases hnothing : mantissa = 0#_
      · subst hnothing
        rw [unpack_zero] at hunpack
        rw [hunpack]
        exact ⟨pack_eq_of_bits hbits.symm, fun _ _ _ _ heq => by cases heq⟩
      · have hpos : 0 < mantissa.toNat := by
          rw [bitVec_eq_zero_iff] at hnothing
          omega
        rw [unpack_subnormal hpos] at hunpack
        rw [hunpack]
        constructor
        · apply pack_eq_of_bits
          rw [pack_subnormal hpos hmantissa, hbits, BitVec.ofNat_toNat, BitVec.setWidth_eq]
        · intro _ _ _ _ heq
          cases heq
          exact ⟨hpos, by omega, by omega, by omega, Or.inr rfl⟩
    · have hfield : 0 < exponent.toNat ∧ exponent.toNat < 2047 := by
        have hlt := exponent.isLt
        have hlargest : exponent.toNat ≠ 2047 := fun heq =>
          hones (BitVec.eq_of_toNat_eq (by rw [heq]; rfl))
        rw [bitVec_eq_zero_iff] at hzero
        omega
      rw [unpack_normal hzero hones] at hunpack
      rw [hunpack]
      constructor
      · apply pack_eq_of_bits
        have hlow : BitVec.ofNat 52 (2 ^ 52 + mantissa.toNat) = mantissa := by
          apply BitVec.eq_of_toNat_eq
          rw [BitVec.toNat_ofNat]
          omega
        rw [pack_normal (by omega) (by omega) (by omega) hfield.2, hbits, hlow,
          BitVec.ofNat_toNat, BitVec.setWidth_eq]
      · intro _ _ _ _ heq
        cases heq
        exact ⟨by omega, by omega, by omega, by omega, by left; omega⟩

end RuleGraph
