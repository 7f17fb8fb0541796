import RuleGraph.Proofs.Packing

/-!
# Rounding to the nearest double

The two bits that a mantissa carries along say where between two mantissas a value lies
(`Describes`), and each shift keeps them true. A value that is nearest to a double (`IsNearest`) is
therefore rounded to this double, also if it lies in the next lower binade and the rounding carries.
-/

namespace RuleGraph

open Float.Model UnpackedFloat

/-! ## Mantissas with residual bits -/

/-- The value, counted in units of the mantissa, lies where the residual bits say. -/
def Describes : ExtendedMantissa → ℚ → Prop
  | ⟨m, false, false⟩, u => u = m
  | ⟨m, false, true⟩, u => m < u ∧ u < m + 1 / 2
  | ⟨m, true, false⟩, u => u = m + 1 / 2
  | ⟨m, true, true⟩, u => m + 1 / 2 < u ∧ u < m + 1

namespace Describes

variable {em : ExtendedMantissa} {u : ℚ}

theorem bounds (h : Describes em u) : em.mantissa ≤ u ∧ u < em.mantissa + 1 := by
  obtain ⟨m, round, sticky⟩ := em
  cases round <;> cases sticky <;> simp only [Describes] at h <;> constructor <;> linarith

theorem shiftRightOne (h : Describes em u) : Describes em.shiftRightOne (u / 2) := by
  obtain ⟨m, round, sticky⟩ := em
  have hsplit : (m : ℚ) = 2 * (m / 2 : Nat) + (m % 2 : Nat) := by
    exact_mod_cast (Nat.div_add_mod m 2).symm
  rw [ExtendedMantissa.shiftRightOne]
  dsimp only
  generalize m / 2 = half at hsplit ⊢
  rcases Nat.mod_two_eq_zero_or_one m with hbit | hbit
  · rw [hbit] at hsplit ⊢
    cases round <;> cases sticky <;> simp [Describes] at h hsplit ⊢
    · linarith
    · constructor <;> linarith
    · constructor <;> linarith
    · constructor <;> linarith
  · rw [hbit] at hsplit ⊢
    cases round <;> cases sticky <;> simp [Describes] at h hsplit ⊢
    · linarith
    · constructor <;> linarith
    · constructor <;> linarith
    · constructor <;> linarith

theorem shiftRight (h : Describes em u) (n : Nat) : Describes (em >>> n) (u / 2 ^ n) := by
  induction n with
  | zero => simpa [HShiftRight.hShiftRight, Nat.repeat] using h
  | succ n ih =>
      have hstep : em >>> (n + 1) = (em >>> n).shiftRightOne := rfl
      rw [hstep, pow_succ, ← div_div]
      exact ih.shiftRightOne

/-- The rounded mantissa is the natural number nearest to the value, and an even one in the middle
between two. -/
theorem roundedMantissa (h : Describes em u) {k : Nat} (hlow : k - 1 / 2 ≤ u)
    (hhigh : u ≤ k + 1 / 2) (htie : k % 2 = 0 ∨ k - 1 / 2 < u ∧ u < k + 1 / 2) :
    em.roundedMantissa = k := by
  obtain ⟨m, round, sticky⟩ := em
  have hbounds : m ≤ u ∧ u < m + 1 := h.bounds
  have hbelow : m ≤ k := by
    have hlt : (m : ℚ) < (k + 1 : Nat) := by push_cast; linarith
    exact Nat.lt_succ_iff.mp (by exact_mod_cast hlt)
  have habove : k ≤ m + 1 := by
    have hlt : (k : ℚ) < (m + 2 : Nat) := by push_cast; linarith
    exact Nat.lt_succ_iff.mp (by exact_mod_cast hlt)
  obtain rfl | rfl : k = m ∨ k = m + 1 := by omega
  · cases round <;> cases sticky <;> simp only [Describes] at h
    · rfl
    · rfl
    · show k + k % 2 = k
      have heven : k % 2 = 0 := by
        apply htie.resolve_right
        rintro ⟨_, hlt⟩
        linarith
      omega
    · linarith
  · push_cast at hlow hhigh htie
    cases round <;> cases sticky <;> simp only [Describes] at h
    · linarith
    · linarith
    · show m + m % 2 = m + 1
      have heven : (m + 1) % 2 = 0 := by
        apply htie.resolve_right
        rintro ⟨hlt, _⟩
        linarith
      omega
    · rfl

end Describes

/-! ## Nearest doubles -/

/-- The value, counted in units of the exponent, is nearest to the double: no more than half a unit
away, or a quarter below a power of two, where the doubles lie denser. In the middle between two
doubles it is the one with the even mantissa. -/
structure IsNearest (m : Nat) (e : Int) (u : ℚ) : Prop where
  low : m - 1 / 2 ≤ u
  high : u ≤ m + 1 / 2
  tie : m % 2 = 0 ∨ m - 1 / 2 < u ∧ u < m + 1 / 2
  dense : m = 2 ^ 52 → -1074 < e → m - 1 / 4 ≤ u

theorem isNearest_self (m : Nat) (e : Int) : IsNearest m e m where
  low := by linarith
  high := by linarith
  tie := by right; constructor <;> linarith
  dense _ _ := by linarith

/-- Rounding, if the first shift and the rounding give the mantissa of a double. -/
theorem roundWithAccuracy_of_rounded {sign : Sign} {m M : Nat} {e E : Int} {accuracy : Accuracy}
    (hdouble : IsDouble m e) (htarget : Format.binary64.targetExponent (totalExponent M E) = e)
    (hle : E ≤ e)
    (hrounded : (ExtendedMantissa.ofMantissaAndAccuracy M accuracy >>>
      (e - E).toNat).roundedMantissa = m) :
    roundWithAccuracy Format.binary64 sign M E accuracy = .finite sign m e hdouble.pos := by
  have hexponent : E + ((e - E).toNat : Int) = e := by omega
  have hagain : (Format.binary64.targetExponent (totalExponent m e) - e).toNat = 0 := by
    have hlog := log2_lt_of_lt (by decide) hdouble.lt
    have hleast := hdouble.least
    rw [targetExponent_eq, totalExponent]
    omega
  have hne : m ≠ 0 := Nat.pos_iff_ne_zero.mp hdouble.pos
  unfold roundWithAccuracy shiftToTargetExponent shiftToExponent
  rw [htarget]
  dsimp only
  simp only [hrounded, hexponent, hagain]
  simp [HShiftRight.hShiftRight, Nat.repeat, ExtendedMantissa.ofMantissaAndAccuracy, hne]

/-- Rounding, if the first shift and the rounding give a mantissa that carries. -/
theorem roundWithAccuracy_of_carry {sign : Sign} {M : Nat} {e E : Int} {accuracy : Accuracy}
    (hleast : -1074 ≤ e) (htarget : Format.binary64.targetExponent (totalExponent M E) = e)
    (hle : E ≤ e)
    (hrounded : (ExtendedMantissa.ofMantissaAndAccuracy M accuracy >>>
      (e - E).toNat).roundedMantissa = 2 ^ 53) :
    roundWithAccuracy Format.binary64 sign M E accuracy =
      .finite sign (2 ^ 52) (e + 1) (by decide) := by
  have hexponent : E + ((e - E).toNat : Int) = e := by omega
  have hagain : (Format.binary64.targetExponent (totalExponent (2 ^ 53) e) - e).toNat = 1 := by
    rw [targetExponent_eq, totalExponent, Nat.log2_two_pow]
    omega
  unfold roundWithAccuracy shiftToTargetExponent shiftToExponent
  rw [htarget]
  dsimp only
  simp only [hrounded, hexponent, hagain]
  rfl

/-- A value that a mantissa describes lies in the binade of the mantissa. -/
theorem binade_of_describes {M : Nat} {E : Int} {accuracy : Accuracy} {v : ℚ} (hM : M ≠ 0)
    (h : Describes (.ofMantissaAndAccuracy M accuracy) (v / 2 ^ E)) :
    (2 : ℚ) ^ ((M.log2 : Int) + E) ≤ v ∧ v < 2 ^ ((M.log2 : Int) + E + 1) := by
  have hmantissa : (ExtendedMantissa.ofMantissaAndAccuracy M accuracy).mantissa = M := by
    cases accuracy with
    | exact => rfl
    | inexact position => cases position <;> rfl
  have hunit : (0 : ℚ) < 2 ^ E := by positivity
  have hbounds := h.bounds
  rw [hmantissa, le_div_iff₀ hunit, div_lt_iff₀ hunit] at hbounds
  have hleast : (2 : ℚ) ^ M.log2 ≤ M := by exact_mod_cast Nat.log2_self_le hM
  have hmost : (M : ℚ) + 1 ≤ 2 ^ (M.log2 + 1) := by exact_mod_cast Nat.lt_log2_self
  constructor
  · rw [zpow_add₀ two_ne_zero, zpow_natCast]
    exact (mul_le_mul_of_nonneg_right hleast hunit.le).trans hbounds.1
  · rw [add_right_comm, zpow_add₀ two_ne_zero]
    have hcast : (2 : ℚ) ^ ((M.log2 : Int) + 1) = 2 ^ (M.log2 + 1) := by
      exact_mod_cast zpow_natCast (2 : ℚ) (M.log2 + 1)
    rw [hcast]
    exact hbounds.2.trans_le (mul_le_mul_of_nonneg_right hmost hunit.le)

section Rounding

variable {sign : Sign} {m M : Nat} {e E : Int} {accuracy : Accuracy} {v : ℚ}

theorem Describes.log2_lt {k : Int} (hM : M ≠ 0)
    (h : Describes (.ofMantissaAndAccuracy M accuracy) (v / 2 ^ E)) (hv : v < 2 ^ k) :
    (M.log2 : Int) + E < k :=
  (zpow_lt_zpow_iff_right₀ one_lt_two).mp ((binade_of_describes hM h).1.trans_lt hv)

theorem Describes.le_log2 {k : Int} (hM : M ≠ 0)
    (h : Describes (.ofMantissaAndAccuracy M accuracy) (v / 2 ^ E)) (hv : 2 ^ k ≤ v) :
    k ≤ (M.log2 : Int) + E :=
  Int.lt_add_one_iff.mp
    ((zpow_lt_zpow_iff_right₀ one_lt_two).mp (hv.trans_lt (binade_of_describes hM h).2))

/-- After the shift to an exponent the value is counted in units of this exponent. -/
theorem Describes.shiftTo (h : Describes (.ofMantissaAndAccuracy M accuracy) (v / 2 ^ E))
    (hle : E ≤ e) :
    Describes (ExtendedMantissa.ofMantissaAndAccuracy M accuracy >>> (e - E).toNat)
      (v / 2 ^ e) := by
  have hexponent : e = E + ((e - E).toNat : Int) := by omega
  have hunits : v / 2 ^ e = v / 2 ^ E / 2 ^ (e - E).toNat := by
    conv_lhs => rw [hexponent, zpow_add₀ two_ne_zero, zpow_natCast, ← div_div]
  rw [hunits]
  exact h.shiftRight _

theorem IsNearest.lt_binade (hdouble : IsDouble m e) (h : IsNearest m e (v / 2 ^ e)) :
    v < 2 ^ (53 + e) := by
  have hunit : (0 : ℚ) < 2 ^ e := by positivity
  have hm : (m : ℚ) + 1 ≤ 2 ^ 53 := by exact_mod_cast hdouble.lt
  have hhigh := h.high
  rw [zpow_add₀ two_ne_zero, ← div_lt_iff₀ hunit]
  norm_num at hm ⊢
  linarith

/-- Only a power of two has values nearest to it in the binade below. -/
theorem IsNearest.power_of_lt (hfull : 2 ^ 52 ≤ m) (h : IsNearest m e (v / 2 ^ e))
    (hbelow : v < 2 ^ (52 + e)) : m = 2 ^ 52 := by
  have hunit : (0 : ℚ) < 2 ^ e := by positivity
  have hlow := h.low
  rw [zpow_add₀ two_ne_zero, ← div_lt_iff₀ hunit] at hbelow
  norm_num at hbelow
  have hclose : (m : ℚ) < 4503599627370497 := by linarith
  have hlt : m < 4503599627370497 := by exact_mod_cast hclose
  omega

theorem round_in_binade (hdouble : IsDouble m e) (hnearest : IsNearest m e (v / 2 ^ e))
    (hfull : 2 ^ 52 ≤ M)
    (hdescribes : Describes (.ofMantissaAndAccuracy M accuracy) (v / 2 ^ E))
    (hbinade : e = -1074 ∨ (2 : ℚ) ^ (52 + e) ≤ v) :
    roundWithAccuracy Format.binary64 sign M E accuracy = .finite sign m e hdouble.pos := by
  have hM : M ≠ 0 := by omega
  have hlog : 52 ≤ M.log2 := (Nat.le_log2 hM).mpr hfull
  have hmost := hdescribes.log2_lt hM (hnearest.lt_binade hdouble)
  have hleast := hdouble.least
  have htarget : Format.binary64.targetExponent (totalExponent M E) = e := by
    rw [targetExponent_eq, totalExponent]
    rcases hbinade with hfirst | hle
    · omega
    · have habove := hdescribes.le_log2 hM hle
      omega
  have hle : E ≤ e := by omega
  exact roundWithAccuracy_of_rounded hdouble htarget hle
    ((hdescribes.shiftTo hle).roundedMantissa hnearest.low hnearest.high hnearest.tie)

/-- Below a power of two the exponent is one less, and the rounding carries. -/
theorem round_below_binade (hleast : -1074 < e) (hnearest : IsNearest (2 ^ 52) e (v / 2 ^ e))
    (hfull : 2 ^ 52 ≤ M)
    (hdescribes : Describes (.ofMantissaAndAccuracy M accuracy) (v / 2 ^ E))
    (hbelow : v < 2 ^ (52 + e)) :
    roundWithAccuracy Format.binary64 sign M E accuracy =
      .finite sign (2 ^ 52) e (by decide) := by
  have hM : M ≠ 0 := by omega
  have hlog : 52 ≤ M.log2 := (Nat.le_log2 hM).mpr hfull
  have hunit : (0 : ℚ) < 2 ^ e := by positivity
  have hdense := hnearest.dense rfl hleast
  have habove : (2 : ℚ) ^ (51 + e) ≤ v := by
    rw [zpow_add₀ two_ne_zero, ← le_div_iff₀ hunit]
    norm_num at hdense ⊢
    linarith
  have hlower := hdescribes.le_log2 hM habove
  have hupper := hdescribes.log2_lt hM hbelow
  have htarget : Format.binary64.targetExponent (totalExponent M E) = e - 1 := by
    rw [targetExponent_eq, totalExponent]
    omega
  have hle : E ≤ e - 1 := by omega
  have hrounded : (ExtendedMantissa.ofMantissaAndAccuracy M accuracy >>>
      (e - 1 - E).toNat).roundedMantissa = 2 ^ 53 := by
    have hshifted := hdescribes.shiftTo hle
    have hhalves : v / 2 ^ (e - 1) = 2 * (v / 2 ^ e) := by
      rw [zpow_sub_one₀ two_ne_zero]
      field_simp
    rw [hhalves] at hshifted
    rw [zpow_add₀ two_ne_zero, ← div_lt_iff₀ hunit] at hbelow
    norm_num at hdense hbelow
    apply hshifted.roundedMantissa
    · norm_num
      linarith
    · norm_num
      linarith
    · left
      norm_num
  have hcarried := @roundWithAccuracy_of_carry sign _ _ _ _ (by omega) htarget hle hrounded
  rw [hcarried]
  congr 1
  omega

/-- A value is rounded to the double that it is nearest to. -/
theorem roundWithAccuracy_of_nearest (hdouble : IsDouble m e)
    (hnearest : IsNearest m e (v / 2 ^ e)) (hfull : 2 ^ 52 ≤ M)
    (hdescribes : Describes (.ofMantissaAndAccuracy M accuracy) (v / 2 ^ E)) :
    roundWithAccuracy Format.binary64 sign M E accuracy = .finite sign m e hdouble.pos := by
  by_cases hbinade : e = -1074 ∨ (2 : ℚ) ^ (52 + e) ≤ v
  · exact round_in_binade hdouble hnearest hfull hdescribes hbinade
  · rw [not_or, not_le] at hbinade
    have hleast : -1074 < e := lt_of_le_of_ne hdouble.least (Ne.symm hbinade.1)
    have hpower := hnearest.power_of_lt (hdouble.full.resolve_right hbinade.1) hbinade.2
    subst hpower
    exact round_below_binade hleast hnearest hfull hdescribes hbinade.2

end Rounding

/-! ## Operations -/

theorem describes_exact (M : Nat) : Describes (.ofMantissaAndAccuracy M .exact) M :=
  rfl

/-- A quotient of naturals is described by the quotient and by what the remainder says. -/
theorem describes_quotient (n : Nat) {d : Nat} (hd : 0 < d) :
    Describes (.ofMantissaAndAccuracy (n / d) (accuracyOfFraction (n % d) d)) (n / d) := by
  have hpos : (0 : ℚ) < d := by exact_mod_cast hd
  have hlt : ((n % d : Nat) : ℚ) < d := by exact_mod_cast Nat.mod_lt n hd
  have hvalue : (n : ℚ) / d = (n / d : Nat) + ((n % d : Nat) : ℚ) / d := by
    have hsplit : (n : ℚ) = d * (n / d : Nat) + (n % d : Nat) := by
      exact_mod_cast (Nat.div_add_mod n d).symm
    field_simp
    linarith
  rw [hvalue, accuracyOfFraction]
  generalize n / d = quotient at hvalue ⊢
  generalize n % d = rest at hlt ⊢
  by_cases hrest : rest = 0
  · rw [if_pos hrest, hrest]
    simp [ExtendedMantissa.ofMantissaAndAccuracy, Describes]
  · have hrest' : (0 : ℚ) < rest := by exact_mod_cast Nat.pos_of_ne_zero hrest
    rw [if_neg hrest]
    cases hhalf : compare (2 * rest) d with
    | lt =>
        have hbelow : (2 * rest : ℚ) < d := by exact_mod_cast compare_lt_iff_lt.mp hhalf
        simp only [ExtendedMantissa.ofMantissaAndAccuracy, Describes]
        constructor
        · linarith [div_pos hrest' hpos]
        · rw [add_lt_add_iff_left, div_lt_div_iff₀ hpos two_pos]
          linarith
    | eq =>
        have hequal : (2 * rest : ℚ) = d := by exact_mod_cast compare_eq_iff_eq.mp hhalf
        simp only [ExtendedMantissa.ofMantissaAndAccuracy, Describes]
        rw [← hequal]
        field_simp
    | gt =>
        have habove : (d : ℚ) < 2 * rest := by exact_mod_cast compare_gt_iff_gt.mp hhalf
        simp only [ExtendedMantissa.ofMantissaAndAccuracy, Describes]
        constructor
        · rw [add_lt_add_iff_left, div_lt_div_iff₀ two_pos hpos]
          linarith
        · rw [add_lt_add_iff_left, div_lt_one hpos]
          exact hlt

section Operations

variable {s₁ s₂ : Sign} {m₁ m₂ m : Nat} {e₁ e₂ e : Int} {h₁ : 0 < m₁} {h₂ : 0 < m₂}

/-- A product is rounded to the double that it is nearest to. -/
theorem mul_of_nearest (hdouble : IsDouble m e) (hfull : 2 ^ 52 ≤ m₁)
    (hnearest : IsNearest m e (m₁ * 2 ^ e₁ * (m₂ * 2 ^ e₂) / 2 ^ e)) :
    UnpackedFloat.mul Format.binary64 (.finite s₁ m₁ e₁ h₁) (.finite s₂ m₂ e₂ h₂) =
      .finite (s₁ * s₂) m e hdouble.pos := by
  have hvalue : (m₁ * 2 ^ e₁ * (m₂ * 2 ^ e₂) / 2 ^ (e₁ + e₂) : ℚ) = (m₁ * m₂ : Nat) := by
    rw [zpow_add₀ two_ne_zero]
    push_cast
    field_simp
  show roundWithAccuracy Format.binary64 (s₁ * s₂) (m₁ * m₂) (e₁ + e₂) .exact = _
  apply roundWithAccuracy_of_nearest hdouble hnearest
  · exact hfull.trans (Nat.le_mul_of_pos_right m₁ h₂)
  · rw [hvalue]
    exact describes_exact _

/-- A quotient that is not too small is rounded to the double that it is nearest to. -/
theorem div_of_nearest (hdouble : IsDouble m e)
    (hscale : -1021 ≤ totalExponent m₁ e₁ - totalExponent m₂ e₂)
    (hnearest : IsNearest m e (m₁ * 2 ^ e₁ / (m₂ * 2 ^ e₂) / 2 ^ e)) :
    UnpackedFloat.div Format.binary64 (.finite s₁ m₁ e₁ h₁) (.finite s₂ m₂ e₂ h₂) =
      .finite (s₁ / s₂) m e hdouble.pos := by
  have hdiv : UnpackedFloat.div Format.binary64 (.finite s₁ m₁ e₁ h₁) (.finite s₂ m₂ e₂ h₂) =
      roundWithAccuracy Format.binary64 (s₁ / s₂) (divCore Format.binary64 m₁ e₁ m₂ e₂).1
        (divCore Format.binary64 m₁ e₁ m₂ e₂).2.1 (divCore Format.binary64 m₁ e₁ m₂ e₂).2.2 := rfl
  rw [hdiv, divCore]
  dsimp only
  generalize htarget : min (e₁ - e₂)
    (Format.binary64.targetExponent (totalExponent m₁ e₁ - totalExponent m₂ e₂)) = target
  rw [targetExponent_eq] at htarget
  have hshift : e₁ - e₂ = target + ((e₁ - e₂ - target).toNat : Int) := by omega
  generalize (e₁ - e₂ - target).toNat = shift at hshift ⊢
  rw [Nat.shiftLeft_eq]
  have hvalue : (m₁ * 2 ^ e₁ / (m₂ * 2 ^ e₂) / 2 ^ target : ℚ) = (m₁ * 2 ^ shift : Nat) / m₂ := by
    have hpower : (2 : ℚ) ^ e₁ = 2 ^ e₂ * (2 ^ target * 2 ^ shift) := by
      rw [← zpow_natCast (2 : ℚ) shift, ← zpow_add₀ two_ne_zero, ← hshift, ← zpow_add₀ two_ne_zero]
      congr 1
      omega
    have hne : (m₂ : ℚ) ≠ 0 := by exact_mod_cast h₂.ne'
    rw [hpower]
    push_cast
    field_simp
  apply roundWithAccuracy_of_nearest hdouble hnearest
  · -- the shift leaves room for 53 bits above the divisor
    have hleast : 2 ^ m₁.log2 ≤ m₁ := Nat.log2_self_le h₁.ne'
    have hmost : m₂ < 2 ^ (m₂.log2 + 1) := Nat.lt_log2_self
    have hroom : 52 + (m₂.log2 + 1) ≤ m₁.log2 + shift := by
      simp only [totalExponent] at hscale htarget
      omega
    rw [Nat.le_div_iff_mul_le h₂]
    calc 2 ^ 52 * m₂ ≤ 2 ^ 52 * 2 ^ (m₂.log2 + 1) := Nat.mul_le_mul_left _ hmost.le
      _ = 2 ^ (52 + (m₂.log2 + 1)) := (Nat.pow_add _ _ _).symm
      _ ≤ 2 ^ (m₁.log2 + shift) := Nat.pow_le_pow_right two_pos hroom
      _ = 2 ^ m₁.log2 * 2 ^ shift := Nat.pow_add _ _ _
      _ ≤ m₁ * 2 ^ shift := Nat.mul_le_mul_right _ hleast
  · rw [hvalue]
    exact describes_quotient _ h₂

end Operations

/-! ## Whole numbers -/

/-- A whole number of at most 53 bits is a double exactly. -/
theorem unpack_toFloat {n : Nat} (hpos : 0 < n) (hlt : n < 2 ^ 53) :
    ∃ m e hm, (UInt64.ofNat n).toFloat.toModel.unpack = .finite .positive m e hm ∧
      (m : ℚ) * 2 ^ e = n ∧ 2 ^ 52 ≤ m ∧ -52 ≤ e := by
  have hlog : n.log2 < 53 := log2_lt_of_lt (by decide) hlt
  have hleast : 2 ^ n.log2 ≤ n := Nat.log2_self_le hpos.ne'
  obtain ⟨shift, hshift⟩ : ∃ shift, n.log2 + shift = 52 := ⟨52 - n.log2, by omega⟩
  have hfull : 2 ^ 52 ≤ n * 2 ^ shift := by
    calc 2 ^ 52 = 2 ^ n.log2 * 2 ^ shift := by rw [← Nat.pow_add, hshift]
      _ ≤ n * 2 ^ shift := Nat.mul_le_mul_right _ hleast
  have hdouble : IsDouble (n * 2 ^ shift) (-shift) :=
    ⟨by omega, mul_two_pow_lt hshift, by omega, by omega, Or.inl hfull⟩
  have hvalue : ((n * 2 ^ shift : Nat) : ℚ) * 2 ^ (-(shift : Int)) = n := by
    rw [zpow_neg, zpow_natCast]
    push_cast
    field_simp
  have hrounded : UnpackedFloat.ofUInt64 Format.binary64 (UInt64.ofNat n) =
      .finite .positive (n * 2 ^ shift) (-shift) hdouble.pos := by
    have hnat : (UInt64.ofNat n).toNat = n := Nat.mod_eq_of_lt (by omega)
    have htarget : (0 - Format.binary64.targetExponent (totalExponent n 0)).toNat = shift := by
      rw [targetExponent_eq, totalExponent]
      omega
    rw [ofUInt64_eq_round (by omega), hnat, UnpackedFloat.round]
    dsimp only [decreaseExponent]
    rw [htarget, Nat.shiftLeft_eq, zero_sub]
    have hself : IsNearest (n * 2 ^ shift) (-shift) ((n : ℚ) / 2 ^ (-(shift : Int))) := by
      rw [← hvalue, mul_div_cancel_right₀ _ (by positivity)]
      exact isNearest_self _ _
    apply roundWithAccuracy_of_nearest hdouble hself hfull
    rw [← hvalue, mul_div_cancel_right₀ _ (by positivity)]
    exact describes_exact _
  refine ⟨n * 2 ^ shift, -shift, hdouble.pos, ?_, hvalue, hfull, by omega⟩
  show (Float.Model.pack (UnpackedFloat.ofUInt64 Format.binary64 (UInt64.ofNat n))).unpack = _
  rw [hrounded]
  exact unpack_pack hdouble

/-! ## Powers of ten -/

/-- The unpacked double is a power of ten, and its leading bit is at most the seventy-fourth. -/
def isPowerOfTen (n : Nat) : UnpackedFloat → Bool
  | .finite .positive m e _ =>
    m * 2 ^ e.toNat == 10 ^ n * 2 ^ (-e).toNat && decide (totalExponent m e ≤ 74)
  | _ => false

/-- The first powers of ten are doubles exactly. -/
theorem unpack_power_of_le {n : Nat} (h : n ≤ 22) :
    ∃ m e hm, (Numeral.power n).toModel.unpack = .finite .positive m e hm ∧
      (m : ℚ) * 2 ^ e = 10 ^ n ∧ totalExponent m e ≤ 74 := by
  have hpowers : ∀ n ≤ 22, isPowerOfTen n (Numeral.power n).toModel.unpack = true := by
    decide +kernel
  have hpower := hpowers n h
  generalize (Numeral.power n).toModel.unpack = f at hpower ⊢
  match f, hpower with
  | .finite .positive m e hm, hpower =>
      simp only [isPowerOfTen, Bool.and_eq_true, beq_iff_eq, decide_eq_true_eq] at hpower
      refine ⟨m, e, hm, rfl, ?_, hpower.2⟩
      have hvalue : (m : ℚ) * 2 ^ e.toNat = 10 ^ n * 2 ^ (-e).toNat := by exact_mod_cast hpower.1
      have hsplit : (2 : ℚ) ^ e.toNat = 2 ^ e * 2 ^ (-e).toNat := by
        rw [← zpow_natCast, ← zpow_natCast (2 : ℚ) (-e).toNat, ← zpow_add₀ two_ne_zero]
        congr 1
        omega
      rw [hsplit, ← mul_assoc] at hvalue
      exact mul_right_cancel₀ (by positivity) hvalue

end RuleGraph
