import EcmaTree.Proofs.Number.ReadBack

/-!
# Decimals far out

A decimal is rounded from its exact value. The decimals whose power of ten is not computed are no
exception: what is beyond all numbers is rounded to an infinity, and what is nearer to zero than to
any other number is rounded to zero.
-/

namespace EcmaTree

open Number

namespace Number

theorem nearestRank_eq_zero {num den : Nat} (h : 2 * num < den) : nearestRank num den = 0 := by
  rw [nearestRank_of_scale 0 0 (by omega) (.inl rfl)] <;> omega

/-- A quotient with more bits than the last finite magnitude is beyond all ranks. -/
theorem rankCount_le_nearestRank {num den bits : Nat} (hbits : 2100 ≤ bits) (hpos : 0 < den)
    (h : 2 ^ bits * den ≤ num) : rankCount ≤ nearestRank num den := by
  have hquotient : 2 ^ bits ≤ num / den := (Nat.le_div_iff_mul_le hpos).mpr h
  have hne : num / den ≠ 0 := (Nat.lt_of_lt_of_le (Nat.two_pow_pos _) hquotient).ne'
  have hlog : bits ≤ (num / den).log2 := (Nat.le_log2 hne).mpr hquotient
  have hshift : 2047 * binade ≤ ((num / den).log2 - 52) * binade :=
    Nat.mul_le_mul_right _ (by omega)
  exact Nat.le_trans (Nat.le_trans (by decide) hshift) (Nat.le_add_right _ _)

end Number

namespace Decimal

/-- The number nearest to the exact value of a decimal. -/
def nearest (d : Decimal) : Number :=
  .ofUnits d.negative (d.digits * 10 ^ d.exponent.toNat * unit) (10 ^ (-d.exponent).toNat)

theorem nearest_of_digits_eq_zero {d : Decimal} (h : d.digits = 0) :
    d.nearest = .zero d.negative := by
  have hrank : nearestRank 0 (10 ^ (-d.exponent).toNat) = 0 :=
    nearestRank_eq_zero (Nat.pow_pos (by decide))
  rw [nearest, h, Nat.zero_mul, Nat.zero_mul, ofUnits, hrank]
  rfl

/-- No number is as large as a decimal with 400 noughts before the point. -/
theorem nearest_of_large {d : Decimal} (hdigits : d.digits ≠ 0) (h : 400 < d.exponent) :
    d.nearest = .infinity d.negative := by
  have hexponent : depth ≤ d.exponent.toNat := by
    rw [depth_eq]
    omega
  have hsquare (n : Nat) : 2 ^ (n + n) * 1 = (1 <<< n) * (1 <<< n) := by
    rw [Nat.one_shiftLeft, ← Nat.pow_add, Nat.mul_one]
  have hlarge : 2 ^ (1074 + 1074) * 1 ≤ d.digits * 10 ^ d.exponent.toNat * unit := by
    calc 2 ^ (1074 + 1074) * 1 = unit * unit := hsquare 1074
      _ ≤ 10 ^ depth * unit := Nat.mul_le_mul_right _ unit_le
      _ ≤ 10 ^ d.exponent.toNat * unit :=
        Nat.mul_le_mul_right _ (Nat.pow_le_pow_right (by decide) hexponent)
      _ ≤ d.digits * 10 ^ d.exponent.toNat * unit :=
        Nat.mul_le_mul_right _ (Nat.le_mul_of_pos_left _ (Nat.pos_of_ne_zero hdigits))
  have hbeyond := rankCount_le_nearestRank (by decide) Nat.one_pos hlarge
  have hden : (-d.exponent).toNat = 0 := by omega
  rw [nearest, hden, Nat.pow_zero, ofUnits, ofRank, dif_neg (Nat.not_lt.mpr hbeyond)]

/-- No number but zero is as small as a decimal with 400 noughts behind the point. -/
theorem nearest_of_small {d : Decimal} (h : d.exponent < -(400 + d.digits.log2 : Int)) :
    d.nearest = .zero d.negative := by
  have hnum : d.exponent.toNat = 0 := by omega
  have hden : 400 + d.digits.log2 ≤ (-d.exponent).toNat := by omega
  have hsmall : 2 * (d.digits * unit) < 10 ^ (-d.exponent).toNat := by
    calc 2 * (d.digits * unit) = 2 * d.digits * unit := (Nat.mul_assoc _ _ _).symm
      _ ≤ 2 ^ (d.digits.log2 + 2) * 10 ^ depth := by
        apply Nat.mul_le_mul _ unit_le
        have := Nat.lt_log2_self (n := d.digits)
        rw [Nat.pow_succ _ (d.digits.log2 + 1)]
        omega
      _ ≤ 10 ^ (d.digits.log2 + 2) * 10 ^ depth :=
        Nat.mul_le_mul_right _ (Nat.pow_le_pow_left (by decide) _)
      _ = 10 ^ (d.digits.log2 + 2 + depth) := (Nat.pow_add _ _ _).symm
      _ < 10 ^ (-d.exponent).toNat :=
        Nat.pow_lt_pow_right (by decide) (by rw [depth_eq]; omega)
  rw [nearest, hnum, Nat.pow_zero, Nat.mul_one, ofUnits, nearestRank_eq_zero hsmall]
  rfl

/-- Every decimal is rounded from its exact value. -/
theorem toNumber_eq_nearest (d : Decimal) : d.toNumber = d.nearest := by
  rw [toNumber]
  split_ifs with hdigits hlarge hsmall hexponent
  · exact (nearest_of_digits_eq_zero hdigits).symm
  · exact (nearest_of_large hdigits hlarge).symm
  · exact (nearest_of_small hsmall).symm
  · have hden : (-d.exponent).toNat = 0 := by omega
    rw [nearest, hden, shiftLeft_eq_mul_unit, Nat.pow_eq, Nat.pow_zero]
  · have hnum : d.exponent.toNat = 0 := by omega
    rw [nearest, hnum, shiftLeft_eq_mul_unit, Nat.pow_eq, Nat.pow_zero, Nat.mul_one]

end Decimal

end EcmaTree
