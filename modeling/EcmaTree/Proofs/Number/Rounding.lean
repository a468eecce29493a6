import EcmaTree.Number.Basic
import Mathlib.Data.Nat.Log
import Mathlib.Tactic.Linarith
import Mathlib.Tactic.Ring

/-!
# Rounding to a rank

What lies closer to a magnitude than the middle between it and its neighbours is rounded to it. In
particular every magnitude is rounded to itself.
-/

namespace EcmaTree.Number

variable {num den k q : Nat}

/-! ## Quotients -/

/-- A rounded quotient is at most a half too large. -/
theorem roundQuotient_mul_le (num den : Nat) :
    2 * (roundQuotient num den * den) ≤ 2 * num + den := by
  have hdiv := Nat.div_add_mod' num den
  rw [roundQuotient]
  split
  · omega
  · split
    · rw [Nat.add_mul]
      omega
    · rcases Nat.mod_two_eq_zero_or_one (num / den) with h | h <;> rw [h, Nat.add_mul] <;> omega

/-- A rounded quotient is at most a half too small. -/
theorem le_roundQuotient_mul (num : Nat) (hden : 0 < den) :
    2 * num ≤ 2 * (roundQuotient num den * den) + den := by
  have hdiv := Nat.div_add_mod' num den
  have hmod := Nat.mod_lt num hden
  rw [roundQuotient]
  split
  · omega
  · split
    · rw [Nat.add_mul]
      omega
    · rcases Nat.mod_two_eq_zero_or_one (num / den) with h | h <;> rw [h, Nat.add_mul] <;> omega

/-- A quotient is rounded to the natural number that is less than a half away. -/
theorem roundQuotient_eq (low : 2 * (q * den) < 2 * num + den)
    (high : 2 * num < 2 * (q * den) + den) : roundQuotient num den = q := by
  have hden : 0 < den := by omega
  have hle := roundQuotient_mul_le num den
  have hge := le_roundQuotient_mul num hden
  apply Nat.le_antisymm
  · by_contra! h
    have := Nat.mul_le_mul_right den h
    rw [Nat.succ_mul] at this
    omega
  · by_contra! h
    have := Nat.mul_le_mul_right den h
    rw [Nat.succ_mul] at this
    omega

/-- A quotient is not rounded below its integer part. -/
theorem div_le_roundQuotient (num den : Nat) : num / den ≤ roundQuotient num den := by
  rw [roundQuotient]
  split
  · exact Nat.le_refl _
  · split
    · exact Nat.le_succ _
    · exact Nat.le_add_right _ _

/-- Rounding depends on the value of a quotient only. -/
theorem roundQuotient_mul_mul_right (hk : 0 < k) :
    roundQuotient (num * k) (den * k) = roundQuotient num den := by
  have hlt (a b : Nat) : a * k < b * k ↔ a < b := Nat.mul_lt_mul_right hk
  simp only [roundQuotient, Nat.mul_div_mul_right _ _ hk, Nat.mul_mod_mul_right, ← Nat.mul_assoc,
    hlt]

/-! ## Magnitudes -/

theorem units_eq (rank : Nat) : units rank = (rank - scale rank * binade) * 2 ^ scale rank :=
  Nat.shiftLeft_eq ..

theorem scale_mono (rank : Nat) : scale rank ≤ scale (rank + 1) :=
  Nat.sub_le_sub_right (Nat.div_le_div_right (Nat.le_succ rank)) 1

theorem scale_mul_le (rank : Nat) : scale rank * binade ≤ rank := by
  unfold scale binade
  omega

/-- The significand of a magnitude has at most 53 bits. -/
theorem significand_lt (rank : Nat) : rank - scale rank * binade < 2 ^ 53 := by
  unfold scale binade
  omega

/-- Where the spacing has doubled, the significand has all of its 53 bits. -/
theorem le_significand {rank : Nat} (h : scale rank ≠ 0) :
    2 ^ 52 ≤ rank - scale rank * binade := by
  unfold scale binade at *
  omega

/-- Where the spacing doubles, a binade begins. -/
theorem eq_of_scale_succ_ne {rank : Nat} (h : scale (rank + 1) ≠ scale rank) :
    scale (rank + 1) = scale rank + 1 ∧ rank + 1 = (scale rank + 2) * binade := by
  unfold scale binade at *
  omega

/-- The next magnitude is one spacing further. -/
theorem units_succ (rank : Nat) : units (rank + 1) = units rank + 2 ^ scale rank := by
  have hle := scale_mul_le rank
  rw [units_eq, units_eq, ← Nat.succ_mul]
  by_cases h : scale (rank + 1) = scale rank
  · rw [h]
    congr 1
    omega
  · obtain ⟨hscale, hrank⟩ := eq_of_scale_succ_ne h
    rw [hscale, Nat.pow_succ', ← Nat.mul_assoc]
    congr 1
    rw [Nat.add_mul] at hrank ⊢
    unfold binade at *
    omega

/-- No magnitude is more than 2^53 spacings large, also not in terms of the spacing below it. -/
theorem units_succ_le (rank : Nat) : units (rank + 1) ≤ 2 ^ 53 * 2 ^ scale rank := by
  rw [units_succ, units_eq, ← Nat.succ_mul]
  exact Nat.mul_le_mul_right _ (significand_lt rank)

/-! ## The nearest rank -/

/-- A quotient of a given scale is rounded to the significand that is less than a half away. -/
theorem nearestRank_of_scale (shift significand : Nat) (hden : 0 < den)
    (hleast : shift = 0 ∨ 2 ^ 52 * (2 ^ shift * den) ≤ num)
    (hmost : num < 2 ^ 53 * (2 ^ shift * den))
    (low : 2 * (significand * (2 ^ shift * den)) < 2 * num + 2 ^ shift * den)
    (high : 2 * num < 2 * (significand * (2 ^ shift * den)) + 2 ^ shift * den) :
    nearestRank num den = shift * binade + significand := by
  have hlt : num / den < 2 ^ (53 + shift) := by
    rwa [Nat.div_lt_iff_lt_mul hden, Nat.pow_add, Nat.mul_assoc]
  have hlog : (num / den).log2 - 52 = shift := by
    rcases Nat.eq_zero_or_pos (num / den) with hzero | hpos
    · rcases hleast with rfl | hleast
      · rw [hzero]
        rfl
      · rw [← Nat.mul_assoc, ← Nat.pow_add, ← Nat.le_div_iff_mul_le hden, hzero] at hleast
        have := Nat.two_pow_pos (52 + shift)
        omega
    · have hmost := (Nat.log2_lt hpos.ne').mpr hlt
      rcases hleast with rfl | hleast
      · omega
      · rw [← Nat.mul_assoc, ← Nat.pow_add, ← Nat.le_div_iff_mul_le hden,
          ← Nat.le_log2 hpos.ne'] at hleast
        omega
  simp only [nearestRank, hlog, Nat.shiftLeft_eq]
  rw [Nat.mul_comm den, roundQuotient_eq low high]

/-- A quotient between the middles of a magnitude and its neighbours is rounded to it. -/
theorem nearestRank_eq {rank : Nat}
    (low : 2 * (units (rank + 1) * den) < 2 * num + 2 ^ scale rank * den)
    (high : 2 * num < 2 * (units (rank + 1) * den) + 2 ^ scale (rank + 1) * den) :
    nearestRank num den = rank + 1 := by
  have hden : 0 < den := by
    apply Nat.pos_of_ne_zero
    rintro rfl
    rw [Nat.mul_zero, Nat.mul_zero] at high
    omega
  have hle := scale_mul_le (rank + 1)
  rw [units_eq, Nat.mul_assoc] at low high
  by_cases hscale : scale (rank + 1) = scale rank
  · -- Within a binade the spacing is the same on both sides.
    rw [hscale] at low high hle
    have hlt : rank + 1 - scale rank * binade + 1 ≤ 2 ^ 53 := hscale ▸ significand_lt (rank + 1)
    have hmost := Nat.mul_le_mul_right (2 ^ scale rank * den) hlt
    rw [Nat.succ_mul] at hmost
    rw [nearestRank_of_scale _ _ hden _ (by omega) low high, Nat.add_sub_cancel' hle]
    rw [or_iff_not_imp_left]
    intro hpos
    have hge : 2 ^ 52 + 1 ≤ rank + 1 - scale rank * binade := by
      have := le_significand hpos
      omega
    have hleast := Nat.mul_le_mul_right (2 ^ scale rank * den) hge
    rw [Nat.succ_mul] at hleast
    omega
  · -- At the start of a binade the spacing below is half of the one above.
    obtain ⟨hnext, hrank⟩ := eq_of_scale_succ_ne hscale
    have hdouble : 2 ^ (scale rank + 1) * den = 2 * (2 ^ scale rank * den) := by
      rw [Nat.pow_succ', Nat.mul_assoc]
    have hsignificand : rank + 1 - (scale rank + 1) * binade = 2 ^ 52 := by
      rw [hrank, Nat.succ_mul, Nat.add_sub_cancel_left]
      rfl
    rw [hnext, hsignificand] at low high
    by_cases hnum : 2 ^ 52 * (2 ^ (scale rank + 1) * den) ≤ num
    · rw [nearestRank_of_scale _ _ hden (.inr hnum) (by omega) (by omega) high, hrank]
      ring
    · rw [nearestRank_of_scale (scale rank) (2 ^ 53) hden (by omega)
        (by omega) (by omega) (by omega), hrank]
      ring

/-- Every magnitude is rounded to itself. -/
theorem nearestRank_units (rank : Nat) (hden : 0 < den) :
    nearestRank (units rank * den) den = rank := by
  cases rank with
  | zero =>
    have hunits : units 0 = 0 := rfl
    rw [hunits, nearestRank_of_scale 0 0 hden (.inl rfl)] <;> omega
  | succ rank =>
    have hbelow := Nat.mul_pos (Nat.two_pow_pos (scale rank)) hden
    have habove := Nat.mul_pos (Nat.two_pow_pos (scale (rank + 1))) hden
    exact nearestRank_eq (by omega) (by omega)

/-- The nearest rank depends on the value of a quotient only. -/
theorem nearestRank_mul_mul_right (hk : 0 < k) :
    nearestRank (num * k) (den * k) = nearestRank num den := by
  simp only [nearestRank, Nat.mul_div_mul_right _ _ hk, Nat.shiftLeft_eq]
  rw [Nat.mul_right_comm, roundQuotient_mul_mul_right hk]

/-- What is not below a magnitude is not rounded to one below it. -/
theorem le_nearestRank {rank : Nat} (hden : 0 < den) (h : units rank * den ≤ num) :
    rank ≤ nearestRank num den := by
  have hquotient := (Nat.le_div_iff_mul_le hden).mpr h
  have hround := div_le_roundQuotient num (den <<< ((num / den).log2 - 52))
  rw [Nat.shiftLeft_eq, ← Nat.div_div_eq_div_mul, ← Nat.shiftLeft_eq] at hround
  rw [nearestRank]
  generalize num / den = q at hquotient hround ⊢
  refine le_trans ?_ (Nat.add_le_add_left hround _)
  rw [units_eq] at hquotient
  have hle := scale_mul_le rank
  have hlt := significand_lt rank
  rcases Nat.lt_trichotomy (q.log2 - 52) (scale rank) with hless | hsame | hmore
  · -- A quotient with as many bits as the magnitude has the scale of the magnitude.
    have hscale : scale rank ≠ 0 := by omega
    have hsignificand := le_significand hscale
    have hbits : 2 ^ (52 + scale rank) ≤ q := by
      rw [Nat.pow_add]
      exact (Nat.mul_le_mul_right _ hsignificand).trans hquotient
    have hpos : q ≠ 0 := ((Nat.two_pow_pos _).trans_le hbits).ne'
    have hlog := (Nat.le_log2 hpos).mpr hbits
    omega
  · rw [hsame]
    have := (Nat.le_div_iff_mul_le (Nat.two_pow_pos _)).mpr hquotient
    omega
  · have hbits : 2 ^ 52 ≤ q / 2 ^ (q.log2 - 52) := by
      rw [Nat.le_div_iff_mul_le (Nat.two_pow_pos _)]
      have hlog : q.log2 = 52 + (q.log2 - 52) := by omega
      have hpos : q ≠ 0 := by
        rintro rfl
        rw [Nat.log2_zero] at hlog
        omega
      calc 2 ^ 52 * 2 ^ (q.log2 - 52) = 2 ^ (52 + (q.log2 - 52)) := (Nat.pow_add _ _ _).symm
        _ = 2 ^ q.log2 := by rw [← hlog]
        _ ≤ q := Nat.log2_self_le hpos
    have hscale := Nat.mul_le_mul_right binade (Nat.succ_le_of_lt hmore)
    rw [Nat.succ_mul] at hscale
    unfold binade at *
    omega

end EcmaTree.Number
