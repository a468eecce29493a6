import EcmaTree.Proofs.Number.ReadBack

/-!
# Integers among the numbers

Every natural number with at most 53 bits is a number, without rounding.
-/

namespace EcmaTree.Number

/-- A natural number of up to 53 bits is a finite magnitude. -/
theorem exists_units_eq {n : Nat} (hn : n < 2 ^ 53) :
    ∃ rank < rankCount, units rank = n * unit := by
  rcases Nat.eq_zero_or_pos n with rfl | hpos
  · exact ⟨0, by decide, rfl⟩
  -- The significand is the number with its leading bit moved to the place of the 53rd.
  have hlog : n.log2 ≤ 52 := by
    have := (Nat.log2_lt hpos.ne').mpr hn
    omega
  obtain ⟨spare, hspare⟩ := Nat.exists_eq_add_of_le hlog
  have hlow : 2 ^ 52 ≤ n * 2 ^ spare := by
    rw [hspare, Nat.pow_add]
    exact Nat.mul_le_mul_right _ (Nat.log2_self_le hpos.ne')
  have hhigh : n * 2 ^ spare < 2 ^ 53 := by
    have hlt := Nat.mul_lt_mul_of_pos_right (Nat.lt_log2_self (n := n)) (Nat.two_pow_pos spare)
    rwa [← Nat.pow_add, Nat.add_right_comm, ← hspare] at hlt
  have hscale : scale ((1022 + n.log2) * binade + n * 2 ^ spare) = 1022 + n.log2 := by
    unfold scale binade
    omega
  refine ⟨(1022 + n.log2) * binade + n * 2 ^ spare, by unfold rankCount binade; omega, ?_⟩
  rw [units_eq, hscale, Nat.add_sub_cancel_left, Nat.mul_assoc, ← Nat.pow_add, unit,
    Nat.one_shiftLeft]
  congr 2
  omega

/-- Such a number is not rounded. -/
theorem exists_ofNat_eq {n : Nat} (hn : n < 2 ^ 53) :
    ∃ rank, ∃ h : rank < rankCount, ofNat n = .finite false rank h ∧ units rank = n * unit := by
  obtain ⟨rank, hrank, hunits⟩ := exists_units_eq hn
  have hnearest := nearestRank_units rank Nat.one_pos
  rw [Nat.mul_one, hunits] at hnearest
  refine ⟨rank, hrank, ?_, hunits⟩
  rw [ofNat, ofUnits, Decimal.shiftLeft_eq_mul_unit, hnearest, ofRank, dif_pos hrank]

/-- Such a number is finite, is not the negative zero, and is an integer. -/
theorem ofNat_spec {n : Nat} (hn : n < 2 ^ 53) :
    (ofNat n).isFinite = true ∧ (ofNat n).isNegativeZero = false ∧
      (ofNat n).integer? = some ↑n := by
  obtain ⟨rank, hrank, hexact, hunits⟩ := exists_ofNat_eq hn
  rw [hexact]
  refine ⟨rfl, rfl, ?_⟩
  rw [integer?, hunits, if_pos (Nat.mul_mod_left n unit), Decimal.shiftRight_eq_div_unit,
    Nat.mul_div_cancel n unit_pos]
  rfl

end EcmaTree.Number
