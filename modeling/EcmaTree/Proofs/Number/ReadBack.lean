import EcmaTree.Proofs.Number.Numerals
import EcmaTree.Proofs.Number.Rounding

/-!
# Numbers read back

The text of a finite number is read back as that number. A rank is written with the fewest digits
that read back as it, and seventeen always do: the last of them weighs less than the spacing of the
magnitudes there. What the text drops, zeros at the end and needless exponents, changes no value.
-/

namespace EcmaTree

open Number

/-- The leading digit of every magnitude above zero is before the point or among this many places
behind it. -/
@[irreducible] def Number.depth : Nat := 324

theorem Number.depth_eq : depth = 324 := by
  unfold depth
  rfl

/-! ## Decimals within reach -/

namespace Decimal

/-- No numeral of a number has more places behind the point. Scaled by this power of ten, what
numerals write are whole numbers. -/
def places : Nat := depth + 16

theorem places_eq : places = 340 := by rw [places, depth_eq]

theorem shiftLeft_eq_mul_unit (n : Nat) : n <<< 1074 = n * unit := by
  rw [unit, Nat.shiftLeft_eq, Nat.one_shiftLeft]

theorem shiftRight_eq_div_unit (n : Nat) : n >>> 1074 = n / unit := by
  rw [unit, Nat.shiftRight_eq_div_pow, Nat.one_shiftLeft]

/-- A decimal that is not beyond all numbers is rounded as a quotient of whole numbers. -/
theorem toNumber_eq {d : Decimal} (hdigits : d.digits ≠ 0) (hlow : -(places : Int) ≤ d.exponent)
    (hhigh : d.exponent ≤ 400) :
    d.toNumber =
      ofUnits d.negative (d.digits * 10 ^ (d.exponent + places).toNat * unit) (10 ^ places) := by
  have hplaces := places_eq
  rw [toNumber, if_neg hdigits, if_neg (by omega), if_neg (by omega), shiftLeft_eq_mul_unit,
    shiftLeft_eq_mul_unit, Nat.pow_eq, Nat.pow_eq]
  by_cases hexp : 0 ≤ d.exponent
  · have hsplit : (d.exponent + places).toNat = d.exponent.toNat + places := by omega
    have hnum : d.digits * 10 ^ (d.exponent.toNat + places) * unit =
        d.digits * 10 ^ d.exponent.toNat * unit * 10 ^ places := by ring
    rw [if_pos hexp, hsplit, ofUnits, ofUnits, hnum,
      ← nearestRank_mul_mul_right (k := 10 ^ places) (Nat.pow_pos (by decide)), Nat.one_mul]
  · have hsplit : (-d.exponent).toNat + (d.exponent + places).toNat = places := by omega
    rw [if_neg hexp, ofUnits, ofUnits,
      ← nearestRank_mul_mul_right (k := 10 ^ (d.exponent + places).toNat)
        (Nat.pow_pos (by decide)), ← Nat.pow_add, hsplit, Nat.mul_right_comm]

end Decimal

/-- A numeral is rounded like the digits and the power of ten that it denotes. -/
theorem Numeral.toNumber_of_denotes {n : Numeral} {digits : Nat} {exponent : Int}
    (h : n.Denotes digits exponent) (hpos : digits ≠ 0) (hdigits : digits < 10 ^ 21)
    (hlow : -(Decimal.places : Int) ≤ exponent) (hhigh : exponent ≤ 379) (negative : Bool) :
    (n.decimal negative).toNumber = ofUnits negative
      (digits * 10 ^ (exponent + Decimal.places).toNat * unit) (10 ^ Decimal.places) := by
  obtain ⟨zeros, rfl, hexponent⟩ := h
  have hne := Nat.pos_of_ne_zero (Nat.ne_zero_of_mul_ne_zero_left hpos)
  have hzeros : zeros < 21 := by
    apply (Nat.pow_lt_pow_iff_right (a := 10) (by decide)).mp
    exact Nat.lt_of_le_of_lt (Nat.le_mul_of_pos_left _ hne) hdigits
  have hsplit : ((n.decimal false).exponent + Decimal.places).toNat =
      zeros + (exponent + Decimal.places).toNat := by omega
  rw [Decimal.toNumber_eq (d := n.decimal negative) hne.ne' (by simp only [decimal] at *; omega)
    (by simp only [decimal] at *; omega)]
  change ofUnits negative ((n.decimal false).digits *
    10 ^ ((n.decimal false).exponent + Decimal.places).toNat * unit) _ = _
  rw [hsplit, Nat.pow_add, ← Nat.mul_assoc (n.decimal false).digits]

namespace Number

variable {rank precision : Nat}

/-! ## Magnitudes in units -/

theorem unit_pos : 0 < unit := by decide

theorem unit_le : unit ≤ 10 ^ depth := by
  rw [depth_eq]
  decide +kernel

theorem units_pos (hrank : rank ≠ 0) : 0 < units rank := by
  obtain ⟨rank, rfl⟩ := Nat.exists_eq_succ_of_ne_zero hrank
  rw [units_succ]
  exact Nat.add_pos_right _ (Nat.two_pow_pos _)

theorem units_le {m : Nat} (h : scale rank ≤ m) : units rank ≤ 2 ^ 53 * 2 ^ m := by
  rw [units_eq]
  exact Nat.mul_le_mul (significand_lt rank).le (Nat.pow_le_pow_right (by decide) h)

/-- Finite magnitudes have at most 309 digits before the point. -/
theorem units_lt (hrank : rank < rankCount) : units rank < 10 ^ 309 * unit := by
  have hscale : scale rank ≤ 2045 := by
    unfold rankCount at hrank
    unfold scale binade
    omega
  exact Nat.lt_of_le_of_lt (units_le hscale) (by decide +kernel)

/-! ## The leading digit -/

/-- Exponent of the leading digit of a magnitude, counted from the last of `depth` places behind the
point. -/
def leadingPlace (rank : Nat) : Nat := Nat.log 10 (units rank * 10 ^ depth / unit)

theorem leadingExponent_eq (rank : Nat) :
    leadingExponent rank = (leadingPlace rank : Int) - depth := by
  have hcast : (depth : Int) = 324 := congrArg Nat.cast depth_eq
  rw [leadingExponent, ← depth_eq, Nat.pow_eq, Decimal.shiftRight_eq_div_unit, decimalLog_eq_log,
    leadingPlace, hcast]

theorem pow_leadingPlace (hrank : rank ≠ 0) :
    10 ^ leadingPlace rank * unit ≤ units rank * 10 ^ depth ∧
      units rank * 10 ^ depth < 10 ^ (leadingPlace rank + 1) * unit := by
  have hne : units rank * 10 ^ depth / unit ≠ 0 := by
    apply Nat.pos_iff_ne_zero.mp
    apply Nat.div_pos _ unit_pos
    exact unit_le.trans (Nat.le_mul_of_pos_left _ (units_pos hrank))
  rw [leadingPlace, ← Nat.le_div_iff_mul_le unit_pos, ← Nat.div_lt_iff_lt_mul unit_pos]
  exact ⟨Nat.pow_log_le_self 10 hne, Nat.lt_pow_succ_log_self (by decide) _⟩

theorem leadingPlace_lt (hrank : rank ≠ 0) (hfinite : rank < rankCount) :
    leadingPlace rank < 309 + depth := by
  apply (Nat.pow_lt_pow_iff_right (a := 10) (by decide)).mp
  apply Nat.lt_of_mul_lt_mul_right (a := unit)
  calc 10 ^ leadingPlace rank * unit
      ≤ units rank * 10 ^ depth := (pow_leadingPlace hrank).1
    _ < 10 ^ 309 * unit * 10 ^ depth :=
        Nat.mul_lt_mul_of_pos_right (units_lt hfinite) (Nat.pow_pos (by decide))
    _ = 10 ^ (309 + depth) * unit := by rw [Nat.mul_right_comm, ← Nat.pow_add]

/-! ## Significant digits -/

/-- The weight of the last of some significant digits of a magnitude, as a whole number. -/
def weight (rank precision : Nat) : Nat := 10 ^ (leadingPlace rank + (17 - precision)) * unit

/-- A magnitude in terms of the weight of a digit, rounded. -/
def significant (rank precision : Nat) : Nat :=
  roundQuotient (units rank * 10 ^ Decimal.places) (weight rank precision)

theorem weight_pos (rank precision : Nat) : 0 < weight rank precision :=
  Nat.mul_pos (Nat.pow_pos (by decide)) unit_pos

/-- A magnitude is between the powers of ten that its significant digits reach. -/
theorem weight_bounds (hrank : rank ≠ 0) (hpos : 1 ≤ precision) (hprecision : precision ≤ 17) :
    10 ^ (precision - 1) * weight rank precision ≤ units rank * 10 ^ Decimal.places ∧
      units rank * 10 ^ Decimal.places < 10 ^ precision * weight rank precision := by
  obtain ⟨hlow, hhigh⟩ := pow_leadingPlace hrank
  have h₁ : 10 ^ (precision - 1) * weight rank precision =
      10 ^ leadingPlace rank * unit * 10 ^ 16 := by
    have hsplit : precision - 1 + (leadingPlace rank + (17 - precision)) =
        leadingPlace rank + 16 := by omega
    rw [weight, ← Nat.mul_assoc, ← Nat.pow_add, hsplit, Nat.pow_add, Nat.mul_right_comm]
  have h₂ : 10 ^ precision * weight rank precision =
      10 ^ (leadingPlace rank + 1) * unit * 10 ^ 16 := by
    have hsplit : precision + (leadingPlace rank + (17 - precision)) =
        leadingPlace rank + 1 + 16 := by omega
    rw [weight, ← Nat.mul_assoc, ← Nat.pow_add, hsplit, Nat.pow_add, Nat.mul_right_comm]
  rw [h₁, h₂, Decimal.places, Nat.pow_add, ← Nat.mul_assoc]
  exact ⟨Nat.mul_le_mul_right _ hlow, Nat.mul_lt_mul_of_pos_right hhigh (by decide)⟩

/-- Rounding keeps to the powers of ten that the significant digits reach. -/
theorem significant_bounds (hrank : rank ≠ 0) (hpos : 1 ≤ precision) (hprecision : precision ≤ 17) :
    10 ^ (precision - 1) ≤ significant rank precision ∧
      significant rank precision ≤ 10 ^ precision := by
  obtain ⟨hlow, hhigh⟩ := weight_bounds hrank hpos hprecision
  have hle := roundQuotient_mul_le (units rank * 10 ^ Decimal.places) (weight rank precision)
  have hge := le_roundQuotient_mul (units rank * 10 ^ Decimal.places) (weight_pos rank precision)
  constructor
  · by_contra! h
    have := Nat.mul_le_mul_right (weight rank precision) h
    rw [Nat.succ_mul] at this
    have := weight_pos rank precision
    unfold significant at *
    omega
  · by_contra! h
    have := Nat.mul_le_mul_right (weight rank precision) h
    rw [Nat.succ_mul] at this
    unfold significant at *
    omega

/-- The digits of a magnitude are those of the whole number that it is in terms of the last one. -/
theorem roundedDigits_eq (hpos : 1 ≤ precision) (hprecision : precision ≤ 17) :
    roundedDigits rank precision =
      if significant rank precision = 10 ^ precision then
        (10 ^ (precision - 1), leadingExponent rank + 1)
      else (significant rank precision, leadingExponent rank) := by
  have hlast : leadingExponent rank - (precision - 1 : Nat) + Decimal.places =
      leadingPlace rank + (17 - precision) := by
    rw [leadingExponent_eq, Decimal.places]
    omega
  have hdigits : (if 0 ≤ leadingExponent rank - (precision - 1 : Nat) then
      roundQuotient (units rank)
        ((10 ^ (leadingExponent rank - (precision - 1 : Nat)).toNat) <<< 1074)
      else roundQuotient
        (units rank * 10 ^ (-(leadingExponent rank - (precision - 1 : Nat))).toNat) unit) =
      significant rank precision := by
    generalize leadingExponent rank - (precision - 1 : Nat) = last at hlast
    rw [significant, weight, Decimal.shiftLeft_eq_mul_unit]
    split
    · have hsplit : leadingPlace rank + (17 - precision) = last.toNat + Decimal.places := by omega
      rw [hsplit, Nat.pow_add, Nat.mul_right_comm,
        roundQuotient_mul_mul_right (Nat.pow_pos (by decide))]
    · have hsplit : Decimal.places = (-last).toNat + (leadingPlace rank + (17 - precision)) := by
        omega
      rw [hsplit, Nat.pow_add, ← Nat.mul_assoc, Nat.mul_comm _ unit,
        roundQuotient_mul_mul_right (Nat.pow_pos (by decide))]
  simp only [roundedDigits, Nat.pow_eq, hdigits]

/-- The digits of a magnitude, with the power of ten of the last one, are what the rounding gave. -/
theorem roundedDigits_spec (hrank : rank ≠ 0) (hpos : 1 ≤ precision) (hprecision : precision ≤ 17)
    {digits : Nat} {leading : Int} (h : roundedDigits rank precision = (digits, leading)) :
    10 ^ (precision - 1) ≤ digits ∧ digits < 10 ^ precision ∧
      leadingExponent rank ≤ leading ∧ leading ≤ leadingExponent rank + 1 ∧
      digits * 10 ^ (leading - (precision - 1 : Nat) + Decimal.places).toNat * unit =
        significant rank precision * weight rank precision := by
  obtain ⟨hlow, hhigh⟩ := significant_bounds hrank hpos hprecision
  have hplace := leadingExponent_eq rank
  rw [roundedDigits_eq hpos hprecision] at h
  rw [weight]
  split at h
  · next hcarry =>
    obtain ⟨rfl, rfl⟩ := Prod.mk.inj h
    have hexp : (leadingExponent rank + 1 - (precision - 1 : Nat) + Decimal.places).toNat =
        leadingPlace rank + (17 - precision) + 1 := by
      rw [Decimal.places]
      omega
    have hten : 10 ^ (precision - 1) * 10 ^ (leadingPlace rank + (17 - precision) + 1) =
        10 ^ precision * 10 ^ (leadingPlace rank + (17 - precision)) := by
      rw [← Nat.pow_add, ← Nat.pow_add]
      congr 1
      omega
    exact ⟨le_rfl, Nat.pow_lt_pow_right (by decide) (by omega), by omega, le_rfl,
      by rw [hexp, hten, hcarry, Nat.mul_assoc]⟩
  · next hcarry =>
    obtain ⟨rfl, rfl⟩ := Prod.mk.inj h
    have hexp : (leadingExponent rank - (precision - 1 : Nat) + Decimal.places).toNat =
        leadingPlace rank + (17 - precision) := by
      rw [Decimal.places]
      omega
    exact ⟨hlow, lt_of_le_of_ne hhigh hcarry, le_rfl, by omega, by rw [hexp, Nat.mul_assoc]⟩

/-! ## Reading back -/

/-- Rounded to seventeen significant digits, a magnitude is nearer to itself than to any other. -/
theorem nearestRank_significant (hrank : rank ≠ 0) :
    nearestRank (significant rank 17 * weight rank 17) (10 ^ Decimal.places) = rank := by
  cases rank with
  | zero => exact absurd rfl hrank
  | succ rank =>
    have hden : 0 < 10 ^ Decimal.places := Nat.pow_pos (by decide)
    obtain ⟨hbound, -⟩ := weight_bounds hrank (show 1 ≤ 17 by decide) le_rfl
    -- The last digit weighs less than the spacing below the magnitude, because 2^53 < 10^16.
    have hweight : weight (rank + 1) 17 < 2 ^ scale rank * 10 ^ Decimal.places := by
      have hunits := Nat.mul_le_mul_right (10 ^ Decimal.places) (units_succ_le rank)
      rw [Nat.mul_assoc] at hunits
      have hspacing := Nat.mul_pos (Nat.two_pow_pos (scale rank)) hden
      omega
    have habove : 2 ^ scale rank * 10 ^ Decimal.places ≤
        2 ^ scale (rank + 1) * 10 ^ Decimal.places :=
      Nat.mul_le_mul_right _ (Nat.pow_le_pow_right (by decide) (scale_mono rank))
    have hle := roundQuotient_mul_le (units (rank + 1) * 10 ^ Decimal.places) (weight (rank + 1) 17)
    have hge := le_roundQuotient_mul (units (rank + 1) * 10 ^ Decimal.places)
      (weight_pos (rank + 1) 17)
    apply nearestRank_eq <;>
    · rw [significant]
      omega

/-- The rounded digits are read as the magnitude in terms of the last one. -/
theorem toNumber_roundedDigits (hrank : rank ≠ 0) (hfinite : rank < rankCount)
    (hpos : 1 ≤ precision) (hprecision : precision ≤ 17) {digits : Nat} {leading : Int}
    (h : roundedDigits rank precision = (digits, leading)) (negative : Bool) :
    Decimal.toNumber ⟨negative, digits, leading - (precision - 1 : Nat)⟩ =
      ofUnits negative (significant rank precision * weight rank precision)
        (10 ^ Decimal.places) := by
  obtain ⟨hlow, -, hge, hle, hvalue⟩ := roundedDigits_spec hrank hpos hprecision h
  have hplace := leadingPlace_lt hrank hfinite
  have hdigits : digits ≠ 0 := (Nat.lt_of_lt_of_le (Nat.pow_pos (by decide)) hlow).ne'
  rw [leadingExponent_eq] at hge hle
  rw [Decimal.toNumber_eq hdigits, hvalue]
  · rw [Decimal.places]
    dsimp only
    omega
  · dsimp only
    omega

theorem nearestRank_eq_of_ofUnits {num den : Nat} {sign negative : Bool} {h : rank < rankCount}
    (hunits : ofUnits sign num den = .finite negative rank h) : nearestRank num den = rank := by
  rw [ofUnits, ofRank] at hunits
  split at hunits
  · exact (Number.finite.inj hunits).2
  · cases hunits

/-- A rank reads back from the number that its rounded digits write. -/
theorem exists_toNumber_of_readsBack (h : readsBack rank precision = true) {digits : Nat}
    {leading : Int} (hrounded : roundedDigits rank precision = (digits, leading)) :
    ∃ negative hrank, Decimal.toNumber ⟨false, digits, leading - (precision - 1 : Nat)⟩ =
      .finite negative rank hrank := by
  -- The test is opened as a function, before its arguments are there, so that no check of the proof
  -- evaluates the powers of ten behind the digits.
  obtain ⟨test, htest⟩ : ∃ test, readsBack = test := ⟨_, rfl⟩
  rw [htest] at h
  delta readsBack at htest
  subst htest
  beta_reduce at h
  rw [hrounded] at h
  generalize Decimal.toNumber = toNumber at h ⊢
  dsimp only at h
  generalize toNumber _ = value at h ⊢
  cases value with
  | nan => exact absurd h Bool.false_ne_true
  | infinity _ => exact absurd h Bool.false_ne_true
  | finite negative other hrank =>
    obtain rfl := beq_iff_eq.mp h
    exact ⟨negative, hrank, rfl⟩

/-- What reads back is nearest to its rank. -/
theorem nearestRank_of_readsBack (hrank : rank ≠ 0) (hfinite : rank < rankCount)
    (hpos : 1 ≤ precision) (hprecision : precision ≤ 17) (h : readsBack rank precision = true) :
    nearestRank (significant rank precision * weight rank precision) (10 ^ Decimal.places) =
      rank := by
  obtain ⟨⟨digits, leading⟩, hrounded⟩ : ∃ d, roundedDigits rank precision = d := ⟨_, rfl⟩
  obtain ⟨_, _, hnumber⟩ := exists_toNumber_of_readsBack h hrounded
  rw [toNumber_roundedDigits hrank hfinite hpos hprecision hrounded] at hnumber
  exact nearestRank_eq_of_ofUnits hnumber

/-- The chosen number of digits reads back. -/
theorem precision_spec (hrank : rank ≠ 0) (hfinite : rank < rankCount) :
    1 ≤ Number.precision rank ∧ Number.precision rank ≤ 17 ∧
      nearestRank (significant rank (Number.precision rank) * weight rank (Number.precision rank))
        (10 ^ Decimal.places) = rank := by
  rw [Number.precision]
  cases hfind : (List.range' 1 16).find? (readsBack rank) with
  | none => exact ⟨by decide, by decide, nearestRank_significant hrank⟩
  | some precision =>
    have hmem := List.mem_range'_1.mp (List.mem_of_find?_eq_some hfind)
    have hle : precision ≤ 17 := by omega
    exact ⟨hmem.1, hle,
      nearestRank_of_readsBack hrank hfinite hmem.1 hle (List.find?_some hfind)⟩

/-- The layout is chosen by the exponent of the leading digit. -/
theorem shortest_eq {digits : Nat} {leading : Int}
    (hrounded : roundedDigits rank (Number.precision rank) = (digits, leading)) :
    shortest rank =
      if leading < -4 || Number.precision rank ≤ leading then
        scientific (decimalDigits digits) leading
      else positional (decimalDigits digits) leading := by
  -- Opened as a function, for the same reason as above.
  obtain ⟨layout, hlayout⟩ : ∃ layout, shortest = layout := ⟨_, rfl⟩
  rw [hlayout]
  delta shortest at hlayout
  subst hlayout
  beta_reduce
  conv_lhs => zeta
  rw [hrounded]

/-- The text of a magnitude above zero is a numeral that is read back as its rank. -/
theorem exists_numeral (hrank : rank ≠ 0) (hfinite : rank < rankCount) :
    ∃ n : Numeral, n.bytes = magnitudeDigits rank ∧
      ∀ negative, (n.decimal negative).toNumber = .finite negative rank hfinite := by
  have hofRank (negative : Bool) : ofRank negative rank = .finite negative rank hfinite :=
    dif_pos hfinite
  rw [magnitudeDigits]
  split
  · next hinteger =>
    rw [Bool.and_eq_true, decide_eq_true_iff, decide_eq_true_iff] at hinteger
    obtain ⟨hinteger, hsmall⟩ := hinteger
    have hunits : (units rank >>> 1074) * unit = units rank := by
      rw [Decimal.shiftRight_eq_div_unit]
      exact Nat.div_mul_cancel (Nat.dvd_of_mod_eq_zero hinteger)
    have hpos : units rank >>> 1074 ≠ 0 := by
      intro hzero
      rw [hzero, Nat.zero_mul] at hunits
      exact (units_pos hrank).ne hunits
    obtain ⟨n, hbytes, hdenotes⟩ := Numeral.exists_decimalDigits (units rank >>> 1074)
    refine ⟨n, hbytes, fun negative ↦ ?_⟩
    rw [n.toNumber_of_denotes hdenotes hpos hsmall (by omega) (by decide) negative, ofUnits,
      Int.zero_add, Int.toNat_natCast, Nat.mul_right_comm, hunits,
      nearestRank_units _ (Nat.pow_pos (by decide)), hofRank]
  · obtain ⟨hpos, hprecision, hback⟩ := precision_spec hrank hfinite
    obtain ⟨⟨digits, leading⟩, hrounded⟩ : ∃ d, roundedDigits rank (Number.precision rank) = d :=
      ⟨_, rfl⟩
    obtain ⟨hlow, hhigh, hge, hle, hvalue⟩ := roundedDigits_spec hrank hpos hprecision hrounded
    have hdigits : digits ≠ 0 := (Nat.lt_of_lt_of_le (Nat.pow_pos (by decide)) hlow).ne'
    have hlength := length_decimalDigits_eq hpos hlow hhigh
    have hlayout : ∃ n : Numeral, n.bytes = shortest rank ∧
        n.Denotes digits (leading - (Number.precision rank - 1 : Nat)) := by
      rw [shortest_eq hrounded, ← hlength]
      split
      · obtain ⟨n, hmantissa, hexponent, hdenotes⟩ :=
          Numeral.exists_scientific (fun _ ↦ isDigit_of_mem_decimalDigits)
            (decimalDigits_ne_nil digits) (head?_decimalDigits_ne hdigits) leading
        rw [Decimal.natOfDigits_decimalDigits] at hdenotes
        exact ⟨n, by rw [n.bytes_eq, hmantissa, hexponent]; rfl, hdenotes⟩
      · next hlayout =>
        have hleading : leading < (decimalDigits digits).length := by
          simp only [Bool.or_eq_true, decide_eq_true_iff] at hlayout
          omega
        have := Numeral.exists_positional (fun _ ↦ isDigit_of_mem_decimalDigits)
          (decimalDigits_ne_nil digits) (head?_decimalDigits_ne hdigits) hleading
        rwa [Decimal.natOfDigits_decimalDigits] at this
    obtain ⟨n, hbytes, hdenotes⟩ := hlayout
    refine ⟨n, hbytes, fun negative ↦ ?_⟩
    have hsmall : digits < 10 ^ 21 := by
      have := Nat.pow_le_pow_right (n := 10) (by decide) hprecision
      omega
    have hplace := leadingPlace_lt hrank hfinite
    rw [leadingExponent_eq] at hge hle
    rw [n.toNumber_of_denotes hdenotes hdigits hsmall (by rw [Decimal.places]; omega)
      (by omega) negative, hvalue, ofUnits, hback, hofRank]

/-- The text of a finite number is a numeral with a sign that is read back as the number. The one
exception is the negative zero, whose sign is not written. -/
theorem exists_numeral_toText {n : Number} (hfinite : n.isFinite = true)
    (hzero : n.isNegativeZero = false) :
    ∃ (negative : Bool) (numeral : Numeral),
      n.toText.toList = (if negative then [Byte.minus] else []) ++ numeral.bytes ∧
        (numeral.decimal negative).toNumber = n := by
  cases n with
  | nan => exact absurd hfinite Bool.false_ne_true
  | infinity _ => exact absurd hfinite Bool.false_ne_true
  | finite negative rank hrank =>
    rw [toText]
    by_cases h : rank = 0
    · subst h
      cases negative with
      | true => exact absurd hzero Bool.true_eq_false_eq_False
      | false =>
        refine ⟨false, .nought, ?_, Numeral.toNumber_nought false⟩
        rw [if_pos rfl]
        rfl
    · obtain ⟨numeral, hbytes, hnumber⟩ := exists_numeral h hrank
      refine ⟨negative, numeral, ?_, hnumber negative⟩
      rw [if_neg h, hbytes]
      cases negative with
      | false => rw [if_neg Bool.false_ne_true, if_neg Bool.false_ne_true, Text.toList_ofList,
          List.nil_append]
      | true => rw [if_pos rfl, if_pos rfl, Text.toList_ofList, List.singleton_append]

end Number

end EcmaTree
