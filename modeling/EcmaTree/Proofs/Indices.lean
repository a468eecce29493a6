import EcmaTree.Evaluation.Indices
import EcmaTree.Proofs.Number.Indices

/-!
# The indices that arguments denote

Two rules give every number an index: one that counts negative numbers from the end and one that has
them at the beginning. Neither index lies past the end.
-/

namespace EcmaTree

namespace Number

/-- What stands before the point in a magnitude. -/
def Whole (rank whole : Nat) : Prop := whole * unit ≤ units rank ∧ units rank < (whole + 1) * unit

/-- The index of a number in a sequence that has a length: fractions are cut off, and what is left
of a negative number counts from the end. Indices outside are moved to the nearer end. -/
inductive Relative (length : Nat) : Number → Nat → Prop where
  | nan : Relative length nan 0
  | infinity : Relative length (infinity false) length
  | negativeInfinity : Relative length (infinity true) 0
  | front {rank whole : Nat} {hrank : rank < rankCount} (hwhole : Whole rank whole) :
      Relative length (finite false rank hrank) (min whole length)
  | negativeFraction {rank : Nat} {hrank : rank < rankCount} (hwhole : Whole rank 0) :
      Relative length (finite true rank hrank) 0
  | back {rank whole : Nat} {hrank : rank < rankCount} (hwhole : Whole rank whole)
      (hpos : 0 < whole) : Relative length (finite true rank hrank) (length - whole)

/-- The index of a number in a sequence that has a length, where nothing is counted from the end. -/
inductive Clamped (length : Nat) : Number → Nat → Prop where
  | nan : Clamped length nan 0
  | infinity : Clamped length (infinity false) length
  | negativeInfinity : Clamped length (infinity true) 0
  | front {rank whole : Nat} {hrank : rank < rankCount} (hwhole : Whole rank whole) :
      Clamped length (finite false rank hrank) (min whole length)
  | negative {rank : Nat} {hrank : rank < rankCount} : Clamped length (finite true rank hrank) 0

variable {x : Number} {rank whole length i n : Nat} {hrank : rank < rankCount}

theorem whole_iff : Whole rank whole ↔ whole = units rank >>> 1074 := by
  rw [Decimal.shiftRight_eq_div_unit, eq_comm, Nat.div_eq_iff unit_pos, Whole]
  have := unit_pos
  rw [Nat.add_mul]
  omega

theorem Whole.truncate?_eq (hwhole : Whole rank whole) (negative : Bool) :
    (finite negative rank hrank).truncate? = some (if negative then -(whole : Int) else whole) := by
  rw [truncate?, ← whole_iff.mp hwhole]

theorem Whole.relativeIndex_front (hwhole : Whole rank whole) :
    (finite false rank hrank).relativeIndex length = min whole length := by
  rw [relativeIndex, hwhole.truncate?_eq, if_neg Bool.false_ne_true, Option.getD_some]
  exact if_neg (Int.not_lt.mpr (Int.natCast_nonneg whole))

theorem Whole.relativeIndex_back (hwhole : Whole rank whole) :
    (finite true rank hrank).relativeIndex length = if whole = 0 then 0 else length - whole := by
  rw [relativeIndex, hwhole.truncate?_eq, if_pos rfl, Option.getD_some]
  split <;> split <;> omega

theorem Whole.clampedIndex_front (hwhole : Whole rank whole) :
    (finite false rank hrank).clampedIndex length = min whole length := by
  rw [clampedIndex, hwhole.truncate?_eq, if_neg Bool.false_ne_true, Option.getD_some,
    Int.toNat_natCast]

theorem Whole.clampedIndex_negative (hwhole : Whole rank whole) :
    (finite true rank hrank).clampedIndex length = 0 := by
  rw [clampedIndex, hwhole.truncate?_eq, if_pos rfl, Option.getD_some]
  omega

theorem relative_iff : Relative length x i ↔ i = x.relativeIndex length := by
  constructor
  · intro h
    cases h with
    | nan | infinity | negativeInfinity => rfl
    | front hwhole => exact hwhole.relativeIndex_front.symm
    | negativeFraction hwhole => exact hwhole.relativeIndex_back.symm
    | back hwhole hpos => rw [hwhole.relativeIndex_back, if_neg hpos.ne']
  · rintro rfl
    cases x with
    | nan => exact .nan
    | infinity negative => cases negative <;> constructor
    | finite negative rank hrank =>
      have hwhole : Whole rank (units rank >>> 1074) := whole_iff.mpr rfl
      cases negative with
      | false =>
        rw [hwhole.relativeIndex_front]
        exact .front hwhole
      | true =>
        rw [hwhole.relativeIndex_back]
        split
        · next hzero => exact .negativeFraction (hzero ▸ hwhole)
        · next hzero => exact .back hwhole (Nat.pos_of_ne_zero hzero)

theorem clamped_iff : Clamped length x i ↔ i = x.clampedIndex length := by
  constructor
  · intro h
    cases h with
    | nan | infinity | negativeInfinity => rfl
    | front hwhole => exact hwhole.clampedIndex_front.symm
    | negative => exact (whole_iff.mpr rfl).clampedIndex_negative.symm
  · rintro rfl
    cases x with
    | nan => exact .nan
    | infinity negative => cases negative <;> constructor
    | finite negative rank hrank =>
      have hwhole : Whole rank (units rank >>> 1074) := whole_iff.mpr rfl
      cases negative with
      | false =>
        rw [hwhole.clampedIndex_front]
        exact .front hwhole
      | true =>
        rw [hwhole.clampedIndex_negative]
        exact .negative

theorem Relative.le (h : Relative length x i) : i ≤ length := by
  cases h <;> omega

theorem Clamped.le (h : Clamped length x i) : i ≤ length := by
  cases h <;> omega

/-! ## Natural numbers -/

/-- A natural number is a finite magnitude, or the negative zero. -/
theorem exists_finite_of_integer? (hx : x.integer? = some ↑i) :
    ∃ negative rank, ∃ hrank : rank < rankCount,
      x = finite negative rank hrank ∧ units rank = i * unit ∧ (negative = true → i = 0) := by
  cases x with
  | nan | infinity => cases hx
  | finite negative rank hrank =>
    refine ⟨negative, rank, hrank, rfl, ?_⟩
    rw [integer?] at hx
    split at hx
    · next hwhole =>
      obtain ⟨whole, hunits⟩ := Nat.dvd_of_mod_eq_zero hwhole
      rw [hunits, Nat.mul_comm, Decimal.shiftRight_eq_div_unit,
        Nat.mul_div_cancel _ unit_pos] at hx
      have hx := Option.some.inj hx
      rw [hunits, Nat.mul_comm unit, Nat.mul_left_inj unit_pos.ne']
      cases negative with
      | false => exact ⟨Int.ofNat.inj hx, fun h ↦ absurd h Bool.false_ne_true⟩
      | true =>
        rw [if_pos rfl] at hx
        omega
    · cases hx

theorem whole_of_units_eq (hunits : units rank = i * unit) : Whole rank i := by
  rw [Whole, hunits]
  exact ⟨Nat.le_refl _, Nat.mul_lt_mul_of_pos_right (Nat.lt_succ_self i) unit_pos⟩

theorem exactIndex?_of_integer? (hx : x.integer? = some ↑i) : x.exactIndex? = some i := by
  obtain ⟨negative, rank, hrank, rfl, hunits, hzero⟩ := exists_finite_of_integer? hx
  rw [exactIndex?, (whole_of_units_eq hunits).truncate?_eq]
  cases negative with
  | false => simp
  | true => simp [hzero rfl]

theorem relativeIndex_of_integer? (hx : x.integer? = some ↑i) :
    x.relativeIndex length = min i length := by
  obtain ⟨negative, rank, hrank, rfl, hunits, hzero⟩ := exists_finite_of_integer? hx
  have hwhole := whole_of_units_eq hunits
  cases negative with
  | false => exact hwhole.relativeIndex_front
  | true => rw [hwhole.relativeIndex_back, if_pos (hzero rfl), hzero rfl, Nat.zero_min]

theorem clampedIndex_of_integer? (hx : x.integer? = some ↑i) :
    x.clampedIndex length = min i length := by
  obtain ⟨negative, rank, hrank, rfl, hunits, hzero⟩ := exists_finite_of_integer? hx
  have hwhole := whole_of_units_eq hunits
  cases negative with
  | false => exact hwhole.clampedIndex_front
  | true => rw [hwhole.clampedIndex_negative, hzero rfl, Nat.zero_min]

/-- A natural number that is not rounded is the index that it is. -/
theorem relative_ofNat (hi : i < 2 ^ 53) (hle : i ≤ length) : Relative length (ofNat i) i := by
  rw [relative_iff, relativeIndex_of_integer? (ofNat_spec hi).2.2, Nat.min_eq_left hle]

/-- The number after a natural number is its successor, rounded once. -/
theorem add_one_of_integer? (hx : x.integer? = some ↑i) : x.add 1 = ofNat (i + 1) := by
  obtain ⟨negative, rank, hrank, rfl, hunits, hzero⟩ := exists_finite_of_integer? hx
  obtain ⟨one, hone, heq, hunit⟩ := exists_ofNat_eq (n := 1) (by decide)
  have hsigned : signedUnits negative rank = (i * unit : Nat) := by
    rw [signedUnits, hunits]
    cases negative with
    | false => rfl
    | true =>
      rw [hzero rfl, Nat.zero_mul]
      rfl
  have htotal : signedUnits negative rank + signedUnits false one = ((i + 1) * unit : Nat) := by
    rw [hsigned, signedUnits, if_neg Bool.false_ne_true, hunit, ← Int.natCast_add, ← Nat.add_mul]
  have hpos : 0 < (i + 1) * unit := Nat.mul_pos (Nat.succ_pos i) unit_pos
  change add _ (ofNat 1) = _
  rw [heq, add, htotal, if_neg (by omega), decide_eq_false (by omega), Int.natAbs_natCast, ofNat,
    Decimal.shiftLeft_eq_mul_unit]

/-- Past a number that denotes the end, no rounding leads back from the end. -/
theorem clampedIndex_ofNat_of_le (hx : x.integer? = some ↑i) (hlength : length ≤ i) (hn : i ≤ n) :
    (ofNat n).clampedIndex length = length := by
  obtain ⟨negative, rank, hrank, rfl, hunits, hzero⟩ := exists_finite_of_integer? hx
  have hle : rank ≤ nearestRank (n <<< 1074) 1 := by
    apply le_nearestRank Nat.one_pos
    rw [hunits, Nat.mul_one, Decimal.shiftLeft_eq_mul_unit]
    exact Nat.mul_le_mul_right _ hn
  rw [ofNat, ofUnits, ofRank]
  split
  · have hmono : i * unit ≤ units (nearestRank (n <<< 1074) 1) :=
      hunits ▸ units_strictMono.monotone hle
    have hi : i ≤ units (nearestRank (n <<< 1074) 1) >>> 1074 := by
      rwa [Decimal.shiftRight_eq_div_unit, Nat.le_div_iff_mul_le unit_pos]
    rw [(whole_iff.mpr rfl).clampedIndex_front]
    exact Nat.min_eq_right (hlength.trans hi)
  · rfl

end Number

namespace Heap

/-- The index that an argument denotes by a rule for numbers. The fallback stands for undefined. -/
def Denotes (h : Heap) (rule : Number → Nat → Prop) (fallback : Nat) (arg : Value) (i : Nat) :
    Prop :=
  if arg = .undefined then i = fallback else rule (h.toNumber arg) i

variable {h : Heap} {arg : Value} {length fallback i : Nat}

theorem denotes_relative_iff :
    h.Denotes (Number.Relative length) fallback arg i ↔
      i = h.relativeIndex arg length fallback := by
  cases arg with
  | undefined => exact Iff.rfl
  | _ => exact Number.relative_iff

theorem denotes_clamped_iff :
    h.Denotes (Number.Clamped length) fallback arg i ↔
      i = h.clampedIndex arg length fallback := by
  cases arg with
  | undefined => exact Iff.rfl
  | _ => exact Number.clamped_iff

/-- If no number denotes an index past the end and the fallback is none, then no argument does. -/
theorem Denotes.le {rule : Number → Nat → Prop} (hrule : ∀ x i, rule x i → i ≤ length)
    (hfallback : fallback ≤ length) (hi : h.Denotes rule fallback arg i) : i ≤ length := by
  unfold Denotes at hi
  split at hi
  · exact hi ▸ hfallback
  · exact hrule _ _ hi

end Heap

end EcmaTree
