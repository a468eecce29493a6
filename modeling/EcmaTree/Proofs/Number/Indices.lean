import EcmaTree.Evaluation.Members
import EcmaTree.Proofs.Number.Integers

/-!
# Indices and lengths

Which texts are the indices of elements, and which numbers are the lengths of arrays: the numerals
of the natural numbers with at most 15 digits, and the natural numbers up to the greatest length.
-/

namespace EcmaTree

namespace Byte

theorem isDigit_iff {b : UInt8} : isDigit b = true ↔ 0x30 ≤ b.toNat ∧ b.toNat ≤ 0x39 := by
  rw [isDigit, Bool.and_eq_true, decide_eq_true_iff, decide_eq_true_iff, UInt8.le_iff_toNat_le,
    UInt8.le_iff_toNat_le]
  rfl

theorem digit_lt {b : UInt8} (hb : isDigit b = true) : digit b < 10 := by
  rw [isDigit_iff] at hb
  rw [digit]
  omega

/-- The last digit of a number is written as it was read. -/
theorem ofDigit_eq {b : UInt8} (hb : isDigit b = true) {n : Nat} (hn : n % 10 = digit b) :
    ofDigit n = b := by
  rw [isDigit_iff] at hb
  apply UInt8.toNat_inj.mp
  rw [toNat_ofDigit, hn, digit]
  omega

end Byte

namespace Decimal

theorem natOfDigits_concat (ds : List UInt8) (d : UInt8) :
    natOfDigits (ds ++ [d]) = natOfDigits ds * 10 + Byte.digit d := by
  rw [natOfDigits_append, List.length_singleton, Nat.pow_one]
  congr 1
  rw [natOfDigits, List.foldl_cons, List.foldl_nil, Nat.mul_zero, Nat.zero_add]

theorem natOfDigits_lt {ds : List UInt8} (hds : ∀ b ∈ ds, Byte.isDigit b = true) :
    natOfDigits ds < 10 ^ ds.length := by
  induction ds using List.reverseRecOn with
  | nil => exact Nat.one_pos
  | append_singleton ds d ih =>
    have hd := Byte.digit_lt (hds d (by simp))
    have hlt := ih fun b hb ↦ hds b (List.mem_append_left _ hb)
    rw [natOfDigits_concat, List.length_append, List.length_singleton, Nat.pow_succ]
    omega

/-- Digits that begin with a nought only if they are one are the numeral of their number. -/
theorem decimalDigits_natOfDigits {ds : List UInt8} (hne : ds ≠ [])
    (hds : ∀ b ∈ ds, Byte.isDigit b = true) (hhead : ds.length = 1 ∨ ds.head? ≠ some Byte.zero) :
    decimalDigits (natOfDigits ds) = ds := by
  induction ds using List.reverseRecOn with
  | nil => exact absurd rfl hne
  | append_singleton ds d ih =>
    have hd := hds d (by simp)
    have hlt := Byte.digit_lt hd
    rw [natOfDigits_concat, decimalDigits]
    by_cases hnil : ds = []
    · subst hnil
      rw [natOfDigits, List.foldl_nil, Nat.zero_mul, Nat.zero_add, if_pos hlt,
        Byte.ofDigit_eq hd (Nat.mod_eq_of_lt hlt), List.nil_append]
    · have hhead : ds.head? ≠ some Byte.zero := by
        rw [List.head?_append, Option.or_of_isSome (by simp [hnil])] at hhead
        refine hhead.resolve_left fun hlength ↦ hnil ?_
        rw [List.length_append, List.length_singleton] at hlength
        exact List.length_eq_zero_iff.mp (by omega)
      have hinit := ih hnil (fun b hb ↦ hds b (List.mem_append_left _ hb)) (.inr hhead)
      have hpos : natOfDigits ds ≠ 0 := by
        intro hzero
        rw [hzero] at hinit
        exact hhead (by rw [← hinit, decimalDigits]; rfl)
      have hquotient : (natOfDigits ds * 10 + Byte.digit d) / 10 = natOfDigits ds := by omega
      rw [if_neg (by omega), hquotient, hinit, Byte.ofDigit_eq hd (by omega)]

end Decimal

/-- The indices among the texts are the numerals of the numbers with at most 15 digits. -/
theorem Text.index?_eq_some_iff {t : Text} {i : Nat} :
    t.index? = some i ↔ t = Text.ofNat i ∧ i < 10 ^ 15 := by
  constructor
  · intro h
    rw [index?] at h
    split at h
    · cases h
    next hdigits =>
    split at h
    · cases h
    next hhead =>
    obtain rfl := Option.some.inj h
    simp only [Bool.or_eq_true, Bool.and_eq_true, not_or, not_and, decide_eq_true_iff, beq_iff_eq,
      List.isEmpty_iff, Bool.not_eq_true', Bool.not_eq_false, List.all_eq_true] at hdigits hhead
    obtain ⟨⟨hne, hlength⟩, hdigits⟩ := hdigits
    constructor
    · have hone : t.toList.length = 1 ∨ t.toList.head? ≠ some Byte.zero := by
        have hpos := List.length_pos_iff.mpr hne
        by_cases hlong : 1 < t.toList.length
        · exact .inr (hhead hlong)
        · exact .inl (by omega)
      rw [ofNat, Decimal.decimalDigits_natOfDigits hne hdigits hone, ofList_toList]
    · calc Decimal.natOfDigits t.toList
        _ < 10 ^ t.toList.length := Decimal.natOfDigits_lt hdigits
        _ ≤ 10 ^ 15 := Nat.pow_le_pow_right (by decide) (Nat.not_lt.mp hlength)
  · rintro ⟨rfl, hi⟩
    have hlength : (decimalDigits i).length ≤ 15 := by
      rw [length_decimalDigits]
      exact Nat.log_lt_of_lt_pow' (by decide) hi
    have hhead : 1 < (decimalDigits i).length → (decimalDigits i).head? ≠ some Byte.zero := by
      intro hlong
      refine head?_decimalDigits_ne fun hzero ↦ ?_
      rw [hzero, length_decimalDigits] at hlong
      exact absurd hlong (by decide)
    have hdigits : (decimalDigits i).all Byte.isDigit = true :=
      List.all_eq_true.mpr fun b hb ↦ isDigit_of_mem_decimalDigits hb
    rw [index?, ofNat, toList_ofList, if_neg, if_neg, Decimal.natOfDigits_decimalDigits]
    · simpa using hhead
    · simpa [decimalDigits_ne_nil, hdigits] using hlength

theorem Text.index?_ofNat {i : Nat} (hi : i < 10 ^ 15) : (Text.ofNat i).index? = some i :=
  index?_eq_some_iff.mpr ⟨rfl, hi⟩

theorem Text.ofNat_ne_lengthKey {i : Nat} (hi : i < 10 ^ 15) : Text.ofNat i ≠ lengthKey := by
  intro heq
  have hnone : lengthKey.index? = none := by decide +kernel
  rw [← heq, index?_ofNat hi] at hnone
  cases hnone

namespace Number

theorem units_strictMono : StrictMono units := by
  refine strictMono_nat_of_lt_succ fun rank ↦ ?_
  rw [units_succ]
  exact Nat.lt_add_of_pos_right (Nat.two_pow_pos _)

/-- A finite number equals a natural number if it has as many units and is not below zero. -/
theorem equal_ofNat_iff {negative : Bool} {rank k : Nat} {hrank : rank < rankCount}
    (hk : k < 2 ^ 53) :
    (finite negative rank hrank).equal (ofNat k) = true ↔
      units rank = k * unit ∧ (negative = true → k = 0) := by
  obtain ⟨r, hr, heq, hunits⟩ := exists_ofNat_eq hk
  have hsame : units rank = k * unit ↔ rank = r := by
    rw [← hunits, units_strictMono.injective.eq_iff]
  have hzero : r = 0 ↔ k = 0 := by
    have hunitsZero : units 0 = 0 := rfl
    rw [← units_strictMono.injective.eq_iff, hunits, hunitsZero, Nat.mul_eq_zero,
      or_iff_left unit_pos.ne']
  rw [heq, equal, position, position, beq_iff_eq, hsame, ← hzero]
  cases negative
  · simp
  · simp
    omega

/-- A number is the natural number that it equals. -/
theorem integer?_eq_some_iff {x : Number} {n : Nat} (hn : n < 2 ^ 53) :
    x.integer? = some ↑n ↔ x.equal (ofNat n) = true := by
  cases x with
  | nan => simp [integer?, equal, position]
  | infinity negative =>
    obtain ⟨r, hr, heq, -⟩ := exists_ofNat_eq hn
    have hlt : (r : Int) < rankCount := Int.ofNat_lt.mpr hr
    refine iff_of_false (Option.some_ne_none _).symm ?_
    rw [heq, equal, position, position, beq_iff_eq]
    cases negative with
    | false => exact hlt.ne'
    | true =>
      intro h
      have h : -(rankCount : Int) = r := h
      omega
  | finite negative rank hrank =>
    rw [equal_ofNat_iff hn, integer?]
    by_cases hwhole : units rank % unit = 0
    · obtain ⟨whole, hunits⟩ := Nat.dvd_of_mod_eq_zero hwhole
      rw [if_pos hwhole, hunits, Nat.mul_comm, Decimal.shiftRight_eq_div_unit,
        Nat.mul_div_cancel _ unit_pos, Nat.mul_left_inj unit_pos.ne']
      cases negative <;> simp
      omega
    · rw [if_neg hwhole]
      refine iff_of_false (Option.some_ne_none _).symm ?_
      rintro ⟨hunits, -⟩
      rw [hunits, Nat.mul_mod_left] at hwhole
      exact hwhole rfl

/-- The lengths of arrays are the numbers that equal a natural number up to the greatest length. -/
theorem arrayLength?_eq_some_iff {n : Number} {k : Nat} :
    n.arrayLength? = some k ↔ k ≤ maxArrayLength ∧ n.equal (.ofNat k) = true := by
  have hinteger : n.arrayLength? = some k ↔ k ≤ maxArrayLength ∧ n.integer? = some ↑k := by
    rw [arrayLength?]
    cases n.integer? with
    | none => simp
    | some i => simp; omega
  rw [hinteger]
  apply and_congr_right
  intro hk
  exact integer?_eq_some_iff (hk.trans_lt (by decide))

end Number

end EcmaTree
