import EcmaTree.Proofs.Number.Digits
import Mathlib.Data.List.TakeWhile

/-!
# The parts of a numeral

A numeral without its sign is digits, a point with further digits where there is a fraction, and an
exponent where one is written. Every layout of a number has this form, and as a decimal it has the
digits and the power of ten that were laid out.
-/

namespace EcmaTree

namespace Decimal

/-- The leading digits end where no digit follows. -/
theorem splitDigits_append {ds rest : List UInt8} (hds : ∀ b ∈ ds, Byte.isDigit b = true)
    (hrest : ∀ b ∈ rest.head?, Byte.isDigit b = false) : splitDigits (ds ++ rest) = (ds, rest) := by
  have htake : rest.takeWhile Byte.isDigit = [] ∧ rest.dropWhile Byte.isDigit = rest := by
    cases rest with
    | nil => exact ⟨rfl, rfl⟩
    | cons b rest =>
      have hb := hrest b rfl
      rw [List.takeWhile_cons_of_neg (by simp [hb]), List.dropWhile_cons_of_neg (by simp [hb])]
      exact ⟨rfl, rfl⟩
  rw [splitDigits, List.takeWhile_append_of_pos hds, List.dropWhile_append_of_pos hds, htake.1,
    htake.2, List.append_nil]

end Decimal

/-- The parts of a numeral without a sign. The whole part has a digit and no needless nought in
front. -/
structure Numeral where
  whole : List UInt8
  fraction : List UInt8
  exponent : Option Int
  isDigit_whole : ∀ b ∈ whole, Byte.isDigit b = true
  isDigit_fraction : ∀ b ∈ fraction, Byte.isDigit b = true
  leading : whole = [Byte.zero] ∨ whole ≠ [] ∧ whole.head? ≠ some Byte.zero

namespace Numeral

/-- The bytes of a fraction with its point. -/
def fractionBytes (fraction : List UInt8) : List UInt8 :=
  if fraction = [] then [] else Byte.point :: fraction

/-- The bytes of an exponent. -/
def exponentBytes : Option Int → List UInt8
  | none => []
  | some e => 0x65 :: (if e < 0 then Byte.minus else Byte.plus) :: decimalDigits e.natAbs

/-- The bytes of a numeral. -/
def bytes (n : Numeral) : List UInt8 :=
  n.whole ++ (fractionBytes n.fraction ++ exponentBytes n.exponent)

theorem bytes_eq (n : Numeral) :
    n.bytes = n.whole ++ fractionBytes n.fraction ++ exponentBytes n.exponent :=
  (List.append_assoc ..).symm

/-- The decimal that a numeral writes, with a sign. -/
def decimal (n : Numeral) (negative : Bool) : Decimal :=
  ⟨negative, Decimal.natOfDigits (n.whole ++ n.fraction), n.exponent.getD 0 - n.fraction.length⟩

/-- The numeral of nought. -/
def nought : Numeral :=
  ⟨[Byte.zero], [], none, List.forall_mem_singleton.mpr rfl, nofun, .inl rfl⟩

theorem toNumber_nought (negative : Bool) :
    (nought.decimal negative).toNumber = .zero negative :=
  if_pos rfl

/-! ## Layouts -/

/-- A numeral writes `digits` times the power of ten of `exponent`, from which a power of ten may
have been moved into the exponent. -/
def Denotes (n : Numeral) (digits : Nat) (exponent : Int) : Prop :=
  ∃ zeros : Nat, digits = (n.decimal false).digits * 10 ^ zeros ∧
    (n.decimal false).exponent = exponent + zeros

/-- Dropping the zeros at the end drops nothing else. -/
theorem exists_eq_dropTrailingZeros_append (ds : List UInt8) :
    ∃ zeros, ds = Number.dropTrailingZeros ds ++ List.replicate zeros Byte.zero := by
  refine ⟨(ds.reverse.takeWhile (· == Byte.zero)).length, ?_⟩
  have hzeros : ds.reverse.takeWhile (· == Byte.zero) =
      List.replicate (ds.reverse.takeWhile (· == Byte.zero)).length Byte.zero :=
    List.eq_replicate_of_mem fun b hb ↦ by simpa using List.mem_takeWhile_imp hb
  rw [Number.dropTrailingZeros, ← List.reverse_replicate, ← hzeros, ← List.reverse_append,
    List.takeWhile_append_dropWhile, List.reverse_reverse]

theorem withFraction_eq (whole fraction : List UInt8) :
    Number.withFraction whole fraction =
      whole ++ fractionBytes (Number.dropTrailingZeros fraction) := by
  rw [Number.withFraction, fractionBytes]
  split
  · next h => rw [if_pos h, List.append_nil]
  · next h => rw [if_neg h]

/-- Digits with a point between them and an exponent behind them are a numeral. -/
theorem exists_withFraction {whole fraction : List UInt8} (exponent : Option Int)
    (hwhole : ∀ b ∈ whole, Byte.isDigit b = true)
    (hfraction : ∀ b ∈ fraction, Byte.isDigit b = true)
    (hleading : whole = [Byte.zero] ∨ whole ≠ [] ∧ whole.head? ≠ some Byte.zero) :
    ∃ n : Numeral, n.whole ++ fractionBytes n.fraction = Number.withFraction whole fraction ∧
      n.exponent = exponent ∧
      n.Denotes (Decimal.natOfDigits (whole ++ fraction))
        (exponent.getD 0 - fraction.length) := by
  obtain ⟨zeros, hzeros⟩ := exists_eq_dropTrailingZeros_append fraction
  have hkept : ∀ b ∈ Number.dropTrailingZeros fraction, Byte.isDigit b = true := by
    intro b hb
    apply hfraction
    rw [hzeros]
    exact List.mem_append_left _ hb
  refine ⟨⟨whole, Number.dropTrailingZeros fraction, exponent, hwhole, hkept, hleading⟩,
    (withFraction_eq whole fraction).symm, rfl, zeros, ?_, ?_⟩
  · conv_lhs => rw [hzeros]
    rw [← List.append_assoc, Decimal.natOfDigits_append, Decimal.natOfDigits_replicate_zero,
      List.length_replicate, decimal, Nat.add_zero]
  · have hlength := congrArg List.length hzeros
    rw [List.length_append, List.length_replicate] at hlength
    simp only [decimal]
    omega

variable {digits : List UInt8}

/-- The scientific layout is a numeral with an exponent. -/
theorem exists_scientific (hdigits : ∀ b ∈ digits, Byte.isDigit b = true) (hne : digits ≠ [])
    (hhead : digits.head? ≠ some Byte.zero) (leading : Int) :
    ∃ n : Numeral, n.whole ++ fractionBytes n.fraction =
        Number.withFraction (digits.take 1) (digits.drop 1) ∧
      n.exponent = some leading ∧
      n.Denotes (Decimal.natOfDigits digits) (leading - (digits.length - 1 : Nat)) := by
  obtain ⟨n, hmantissa, hexponent, hdenotes⟩ := exists_withFraction (some leading)
    (fun b hb ↦ hdigits b (List.mem_of_mem_take hb))
    (fun b hb ↦ hdigits b (List.mem_of_mem_drop hb))
    (.inr ⟨by simpa [List.take_eq_nil_iff] using hne, by simpa [List.head?_take] using hhead⟩ :
      digits.take 1 = [Byte.zero] ∨ _)
  rw [List.take_append_drop, List.length_drop] at hdenotes
  exact ⟨n, hmantissa, hexponent, hdenotes⟩

/-- The positional layout is a numeral. -/
theorem exists_positional (hdigits : ∀ b ∈ digits, Byte.isDigit b = true) (hne : digits ≠ [])
    (hhead : digits.head? ≠ some Byte.zero) {leading : Int} (hleading : leading < digits.length) :
    ∃ n : Numeral, n.bytes = Number.positional digits leading ∧
      n.Denotes (Decimal.natOfDigits digits) (leading - (digits.length - 1 : Nat)) := by
  have hlength := List.length_pos_iff.mpr hne
  rw [Number.positional]
  split
  · next hneg =>
    have hfraction := isDigit_of_mem_replicate_append (leading.natAbs - 1) hdigits
    obtain ⟨n, hmantissa, hexponent, hdenotes⟩ := exists_withFraction none
      (fun b hb ↦ List.mem_singleton.mp hb ▸ rfl) hfraction (.inl rfl)
    refine ⟨n, by rw [bytes_eq, hmantissa, hexponent, exponentBytes, List.append_nil], ?_⟩
    have hvalue : Decimal.natOfDigits
        ([Byte.zero] ++ (List.replicate (leading.natAbs - 1) Byte.zero ++ digits)) =
          Decimal.natOfDigits digits :=
      (Decimal.natOfDigits_replicate_append 1 _).trans (Decimal.natOfDigits_replicate_append _ _)
    rw [hvalue] at hdenotes
    convert hdenotes using 1
    rw [List.length_append, List.length_replicate, Option.getD_none]
    omega
  · next hnonneg =>
    have hne : digits.take (leading.toNat + 1) ≠ [] := by
      rw [Ne, List.take_eq_nil_iff, ← List.length_eq_zero_iff]
      omega
    obtain ⟨n, hmantissa, hexponent, hdenotes⟩ := exists_withFraction none
      (fun b hb ↦ hdigits b (List.mem_of_mem_take hb))
      (fun b hb ↦ hdigits b (List.mem_of_mem_drop hb))
      (.inr ⟨hne, by simpa [List.head?_take] using hhead⟩ :
        digits.take (leading.toNat + 1) = [Byte.zero] ∨ _)
    refine ⟨n, by rw [bytes_eq, hmantissa, hexponent, exponentBytes, List.append_nil], ?_⟩
    rw [List.take_append_drop, List.length_drop] at hdenotes
    convert hdenotes using 1
    rw [Option.getD_none]
    omega

/-- The digits of a natural number are a numeral. -/
theorem exists_decimalDigits (k : Nat) :
    ∃ n : Numeral, n.bytes = decimalDigits k ∧ n.Denotes k 0 := by
  have hleading : decimalDigits k = [Byte.zero] ∨
      decimalDigits k ≠ [] ∧ (decimalDigits k).head? ≠ some Byte.zero := by
    rcases Nat.eq_zero_or_pos k with rfl | hk
    · rw [decimalDigits]
      exact .inl rfl
    · exact .inr ⟨decimalDigits_ne_nil k, head?_decimalDigits_ne hk.ne'⟩
  refine ⟨⟨_, [], none, fun _ ↦ isDigit_of_mem_decimalDigits, nofun, hleading⟩,
    List.append_nil _, 0, ?_, rfl⟩
  rw [decimal, List.append_nil, Decimal.natOfDigits_decimalDigits, Nat.pow_zero, Nat.mul_one]

end Numeral

end EcmaTree
