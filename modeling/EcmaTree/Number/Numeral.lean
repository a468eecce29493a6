import EcmaTree.Number.Decimal

/-!
# Numerals

The text of a number. Integers below 10^21 are written in full. Every other finite number is written
with the fewest significant digits, up to 17, whose correctly rounded decimal reads back as the same
number: positionally from 10^-4 upwards, and with an exponent below that or when there are no more
digits than the leading one's exponent.
-/

namespace EcmaTree

/-- Exponent of the leading decimal digit of a natural number. -/
def decimalLog (n : Nat) : Nat := if n < 10 then 0 else decimalLog (n / 10) + 1

/-- The decimal digits of a natural number, without leading zeros. -/
def decimalDigits (n : Nat) : List UInt8 :=
  if n < 10 then [Byte.ofDigit n] else decimalDigits (n / 10) ++ [Byte.ofDigit n]

/-- The decimal numeral of a natural number. -/
def Text.ofNat (n : Nat) : Text := .ofList (decimalDigits n)

/-- The decimal numeral of an integer. -/
def Text.ofInt (n : Int) : Text :=
  if n < 0 then Text.single Byte.minus ++ Text.ofNat n.natAbs else Text.ofNat n.natAbs

namespace Number

/-- Exponent of the leading decimal digit of the magnitude of a rank above zero. -/
def leadingExponent (rank : Nat) : Int :=
  (decimalLog ((units rank * Nat.pow 10 324) >>> 1074) : Int) - 324

/-- The magnitude of a rank rounded to `precision` significant digits, a tie going to the even
digit: the digits as a number, and the exponent of the leading one. -/
def roundedDigits (rank precision : Nat) : Nat × Int :=
  let leading := leadingExponent rank
  let last := leading - (precision - 1 : Nat)
  let digits :=
    if 0 ≤ last then roundQuotient (units rank) (Nat.pow 10 last.toNat <<< 1074)
    else roundQuotient (units rank * Nat.pow 10 (-last).toNat) unit
  if digits = Nat.pow 10 precision then (Nat.pow 10 (precision - 1), leading + 1)
  else (digits, leading)

/-- The magnitude of a rank, rounded to `precision` digits, reads back as that rank. -/
def readsBack (rank precision : Nat) : Bool :=
  let (digits, leading) := roundedDigits rank precision
  match Decimal.toNumber ⟨false, digits, leading - (precision - 1 : Nat)⟩ with
  | finite _ other _ => other == rank
  | _ => false

/-- The fewest significant digits that read back as the rank, and 17 if 16 do not. -/
def precision (rank : Nat) : Nat := ((List.range' 1 16).find? (readsBack rank)).getD 17

/-- Drops the zeros at the end. -/
def dropTrailingZeros (ds : List UInt8) : List UInt8 :=
  (ds.reverse.dropWhile (· == Byte.zero)).reverse

/-- A whole part, and after a point the digits of a fraction that are not trailing zeros. -/
def withFraction (whole fraction : List UInt8) : List UInt8 :=
  match dropTrailingZeros fraction with
  | [] => whole
  | kept => whole ++ Byte.point :: kept

/-- Digits, the leading one of which has the given exponent, written with an exponent. -/
def scientific (digits : List UInt8) (leading : Int) : List UInt8 :=
  withFraction (digits.take 1) (digits.drop 1) ++
    0x65 :: (if leading < 0 then Byte.minus else Byte.plus) :: decimalDigits leading.natAbs

/-- Digits, the leading one of which has the given exponent, written positionally. -/
def positional (digits : List UInt8) (leading : Int) : List UInt8 :=
  if leading < 0 then
    withFraction [Byte.zero] (List.replicate (leading.natAbs - 1) Byte.zero ++ digits)
  else withFraction (digits.take (leading.toNat + 1)) (digits.drop (leading.toNat + 1))

/-- The shortest numeral of a magnitude that is not an integer below 10^21. -/
def shortest (rank : Nat) : List UInt8 :=
  let precision := precision rank
  let (digits, leading) := roundedDigits rank precision
  if leading < -4 || precision ≤ leading then scientific (decimalDigits digits) leading
  else positional (decimalDigits digits) leading

/-- The text of a finite magnitude. -/
def magnitudeDigits (rank : Nat) : List UInt8 :=
  if units rank % unit = 0 && decide (units rank >>> 1074 < Nat.pow 10 21) then
    decimalDigits (units rank >>> 1074)
  else shortest rank

/-- The text of a number. Both zeros are written without a sign. -/
def toText : Number → Text
  | nan => "NaN"
  | infinity negative => if negative then "-Infinity" else "Infinity"
  | finite negative rank _ =>
    if rank = 0 then "0"
    else if negative then .ofList (Byte.minus :: magnitudeDigits rank)
    else .ofList (magnitudeDigits rank)

end Number

end EcmaTree
