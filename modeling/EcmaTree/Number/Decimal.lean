import EcmaTree.Number.Basic
import EcmaTree.Text.Search

/-!
# Decimal literals

A decimal literal is an optional sign, digits with an optional point, and an optional exponent. It
denotes the number nearest to its exact value. `ofText` is the conversion of any text to a number.
-/

namespace EcmaTree

/-- A decimal: `digits` times the power of ten of `exponent`, with a sign. -/
structure Decimal where
  negative : Bool
  digits : Nat
  exponent : Int
deriving DecidableEq

namespace Decimal

/-- The nearest number. A decimal that is surely beyond all finite numbers, or surely nearer to zero
than to any other, is settled before its power of ten is computed. -/
def toNumber (d : Decimal) : Number :=
  if d.digits = 0 then .zero d.negative
  else if 400 < d.exponent then .infinity d.negative
  else if d.exponent < -(400 + d.digits.log2 : Int) then .zero d.negative
  else if 0 ≤ d.exponent then
    .ofUnits d.negative ((d.digits * Nat.pow 10 d.exponent.toNat) <<< 1074) 1
  else .ofUnits d.negative (d.digits <<< 1074) (Nat.pow 10 (-d.exponent).toNat)

/-- The number that a list of decimal digits writes. -/
def natOfDigits (ds : List UInt8) : Nat := ds.foldl (fun n b ↦ 10 * n + Byte.digit b) 0

/-- A leading sign, and what follows it. -/
def splitSign : List UInt8 → Bool × List UInt8
  | b :: rest =>
    if b == Byte.minus then (true, rest)
    else if b == Byte.plus then (false, rest)
    else (false, b :: rest)
  | [] => (false, [])

/-- The digits that a list begins with, and what follows them. -/
def splitDigits (s : List UInt8) : List UInt8 × List UInt8 :=
  (s.takeWhile Byte.isDigit, s.dropWhile Byte.isDigit)

/-- The digits after a leading point, and what follows them; none without a point. -/
def splitFraction : List UInt8 → List UInt8 × List UInt8
  | b :: rest => if b == Byte.point then splitDigits rest else ([], b :: rest)
  | [] => ([], [])

/-- Reads the whole of what follows the digits of a literal: nothing, or an exponent. -/
def exponent? : List UInt8 → Option Int
  | [] => some 0
  | b :: rest =>
    if b == 0x65 || b == 0x45 then
      let (negative, digits) := splitSign rest
      if digits.isEmpty || !digits.all Byte.isDigit then none
      else some (if negative then -(natOfDigits digits : Int) else natOfDigits digits)
    else none

/-- Reads a whole list as a decimal literal. At least one digit stands before or after the point. -/
def ofBytes? (s : List UInt8) : Option Decimal :=
  let (negative, unsigned) := splitSign s
  let (whole, afterWhole) := splitDigits unsigned
  let (fraction, afterFraction) := splitFraction afterWhole
  if whole.isEmpty && fraction.isEmpty then none
  else (exponent? afterFraction).map fun e ↦
    ⟨negative, natOfDigits (whole ++ fraction), e - fraction.length⟩

end Decimal

end EcmaTree
