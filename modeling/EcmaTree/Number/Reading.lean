import EcmaTree.Number.Arithmetic
import EcmaTree.Number.Decimal

/-!
# Numbers in texts

`Number.ofText` converts any text to a number, and `Text.index?` recognises the texts that are
canonical array indices.
-/

namespace EcmaTree

namespace Number

/-- The digits of a hexadecimal literal from the left, each step rounded to a number. -/
def ofHexDigits : List UInt8 → Number → Number
  | [], value => value
  | b :: rest, value =>
    match Byte.hexDigit? b with
    | some d => ofHexDigits rest (add (mul value 16) (ofNat d))
    | none => nan

/-- Reads a text that has no blanks at its ends and is not empty. -/
def ofTrimmed (s : List UInt8) : Number :=
  if s == (Text.ofString "Infinity").toList || s == (Text.ofString "+Infinity").toList then
    infinity false
  else if s == (Text.ofString "-Infinity").toList then infinity true
  else
    match s with
    | 0x30 :: 0x78 :: b :: rest => ofHexDigits (b :: rest) (zero false)
    | 0x30 :: 0x58 :: b :: rest => ofHexDigits (b :: rest) (zero false)
    | _ => match Decimal.ofBytes? s with
      | some d => d.toNumber
      | none => nan

/-- The number a text stands for: blanks at the ends do not count, a text of blanks is zero, and
what is no literal is `nan`. -/
def ofText (t : Text) : Number :=
  let trimmed := t.trim.toList
  if trimmed.isEmpty then zero false else ofTrimmed trimmed

end Number

/-- The index that a text denotes: a decimal numeral without leading zeros of at most 15 digits. -/
def Text.index? (t : Text) : Option Nat :=
  let ds := t.toList
  if ds.isEmpty || 15 < ds.length || !ds.all Byte.isDigit then none
  else if 1 < ds.length && ds.head? == some Byte.zero then none
  else some (Decimal.natOfDigits ds)

end EcmaTree
