/-!
# Bytes

The classes of bytes that reading and case mapping use. They are ASCII classes: a byte from 0x80
upwards is in none of them and is its own upper and lower case. What is above ASCII are the UTF-8
bytes of code points; the surrogates, which are no characters, get the three bytes that the scheme
gives their number.
-/

namespace EcmaTree.Byte

/-- The double quote. -/
abbrev quote : UInt8 := 0x22

/-- The plus sign. -/
abbrev plus : UInt8 := 0x2B

/-- The minus sign. -/
abbrev minus : UInt8 := 0x2D

/-- The full stop. -/
abbrev point : UInt8 := 0x2E

/-- The digit nought. -/
abbrev zero : UInt8 := 0x30

/-- The reverse solidus. -/
abbrev backslash : UInt8 := 0x5C

/-- The byte that ends a line. -/
abbrev newline : UInt8 := 0x0A

/-- The carriage return. -/
abbrev carriageReturn : UInt8 := 0x0D

/-- The space. -/
abbrev space : UInt8 := 0x20

/-- Space, tab, newline, vertical tab, form feed and carriage return. -/
def isBlank (b : UInt8) : Bool := b == 0x20 || (0x09 ≤ b && b ≤ 0x0D)

/-- The digits from 0 to 9. -/
def isDigit (b : UInt8) : Bool := 0x30 ≤ b && b ≤ 0x39

/-- The value of a decimal digit. -/
def digit (b : UInt8) : Nat := b.toNat - 0x30

/-- The value of a hexadecimal digit of either case. -/
def hexDigit? (b : UInt8) : Option Nat :=
  if 0x30 ≤ b && b ≤ 0x39 then some (b.toNat - 0x30)
  else if 0x61 ≤ b && b ≤ 0x66 then some (b.toNat - 0x61 + 10)
  else if 0x41 ≤ b && b ≤ 0x46 then some (b.toNat - 0x41 + 10)
  else none

/-- The small letters become capitals. -/
def toUpper (b : UInt8) : UInt8 := if 0x61 ≤ b && b ≤ 0x7A then b - 0x20 else b

/-- The capitals become small letters. -/
def toLower (b : UInt8) : UInt8 := if 0x41 ≤ b && b ≤ 0x5A then b + 0x20 else b

/-- The byte of a decimal digit; of a larger number, of its last digit. -/
def ofDigit (d : Nat) : UInt8 := UInt8.ofNat (0x30 + d % 10)

/-- The byte of a hexadecimal digit in small letters; of a larger number, of its last digit. -/
def ofHexDigit (d : Nat) : UInt8 :=
  if d % 16 < 10 then UInt8.ofNat (0x30 + d % 16) else UInt8.ofNat (0x61 + d % 16 - 10)

end EcmaTree.Byte

namespace EcmaTree.Unicode

/-- The first half of a surrogate pair. -/
def isHighSurrogate (code : Nat) : Bool := 0xD800 ≤ code && code ≤ 0xDBFF

/-- The second half of a surrogate pair. -/
def isLowSurrogate (code : Nat) : Bool := 0xDC00 ≤ code && code ≤ 0xDFFF

/-- The code point that a surrogate pair stands for. -/
def ofSurrogates (high low : Nat) : Nat := 0x10000 + (high - 0xD800) * 0x400 + (low - 0xDC00)

/-- A byte that continues a code point, with the last six bits of the number. -/
def continuation (code : Nat) : UInt8 := UInt8.ofNat (0x80 + code % 0x40)

/-- The bytes of a code point. -/
def encode (code : Nat) : List UInt8 :=
  if code < 0x80 then [UInt8.ofNat code]
  else if code < 0x800 then [UInt8.ofNat (0xC0 + code / 0x40), continuation code]
  else if code < 0x10000 then
    [UInt8.ofNat (0xE0 + code / 0x1000), continuation (code / 0x40), continuation code]
  else
    [UInt8.ofNat (0xF0 + code / 0x40000), continuation (code / 0x1000),
      continuation (code / 0x40), continuation code]

end EcmaTree.Unicode
