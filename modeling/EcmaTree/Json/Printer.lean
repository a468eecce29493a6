import EcmaTree.Json.Tree
import EcmaTree.Number.Numeral

/-!
# Writing JSON

`Json.render` writes a document without blanks. Strings escape the quote, the backslash and the
control characters and hold every other byte as it is. A number that is not finite is written as
`null`.
-/

namespace EcmaTree.Json

/-- How a byte is written in a string. -/
def escapeByte (b : UInt8) : List UInt8 :=
  if b = 0x22 then [0x5C, 0x22]
  else if b = 0x5C then [0x5C, 0x5C]
  else if b = 0x08 then [0x5C, 0x62]
  else if b = 0x0C then [0x5C, 0x66]
  else if b = 0x0A then [0x5C, 0x6E]
  else if b = 0x0D then [0x5C, 0x72]
  else if b = 0x09 then [0x5C, 0x74]
  else if b < 0x20 then
    [0x5C, 0x75, 0x30, 0x30, Byte.ofHexDigit (b.toNat / 16), Byte.ofHexDigit b.toNat]
  else [b]

/-- A string between its quotes. -/
def quoted (t : Text) : List UInt8 := 0x22 :: (t.toList.flatMap escapeByte ++ [0x22])

/-- The bytes of a document without parts. -/
def scalar : Json → List UInt8
  | bool value => (Text.ofString (if value then "true" else "false")).toList
  | number value =>
    if value.isFinite then value.toText.toList else (Text.ofString "null").toList
  | text value => quoted value
  | null | array _ | object _ => (Text.ofString "null").toList

mutual

/-- The bytes of a document in front of what follows it. -/
def write : Json → (after : List UInt8) → List UInt8
  | array [], after => 0x5B :: 0x5D :: after
  | array (item :: rest), after => 0x5B :: write item (writeItems rest (0x5D :: after))
  | object [], after => 0x7B :: 0x7D :: after
  | object ((key, item) :: rest), after =>
    0x7B :: (quoted key ++ 0x3A :: write item (writeMembers rest (0x7D :: after)))
  | null, after => scalar null ++ after
  | bool value, after => scalar (bool value) ++ after
  | number value, after => scalar (number value) ++ after
  | text value, after => scalar (text value) ++ after

/-- The bytes of further items, each behind a comma, in front of what follows them. -/
def writeItems : List Json → (after : List UInt8) → List UInt8
  | [], after => after
  | item :: rest, after => 0x2C :: write item (writeItems rest after)

/-- The bytes of further members, each behind a comma, in front of what follows them. -/
def writeMembers : List (Text × Json) → (after : List UInt8) → List UInt8
  | [], after => after
  | (key, item) :: rest, after =>
    0x2C :: (quoted key ++ 0x3A :: write item (writeMembers rest after))

end

/-- The text of a document. -/
def render (j : Json) : Text := .ofList (write j [])

end EcmaTree.Json
