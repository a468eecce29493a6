import EcmaTree.Text.Basic

/-!
# Faults of JSON texts

Why a text is no JSON document, and at which of its bytes reading stopped.
-/

namespace EcmaTree.Json

/-- What is wrong with a text. -/
inductive Fault where
  | endOfInput
  | unexpectedByte (b : UInt8)
  | expectedString
  | endOfEscape
  | unknownEscape
  | endOfUnicodeEscape
  | unicodeDigit
  | unterminatedString
  | number
  | literal
  | expectedColon
  | endOfObject
  | objectSeparator
  | endOfArray
  | arraySeparator
  | trailing
deriving DecidableEq, Repr

/-- What is said of a fault. -/
def Fault.description : Fault → Text
  | endOfInput => "Unexpected end of JSON input"
  | unexpectedByte b => "Unexpected character '" ++ Text.single b ++ "' in JSON"
  | expectedString => "Expected '\"' at start of string"
  | endOfEscape => "Unexpected end of string"
  | unknownEscape => "Invalid escape sequence"
  | endOfUnicodeEscape => "Truncated unicode escape"
  | unicodeDigit => "Invalid unicode escape"
  | unterminatedString => "Unterminated string"
  | number => "Invalid number"
  | literal => "Invalid literal"
  | expectedColon => "Expected ':' after object key"
  | endOfObject => "Unexpected end of object"
  | objectSeparator => "Expected ',' or '\x7d' in object"
  | endOfArray => "Unexpected end of array"
  | arraySeparator => "Expected ',' or ']' in array"
  | trailing => "Unexpected trailing characters"

end EcmaTree.Json
