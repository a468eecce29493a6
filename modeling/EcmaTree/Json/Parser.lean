import EcmaTree.Json.Fault
import EcmaTree.Json.Tree
import EcmaTree.Number.Decimal
import EcmaTree.Number.Numeral
import EcmaTree.Text.Byte

/-!
# Reading JSON

`Json.parse` reads a text as one document with blanks around it. The grammar is the standard one,
save that vertical tab and form feed are blanks too and that any byte but the quote and the
backslash may stand in a string as it is. A repeated key keeps its first place and its last value.
-/

namespace EcmaTree.Json

namespace Parser

/-- Why reading stopped, and how many bytes were still unread there. -/
structure Stop where
  fault : Fault
  unread : Nat
deriving DecidableEq

/-- A reader's result: what it read and the bytes after it. -/
abbrev Reading (α : Type) := Except Stop (α × List UInt8)

/-- Reading stops in front of the given bytes. -/
def stop {α : Type} (fault : Fault) (rest : List UInt8) : Reading α := .error ⟨fault, rest.length⟩

/-- The bytes from the first one that is not blank. -/
def skipBlanks (s : List UInt8) : List UInt8 := s.dropWhile Byte.isBlank

/-- What an escape of one character after the backslash stands for. -/
def escaped? (b : UInt8) : Option UInt8 :=
  if b = 0x22 then some 0x22
  else if b = 0x5C then some 0x5C
  else if b = 0x2F then some 0x2F
  else if b = 0x62 then some 0x08
  else if b = 0x66 then some 0x0C
  else if b = 0x6E then some 0x0A
  else if b = 0x72 then some 0x0D
  else if b = 0x74 then some 0x09
  else none

/-- The number that four hexadecimal digits write. Reading stops behind the first byte that is no
digit; `rest` is what follows the four. -/
def hexCode (a b c d : UInt8) (rest : List UInt8) : Except Stop Nat :=
  match Byte.hexDigit? a, Byte.hexDigit? b, Byte.hexDigit? c, Byte.hexDigit? d with
  | none, _, _, _ => .error ⟨.unicodeDigit, rest.length + 3⟩
  | some _, none, _, _ => .error ⟨.unicodeDigit, rest.length + 2⟩
  | some _, some _, none, _ => .error ⟨.unicodeDigit, rest.length + 1⟩
  | some _, some _, some _, none => .error ⟨.unicodeDigit, rest.length⟩
  | some w, some x, some y, some z => .ok (((w * 16 + x) * 16 + y) * 16 + z)

/-- Reads the rest of a string whose opening quote is behind. `seen` holds the bytes of its value so
far, last first. -/
def stringBody : List UInt8 → (seen : List UInt8) → Reading Text
  | [], _ => stop .unterminatedString []
  | 0x22 :: rest, seen => .ok (.ofList seen.reverse, rest)
  | 0x5C :: [], _ => stop .endOfEscape []
  | 0x5C :: 0x75 :: a :: b :: c :: d :: rest, seen =>
    match hexCode a b c d rest with
    | .error e => .error e
    | .ok code =>
      if Unicode.isHighSurrogate code then
        match rest with
        | 0x5C :: 0x75 :: e :: f :: g :: h :: after =>
          match hexCode e f g h after with
          | .error e => .error e
          | .ok low =>
            if Unicode.isLowSurrogate low then
              stringBody after ((Unicode.encode (Unicode.ofSurrogates code low)).reverse ++ seen)
            else
              stringBody (0x5C :: 0x75 :: e :: f :: g :: h :: after)
                ((Unicode.encode code).reverse ++ seen)
        | 0x5C :: 0x75 :: short => stop .endOfUnicodeEscape short
        | rest => stringBody rest ((Unicode.encode code).reverse ++ seen)
      else stringBody rest ((Unicode.encode code).reverse ++ seen)
  | 0x5C :: 0x75 :: short, _ => stop .endOfUnicodeEscape short
  | 0x5C :: b :: rest, seen =>
    match escaped? b with
    | some value => stringBody rest (value :: seen)
    | none => stop .unknownEscape (b :: rest)
  | b :: rest, seen => stringBody rest (b :: seen)

/-- Reads a string. -/
def string : List UInt8 → Reading Text
  | 0x22 :: rest => stringBody rest []
  | s => stop .expectedString s

/-- Passes over one digit or more. -/
def digits (s : List UInt8) : Reading (List UInt8) :=
  match Decimal.splitDigits s with
  | ([], rest) => stop .number rest
  | (ds, rest) => .ok (ds, rest)

/-- Passes over the whole part of a number: a zero, or digits that do not begin with one. -/
def wholePart : List UInt8 → Reading (List UInt8)
  | 0x30 :: rest => .ok ([0x30], rest)
  | s => digits s

/-- Passes over a point with its digits, if there is a point. -/
def fractionPart : List UInt8 → Reading (List UInt8)
  | 0x2E :: rest => (digits rest).map fun (ds, after) ↦ (0x2E :: ds, after)
  | s => .ok ([], s)

/-- Passes over an exponent, if there is one. -/
def exponentPart : List UInt8 → Reading (List UInt8)
  | 0x65 :: 0x2B :: rest => (digits rest).map fun (ds, after) ↦ (0x65 :: 0x2B :: ds, after)
  | 0x65 :: 0x2D :: rest => (digits rest).map fun (ds, after) ↦ (0x65 :: 0x2D :: ds, after)
  | 0x45 :: 0x2B :: rest => (digits rest).map fun (ds, after) ↦ (0x45 :: 0x2B :: ds, after)
  | 0x45 :: 0x2D :: rest => (digits rest).map fun (ds, after) ↦ (0x45 :: 0x2D :: ds, after)
  | 0x65 :: rest => (digits rest).map fun (ds, after) ↦ (0x65 :: ds, after)
  | 0x45 :: rest => (digits rest).map fun (ds, after) ↦ (0x45 :: ds, after)
  | s => .ok ([], s)

/-- Passes over a number without its sign. -/
def unsignedLexeme (s : List UInt8) : Reading (List UInt8) :=
  match wholePart s with
  | .error e => .error e
  | .ok (whole, rest) =>
    match fractionPart rest with
    | .error e => .error e
    | .ok (fraction, rest) =>
      (exponentPart rest).map fun (exponent, after) ↦ (whole ++ fraction ++ exponent, after)

/-- Passes over a number. -/
def numberLexeme : List UInt8 → Reading (List UInt8)
  | 0x2D :: rest => (unsignedLexeme rest).map fun (ds, after) ↦ (0x2D :: ds, after)
  | s => unsignedLexeme s

/-- The number that a lexeme writes. -/
def ofLexeme (lexeme : List UInt8) : Number :=
  match Decimal.ofBytes? lexeme with
  | some d => d.toNumber
  | none => .nan

/-- Reads a number. -/
def number (s : List UInt8) : Reading Json :=
  (numberLexeme s).map fun (lexeme, rest) ↦ (.number (ofLexeme lexeme), rest)

/-- Reads a word that stands for a document. -/
def word (spelling : String) (value : Json) (s : List UInt8) : Reading Json :=
  let w := (Text.ofString spelling).toList
  if w.isPrefixOf s then .ok (value, s.drop w.length) else stop .literal s

mutual

/-- Reads a document after blanks. The first argument bounds the number of calls that are nested;
twice the number of bytes is enough for any text. -/
def value : Nat → List UInt8 → Reading Json
  | 0, s => stop .endOfInput s
  | n + 1, s =>
    match skipBlanks s with
    | [] => stop .endOfInput []
    | b :: rest =>
      if b = 0x22 then (stringBody rest []).map fun (t, after) ↦ (.text t, after)
      else if b = 0x74 then word "true" (.bool true) (b :: rest)
      else if b = 0x66 then word "false" (.bool false) (b :: rest)
      else if b = 0x6E then word "null" .null (b :: rest)
      else if b = 0x7B then
        match skipBlanks rest with
        | 0x7D :: after => .ok (.object [], after)
        | inner => members n inner []
      else if b = 0x5B then
        match skipBlanks rest with
        | 0x5D :: after => .ok (.array [], after)
        | inner => items n inner []
      else if b = 0x2D || Byte.isDigit b then number (b :: rest)
      else stop (.unexpectedByte b) (b :: rest)

/-- Reads the items of an array up to its closing bracket. `seen` holds the items so far, last
first. -/
def items : Nat → List UInt8 → (seen : List Json) → Reading Json
  | 0, s, _ => stop .endOfInput s
  | n + 1, s, seen =>
    match value n s with
    | .error e => .error e
    | .ok (item, rest) =>
      match skipBlanks rest with
      | [] => stop .endOfArray []
      | b :: after =>
        if b = 0x5D then .ok (.array (item :: seen).reverse, after)
        else if b = 0x2C then items n after (item :: seen)
        else stop .arraySeparator (b :: after)

/-- Reads the members of an object up to its closing bracket. `seen` holds the members so far. -/
def members : Nat → List UInt8 → (seen : List (Text × Json)) → Reading Json
  | 0, s, _ => stop .endOfInput s
  | n + 1, s, seen =>
    match string (skipBlanks s) with
    | .error e => .error e
    | .ok (key, rest) =>
      match skipBlanks rest with
      | 0x3A :: rest =>
        match value n rest with
        | .error e => .error e
        | .ok (item, rest) =>
          match skipBlanks rest with
          | [] => stop .endOfObject []
          | b :: after =>
            if b = 0x7D then .ok (.object (setMember key item seen), after)
            else if b = 0x2C then members n after (setMember key item seen)
            else stop .objectSeparator (b :: after)
      | rest => stop .expectedColon rest

end

/-- Reads a document with blanks around it, to the end of the bytes. -/
def document (s : List UInt8) : Except Stop Json :=
  match value (2 * s.length + 2) s with
  | .error e => .error e
  | .ok (result, rest) =>
    match skipBlanks rest with
    | [] => .ok result
    | rest => .error ⟨.trailing, rest.length⟩

end Parser

/-- A text is no JSON document: what is wrong, and the index of the byte where reading stopped. -/
structure ParseError where
  fault : Fault
  position : Nat
deriving DecidableEq

/-- What is said of the error. -/
def ParseError.message (e : ParseError) : Text :=
  e.fault.description ++ " at position " ++ Text.ofNat e.position

/-- Reads a text as a JSON document. -/
def parse (t : Text) : Except ParseError Json :=
  match Parser.document t.toList with
  | .ok result => .ok result
  | .error e => .error ⟨e.fault, t.length - e.unread⟩

end EcmaTree.Json
