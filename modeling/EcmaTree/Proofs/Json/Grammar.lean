import EcmaTree.Json.Tree
import EcmaTree.Proofs.Number.Nearest
import EcmaTree.Text.Byte

/-!
# The grammar of JSON

Which bytes write which document, as a relation by rules: a rule gives the bytes of a form together
with what they stand for. The rules are the standard ones, save that vertical tab and form feed are
blanks too, that any byte but the quote and the backslash may stand in a string as it is, and that
an escape may write a surrogate without its other half.
-/

namespace EcmaTree.Json.Grammar

/-- Blanks, or nothing: they may stand around every value and every key. -/
def Blanks (s : List UInt8) : Prop :=
  ∀ b ∈ s, b ∈ ([0x20, 0x09, 0x0A, 0x0B, 0x0C, 0x0D] : List UInt8)

/-! ## Numbers -/

/-- One decimal digit or more. -/
def Digits (s : List UInt8) : Prop := s ≠ [] ∧ ∀ b ∈ s, Byte.isDigit b = true

/-- The digits before the point: no needless nought stands in front. -/
inductive Whole : List UInt8 → Prop where
  | nought : Whole [0x30]
  | digits {ds : List UInt8} (hds : Digits ds) (hhead : ds.head? ≠ some 0x30) : Whole ds

/-- A point with its digits, or nothing. -/
inductive Fraction : List UInt8 → (places : List UInt8) → Prop where
  | none : Fraction [] []
  | point {ds : List UInt8} (hds : Digits ds) : Fraction (0x2E :: ds) ds

/-- The sign of an exponent: whether it is negative. -/
inductive Sign : List UInt8 → (negative : Bool) → Prop where
  | none : Sign [] false
  | plus : Sign [0x2B] false
  | minus : Sign [0x2D] true

/-- An exponent, or nothing. -/
inductive Exponent : List UInt8 → Int → Prop where
  | none : Exponent [] 0
  | digits {mark : UInt8} {sign ds : List UInt8} {negative : Bool}
      (hmark : mark = 0x65 ∨ mark = 0x45) (hsign : Sign sign negative) (hds : Digits ds) :
      Exponent (mark :: (sign ++ ds))
        (if negative then -(Decimal.natOfDigits ds : Int) else Decimal.natOfDigits ds)

/-- A number without its sign: all its digits as one natural number, and the power of ten that they
are multiplied by. -/
inductive Magnitude : List UInt8 → (digits : Nat) → (exponent : Int) → Prop where
  | mk {whole fraction places power : List UInt8} {e : Int} (hwhole : Whole whole)
      (hfraction : Fraction fraction places) (hpower : Exponent power e) :
      Magnitude (whole ++ (fraction ++ power)) (Decimal.natOfDigits (whole ++ places))
        (e - places.length)

/-- A number stands for the binary64 number nearest to its exact value. -/
inductive Signed : List UInt8 → Number → Prop where
  | positive {s : List UInt8} {digits : Nat} {exponent : Int} (h : Magnitude s digits exponent) :
      Signed s (Decimal.nearest ⟨false, digits, exponent⟩)
  | negative {s : List UInt8} {digits : Nat} {exponent : Int} (h : Magnitude s digits exponent) :
      Signed (0x2D :: s) (Decimal.nearest ⟨true, digits, exponent⟩)

/-! ## Strings -/

/-- A hexadecimal digit of either case and its value. -/
inductive HexDigit : UInt8 → Nat → Prop where
  | decimal {d : Nat} (hd : d < 10) : HexDigit (UInt8.ofNat (0x30 + d)) d
  | capital {d : Nat} (hd : d < 6) : HexDigit (UInt8.ofNat (0x41 + d)) (10 + d)
  | small {d : Nat} (hd : d < 6) : HexDigit (UInt8.ofNat (0x61 + d)) (10 + d)

/-- Four hexadecimal digits and the number they write. -/
inductive Code : List UInt8 → Nat → Prop where
  | mk {a b c d : UInt8} {w x y z : Nat} (ha : HexDigit a w) (hb : HexDigit b x)
      (hc : HexDigit c y) (hd : HexDigit d z) :
      Code [a, b, c, d] (0x1000 * w + 0x100 * x + 0x10 * y + z)

/-- The escapes of one character after the backslash, each with what it stands for. -/
def escapes : List (UInt8 × UInt8) :=
  [(0x22, 0x22), (0x5C, 0x5C), (0x2F, 0x2F), (0x62, 0x08), (0x66, 0x0C), (0x6E, 0x0A),
    (0x72, 0x0D), (0x74, 0x09)]

/-- An escape of the second half of a surrogate pair comes next. -/
def BeginsLow (s : List UInt8) : Prop :=
  ∃ ds low rest, s = 0x5C :: 0x75 :: (ds ++ rest) ∧ Code ds low ∧ Unicode.isLowSurrogate low = true

/-- What stands between the quotes of a string, and the bytes of its value. -/
inductive Characters : List UInt8 → List UInt8 → Prop where
  | nil : Characters [] []
  | plain {b : UInt8} {s value : List UInt8} (hquote : b ≠ 0x22) (hbackslash : b ≠ 0x5C)
      (hs : Characters s value) : Characters (b :: s) (b :: value)
  | escape {b c : UInt8} {s value : List UInt8} (hescape : (b, c) ∈ escapes)
      (hs : Characters s value) : Characters (0x5C :: b :: s) (c :: value)
  /-- Two halves of a surrogate pair, one directly behind the other, write one character. -/
  | pair {high low : Nat} {c : Char} {s value ds es : List UInt8} (hhigh : Code ds high)
      (hisHigh : Unicode.isHighSurrogate high = true) (hlow : Code es low)
      (hisLow : Unicode.isLowSurrogate low = true)
      (hc : c.toNat = 0x10000 + 0x400 * (high - 0xD800) + (low - 0xDC00))
      (hs : Characters s value) :
      Characters (0x5C :: 0x75 :: (ds ++ 0x5C :: 0x75 :: (es ++ s)))
        (String.utf8EncodeChar c ++ value)
  /-- Every other escape of a code stands for the code itself, be it a surrogate or not. -/
  | code {code : Nat} {s value ds : List UInt8} (hcode : Code ds code)
      (halone : Unicode.isHighSurrogate code = true → ¬ BeginsLow s) (hs : Characters s value) :
      Characters (0x5C :: 0x75 :: (ds ++ s)) (Unicode.encode code ++ value)

/-- A string with its quotes. -/
inductive Quoted : List UInt8 → Text → Prop where
  | mk {s value : List UInt8} (hs : Characters s value) :
      Quoted (0x22 :: (s ++ [0x22])) (.ofList value)

/-! ## Values -/

/-- The members of an object that is written as a list of pairs: the keys are in the order in which
they first came, and each has the last of its values. -/
structure Collects (pairs members : List (Text × Json)) : Prop where
  keys : members.map Prod.fst = (pairs.map Prod.fst).eraseDups
  values (key : Text) : lookup key members = lookup key pairs.reverse

mutual

/-- A value without blanks around it. -/
inductive Value : List UInt8 → Json → Prop where
  | null : Value [0x6E, 0x75, 0x6C, 0x6C] .null
  | true : Value [0x74, 0x72, 0x75, 0x65] (.bool Bool.true)
  | false : Value [0x66, 0x61, 0x6C, 0x73, 0x65] (.bool Bool.false)
  | number {s : List UInt8} {n : Number} (hs : Signed s n) : Value s (.number n)
  | text {s : List UInt8} {t : Text} (hs : Quoted s t) : Value s (.text t)
  | emptyArray {s : List UInt8} (hs : Blanks s) : Value (0x5B :: (s ++ [0x5D])) (.array [])
  | array {s : List UInt8} {items : List Json} (hs : Elements s items) :
      Value (0x5B :: (s ++ [0x5D])) (.array items)
  | emptyObject {s : List UInt8} (hs : Blanks s) : Value (0x7B :: (s ++ [0x7D])) (.object [])
  | object {s : List UInt8} {pairs members : List (Text × Json)} (hs : Members s pairs)
      (hmembers : Collects pairs members) : Value (0x7B :: (s ++ [0x7D])) (.object members)

/-- A value with blanks around it. -/
inductive Element : List UInt8 → Json → Prop where
  | mk {before s after : List UInt8} {j : Json} (hbefore : Blanks before) (hs : Value s j)
      (hafter : Blanks after) : Element (before ++ (s ++ after)) j

/-- One item or more with commas between them. -/
inductive Elements : List UInt8 → List Json → Prop where
  | last {s : List UInt8} {item : Json} (hs : Element s item) : Elements s [item]
  | more {s rest : List UInt8} {item : Json} {items : List Json} (hs : Element s item)
      (hrest : Elements rest items) : Elements (s ++ 0x2C :: rest) (item :: items)

/-- A key and its value with a colon between them. -/
inductive Member : List UInt8 → Text × Json → Prop where
  | mk {before quoted after s : List UInt8} {key : Text} {item : Json} (hbefore : Blanks before)
      (hkey : Quoted quoted key) (hafter : Blanks after) (hs : Element s item) :
      Member (before ++ (quoted ++ (after ++ 0x3A :: s))) (key, item)

/-- One pair or more with commas between them. -/
inductive Members : List UInt8 → List (Text × Json) → Prop where
  | last {s : List UInt8} {pair : Text × Json} (hs : Member s pair) : Members s [pair]
  | more {s rest : List UInt8} {pair : Text × Json} {pairs : List (Text × Json)}
      (hs : Member s pair) (hrest : Members rest pairs) :
      Members (s ++ 0x2C :: rest) (pair :: pairs)

end

end EcmaTree.Json.Grammar
