import EcmaTree.Text.Basic
import EcmaTree.Text.Byte

/-!
# Trimming, searching and splitting

`find?` gives the leftmost match, and `split` cuts at the leftmost matches that do not overlap.
-/

namespace EcmaTree.Text

/-- The text without the blanks at its two ends. -/
def trim (t : Text) : Text :=
  ofList ((t.toList.dropWhile Byte.isBlank).reverse.dropWhile Byte.isBlank).reverse

/-- Index of the first place in `bytes` where `needle` begins, `position` being the index of the
first byte. -/
def findFrom (needle : List UInt8) : List UInt8 → Nat → Option Nat
  | [], position => if needle.isEmpty then some position else none
  | b :: rest, position =>
    if needle.isPrefixOf (b :: rest) then some position else findFrom needle rest (position + 1)

/-- Index, at or after `start`, of the first match of `needle`. -/
def find? (t needle : Text) (start : Nat) : Option Nat :=
  if start ≤ t.length then findFrom needle.toList (t.toList.drop start) start else none

/-- The fields of `bytes` between the matches of a separator that is not empty. `skip` bytes of
a match are still to be passed over, and `field` holds the bytes of the current field, last
first. -/
def fields (separator : List UInt8) : List UInt8 → (skip : Nat) → (field : List UInt8) → List Text
  | [], _, field => [ofList field.reverse]
  | _ :: rest, skip + 1, field => fields separator rest skip field
  | b :: rest, 0, field =>
    if separator.isPrefixOf (b :: rest) then
      ofList field.reverse :: fields separator rest (separator.length - 1) []
    else fields separator rest 0 (b :: field)

/-- The fields between the matches of `separator`; with an empty separator, the single bytes. -/
def split (t separator : Text) : List Text :=
  if separator.isEmpty then t.toList.map single else fields separator.toList t.toList 0 []

end EcmaTree.Text
