import EcmaTree.Number.Numeral
import EcmaTree.Source.Lines

/-!
# Excerpts

The lines around a place of a source, each with its number, and under the line of the place a row of
carets. All counts are 32-bit words, and so is the number that goes from line to line.
-/

namespace EcmaTree.Source

/-- Carets under the columns from `column` on; at least one, and none at all for column 0. -/
def carets (column length : UInt32) : Text :=
  if column = 0 then Text.empty
  else
    Text.replicate (column - 1).toNat Byte.space ++
      Text.replicate (max length 1).toNat 0x5E

/-- A number with spaces before it, to a width. -/
def padded (width : Nat) (n : Nat) : Text :=
  let digits := Text.ofNat n
  Text.replicate (width - digits.length) Byte.space ++ digits

/-- How many carets fit under a line from a column on: up to its end, and at least one. -/
def room (line : Text) (column : UInt32) : UInt32 :=
  let length := UInt32.ofNat line.length
  if column ≤ length then length - column + 1 else 1

/-- The rows that an excerpt shows for one line. -/
def rows (s : Source) (width : Nat) (place : Position) (length number : UInt32) : List Text :=
  let line := s.line number
  if number = place.line then
    ("> " ++ padded width number.toNat ++ " | " ++ line) ::
      if place.column = 0 then []
      else
        [Text.replicate (width + 2) Byte.space ++ " | " ++
          carets place.column (min length (room line place.column))]
  else ["  " ++ padded width number.toNat ++ " | " ++ line]

/-- An excerpt in the making: the number of the line that comes next, and what is written. -/
structure Writing where
  number : UInt32
  text : Text

/-- One round writes the rows of a line. The number of the next line is a word, so that 0 comes
after the greatest one. -/
def round (s : Source) (width : Nat) (place : Position) (length : UInt32) (w : Writing) : Writing :=
  ⟨w.number + 1, w.text ++
    Text.concat ((s.rows width place length w.number).map (· ++ Text.single Byte.newline))⟩

/-- A round brings the number nearer to what is behind the last line, unless that is behind the
greatest word. -/
theorem round_nearer {s : Source} {width : Nat} {place : Position} {length last : UInt32}
    {w : Writing} (hlast : last.toNat + 1 ≠ UInt32.size) (hle : w.number ≤ last) :
    last.toNat + 1 - (s.round width place length w).number.toNat <
      last.toNat + 1 - w.number.toNat := by
  rw [UInt32.le_iff_toNat_le] at hle
  have hword : last.toNat + 1 < UInt32.size := Nat.lt_of_le_of_ne last.toNat_lt_size hlast
  have hnext : (s.round width place length w).number.toNat = w.number.toNat + 1 := by
    rw [round, UInt32.toNat_add]
    exact Nat.mod_eq_of_lt (Nat.lt_of_le_of_lt (Nat.succ_le_succ hle) hword)
  omega

/-- The rounds that follow, as long as the number is not behind the last line. No word is behind the
greatest one: if that is the last line, then the rounds never end, and there is no text. -/
def rounds (s : Source) (width : Nat) (place : Position) (length last : UInt32) (w : Writing) :
    Option Text :=
  if last.toNat + 1 = UInt32.size then none
  else if w.number ≤ last then rounds s width place length last (s.round width place length w)
  else some w.text
termination_by last.toNat + 1 - w.number.toNat
decreasing_by exact round_nearer (by assumption) (by assumption)

/-- The first and the last line number of an excerpt with `context` lines on either side. -/
def window (s : Source) (line context : UInt32) : UInt32 × UInt32 :=
  (if context < line then line - context else 1,
    min (UInt32.ofNat s.lines.length) (line + context))

/-- The excerpt around a place, `length` being the number of carets asked for, if its rounds end.
There is nothing in it for a line that does not exist. -/
def excerpt (s : Source) (place : Position) (length context : UInt32) : Option Text :=
  if place.line = 0 || s.lines.length < place.line.toNat then some Text.empty
  else
    let (first, last) := s.window place.line context
    s.rounds (Text.ofNat last.toNat).length place length last
      ⟨first, Text.single Byte.newline⟩

end EcmaTree.Source
