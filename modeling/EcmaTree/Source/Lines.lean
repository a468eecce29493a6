import EcmaTree.Number.Numeral
import EcmaTree.Text.Basic
import EcmaTree.Text.Byte

/-!
# Places and lines of a source

A span is a range of byte offsets into a source. Spans carry no text; they only say where.

A source text has its lines and the offset at which each begins. Lines end at newlines only, so that
offsets stay exact; a carriage return at the end of a line belongs to the line but is not shown.
Offsets, lines and columns are 32-bit words.
-/

namespace EcmaTree

/-- The offsets from `start` up to, and without, `stop`. -/
structure Span where
  start : UInt32
  stop : UInt32
deriving DecidableEq, Repr

namespace Span

/-- The span of what has no place in a source. -/
def nowhere : Span := ⟨0, 0⟩

instance : Inhabited Span := ⟨nowhere⟩

/-- The number of offsets in the span, and at least one. -/
def width (s : Span) : UInt32 := if s.start < s.stop then s.stop - s.start else 1

/-- The two offsets with a colon between them, as messages name a span. -/
def location (s : Span) : Text := Text.ofNat s.start.toNat ++ ":" ++ Text.ofNat s.stop.toNat

end Span

/-- A line and a column, both counted from 1. Line 0 says that the place is not known. -/
structure Position where
  line : UInt32
  column : UInt32
deriving DecidableEq, Repr

/-- A place that is not known. -/
def Position.unknown : Position := ⟨0, 0⟩

/-- A named source, its lines as they are shown, and the offset of each line's first byte. -/
structure Source where
  file : Text
  lines : List Text
  starts : List UInt32

namespace Source

/-- The pieces of a text between its newlines. -/
def pieces : List UInt8 → List (List UInt8)
  | [] => [[]]
  | b :: rest =>
    if b = Byte.newline then [] :: pieces rest
    else
      match pieces rest with
      | piece :: others => (b :: piece) :: others
      | [] => [[b]]

/-- A line as it is shown: without one carriage return at its end. -/
def shown (piece : List UInt8) : Text :=
  if piece.getLast? = some Byte.carriageReturn then .ofList piece.dropLast else .ofList piece

/-- The offset of each piece, the first one beginning at `offset` and each next one a newline after
the piece before it. -/
def offsets (offset : UInt32) : List (List UInt8) → List UInt32
  | [] => []
  | piece :: rest => offset :: offsets (offset + UInt32.ofNat piece.length + 1) rest

/-- The source with the given name and text. An empty text has no lines. -/
def ofText (file text : Text) : Source :=
  if text.isEmpty then ⟨file, [], []⟩
  else
    let ps := pieces text.toList
    ⟨file, ps.map shown, offsets 0 ps⟩

/-- A source without lines. -/
def isEmpty (s : Source) : Bool := s.lines.isEmpty

/-- The line of a number counted from 1; there is nothing on the lines that do not exist. -/
def line (s : Source) (number : UInt32) : Text :=
  if number = 0 then Text.empty else s.lines.getD (number.toNat - 1) Text.empty

/-- The line that an offset is on, and its column there. Offsets behind the end are on the last
line. In a source without lines no place is known. -/
def locate (s : Source) (offset : UInt32) : Position :=
  let upTo := s.starts.takeWhile (· ≤ offset)
  match upTo.getLast? with
  | none => .unknown
  | some start => ⟨UInt32.ofNat upTo.length, offset - start + 1⟩

end Source

end EcmaTree
