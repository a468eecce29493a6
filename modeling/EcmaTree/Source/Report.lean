import EcmaTree.Source.CallFrame
import EcmaTree.Source.Excerpt

/-!
# Reports

What is shown of an error: a headline, the active calls, and an excerpt of the source.
-/

namespace EcmaTree.Report

/-- The first line: the kind of error, and its message if there is one. -/
def headline (kind message : Text) : Text :=
  if message.isEmpty then kind else kind ++ ": " ++ message

/-- The headline and the calls, each on a line of its own. -/
def trace (kind message : Text) (calls : CallTrace) : Text :=
  Text.concat ((headline kind message :: calls.map CallFrame.toText).map
    (· ++ Text.single Byte.newline))

/-- How many lines a report shows before and after the line of an error. -/
def contextLines : UInt32 := 2

/-- What a report shows of a source: nothing without a source or a known place. -/
def excerpt (source : Option Source) (place : Position) (length : UInt32) : Option Text :=
  match source with
  | some s => if place.line = 0 then some Text.empty else s.excerpt place length contextLines
  | none => some Text.empty

/-- A whole report, if the rounds of its excerpt end. -/
def full (kind message : Text) (calls : CallTrace) (source : Option Source) (place : Position)
    (length : UInt32) : Option Text :=
  (excerpt source place length).map (trace kind message calls ++ ·)

/-- The stack of an error object: headline and calls without newlines at the end. -/
def stack (kind message : Text) (calls : CallTrace) : Text :=
  .ofList ((trace kind message calls).toList.reverse.dropWhile (· == Byte.newline)).reverse

end EcmaTree.Report
