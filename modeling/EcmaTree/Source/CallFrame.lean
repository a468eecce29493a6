import EcmaTree.Number.Numeral
import EcmaTree.Source.Lines

/-!
# Call frames

One entry of a call trace: which function is active, and where it was called.
-/

namespace EcmaTree

/-- An active function and the place of its call. Line 0 says that only the offset is known. -/
structure CallFrame where
  function : Text
  file : Text
  line : UInt32
  column : UInt32
  offset : UInt32
deriving DecidableEq, Repr

namespace CallFrame

/-- The name that stands for a function without one. -/
def anonymous : Text := "<anonymous>"

/-- One line of a trace. A function without a name is shown by its place alone. -/
def toText (f : CallFrame) : Text :=
  let name :=
    if f.function.isEmpty || f.function == anonymous then Text.empty else f.function ++ " "
  let place :=
    if f.line = 0 then "@" ++ Text.ofNat f.offset.toNat
    else ":" ++ Text.ofNat f.line.toNat ++ ":" ++ Text.ofNat f.column.toNat
  "  at " ++ name ++ "(" ++ f.file ++ place ++ ")"

end CallFrame

/-- The active calls, innermost first. -/
abbrev CallTrace := List CallFrame

end EcmaTree
