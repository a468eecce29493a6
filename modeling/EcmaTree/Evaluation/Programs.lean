import EcmaTree.Evaluation.Statements

/-!
# Programs

A program runs in a frame of its own, below the one that is current, and under an entry of its own
on the call trace.
-/

namespace EcmaTree

open Eval

/-- The name that a program has on the call trace. -/
def programName : Text := "<program>"

namespace Evaluator

/-- Runs the statements of a program up to a return. The value is the last one that a statement
had. A break or continue that leaves its statement is an error of the tree. -/
def programStatements (r : Evaluator) : List Stmt → Value → Eval Value
  | [], last => pure last
  | s :: rest, last => do
    match ← holding (.values [last]) (r.stmt s) with
    | .normal value => r.programStatements rest (value.getD last)
    | .returned v => return v
    | .broke label => structural (.strayBreak label) s.span
    | .continued label => structural (.strayContinue label) s.span

/-- Runs a program. -/
def program (r : Evaluator) (p : Program) : Eval Value :=
  inChild <| withCallFrame (r.config.callFrame programName p.span) <|
    r.programStatements p.body .undefined

end Evaluator

end EcmaTree
