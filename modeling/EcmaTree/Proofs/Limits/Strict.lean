import EcmaTree.Evaluation.Level
import EcmaTree.Proofs.Limits.Agreement

/-!
# Strict evaluation

Strict evaluation is evaluation that is ended by a fault as soon as a name without a binding is read
or a call would be one too many. Whatever is evaluated without that fault has not come to a point
where the limit on calls or the meaning of such names makes a difference.
-/

namespace EcmaTree

open Eval

namespace Evaluator

/-- Reads a name, which has to have a binding. -/
def strictIdentifier (r : Evaluator) (e : Fault) (name : Text) (span : Span) : Eval Value := do
  if (← lookup name).isSome then r.identifier name span else fault e

/-- Calls a function, for which there has to be room among the active calls. -/
def strictFunction (r : Evaluator) (e : Fault) (f : FunctionRef) (args : List Value)
    (receiver : Value) (site : Span) : Eval Value := do
  if (← read State.depth) < r.config.maxDepth then r.callFunction f args receiver site
  else fault e

/-- Calls a value from nowhere in a program. -/
def strictCall (r : Evaluator) (e : Fault) (callee : Value) (args : List Value)
    (receiver : Value) : Eval Value :=
  match callee with
  | .function f => r.strictFunction e f args receiver .nowhere
  | v => r.callValue v args receiver

/-- Calls what the callee evaluates to. -/
def strictCallExpr (r : Evaluator) (e : Fault) (callee : Expr) (arguments : List (Option Expr))
    (span : Span) : Eval Value := do
  let (receiver, f) ← r.callee callee
  let args ← holding (.values [receiver, f]) (r.operands arguments)
  match f with
  | .function f => r.strictFunction e f args receiver span
  | _ => raise (.notCallable callee.describe) span

/-- Evaluates an expression. -/
def strictExpr (r : Evaluator) (e : Fault) : Expr → Eval Value
  | .identifier name span => r.strictIdentifier e name span
  | .call callee arguments span => r.strictCallExpr e callee arguments span
  | x => r.exprStep x

end Evaluator

/-- Strict evaluation on a level. -/
def Config.strict (c : Config) (e : Fault) : Nat → Evaluator
  | 0 => c.level 0
  | n + 1 =>
    let r := c.strict e n
    ⟨c, n + 1, r.strictExpr e, r.stmtStep, r.strictCall e⟩

end EcmaTree
