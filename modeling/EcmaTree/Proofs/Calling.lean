import EcmaTree.Evaluation.Level

/-!
# Ways to run what is called

Evaluation with another way to run the functions that are called, or only the code of those among
them that have some. A call that is not one too many runs them that way, under the entry that it has
on the call trace.
-/

namespace EcmaTree

open Eval

/-- A way to run a function with arguments and a receiver, given the entry that the call has on the
call trace. -/
def Running := CallFrame → FunctionRef → List Value → Value → Eval Value

/-- A way to run the code of a function below the frame that it captured. -/
def Entering := FunctionRef → FunctionNode → FrameId → List Value → Value → Eval Value

namespace Evaluator

/-- Runs functions by what is known of the evaluation of their nodes. -/
def running (r : Evaluator) : Running := fun _ ↦ r.apply

/-- Runs a function without accounting for the call. -/
def applyBy (r : Evaluator) (enter : Entering) (f : FunctionRef) (args : List Value)
    (receiver : Value) : Eval Value := do
  match f with
  | .builtin (.array m) => m.run r receiver args
  | .builtin (.text m) => m.run receiver args
  | .cell id =>
    match (← readHeap (·.function? id)).map Function.behaviour with
    | some (.host h) => r.hostCall h args receiver
    | some (.closure code scope) =>
      let v ← enter f code scope args receiver
      r.passMoment .returned [v]
      return v
    | some (.captured _) | none => fault .codeless

/-- Calls a function from a place. -/
def callFunctionBy (r : Evaluator) (run : Running) (f : FunctionRef) (args : List Value)
    (receiver : Value) (site : Span) : Eval Value := do
  let name ← readHeap (·.functionName f)
  holding (.values (.function f :: receiver :: args)) <|
    r.config.inCall name site (run (r.config.callFrame name site) f args receiver)

/-- Calls a value from nowhere in a program. -/
def callValueBy (r : Evaluator) (run : Running) (callee : Value) (args : List Value)
    (receiver : Value) : Eval Value :=
  match callee with
  | .function f => r.callFunctionBy run f args receiver .nowhere
  | v => r.callValue v args receiver

/-- Calls what the callee evaluates to. -/
def callExprBy (r : Evaluator) (run : Running) (callee : Expr) (arguments : List (Option Expr))
    (span : Span) : Eval Value := do
  let (receiver, f) ← r.callee callee
  let args ← holding (.values [receiver, f]) (r.operands arguments)
  match f with
  | .function f => r.callFunctionBy run f args receiver span
  | _ => raise (.notCallable callee.describe) span

/-- Evaluates an expression. -/
def exprStepBy (r : Evaluator) (run : Running) : Expr → Eval Value
  | .call callee arguments span => r.callExprBy run callee arguments span
  | e => r.exprStep e

theorem applyBy_closure (r : Evaluator) (f : FunctionRef) (args : List Value) (receiver : Value) :
    r.applyBy r.closure f args receiver = r.apply f args receiver := by
  rcases f with id | m | m <;> rfl

theorem callValueBy_running (r : Evaluator) (callee : Value) (args : List Value)
    (receiver : Value) :
    r.callValueBy r.running callee args receiver = r.callValue callee args receiver := by
  cases callee <;> rfl

theorem exprStepBy_running (r : Evaluator) (e : Expr) :
    r.exprStepBy r.running e = r.exprStep e := by
  cases e <;> rfl

end Evaluator

end EcmaTree
