import EcmaTree.Evaluation.Host
import EcmaTree.Evaluation.TextMethods

/-!
# Calls

A call adds one to the active calls, of which only so many may be active at once, and puts an entry
on the call trace; both are as before when it has ended, however it ends.
-/

namespace EcmaTree

open Eval

/-- Runs the body of a call of a function with a name. A call that would be one too many is an error
of its caller, and nothing of the body is run. -/
@[inline] def Config.inCall {α : Type} (c : Config) (name : Text) (site : Span) (body : Eval α) :
    Eval α := fun s ↦
  if s.depth < c.maxDepth then deeper (withCallFrame (c.callFrame name site) body) s
  else raise .callDepth site s

namespace Evaluator

/-- Runs statements in order up to the first abrupt one, which the frame keeps. Otherwise the value
is the last one that a statement had. -/
def statements (r : Evaluator) : List Stmt → Option Value → Eval Completion
  | [], last => pure (.normal last)
  | s :: rest, last => do
    let c ← holding (.values last.toList) (r.stmt s)
    if c.isAbrupt then
      setSignal c
      return c
    else r.statements rest (c.value? <|> last)

/-- The bindings of a new call frame, newest first: the parameters, and before them the function
itself if it is an expression with a name. -/
def callBindings (self : FunctionRef) (code : FunctionNode) (args : List Value) : List Binding :=
  let own : List Binding :=
    if code.kind = .expression && !code.name.isEmpty then
      [⟨code.name, .function, .function self⟩]
    else []
  let given : List Binding :=
    code.params.zipIdx.map fun (name, i) ↦ ⟨name, .var, argument args i⟩
  (own ++ given).reverse

/-- The frame of a call. An arrow has no receiver of its own. -/
def callFrame (self : FunctionRef) (code : FunctionNode) (scope : FrameId) (args : List Value)
    (receiver : Value) : Frame :=
  { parent := some scope
    bindings := callBindings self code args
    receiver := if code.kind = .arrow then none else some receiver
    signal := none }

/-- Runs the body of a function. A break or continue that leaves it is an error of the tree. -/
def body (r : Evaluator) (code : FunctionNode) : Eval Value :=
  match code.body with
  | .concise result => r.expr result
  | .statements body => do
    match ← r.statements body none with
    | .returned v => return v
    | .normal _ => return .undefined
    | .broke label => structural (.strayBreak label) code.span
    | .continued label => structural (.strayContinue label) code.span

/-- Runs a function of the program in a new frame. -/
def closure (r : Evaluator) (self : FunctionRef) (code : FunctionNode) (scope : FrameId)
    (args : List Value) (receiver : Value) : Eval Value := fun s ↦
  let (id, h) := s.heap.newFrame (callFrame self code scope args receiver)
  inFrame id (r.body code) { s with heap := h }

/-- Runs a function of the host. -/
def hostCall (r : Evaluator) (f : HostFunction) (args : List Value) (receiver : Value) :
    Eval Value := do
  r.passMoment (.hostCalled f) (receiver :: args)
  let v ← f.run r receiver args
  r.passMoment (.hostReturns f) [v]
  return v

/-- Runs a function without accounting for the call. -/
def apply (r : Evaluator) (f : FunctionRef) (args : List Value) (receiver : Value) :
    Eval Value := do
  match f with
  | .builtin (.array m) => m.run r receiver args
  | .builtin (.text m) => m.run receiver args
  | .cell id =>
    match (← readHeap (·.function? id)).map Function.behaviour with
    | some (.host h) => r.hostCall h args receiver
    | some (.closure code scope) =>
      let v ← r.closure f code scope args receiver
      r.passMoment .returned [v]
      return v
    | some (.captured _) | none => fault .codeless

/-- Calls a function from a place. -/
def callFunction (r : Evaluator) (f : FunctionRef) (args : List Value) (receiver : Value)
    (site : Span) : Eval Value := do
  let name ← readHeap (·.functionName f)
  holding (.values (.function f :: receiver :: args)) <|
    r.config.inCall name site (r.apply f args receiver)

/-- Calls a value from nowhere in a program. -/
def callValue (r : Evaluator) (callee : Value) (args : List Value) (receiver : Value) :
    Eval Value := do
  match callee with
  | .function f => r.callFunction f args receiver .nowhere
  | v => raise (.notCallable (← textOf v)) .nowhere

end Evaluator

end EcmaTree
