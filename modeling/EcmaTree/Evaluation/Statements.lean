import EcmaTree.Evaluation.Expressions
import EcmaTree.Evaluation.Loops

/-!
# Statements

One level of the evaluation of statements: what a node does, given the evaluation of the nodes
inside it.
-/

namespace EcmaTree.Evaluator

open Eval

/-- The kind of binding that a keyword declares. -/
def bindingKind : DeclarationKind → BindingKind
  | .var => .var
  | .let => .let
  | .const => .const

/-- The initial value of a name. A function without a name gets it. -/
def initial (r : Evaluator) (d : Declarator) : Eval Value :=
  match d.init with
  | some e => do
    let v ← r.expr e
    nameLiteral e v d.name
    return v
  | none => pure .undefined

/-- Declares names in order, each with its initial value. -/
def declare (r : Evaluator) (kind : BindingKind) : List Declarator → Eval Completion
  | [] => pure (.normal none)
  | d :: rest => do
    Eval.define d.name (← r.initial d) kind
    r.declare kind rest

/-- The cases from which a switch runs on: from the first one whose test strictly equals the value,
and failing that from the last one without a test. -/
def selectCase (r : Evaluator) (v : Value) :
    List SwitchCase → (fallback : List SwitchCase) → Eval (List SwitchCase)
  | [], fallback => pure fallback
  | c :: rest, fallback => do
    match c.test with
    | none => r.selectCase v rest (c :: rest)
    | some test =>
      if v.strictEquals (← holding (.values [v]) (r.expr test)) then return c :: rest
      else r.selectCase v rest fallback

/-- Runs the bodies of cases in order. A break that targets the switch ends it normally. -/
def runCases (r : Evaluator) (labels : List Text) :
    List SwitchCase → Option Value → Eval Completion
  | [], last => pure (.normal last)
  | c :: rest, last => do
    let completion ← holding (.values last.toList) (r.statements c.body none)
    match completion with
    | .normal value => r.runCases labels rest (value <|> last)
    | .broke _ => if completion.targets labels then return .normal last else return completion
    | .returned _ | .continued _ => return completion

/-- Selects among the cases in a new frame. -/
def switch (r : Evaluator) (discriminant : Expr) (cases : List SwitchCase) (labels : List Text) :
    Eval Completion := do
  let v ← r.expr discriminant
  inChild do r.runCases labels (← r.selectCase v cases []) none

/-- Runs a statement that carries labels. Loops and switches know their labels; any other statement
can be left by a break that names one of them. -/
def labeled (r : Evaluator) : Stmt → List Text → Eval Completion
  | .labeled label body _, labels => r.labeled body (labels ++ [label])
  | .whileLoop test body _, labels => r.whileLoop test body labels
  | .doWhileLoop body test _, labels => r.doWhileLoop body test labels
  | .forLoop init test update body _, labels => r.forLoop init test update body labels
  | .switch discriminant cases _, labels => r.switch discriminant cases labels
  | s, labels => do
    match ← r.stmt s with
    | .broke (some label) =>
      if labels.contains label then return .normal none else return .broke (some label)
    | c => return c

/-- Runs a handler in a new frame, with the thrown value under the handler's name. -/
def handle (r : Evaluator) (h : Handler) (t : Thrown) : Eval Completion := inChild do
  match h.param with
  | some name => Eval.define name t.value .let
  | none => pure ()
  r.statements h.body none

/-- Runs a guarded block: what is thrown in it goes to the handler. What remains thrown is given as
a result, so that the finalizer can run before it goes on. -/
def guardedOutcome (r : Evaluator) (block : List Stmt) (handler : Option Handler) :
    Eval (Except Thrown Completion) := do
  match ← catching (r.scopedStatements block) with
  | .ok c => return .ok c
  | .error t =>
    match handler with
    | some h => catching (r.handle h t)
    | none => return .error t

/-- The value of an outcome that is yet to come, be it thrown or not. -/
def pendingHolder : Except Thrown Completion → Holder
  | .ok c => .values c.value?.toList
  | .error t => .values [t.value]

/-- Runs a finalizer, if there is one, while an outcome is yet to come. -/
def cleanup (r : Evaluator) (finalizer : Option (List Stmt))
    (outcome : Except Thrown Completion) : Eval Completion :=
  match finalizer with
  | some body => holding (pendingHolder outcome) (r.scopedStatements body)
  | none => pure (.normal none)

/-- Runs a guarded block, its handler and its finalizer. An abrupt end of the finalizer replaces
every other one. -/
def guarded (r : Evaluator) (block : List Stmt) (handler : Option Handler)
    (finalizer : Option (List Stmt)) : Eval Completion := do
  let outcome ← r.guardedOutcome block handler
  let cleanup ← r.cleanup finalizer outcome
  if cleanup.isAbrupt then return cleanup
  else
    match outcome with
    | .ok c => return c
    | .error t => rethrow t

/-- Evaluates a statement. -/
def stmtStep (r : Evaluator) : Stmt → Eval Completion
  | .declare kind declarators _ => r.declare (bindingKind kind) declarators
  | .function code _ => do
    let f ← makeFunction code
    Eval.define code.name f .function
    return .normal none
  | .returned argument _ =>
    match argument with
    | some e => do return .returned (← r.expr e)
    | none => pure (.returned .undefined)
  | .expression value _ => do return .normal (some (← r.expr value))
  | .block body _ => r.scopedStatements body
  | .empty _ => pure (.normal none)
  | .conditional test consequent alternate _ => do
    if (← r.expr test).truthy then r.stmt consequent
    else
      match alternate with
      | some s => r.stmt s
      | none => return .normal none
  | .whileLoop test body _ => r.whileLoop test body []
  | .doWhileLoop body test _ => r.doWhileLoop body test []
  | .forLoop init test update body _ => r.forLoop init test update body []
  | .switch discriminant cases _ => r.switch discriminant cases []
  | .breaking label _ => pure (.broke label)
  | .continuing label _ => pure (.continued label)
  | .labeled label body _ => r.labeled body [label]
  | .throwing argument span => do
    let v ← r.expr argument
    throwValue v (← read State.calls) span
  | .guarded block handler finalizer _ => r.guarded block handler finalizer
  | .unsupported type span => structural (.unsupportedNode type) span

end EcmaTree.Evaluator
