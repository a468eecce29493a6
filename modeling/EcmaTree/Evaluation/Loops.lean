import EcmaTree.Evaluation.Calls

/-!
# Loops

A loop runs rounds until one says that it is over. How the completion of a body affects the loop
around it is the same for all loops.
-/

namespace EcmaTree

open Eval

/-- What a round of a loop leads to: another round, or the end of the loop. -/
inductive Round (σ β : Type) where
  | again (next : σ)
  | over (result : β)

/-- Runs rounds until one of them is the last, or until there have been too many. -/
def Eval.iterate {σ β : Type} (round : σ → Eval (Round σ β)) : Nat → σ → Eval β
  | 0, _ => exhaust
  | n + 1, x => do
    match ← round x with
    | .again y => iterate round n y
    | .over result => return result

/-- What the completion of a body means to a loop. -/
inductive LoopAction where
  | next | exit | propagate
deriving DecidableEq, Repr

namespace Completion

/-- A loop with labels goes on after a normal end and a continue that targets it, is left by
a break that targets it, and passes on everything else. -/
def loopAction (c : Completion) (labels : List Text) : LoopAction :=
  match c with
  | normal _ => .next
  | continued _ => if c.targets labels then .next else .propagate
  | broke _ => if c.targets labels then .exit else .propagate
  | returned _ => .propagate

/-- The value of a loop after a body: that of the body if it has one and ended normally. -/
def loopValue (c : Completion) (last : Option Value) : Option Value :=
  match c with
  | normal (some v) => some v
  | _ => last

end Completion

namespace Evaluator

/-- Runs statements in a new frame. -/
def scopedStatements (r : Evaluator) (body : List Stmt) : Eval Completion :=
  inChild (r.statements body none)

/-- Runs the body of a loop in a new frame of its own. -/
def loopBody (r : Evaluator) (body : Stmt) : Eval Completion :=
  match body with
  | .block statements _ => r.scopedStatements statements
  | s => inChild do
    let c ← r.stmt s
    if c.isAbrupt then setSignal c
    return c

/-- Runs the body of a loop, and then what follows a round after which the loop goes on. `next` is
given the value of the loop so far. -/
@[inline] def loopRound (r : Evaluator) (body : Stmt) (labels : List Text) (last : Option Value)
    (next : Option Value → Eval (Round (Option Value) Completion)) :
    Eval (Round (Option Value) Completion) := do
  let c ← holding (.values last.toList) (r.loopBody body)
  let value := c.loopValue last
  match c.loopAction labels with
  | .next => next value
  | .exit => return .over (.normal value)
  | .propagate => return .over c

/-- Tests before each round. -/
def whileLoop (r : Evaluator) (test : Expr) (body : Stmt) (labels : List Text) :
    Eval Completion :=
  iterate (fun last ↦ do
    let goesOn ← holding (.values last.toList) (r.expr test)
    if goesOn.truthy then r.loopRound body labels last fun value ↦ return .again value
    else return .over (.normal last)) r.rounds none

/-- Tests after each round. -/
def doWhileLoop (r : Evaluator) (body : Stmt) (test : Expr) (labels : List Text) :
    Eval Completion :=
  iterate (fun last ↦ r.loopRound body labels last fun value ↦ do
    let goesOn ← holding (.values value.toList) (r.expr test)
    if goesOn.truthy then return .again value else return .over (.normal value))
    r.rounds none

/-- A loop whose variables each round has copies of its own. -/
def hasOwnVariables : Option Stmt → Bool
  | some (.declare .let _ _) => true
  | _ => false

/-- Makes a sibling of the current frame and makes it current. -/
def enterSibling : Eval Unit := fun s ↦
  let (id, h) := s.heap.newSibling s.frame
  .done () { s with heap := h, frame := id }

/-- The test of a loop, which may be left out. `last` is the value of the loop so far. -/
def forTest (r : Evaluator) (test : Option Expr) (last : Option Value) : Eval Bool :=
  match test with
  | some e => Value.truthy <$> holding (.values last.toList) (r.expr e)
  | none => pure true

/-- The step of a loop, which may be left out, on a copy of the loop's own variables if it has
any. -/
def forStep (r : Evaluator) (own : Bool) (update : Option Expr) (value : Option Value) :
    Eval (Round (Option Value) Completion) := do
  if own then enterSibling
  match update with
  | some e =>
    let _ ← holding (.values value.toList) (r.expr e)
  | none => pure ()
  return .again value

/-- Tests before each round and steps after it. -/
def forRounds (r : Evaluator) (own : Bool) (test update : Option Expr) (body : Stmt)
    (labels : List Text) : Eval Completion :=
  iterate (fun last ↦ do
    if ← r.forTest test last then r.loopRound body labels last (r.forStep own update)
    else return .over (.normal last)) r.rounds none

/-- Runs the initialiser and then the loop. The variables of a `let` initialiser live in a frame
that is copied before the first round and before each step. -/
def forLoop (r : Evaluator) (init : Option Stmt) (test update : Option Expr) (body : Stmt)
    (labels : List Text) : Eval Completion := inChild do
  match init with
  | some s =>
    let _ ← r.stmt s
  | none => pure ()
  if hasOwnVariables init then enterSibling
  r.forRounds (hasOwnVariables init) test update body labels

end Evaluator

end EcmaTree
