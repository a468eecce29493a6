import EcmaTree.Evaluation.Level
import EcmaTree.Evaluation.Programs

/-!
# Interpreters

An interpreter keeps its state from one evaluation to the next, and remembers what the last program
threw if nothing handled it.
-/

namespace EcmaTree

/-- The version of the evaluator. -/
def version : Text := "0.3.0"

/-- A configuration with a state, and what the last program threw. -/
structure Interpreter where
  config : Config
  state : State
  uncaught : Option Thrown

/-- How the run of a program ends. -/
inductive RunResult where
  | value (v : Value)
  | uncaught (t : Thrown)
  | faulted (e : Fault)
  | exhausted
deriving DecidableEq

/-- The result of the run of a program with an outcome. -/
def RunResult.ofOutcome : Outcome Value → RunResult
  | .done v _ => .value v
  | .thrown t _ => .uncaught t
  | .faulted e _ => .faulted e
  | .exhausted _ => .exhausted

/-- Up to 2000 calls may be active, names without a binding stand for themselves, there is no
source, and no other function of the host does anything. -/
def Config.standard : Config where
  unbound := .nameAsText
  maxDepth := 2000
  noteUnbound := false
  source := .ofText "<eval>" .empty
  collects := Moment.standard
  others _ _ := .done .receiver

namespace State

/-- Nothing is running yet, in a frame of a heap. -/
def start (heap : Heap) (frame : FrameId) (accounting : Accounting) : State :=
  ⟨heap, frame, 0, [], [], [], [], 0, accounting⟩

end State

namespace Interpreter

/-- An interpreter whose current frame is a global one with the given bindings. -/
def start (config : Config) (heap : Heap) (accounting : Accounting)
    (bindings : List (Text × Value)) : Interpreter :=
  let (frame, heap) := heap.newGlobal bindings
  ⟨config, .start heap frame accounting, none⟩

/-- The interpreter in another state. -/
def withState (i : Interpreter) (s : State) : Interpreter := { i with state := s }

/-- The interpreter with another heap. -/
def withHeap (i : Interpreter) (h : Heap) : Interpreter :=
  { i with state := { i.state with heap := h } }

/-- Runs a program on a level of evaluation, while the host holds some values. What the program
before it threw is forgotten. -/
def run (i : Interpreter) (level : Nat) (p : Program) (held : List Value) :
    RunResult × Interpreter :=
  match Eval.holding (.values held) ((i.config.level level).program p) i.state with
  | .done v s => (.value v, { i with state := s, uncaught := none })
  | .thrown t s => (.uncaught t, { i with state := s, uncaught := some t })
  | .faulted e s => (.faulted e, { i with state := s, uncaught := none })
  | .exhausted s => (.exhausted, { i with state := s, uncaught := none })

/-- Forgets what the last program threw. -/
def clearError (i : Interpreter) : Interpreter := { i with uncaught := none }

/-- The value that the last program threw. -/
def error (i : Interpreter) : Value :=
  match i.uncaught with
  | some t => t.value
  | none => .undefined

/-- How a report names an uncaught value, and the message that follows. -/
def reportHeading (h : Heap) (v : Value) : Text × Text :=
  match h.errorParts? v with
  | some (name, message) => ("Uncaught " ++ name, message)
  | none => ("Uncaught " ++ h.thrownText v, .empty)

/-- The report of what the last program threw: the value, the calls that were active, and the place
in the source. It is empty if nothing was thrown, and there is none if its excerpt never ends. -/
def errorReport (i : Interpreter) : Option Text :=
  match i.uncaught with
  | none => some .empty
  | some t =>
    let (kind, message) := reportHeading i.state.heap t.value
    let source := i.config.source
    Report.full kind message t.calls (if source.isEmpty then none else some source)
      (source.locate t.origin.start) t.origin.width

end Interpreter

end EcmaTree
