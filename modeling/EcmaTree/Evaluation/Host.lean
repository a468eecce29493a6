import EcmaTree.Evaluation.ArrayMethods

/-!
# Functions of the host

What the host lends to programs. None of these functions keeps a value of the program to itself, and
those that call back do so like any other call.
-/

namespace EcmaTree

open Eval

/-- Records values as they are now, under one numbering. -/
def Eval.record (vs : List Value) : Eval Unit :=
  modify fun s ↦ { s with log := s.heap.snapshots vs :: s.log }

namespace HostAction

/-- Does what the code of the host says. -/
def run (r : Evaluator) (hand : Hand) : HostAction → Eval Value
  | literal v _ => pure v
  | array elements => newArray (hand.elements elements).toArray
  | object members => newObject (hand.members members)
  | function name f => newFunction ⟨name, .host f⟩
  | string v => do return .text (← textOf (hand.value v))
  | number v => do return .number (← numberOf (hand.value v))
  | json v => do return .text (← readHeap (·.jsonText (hand.value v)))
  | element holder i =>
    match hand.value holder with
    | .array id => do return (← elements id).getD i .undefined
    | _ => pure .undefined
  | member holder key =>
    match hand.value holder with
    | .object id => readHeap (·.property id key)
    | _ => pure .undefined
  | setElements holder elements => do
    modifyHeap fun h ↦
      match hand.value holder with
      | .array id => h.modifyArray id fun _ ↦ (hand.elements elements).toArray
      | _ => h
    return .undefined
  | setMembers holder members => do
    modifyHeap fun h ↦
      match hand.value holder with
      | .object id => h.modifyObject id fun _ ↦ hand.members members
      | _ => h
    return .undefined
  | call f args this => r.call (hand.value f) (hand.elements args) (hand.value this)
  | record vs => do
    Eval.record (hand.elements vs)
    return .undefined
  | throw v => throwValue (hand.value v) [] .nowhere
  | fail e => raiseBare e
  | fault e => Eval.fault e

end HostAction

namespace HostCode

/-- Runs the code of a function of the host. All it got is held, and it may collect before whatever
it does. -/
def run (r : Evaluator) (f : HostFunction) : HostCode → Hand → Eval Value
  | done v, hand => pure (hand.value v)
  | act action next, hand => do
    r.passMoment (.hostActs f) hand.values
    let v ← holding (.values hand.values) (action.run r hand)
    next.run r f (hand.take v)
  | attempt action next caught, hand => do
    r.passMoment (.hostActs f) hand.values
    match ← holding (.values hand.values) (catching (action.run r hand)) with
    | .ok v => next.run r f (hand.take v)
    | .error t => caught.run r f (hand.take t.value)
  | look vs next, hand => do
    let shown ← readHeap (·.snapshots (hand.elements vs))
    let log ← read State.log
    (next shown log).run r f hand

end HostCode

namespace HostFunction

/-- Reads a text as a document and builds its value. A text that is none is a fault, which programs
cannot handle. -/
def runParse (t : Text) : Eval Value :=
  match Json.parse t with
  | .ok document => updateHeap fun h ↦ h.ofDocument document
  | .error e => fault (.document e)

/-- Calls a function of the host. What it is asked to collect is collected as it is called. -/
def run (r : Evaluator) (f : HostFunction) (receiver : Value) (args : List Value) : Eval Value := do
  let first := argument args 0
  match f with
  | log =>
    record (receiver :: args)
    return first
  | id => return first
  | self => return receiver
  | .args => newArray args.toArray
  | add => return .number ((← numberOf first).add (← numberOf (argument args 1)))
  | string => return .text (← textOf first)
  | json => return .text (← readHeap (·.jsonText first))
  | parse => runParse (← textOf first)
  | throw => throwValue first [] .nowhere
  | fail => raiseBare (.hostFailure (← textOf first))
  | apply =>
    let inner ← match argument args 2 with
      | .array source => Array.toList <$> elements source
      | _ => pure []
    r.call first inner (argument args 1)
  | gc => return .undefined
  | other n => (r.config.others n args.length).run r f ⟨receiver, args, []⟩

end HostFunction

end EcmaTree
