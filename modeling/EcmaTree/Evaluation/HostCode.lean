import EcmaTree.Evaluation.Error
import EcmaTree.Heap.Reference
import EcmaTree.Heap.Snapshot

/-!
# Code of the host

A host can lend any function of its own. Its code names values by where it got them, so that it
cannot make a reference up, and learns of them what snapshots show.
-/

namespace EcmaTree

/-- Where the code got a value. -/
inductive HostPlace where
  | receiver
  | argument (i : Nat)
  /-- The value of an action before, counted from the first. -/
  | result (i : Nat)

/-- What the code can do. Every action has a value, which is undefined if nothing else is said. -/
inductive HostAction where
  /-- Has a value that refers to nothing. -/
  | literal (v : Value) (plain : v.ref? = none)
  | array (elements : List HostPlace)
  | object (members : List (Text × HostPlace))
  | function (name : Text) (function : HostFunction)
  | string (v : HostPlace)
  | number (v : HostPlace)
  | json (v : HostPlace)
  /-- Reads an element of an array. -/
  | element (holder : HostPlace) (i : Nat)
  /-- Reads a property of an object. -/
  | member (holder : HostPlace) (key : Text)
  /-- Gives an array other elements. -/
  | setElements (holder : HostPlace) (elements : List HostPlace)
  /-- Gives an object other properties. -/
  | setMembers (holder : HostPlace) (members : List (Text × HostPlace))
  | call (f : HostPlace) (arguments : List HostPlace) (this : HostPlace)
  | record (vs : List HostPlace)
  | throw (v : HostPlace)
  /-- Throws the object of an error. -/
  | fail (e : RuntimeError)
  /-- Fails in a way that no program can handle. -/
  | fault (e : Fault)

/-- The code of a function of the host. -/
inductive HostCode where
  | done (result : HostPlace)
  | act (action : HostAction) (next : HostCode)
  /-- What the action throws is its value, and the code goes on otherwise with it. -/
  | attempt (action : HostAction) (next caught : HostCode)
  /-- Goes on as the snapshots of values and what was recorded so far, the newest first, tell. -/
  | look (vs : List HostPlace) (next : List Snapshot → List (List Snapshot) → HostCode)

/-- Code that may come to an action. -/
inductive HostCode.Reaches (x : HostAction) : HostCode → Prop where
  | act (next : HostCode) : Reaches x (.act x next)
  | attempt (next caught : HostCode) : Reaches x (.attempt x next caught)
  | act_next {action : HostAction} {next : HostCode} (h : next.Reaches x) :
      Reaches x (.act action next)
  | attempt_next {action : HostAction} {next caught : HostCode} (h : next.Reaches x) :
      Reaches x (.attempt action next caught)
  | attempt_caught {action : HostAction} {next caught : HostCode} (h : caught.Reaches x) :
      Reaches x (.attempt action next caught)
  | look {vs : List HostPlace} {next : List Snapshot → List (List Snapshot) → HostCode}
      {shown : List Snapshot} {log : List (List Snapshot)} (h : (next shown log).Reaches x) :
      Reaches x (.look vs next)

/-- The values that the code got so far. -/
structure Hand where
  receiver : Value
  args : List Value
  results : List Value

namespace Hand

/-- All values at hand. -/
def values (hand : Hand) : List Value := hand.receiver :: (hand.args ++ hand.results)

/-- The value from a place. Where there is none it is undefined. -/
def value (hand : Hand) : HostPlace → Value
  | .receiver => hand.receiver
  | .argument i => hand.args.getD i .undefined
  | .result i => hand.results.getD i .undefined

/-- Takes the value of a further action. -/
def take (hand : Hand) (v : Value) : Hand := { hand with results := hand.results ++ [v] }

/-- The values from places. -/
def elements (hand : Hand) (places : List HostPlace) : List Value := places.map hand.value

/-- The values from places under keys. -/
def members (hand : Hand) (places : List (Text × HostPlace)) : Properties :=
  .ofList (places.map fun p ↦ (p.1, hand.value p.2))

end Hand

end EcmaTree
