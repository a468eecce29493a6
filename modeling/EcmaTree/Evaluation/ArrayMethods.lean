import EcmaTree.Evaluation.Indices
import EcmaTree.Evaluation.State

/-!
# Methods of arrays

The methods that take a callback visit the indices that the array had when the method was called, in
order, and end early when the array has become too short.
-/

namespace EcmaTree

/-- The argument at a position; undefined when there is none. -/
def argument (args : List Value) (i : Nat) : Value := args.getD i .undefined

namespace Eval

/-- The elements of an array. -/
def elements (id : ArrayId) : Eval (Array Value) := readHeap (·.elements id)

/-- Visits indices in order, with the element that is stored there when its turn comes. The visit
ends at an index that the array no longer has. -/
def overIndices {σ : Type} (id : ArrayId) (visit : σ → Nat → Value → Eval σ) :
    List Nat → σ → Eval σ
  | [], result => pure result
  | i :: rest, result => do
    match (← elements id)[i]? with
    | none => pure result
    | some element => overIndices id visit rest (← visit result i element)

/-- Visits indices in order for a callback. The array and the callback are held meanwhile. -/
def forCallback {σ : Type} (id : ArrayId) (callback : Value) (indices : List Nat) (start : σ)
    (visit : σ → Nat → Value → Eval σ) : Eval σ :=
  holding (.values [.array id, callback]) (overIndices id visit indices start)

end Eval

namespace ArrayMethod

open Eval

/-- Appends the arguments. -/
def runPush (id : ArrayId) (args : List Value) : Eval Value := do
  modifyHeap (·.modifyArray id (· ++ args))
  return .ofNat (← elements id).size

/-- Removes the last element. -/
def runPop (id : ArrayId) : Eval Value := do
  let last := (← elements id).back?
  modifyHeap (·.modifyArray id Array.pop)
  return last.getD .undefined

/-- Removes the first element. -/
def runShift (id : ArrayId) : Eval Value := do
  let first := (← elements id)[0]?
  modifyHeap (·.modifyArray id fun es ↦ es.extract 1 es.size)
  return first.getD .undefined

/-- Inserts the arguments before the first element. -/
def runUnshift (id : ArrayId) (args : List Value) : Eval Value := do
  modifyHeap (·.modifyArray id (args.toArray ++ ·))
  return .ofNat (← elements id).size

/-- A new array of the elements between two relative indices. -/
def runSlice (id : ArrayId) (args : List Value) : Eval Value := do
  let es ← elements id
  let start ← readHeap (·.relativeIndex (argument args 0) es.size 0)
  let stop ← readHeap (·.relativeIndex (argument args 1) es.size es.size)
  newArray (es.extract start stop)

/-- The texts of the elements with a separator between them. -/
def runJoin (id : ArrayId) (args : List Value) : Eval Value := do
  let separator ← match argument args 0 with
    | .undefined => pure (Text.ofString ",")
    | v => textOf v
  return .text (← readHeap (·.join id separator))

/-- The first index, from a relative one on, of an element that strictly equals the argument. -/
def runIndexOf (id : ArrayId) (args : List Value) : Eval Value := do
  let es ← elements id
  let start ← readHeap (·.relativeIndex (argument args 1) es.size 0)
  let target := argument args 0
  return match (es.toList.drop start).findIdx? (·.strictEquals target) with
    | some i => .ofNat (start + i)
    | none => .number (.ofInt (-1))

/-- Equality of an element with what is searched for; here `nan` equals itself. -/
def sameElement : Value → Value → Bool
  | .number a, .number b => a.equal b || a.isNaN && b.isNaN
  | a, b => a.strictEquals b

/-- Some element is the argument. -/
def runIncludes (id : ArrayId) (args : List Value) : Eval Value := do
  return .bool ((← elements id).toList.any (sameElement (argument args 0)))

/-- Reverses the elements in place. -/
def runReverse (id : ArrayId) : Eval Value := do
  modifyHeap (·.modifyArray id Array.reverse)
  return .array id

/-- A new array of the elements and the arguments, arrays among them by their elements. -/
def runConcat (id : ArrayId) (args : List Value) : Eval Value := do
  let es ← elements id
  newArray (← readHeap fun h ↦ args.foldl (fun all arg ↦
    match arg with
    | .array other => all ++ h.elements other
    | v => all.push v) es)

/-- A new array of what the callback returns for each element. -/
def runMap (r : Evaluator) (id : ArrayId) (callback : Value) : Eval Value := do
  let size := (← elements id).size
  let results ← forCallback id callback (List.range size) #[] fun results i element ↦ do
    let result ← holding (.elements results) <|
      r.call callback [element, .ofNat i, .array id] .undefined
    return results.push result
  newArray results

/-- A new array of the elements for which the callback returns something true. -/
def runFilter (r : Evaluator) (id : ArrayId) (callback : Value) : Eval Value := do
  let size := (← elements id).size
  let results ← forCallback id callback (List.range size) #[] fun results i element ↦ do
    let verdict ← holding (.elements results) <| holding (.values [element]) <|
      r.call callback [element, .ofNat i, .array id] .undefined
    return if verdict.truthy then results.push element else results
  newArray results

/-- Calls the callback for each element. -/
def runForEach (r : Evaluator) (id : ArrayId) (callback : Value) : Eval Value := do
  let size := (← elements id).size
  forCallback id callback (List.range size) () fun _ i element ↦ do
    let _ ← r.call callback [element, .ofNat i, .array id] .undefined
  return .undefined

/-- Folds the elements with the callback, beginning with the second argument if there is one and
with the first element otherwise. -/
def runReduce (r : Evaluator) (id : ArrayId) (args : List Value) : Eval Value := do
  let callback := argument args 0
  if !callback.isFunction then
    raiseBare (.notCallable (← textOf callback))
  else
    let es ← elements id
    let step (result : Value) (i : Nat) (element : Value) : Eval Value :=
      r.call callback [result, element, .ofNat i, .array id] .undefined
    match args[1]?, es[0]? with
    | some first, _ => forCallback id callback (List.range es.size) first step
    | none, some first => forCallback id callback (List.range' 1 (es.size - 1)) first step
    | none, none => raiseBare .emptyReduce

/-- Calls a method on a receiver, which has to be an array. -/
def run (r : Evaluator) (m : ArrayMethod) (receiver : Value) (args : List Value) : Eval Value :=
  match receiver with
  | .array id =>
    match m with
    | push => runPush id args
    | pop => runPop id
    | shift => runShift id
    | unshift => runUnshift id args
    | slice => runSlice id args
    | join => runJoin id args
    | indexOf => runIndexOf id args
    | includes => runIncludes id args
    | reverse => runReverse id
    | concat => runConcat id args
    | map => runMap r id (argument args 0)
    | filter => runFilter r id (argument args 0)
    | forEach => runForEach r id (argument args 0)
    | reduce => runReduce r id args
  | _ => raiseBare (.arrayReceiver m)

end ArrayMethod

end EcmaTree
