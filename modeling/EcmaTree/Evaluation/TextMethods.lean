import EcmaTree.Evaluation.ArrayMethods
import EcmaTree.Text.Search

/-!
# Methods of texts

The receiver may be any value but undefined and null; the method works on its text.
-/

namespace EcmaTree.TextMethod

open Eval

/-- The byte at an index, or nothing where there is none. -/
def runCharAt (t : Text) (args : List Value) : Eval Value := do
  let place ← match args with
    | [] => pure (some 0)
    | v :: _ => Number.exactIndex? <$> numberOf v
  return .text ((place.bind t.byte?).elim .empty .single)

/-- The first index, from a clamped one on, where the argument's text begins. -/
def runIndexOf (t : Text) (args : List Value) : Eval Value := do
  let needle ← textOf (argument args 0)
  let start ← readHeap (·.clampedIndex (argument args 1) t.length 0)
  return match t.find? needle start with
    | some i => .ofNat i
    | none => .number (.ofInt (-1))

/-- The bytes between two relative indices. -/
def runSlice (t : Text) (args : List Value) : Eval Value := do
  let start ← readHeap (·.relativeIndex (argument args 0) t.length 0)
  let stop ← readHeap (·.relativeIndex (argument args 1) t.length t.length)
  return .text (t.slice start stop)

/-- The bytes between two clamped indices, in whichever order they are given. -/
def runSubstring (t : Text) (args : List Value) : Eval Value := do
  let a ← readHeap (·.clampedIndex (argument args 0) t.length 0)
  let b ← readHeap (·.clampedIndex (argument args 1) t.length t.length)
  return .text (t.slice (min a b) (max a b))

/-- A new array of the fields between the separators; of the whole text without a separator. -/
def runSplit (t : Text) (args : List Value) : Eval Value := do
  match argument args 0 with
  | .undefined => newArray #[.text t]
  | v =>
    let separator ← textOf v
    newArray ((t.split separator).map Value.text).toArray

/-- Calls a method on a receiver. -/
def run (m : TextMethod) (receiver : Value) (args : List Value) : Eval Value := do
  if receiver.isNullish then raiseBare (.textReceiver m)
  else
    let t ← textOf receiver
    match m with
    | charAt => runCharAt t args
    | indexOf => runIndexOf t args
    | slice => runSlice t args
    | substring => runSubstring t args
    | toUpperCase => return .text (t.map Byte.toUpper)
    | toLowerCase => return .text (t.map Byte.toLower)
    | trim => return .text t.trim
    | split => runSplit t args

end EcmaTree.TextMethod
