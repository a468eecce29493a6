import EcmaTree.Estree.LoadError
import EcmaTree.Evaluation.State
import EcmaTree.Heap.Collector

/-!
# Answers

What a host is told of a step. Answers show values by snapshots, since the values themselves change
with the steps that follow.
-/

namespace EcmaTree

/-- Why a step failed. -/
inductive Failure where
  | load (e : Estree.LoadError)
  /-- A value was thrown where no program was running. -/
  | thrown (t : Thrown) (value : Snapshot)
  | fault (e : Fault)
  | exhausted

/-- What a host is told of a step. -/
inductive Answer where
  | done
  | value (v : Snapshot)
  /-- A program threw a value that nothing handled. There is no report if it never ends. -/
  | uncaught (v : Snapshot) (isError : Bool) (report : Option Text)
  | failed (f : Failure)
  /-- How each statement ended. -/
  | statements (endings : List (Except Failure CompletionSnapshot))
  /-- What is remembered of the last program. -/
  | error (hasError : Bool) (v : Snapshot) (report : Option Text)
  | cleared (hasError : Bool)
  | frame (depth : Nat) (bindings : List BindingSnapshot)
  | depth (n : Nat)
  | binding (b : BindingSnapshot)
  | assigned (result : AssignResult)
  | live (census : Heap.Census)

/-- An answer, and what was recorded and noted in the meantime, the oldest first. -/
structure Reply where
  answer : Answer
  log : List (List Snapshot)
  notices : List Notice

end EcmaTree
