import EcmaTree.Evaluation.Members

/-!
# Targets of assignments

A target is a variable, or a member that is reached from a root by a path of keys. The keys are
evaluated once, when the target is resolved; the path is walked again for each read and each write.
-/

namespace EcmaTree

/-- Where a path of keys begins. -/
inductive Root where
  | named (name : Text)
  | value (v : Value)
deriving DecidableEq

/-- What an assignment stores into. -/
inductive Target where
  | named (name : Text)
  /-- The property `key` of what is found from the root along the path. -/
  | member (root : Root) (path : List Text) (key : Text)
deriving DecidableEq

namespace Target

open Eval

/-- The member with a key of what this target holds. -/
def child (t : Target) (key : Text) : Target :=
  match t with
  | named name => member (.named name) [] key
  | member root path inner => member root (path ++ [inner]) key

/-- The value at the root, which is held until the target is no longer used. -/
def holder : Target → Holder
  | named _ | member (.named _) _ _ => .values []
  | member (.value v) _ _ => .values [v]

/-- The variable at the root, if there is one. -/
def rootName? : Target → Option Text
  | named name => some name
  | member (.named name) _ _ => some name
  | member (.value _) _ _ => none

/-- The value at the root. -/
def readRoot (root : Root) (span : Span) : Eval Value := do
  match root with
  | .value v => return v
  | .named name =>
    match ← lookup name with
    | some b => return b.value
    | none => raise (.notDefined name) span

/-- What is found from a value along a path of keys. -/
def follow (span : Span) : List Text → Value → Eval Value
  | [], v => pure v
  | key :: rest, v => do follow span rest (← getMember v key span)

/-- The value that holds the last key's property. -/
def container (root : Root) (path : List Text) (span : Span) : Eval Value := do
  follow span path (← readRoot root span)

/-- The value of a target. -/
def read (t : Target) (span : Span) : Eval Value := do
  match t with
  | named name => readRoot (.named name) span
  | member root path key => getMember (← container root path span) key span

/-- Assigns to the binding that a name means in the current frame. -/
def assignVariable (name : Text) (v : Value) : Eval AssignResult := fun s ↦
  let (result, h) := s.heap.assign s.frame name v
  .done result { s with heap := h }

/-- Assigns to a variable. -/
def writeVariable (name : Text) (v : Value) (span : Span) : Eval Unit := do
  match ← assignVariable name v with
  | .ok => return
  | .constViolation => raise .constantAssignment span
  | .notFound => raise (.notDefined name) span

/-- Stores a value into a target. -/
def write (t : Target) (v : Value) (span : Span) : Eval Unit := do
  match t with
  | named name => writeVariable name v span
  | member root path key => setMember (← container root path span) key v span

end Target

/-- What a member is reached from: a target, or a value that is none. -/
inductive Stem where
  | target (t : Target)
  | value (v : Value)

namespace Stem

/-- The member with a key. -/
def child : Stem → Text → Target
  | target t, key => t.child key
  | value v, key => .member (.value v) [] key

/-- The value at the root. -/
def holder : Stem → Holder
  | target t => t.holder
  | value v => .values [v]

end Stem

/-- Variables and members can be stored into. -/
def Expr.isTarget : Expr → Bool
  | .identifier .. | .member .. => true
  | _ => false

namespace Evaluator

open Eval

/-- Resolves what an expression stores into: first the root, then the keys from the root on. -/
def target (r : Evaluator) : Expr → Eval Target
  | .identifier name _ => pure (.named name)
  | .member object property _ _ => do
    let stem ←
      if object.isTarget then Stem.target <$> r.target object else Stem.value <$> r.expr object
    let key ← holding stem.holder (r.expr property)
    return stem.child (← textOf key)
  | e => structural (.unsupportedNode e.nodeType) e.span

end Evaluator

end EcmaTree
