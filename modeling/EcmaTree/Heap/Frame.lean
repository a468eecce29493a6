import EcmaTree.Heap.Value

/-!
# Completions, bindings and frames

How a statement ends, and the frames of variables that statements run in.
-/

namespace EcmaTree

/-- How a statement ends when nothing is thrown. A break or continue may name the statement that it
leaves by a label. -/
inductive Completion where
  | normal (value : Option Value)
  | returned (value : Value)
  | broke (label : Option Text)
  | continued (label : Option Text)
deriving DecidableEq

namespace Completion

/-- Any end but a normal one. -/
def isAbrupt : Completion → Bool
  | normal _ => false
  | _ => true

/-- The value that a completion carries. -/
def value? : Completion → Option Value
  | normal v => v
  | returned v => some v
  | broke _ | continued _ => none

/-- The label that a completion carries. -/
def label? : Completion → Option Text
  | broke l | continued l => l
  | normal _ | returned _ => none

/-- A construct that carries `labels` is meant: the completion names one of them, or none at all. -/
def targets (c : Completion) (labels : List Text) : Bool :=
  match c.label? with
  | none => true
  | some l => labels.contains l

end Completion

/-- A label as it is written; an empty name is no label. -/
def labelOfText (t : Text) : Option Text := if t.isEmpty then none else some t

/-- How a variable was declared. -/
inductive BindingKind where
  | var | let | const | function
deriving DecidableEq, Repr

namespace BindingKind

/-- All kinds of bindings. -/
def all : List BindingKind := [.var, .let, .const, .function]

/-- The name of a kind. -/
def name : BindingKind → String
  | var => "var" | .let => "let" | const => "const" | function => "function"

/-- The kind with a name. -/
def ofText? (t : Text) : Option BindingKind := all.find? fun k ↦ Text.ofString k.name == t

end BindingKind

/-- A variable. -/
structure Binding where
  name : Text
  kind : BindingKind
  value : Value
deriving DecidableEq

/-- The outcome of an assignment to a name. -/
inductive AssignResult where
  | ok | notFound | constViolation
deriving DecidableEq, Repr

/-- A frame of variables, the newest binding first. A frame that a function call made carries the
call's receiver, and one in which a statement ended abruptly keeps that completion. -/
structure Frame where
  parent : Option FrameId
  bindings : List Binding
  receiver : Option Value
  signal : Option Completion
deriving DecidableEq

namespace Frame

/-- A frame without variables. -/
def ofParent (parent : Option FrameId) : Frame := ⟨parent, [], none, none⟩

/-- The newest binding of a name. -/
def find? (f : Frame) (name : Text) : Option Binding := f.bindings.find? fun b ↦ b.name == name

/-- The frame with a further binding, which hides an older one of the same name. -/
def define (f : Frame) (b : Binding) : Frame := { f with bindings := b :: f.bindings }

/-- The bindings after the first one of a name got a value. -/
def assignFirst (name : Text) (value : Value) : List Binding → List Binding
  | [] => []
  | b :: rest =>
    if b.name == name then { b with value := value } :: rest
    else b :: assignFirst name value rest

/-- The frame after the newest binding of a name got a value. -/
def assign (f : Frame) (name : Text) (value : Value) : Frame :=
  { f with bindings := assignFirst name value f.bindings }

/-- A sibling with the same variables and receiver. What ended abruptly in the one frame did not
do so in the other. -/
def sibling (f : Frame) : Frame := { f with signal := none }

end Frame

end EcmaTree
