import EcmaTree.Heap.Basic

/-!
# Scopes

The frames a name is looked up in: a frame and its ancestors, innermost first. The parent of a frame
is always an older frame, so every chain of frames ends.
-/

namespace EcmaTree.Heap

/-- A frame and its ancestors, innermost first. -/
def chain (h : Heap) (id : FrameId) : List FrameId :=
  match h.frame? id with
  | none => []
  | some f =>
    match f.parent with
    | none => [id]
    | some parent => if parent.index < id.index then id :: h.chain parent else [id]
termination_by id.index

/-- The newest binding of a name in one frame. -/
def findLocal? (h : Heap) (id : FrameId) (name : Text) : Option Binding :=
  (h.frame? id).bind (·.find? name)

/-- The innermost frame that has a binding of a name. -/
def owner? (h : Heap) (id : FrameId) (name : Text) : Option FrameId :=
  (h.chain id).find? fun f ↦ (h.findLocal? f name).isSome

/-- The binding that a name means in a frame. -/
def lookup (h : Heap) (id : FrameId) (name : Text) : Option Binding :=
  (h.chain id).findSome? (h.findLocal? · name)

/-- Number of ancestors of a frame. -/
def depth (h : Heap) (id : FrameId) : Nat := (h.chain id).length - 1

/-- The receiver that a frame sees: that of the innermost frame which has one. -/
def receiver (h : Heap) (id : FrameId) : Value :=
  ((h.chain id).findSome? fun f ↦ (h.frame? f).bind Frame.receiver).getD .undefined

/-- Adds a binding to a frame. -/
def define (h : Heap) (id : FrameId) (name : Text) (value : Value) (kind : BindingKind) : Heap :=
  h.modifyFrame id (·.define ⟨name, kind, value⟩)

/-- Assigns to the binding that a name means in a frame, unless it is constant. -/
def assign (h : Heap) (id : FrameId) (name : Text) (value : Value) : AssignResult × Heap :=
  match h.owner? id name with
  | none => (.notFound, h)
  | some owner =>
    match h.findLocal? owner name with
    | none => (.notFound, h)
    | some b =>
      if b.kind = .const then (.constViolation, h)
      else (.ok, h.modifyFrame owner (·.assign name value))

/-- Keeps in a frame how a statement of it ended. -/
def setSignal (h : Heap) (id : FrameId) (c : Completion) : Heap :=
  h.modifyFrame id fun f ↦ { f with signal := some c }

/-- Makes a frame below another. -/
def newChild (h : Heap) (id : FrameId) : FrameId × Heap := h.newFrame (.ofParent (some id))

/-- Makes a sibling of a frame, with copies of its variables. -/
def newSibling (h : Heap) (id : FrameId) : FrameId × Heap :=
  h.newFrame ((h.frame? id).map Frame.sibling |>.getD (.ofParent none))

/-- Makes a frame without parent that holds the names every program knows, and then the given
ones. -/
def newGlobal (h : Heap) (bindings : List (Text × Value)) : FrameId × Heap :=
  let known : List Binding :=
    [⟨"undefined", .const, .undefined⟩, ⟨"NaN", .const, .number .nan⟩,
      ⟨"Infinity", .const, .number (.infinity false)⟩]
  let given : List Binding := bindings.map fun (name, value) ↦ ⟨name, .var, value⟩
  h.newFrame { Frame.ofParent none with bindings := (known ++ given).reverse }

end EcmaTree.Heap
