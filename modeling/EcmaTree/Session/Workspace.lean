import EcmaTree.Heap.Accounting
import EcmaTree.Heap.Collector
import EcmaTree.Heap.Scope
import EcmaTree.Heap.Snapshot
import EcmaTree.Session.ValueSpec

/-!
# Workspaces

A workspace is a heap in the hands of a host, without any interpreter. The host holds frames and
values under names. What it no longer holds goes away at the end of a step, and what was replaced
while a value was being made goes away at once. Only what refers to itself in a circle stays until a
collection.
-/

namespace EcmaTree

/-- What a host writes down for a completion. -/
inductive CompletionSpec where
  | normal (value : Option ValueSpec)
  | returned (value : ValueSpec)
  | broke (label : Option Text)
  | continued (label : Option Text)

/-- Makes the completion of a specification. -/
def CompletionSpec.build (scope : ValueSpec.Scope) : CompletionSpec → ValueSpec.Build Completion
  | normal none => pure (.normal none)
  | normal (some value) => do return .normal (some (← value.build scope []))
  | returned value => do return .returned (← value.build scope [])
  | broke label => pure (.broke label)
  | continued label => pure (.continued label)

/-- What a host does with a frame that it holds. -/
inductive FrameStep where
  /-- Holds a new frame below it under a name. -/
  | child (name : Text)
  /-- Holds a sibling with copies of its variables under a name. -/
  | sibling (name : Text)
  | define (name : Text) (value : ValueSpec) (kind : BindingKind)
  | assign (name : Text) (value : ValueSpec)
  /-- Asks for the value of a name. -/
  | get (name : Text)
  /-- Asks whether a name has a meaning. -/
  | has (name : Text)
  /-- Asks for a variable of the frame itself. -/
  | findLocal (name : Text)
  /-- Asks for a variable of the frame or an ancestor. -/
  | lookup (name : Text)
  | depth
  | bindings
  | setReceiver (value : ValueSpec)
  | receiver
  | setSignal (signal : CompletionSpec)
  | signal
  /-- Holds a function without code that holds the frame. It has the name it is held under. -/
  | closure (name : Text)

/-- What a host does with a heap. -/
inductive HeapStep where
  /-- Holds a new global frame under a name. -/
  | global (name : Text) (bindings : List (Text × ValueSpec))
  /-- Holds a new frame without parent under a name. -/
  | frame (name : Text)
  /-- Does something with the frame that is held under a name. -/
  | onFrame (frame : Text) (step : FrameStep)
  /-- Holds a value under a name. -/
  | keep (name : Text) (value : ValueSpec)
  /-- Gives a property of the object that is held under a name a value. -/
  | put (holder key : Text) (value : ValueSpec)
  /-- Appends an element to the array that is held under a name. -/
  | append (holder : Text) (value : ValueSpec)
  /-- Removes the contents of an object or array. -/
  | clear (holder : Text)
  /-- Holds a copy of an object or array under another name. -/
  | copy (holder name : Text)
  | show (name : Text)
  /-- Holds neither a frame nor a value under a name any longer. -/
  | drop (name : Text)
  | collect
  /-- Collects if it is due. -/
  | collectIfDue
  | setThreshold (n : Nat)
  | setAutomatic (on : Bool)
  | resetAccounting

/-- What a host is told of a step. -/
inductive HeapAnswer where
  | done
  | count (n : Nat)
  | flag (b : Bool)
  | value (v : Option Snapshot)
  | binding (b : Option BindingSnapshot)
  | bindings (bs : List BindingSnapshot)
  | assigned (result : AssignResult)
  | signal (c : Option CompletionSnapshot)
  /-- Nothing of the kind that the step needs is held under the name. -/
  | unknown

/-- A heap, the frames and values that the host holds under names, and the accounts of the
collector. -/
structure Workspace where
  heap : Heap
  frames : OrderedMap Text FrameId
  values : OrderedMap Text Value
  accounting : Accounting

namespace Workspace

/-- The workspace in which nothing was ever made. -/
def empty : Workspace := ⟨.empty, .empty, .empty, .start⟩

/-- The workspace with another heap. -/
def withHeap (w : Workspace) (h : Heap) : Workspace := { w with heap := h }

/-- What the host holds of the heap, once for every name. -/
def owners (w : Workspace) : List HeapRef :=
  w.frames.values.map HeapRef.frame ++ w.values.values.filterMap Value.ref?

/-- What names mean in the specifications of a step. A value that is replaced is released. -/
def scope (w : Workspace) : ValueSpec.Scope :=
  ⟨w.values.get?, fun _ ↦ none, fun inUse h ↦ h.release (w.owners ++ inUse)⟩

/-- Makes values. -/
def make {α : Type} (w : Workspace) (m : ValueSpec.Scope → ValueSpec.Build α) : α × Workspace :=
  let (a, h, accounting) := ValueSpec.make w.heap w.accounting (m w.scope)
  (a, { w with heap := h, accounting := accounting })

/-- Makes something in the heap, and books it. -/
def create {α : Type} (w : Workspace) (f : Heap → α × Heap) : α × Workspace :=
  let (a, h) := f w.heap
  (a, { w with heap := h, accounting := w.accounting.made 1 })

/-- Makes a frame and holds it under a name. -/
def holdFrame (w : Workspace) (name : Text) (f : Heap → FrameId × Heap) : HeapAnswer × Workspace :=
  let (id, w) := w.create f
  (.done, { w with frames := w.frames.insert name id })

/-- Holds a value under a name. -/
def hold (w : Workspace) (name : Text) (v : Value) : HeapAnswer × Workspace :=
  (.done, { w with values := w.values.insert name v })

/-- Does something with a frame. -/
def onFrame (w : Workspace) (id : FrameId) : FrameStep → HeapAnswer × Workspace
  | .child name => w.holdFrame name (·.newChild id)
  | .sibling name => w.holdFrame name (·.newSibling id)
  | .define name value kind =>
    let (v, w) := w.make (value.build · [])
    let w := w.withHeap (w.heap.define id name v kind)
    (.binding (some (w.heap.bindingSnapshot ⟨name, kind, v⟩)), w)
  | .assign name value =>
    let (v, w) := w.make (value.build · [])
    let (result, h) := w.heap.assign id name v
    (.assigned result, w.withHeap h)
  | .get name => (.value ((w.heap.lookup id name).map fun b ↦ w.heap.snapshot b.value), w)
  | .has name => (.flag (w.heap.lookup id name).isSome, w)
  | .findLocal name => (.binding ((w.heap.findLocal? id name).map w.heap.bindingSnapshot), w)
  | .lookup name => (.binding ((w.heap.lookup id name).map w.heap.bindingSnapshot), w)
  | .depth => (.count (w.heap.depth id), w)
  | .bindings => (.bindings (w.heap.bindingSnapshots id), w)
  | .setReceiver value =>
    let (v, w) := w.make (value.build · [])
    (.done, w.withHeap (w.heap.modifyFrame id fun f ↦ { f with receiver := some v }))
  | .receiver => (.value (some (w.heap.snapshot (w.heap.receiver id))), w)
  | .setSignal signal =>
    let (c, w) := w.make signal.build
    (.done, w.withHeap (w.heap.setSignal id c))
  | .signal =>
    (.signal (((w.heap.frame? id).bind Frame.signal).map w.heap.completionSnapshot), w)
  | .closure name =>
    let (f, w) := w.create (·.newFunction ⟨name, .captured id⟩)
    w.hold name (.function (.cell f))

/-- Collects. -/
def collect (w : Workspace) : HeapAnswer × Workspace :=
  let (removed, h) := w.heap.collect (w.heap.uses w.owners)
  (.count removed, { w with heap := h, accounting := w.accounting.collectionEnded removed })

/-- Removes the contents of an object or array. -/
def clear (w : Workspace) : Option Value → HeapAnswer × Workspace
  | some (.object id) => (.done, w.withHeap (w.heap.modifyObject id fun _ ↦ .empty))
  | some (.array id) => (.done, w.withHeap (w.heap.modifyArray id fun _ ↦ #[]))
  | _ => (.unknown, w)

/-- Holds a copy of an object or array under a name. -/
def copy (w : Workspace) (name : Text) : Option Value → HeapAnswer × Workspace
  | some (.object id) =>
    let (new, w) := w.create fun h ↦ h.newObject (h.properties id)
    w.hold name (.object new)
  | some (.array id) =>
    let (new, w) := w.create fun h ↦ h.newArray (h.elements id)
    w.hold name (.array new)
  | _ => (.unknown, w)

/-- What a step does, without what follows every step. -/
def perform (w : Workspace) : HeapStep → HeapAnswer × Workspace
  | .global name bindings =>
    let (values, w) := w.make (ValueSpec.buildBindings · [] bindings)
    w.holdFrame name (·.newGlobal values)
  | .frame name => w.holdFrame name (·.newFrame (.ofParent none))
  | .onFrame frame step =>
    match w.frames.get? frame with
    | some id => w.onFrame id step
    | none => (.unknown, w)
  | .keep name value =>
    let (v, w) := w.make (value.build · [])
    w.hold name v
  | .put holder key value =>
    match w.values.get? holder with
    | some (.object id) =>
      let (v, w) := w.make (value.build · [])
      (.done, w.withHeap (w.heap.modifyObject id (·.insert key v)))
    | _ => (.unknown, w)
  | .append holder value =>
    match w.values.get? holder with
    | some (.array id) =>
      let (v, w) := w.make (value.build · [])
      (.done, w.withHeap (w.heap.modifyArray id (·.push v)))
    | _ => (.unknown, w)
  | .clear holder => w.clear (w.values.get? holder)
  | .copy holder name => w.copy name (w.values.get? holder)
  | .show name =>
    match w.values.get? name with
    | some v => (.value (some (w.heap.snapshot v)), w)
    | none => (.unknown, w)
  | .drop name => (.done, { w with frames := w.frames.erase name, values := w.values.erase name })
  | .collect => w.collect
  | .collectIfDue => if w.accounting.isDue then (.done, w.collect.2) else (.done, w)
  | .setThreshold n => (.count n, { w with accounting := { w.accounting with threshold := n } })
  | .setAutomatic on => (.flag on, { w with accounting := { w.accounting with automatic := on } })
  | .resetAccounting => (.done, { w with accounting := w.accounting.reset })

/-- Removes what nobody holds any more, and books it. -/
def settle (w : Workspace) : Workspace :=
  let left := w.heap.release w.owners
  { w with
    heap := left
    accounting := w.accounting.gone (w.heap.cells.length - left.cells.length) }

/-- Takes a step. -/
def step (w : Workspace) (step : HeapStep) : HeapAnswer × Workspace :=
  let (answer, w) := w.perform step
  (answer, w.settle)

end Workspace

end EcmaTree
