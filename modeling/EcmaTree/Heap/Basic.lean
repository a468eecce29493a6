import EcmaTree.Heap.Frame
import EcmaTree.Heap.Store
import EcmaTree.OrderedMap
import EcmaTree.Syntax.Tree
import EcmaTree.Text.Order

/-!
# The heap

Frames, objects, arrays and functions, each kind in a store of its own. Reading what is not there
gives the empty thing of its kind, and writing to it does nothing, so every operation is total.
-/

namespace EcmaTree

/-- What a function does when it is called. -/
inductive Behaviour where
  /-- Runs its code in a new frame below the frame it was made in. -/
  | closure (code : FunctionNode) (frame : FrameId)
  /-- Holds a frame and has no code. -/
  | captured (frame : FrameId)
  /-- Calls the host. -/
  | host (function : HostFunction)

/-- A function of the heap. -/
structure Function where
  name : Text
  behaviour : Behaviour

/-- The properties of an object in their order. -/
abbrev Properties := OrderedMap Text Value

/-- Everything that values and frames refer to. -/
structure Heap where
  frames : Store Frame
  objects : Store Properties
  arrays : Store (Array Value)
  functions : Store Function

namespace Heap

/-- The heap in which nothing was ever made. -/
def empty : Heap := ⟨.empty, .empty, .empty, .empty⟩

instance : Inhabited Heap := ⟨empty⟩

/-- Makes a frame. -/
def newFrame (h : Heap) (f : Frame) : FrameId × Heap :=
  (⟨h.frames.size⟩, { h with frames := h.frames.push f })

/-- Makes an object. -/
def newObject (h : Heap) (properties : Properties) : ObjectId × Heap :=
  (⟨h.objects.size⟩, { h with objects := h.objects.push properties })

/-- Makes an array. -/
def newArray (h : Heap) (elements : Array Value) : ArrayId × Heap :=
  (⟨h.arrays.size⟩, { h with arrays := h.arrays.push elements })

/-- Makes a function. -/
def newFunction (h : Heap) (f : Function) : FunctionId × Heap :=
  (⟨h.functions.size⟩, { h with functions := h.functions.push f })

/-- The frame with an identifier. -/
def frame? (h : Heap) (id : FrameId) : Option Frame := h.frames.get? id.index

/-- The properties of an object. -/
def properties (h : Heap) (id : ObjectId) : Properties := (h.objects.get? id.index).getD .empty

/-- The elements of an array. -/
def elements (h : Heap) (id : ArrayId) : Array Value := (h.arrays.get? id.index).getD #[]

/-- The function with an identifier. -/
def function? (h : Heap) (id : FunctionId) : Option Function := h.functions.get? id.index

/-- Changes a frame. -/
def modifyFrame (h : Heap) (id : FrameId) (f : Frame → Frame) : Heap :=
  { h with frames := h.frames.modify id.index f }

/-- Changes the properties of an object. -/
def modifyObject (h : Heap) (id : ObjectId) (f : Properties → Properties) : Heap :=
  { h with objects := h.objects.modify id.index f }

/-- Changes the elements of an array. -/
def modifyArray (h : Heap) (id : ArrayId) (f : Array Value → Array Value) : Heap :=
  { h with arrays := h.arrays.modify id.index f }

/-- Changes a function. -/
def modifyFunction (h : Heap) (id : FunctionId) (f : Function → Function) : Heap :=
  { h with functions := h.functions.modify id.index f }

/-- The name of a function. -/
def functionName (h : Heap) : FunctionRef → Text
  | .builtin method => method.name
  | .cell id => ((h.function? id).map Function.name).getD .empty

/-- A property of an object; undefined when the object has none of that name. -/
def property (h : Heap) (id : ObjectId) (key : Text) : Value :=
  ((h.properties id).get? key).getD .undefined

/-- Names a function that has no name yet. -/
def nameFunction (h : Heap) (id : FunctionId) (name : Text) : Heap :=
  h.modifyFunction id fun f ↦ if f.name.isEmpty then { f with name := name } else f

end Heap

end EcmaTree
