import EcmaTree.Heap.Basic

/-!
# References

Which things of the heap refer to which. A reference counts once for every place that holds it.
-/

namespace EcmaTree

/-- Identifies a thing of the heap, of whichever kind. -/
inductive HeapRef where
  | frame (id : FrameId)
  | object (id : ObjectId)
  | array (id : ArrayId)
  | function (id : FunctionId)
deriving DecidableEq, Repr

/-- What a value refers to. A builtin method is no thing of the heap. -/
def Value.ref? : Value → Option HeapRef
  | object id => some (.object id)
  | array id => some (.array id)
  | function (.cell id) => some (.function id)
  | function (.builtin _) | undefined | null | bool _ | number _ | text _ => none

/-- Something outside the heap that holds parts of it. -/
inductive Holder where
  | frame (id : FrameId)
  | values (vs : List Value)
  | elements (es : Array Value)
  | properties (ps : Properties)

/-- What a holder refers to, as often as it holds it. -/
def Holder.references : Holder → List HeapRef
  | frame id => [.frame id]
  | values vs => vs.filterMap Value.ref?
  | elements es => es.toList.filterMap Value.ref?
  | properties ps => ps.values.filterMap Value.ref?

namespace HeapRef

/-- A number for each reference. -/
def key : HeapRef → Nat
  | frame id => 4 * id.index
  | object id => 4 * id.index + 1
  | array id => 4 * id.index + 2
  | function id => 4 * id.index + 3

/-- Different references have different numbers. -/
theorem key_inj {a b : HeapRef} (h : a.key = b.key) : a = b := by
  rcases a with ⟨⟨i⟩⟩ | ⟨⟨i⟩⟩ | ⟨⟨i⟩⟩ | ⟨⟨i⟩⟩ <;>
    rcases b with ⟨⟨j⟩⟩ | ⟨⟨j⟩⟩ | ⟨⟨j⟩⟩ | ⟨⟨j⟩⟩ <;>
    simp only [key] at h <;> first | (exfalso; omega) | (obtain rfl : i = j := (by omega); rfl)

end HeapRef

/-- What a frame refers to. -/
def Frame.references (f : Frame) : List HeapRef :=
  (f.parent.map HeapRef.frame).toList ++ (f.bindings.filterMap fun b ↦ b.value.ref?) ++
    (f.receiver.bind Value.ref?).toList ++
    ((f.signal.bind Completion.value?).bind Value.ref?).toList

/-- What a function refers to. -/
def Function.references (f : Function) : List HeapRef :=
  match f.behaviour with
  | .closure _ frame | .captured frame => [.frame frame]
  | .host _ => []

namespace Heap

/-- What a thing of the heap refers to. What is not there refers to nothing. -/
def references (h : Heap) : HeapRef → List HeapRef
  | .frame id => ((h.frame? id).map Frame.references).getD []
  | .object id => (h.properties id).values.filterMap Value.ref?
  | .array id => (h.elements id).toList.filterMap Value.ref?
  | .function id => ((h.function? id).map Function.references).getD []

/-- Everything that is in the heap. -/
def cells (h : Heap) : List HeapRef :=
  h.frames.indices.map (fun i ↦ .frame ⟨i⟩) ++ h.objects.indices.map (fun i ↦ .object ⟨i⟩) ++
    h.arrays.indices.map (fun i ↦ .array ⟨i⟩) ++ h.functions.indices.map (fun i ↦ .function ⟨i⟩)

/-- All references that things of the heap hold, as often as they are held. -/
def innerReferences (h : Heap) : List HeapRef := h.cells.flatMap h.references

/-- How many things were ever put into the heap. -/
def created (h : Heap) : Nat :=
  h.frames.size + h.objects.size + h.arrays.size + h.functions.size

/-- Keeps the chosen things and removes all others. -/
def restrict (h : Heap) (keep : HeapRef → Bool) : Heap :=
  { frames := h.frames.restrict fun i ↦ keep (.frame ⟨i⟩)
    objects := h.objects.restrict fun i ↦ keep (.object ⟨i⟩)
    arrays := h.arrays.restrict fun i ↦ keep (.array ⟨i⟩)
    functions := h.functions.restrict fun i ↦ keep (.function ⟨i⟩) }

/-- What is left are the chosen things, in their order. -/
theorem cells_restrict (h : Heap) (keep : HeapRef → Bool) :
    (h.restrict keep).cells = h.cells.filter keep := by
  simp [cells, restrict, Store.indices_restrict, List.filter_map, Function.comp_def]

end Heap

end EcmaTree
