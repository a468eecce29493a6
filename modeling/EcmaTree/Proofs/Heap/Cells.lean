import EcmaTree.Heap.Collector
import EcmaTree.Heap.Scope

/-!
# Cells

One view of the heap for all its kinds of things: what is stored under a reference. Every operation
on the heap has a law for this view.
-/

namespace EcmaTree

/-- A thing of the heap, of whichever kind. -/
inductive Cell where
  | frame (f : Frame)
  | object (ps : Properties)
  | array (es : Array Value)
  | function (f : Function)

/-- What a thing refers to. -/
def Cell.references : Cell → List HeapRef
  | frame f => f.references
  | object ps => ps.values.filterMap Value.ref?
  | array es => es.toList.filterMap Value.ref?
  | function f => f.references

namespace Heap

/-- What is stored under a reference. -/
def cell? (h : Heap) : HeapRef → Option Cell
  | .frame id => (h.frame? id).map .frame
  | .object id => (h.objects.get? id.index).map .object
  | .array id => (h.arrays.get? id.index).map .array
  | .function id => (h.function? id).map .function

theorem cell?_frame (h : Heap) (id : FrameId) :
    h.cell? (.frame id) = (h.frame? id).map .frame := rfl

theorem cell?_object (h : Heap) (id : ObjectId) :
    h.cell? (.object id) = (h.objects.get? id.index).map .object := rfl

theorem cell?_array (h : Heap) (id : ArrayId) :
    h.cell? (.array id) = (h.arrays.get? id.index).map .array := rfl

theorem cell?_function (h : Heap) (id : FunctionId) :
    h.cell? (.function id) = (h.function? id).map .function := rfl

theorem arrays_eq_of_cell?_eq {h h' : Heap} {id : ArrayId}
    (hcell : h'.cell? (.array id) = h.cell? (.array id)) :
    h'.arrays.get? id.index = h.arrays.get? id.index :=
  (Option.map_inj_right fun _ _ ↦ Cell.array.inj).mp hcell

theorem elements_eq_of_cell?_eq {h h' : Heap} {id : ArrayId}
    (hcell : h'.cell? (.array id) = h.cell? (.array id)) : h'.elements id = h.elements id := by
  rw [elements, elements, arrays_eq_of_cell?_eq hcell]

/-- Nothing refers to anything but what is stored. -/
theorem references_eq (h : Heap) (r : HeapRef) :
    h.references r = ((h.cell? r).map Cell.references).getD [] := by
  cases r with
  | frame id => cases hc : h.frame? id <;> simp [references, cell?, hc, Cell.references]
  | object id =>
    cases hc : h.objects.get? id.index <;>
      simp [references, cell?, properties, hc, Cell.references, OrderedMap.values,
        OrderedMap.toList, OrderedMap.empty]
  | array id =>
    cases hc : h.arrays.get? id.index <;>
      simp [references, cell?, elements, hc, Cell.references]
  | function id => cases hc : h.function? id <;> simp [references, cell?, hc, Cell.references]

theorem references_of_cell? {h : Heap} {r : HeapRef} {c : Cell} (hc : h.cell? r = some c) :
    h.references r = c.references := by
  rw [references_eq, hc]
  rfl

theorem references_of_none {h : Heap} {r : HeapRef} (hc : h.cell? r = none) :
    h.references r = [] := by
  rw [references_eq, hc]
  rfl

theorem holds_eq (h : Heap) (r : HeapRef) : h.holds r = (h.cell? r).isSome := by
  cases r <;> simp [holds, cell?, frame?, function?]

/-- Only what was chosen is still there, and it is unchanged. -/
theorem cell?_restrict (h : Heap) (keep : HeapRef → Bool) (r : HeapRef) :
    (h.restrict keep).cell? r = if keep r then h.cell? r else none := by
  rcases r with ⟨⟨i⟩⟩ | ⟨⟨i⟩⟩ | ⟨⟨i⟩⟩ | ⟨⟨i⟩⟩ <;>
    simp only [cell?, restrict, frame?, function?, Store.get?_restrict] <;> split <;> rfl

/-! ### What the operations store -/

theorem cell?_newFrame (h : Heap) (f : Frame) (r : HeapRef) :
    (h.newFrame f).2.cell? r =
      if r = .frame (h.newFrame f).1 then some (.frame f) else h.cell? r := by
  rcases r with ⟨⟨i⟩⟩ | ⟨⟨i⟩⟩ | ⟨⟨i⟩⟩ | ⟨⟨i⟩⟩ <;>
    simp [cell?, newFrame, frame?, function?, Store.get?_push]
  split <;> rfl

theorem cell?_newObject (h : Heap) (ps : Properties) (r : HeapRef) :
    (h.newObject ps).2.cell? r =
      if r = .object (h.newObject ps).1 then some (.object ps) else h.cell? r := by
  rcases r with ⟨⟨i⟩⟩ | ⟨⟨i⟩⟩ | ⟨⟨i⟩⟩ | ⟨⟨i⟩⟩ <;>
    simp [cell?, newObject, frame?, function?, Store.get?_push]
  split <;> rfl

theorem cell?_newArray (h : Heap) (es : Array Value) (r : HeapRef) :
    (h.newArray es).2.cell? r =
      if r = .array (h.newArray es).1 then some (.array es) else h.cell? r := by
  rcases r with ⟨⟨i⟩⟩ | ⟨⟨i⟩⟩ | ⟨⟨i⟩⟩ | ⟨⟨i⟩⟩ <;>
    simp [cell?, newArray, frame?, function?, Store.get?_push]
  split <;> rfl

theorem cell?_newFunction (h : Heap) (f : Function) (r : HeapRef) :
    (h.newFunction f).2.cell? r =
      if r = .function (h.newFunction f).1 then some (.function f) else h.cell? r := by
  rcases r with ⟨⟨i⟩⟩ | ⟨⟨i⟩⟩ | ⟨⟨i⟩⟩ | ⟨⟨i⟩⟩ <;>
    simp [cell?, newFunction, frame?, function?, Store.get?_push]
  split <;> rfl

theorem frame?_modifyFrame (h : Heap) (changed id : FrameId) (f : Frame → Frame) :
    (h.modifyFrame changed f).frame? id =
      if changed = id then (h.frame? id).map f else h.frame? id := by
  rw [frame?, modifyFrame, Store.get?_modify, frame?]
  have hindex : changed.index = id.index ↔ changed = id :=
    ⟨congrArg FrameId.mk, congrArg FrameId.index⟩
  simp only [hindex]

theorem cell?_modifyFrame (h : Heap) (id : FrameId) (g : Frame → Frame) (r : HeapRef) :
    (h.modifyFrame id g).cell? r =
      if r = .frame id then (h.frame? id).map (.frame ∘ g) else h.cell? r := by
  rcases r with ⟨⟨i⟩⟩ | ⟨⟨i⟩⟩ | ⟨⟨i⟩⟩ | ⟨⟨i⟩⟩ <;> rcases id with ⟨j⟩ <;>
    simp [cell?, modifyFrame, frame?, function?, Store.get?_modify, eq_comm]
  split
  · next e =>
    subst e
    simp
  · rfl

theorem cell?_modifyObject (h : Heap) (id : ObjectId) (g : Properties → Properties) (r : HeapRef) :
    (h.modifyObject id g).cell? r =
      if r = .object id then (h.objects.get? id.index).map (.object ∘ g) else h.cell? r := by
  rcases r with ⟨⟨i⟩⟩ | ⟨⟨i⟩⟩ | ⟨⟨i⟩⟩ | ⟨⟨i⟩⟩ <;> rcases id with ⟨j⟩ <;>
    simp [cell?, modifyObject, frame?, function?, Store.get?_modify, eq_comm]
  split
  · next e =>
    subst e
    simp
  · rfl

theorem cell?_modifyArray (h : Heap) (id : ArrayId) (g : Array Value → Array Value)
    (r : HeapRef) :
    (h.modifyArray id g).cell? r =
      if r = .array id then (h.arrays.get? id.index).map (.array ∘ g) else h.cell? r := by
  rcases r with ⟨⟨i⟩⟩ | ⟨⟨i⟩⟩ | ⟨⟨i⟩⟩ | ⟨⟨i⟩⟩ <;> rcases id with ⟨j⟩ <;>
    simp [cell?, modifyArray, frame?, function?, Store.get?_modify, eq_comm]
  split
  · next e =>
    subst e
    simp
  · rfl

theorem cell?_modifyFunction (h : Heap) (id : FunctionId) (g : Function → Function)
    (r : HeapRef) :
    (h.modifyFunction id g).cell? r =
      if r = .function id then (h.function? id).map (.function ∘ g) else h.cell? r := by
  rcases r with ⟨⟨i⟩⟩ | ⟨⟨i⟩⟩ | ⟨⟨i⟩⟩ | ⟨⟨i⟩⟩ <;> rcases id with ⟨j⟩ <;>
    simp [cell?, modifyFunction, frame?, function?, Store.get?_modify, eq_comm]
  split
  · next e =>
    subst e
    simp
  · rfl

end Heap

end EcmaTree
