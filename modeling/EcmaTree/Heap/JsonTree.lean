import EcmaTree.Heap.Basic
import EcmaTree.Json.Parser
import EcmaTree.Json.Printer

/-!
# Values as JSON documents

The document that a value stands for, and the value that a document builds. Inside itself an array
or an object stands for `null`, so every value has a document.
-/

namespace EcmaTree.Heap

/-- Undefined and functions, which an object passes over when it becomes a document. -/
def isOmitted : Value → Bool
  | .undefined | .function _ => true
  | _ => false

/-- The document of a value, given which arrays and objects it stands in. -/
def documentWithin (h : Heap) (arrays objects : List Nat) : Value → Json
  | .undefined | .null | .function _ => .null
  | .bool b => .bool b
  | .number n =>
    if n.isZero then .number (.zero false) else if n.isFinite then .number n else .null
  | .text t => .text t
  | .array id =>
    if _ha : id.index ∈ arrays then .null
    else
      match _hc : h.arrays.get? id.index with
      | none => .array []
      | some elements =>
        .array (elements.toList.map fun v ↦ h.documentWithin (id.index :: arrays) objects v)
  | .object id =>
    if _ho : id.index ∈ objects then .null
    else
      match _hc : h.objects.get? id.index with
      | none => .object []
      | some properties =>
        .object ((properties.toList.filter fun p ↦ !isOmitted p.2).map fun p ↦
          (p.1, h.documentWithin arrays (id.index :: objects) p.2))
termination_by h.arrays.unvisited arrays + h.objects.unvisited objects
decreasing_by
  · exact Nat.add_lt_add_right
      (Store.unvisited_cons_lt (Store.lt_size_of_get?_eq_some _hc) _ha) _
  · exact Nat.add_lt_add_left
      (Store.unvisited_cons_lt (Store.lt_size_of_get?_eq_some _hc) _ho) _

/-- The document of a value. Undefined, functions and numbers that are not finite are `null`. -/
def document (h : Heap) (v : Value) : Json := h.documentWithin [] [] v

/-- The JSON text of a value. -/
def jsonText (h : Heap) (v : Value) : Text := (h.document v).render

mutual

/-- Builds the value of a document. -/
def ofDocument (h : Heap) : Json → Value × Heap
  | .null => (.null, h)
  | .bool b => (.bool b, h)
  | .number n => (.number n, h)
  | .text t => (.text t, h)
  | .array items =>
    let (elements, h) := h.ofItems items #[]
    let (id, h) := h.newArray elements
    (.array id, h)
  | .object members =>
    let (properties, h) := h.ofMembers members .empty
    let (id, h) := h.newObject properties
    (.object id, h)

/-- Builds the values of documents behind the elements that are there already. -/
def ofItems (h : Heap) : List Json → Array Value → Array Value × Heap
  | [], elements => (elements, h)
  | item :: rest, elements =>
    let (v, h) := h.ofDocument item
    h.ofItems rest (elements.push v)

/-- Builds the values of members into the properties that are there already. -/
def ofMembers (h : Heap) : List (Text × Json) → Properties → Properties × Heap
  | [], properties => (properties, h)
  | (key, item) :: rest, properties =>
    let (v, h) := h.ofDocument item
    h.ofMembers rest (properties.insert key v)

end

end EcmaTree.Heap
