import EcmaTree.Heap.Basic
import Std.Data.TreeMap

/-!
# Snapshots

A snapshot shows values with everything they refer to. Arrays, objects and functions are numbered in
the order in which a walk first meets them, depth first, and a later meeting shows the number alone.
-/

namespace EcmaTree

/-- What kind of function a snapshot shows. -/
inductive FunctionForm where
  | native | arrow | function
deriving DecidableEq, Repr

/-- A value with what it refers to. -/
inductive Snapshot where
  | undefined
  | null
  | bool (value : Bool)
  | number (value : Number)
  | text (value : Text)
  | array (id : Nat) (elements : List Snapshot)
  | object (id : Nat) (members : List (Text × Snapshot))
  | function (id : Nat) (name : Text) (form : FunctionForm)
  /-- What has been shown before under a number. -/
  | seen (id : Nat)

instance : Inhabited Snapshot := ⟨.undefined⟩

/-- What a snapshot gives a number. -/
inductive Shown where
  | object (id : ObjectId)
  | array (id : ArrayId)
  | function (ref : FunctionRef)
deriving DecidableEq

namespace Shown

/-- A key for each of them. -/
def key : Shown → Nat
  | object id => 4 * id.index
  | array id => 4 * id.index + 1
  | function (.cell id) => 4 * id.index + 2
  | function (.builtin method) => 4 * method.index + 3

/-- Different ones have different keys. -/
theorem key_injective {a b : Shown} (h : a.key = b.key) : a = b := by
  rcases a with ⟨⟨i⟩⟩ | ⟨⟨i⟩⟩ | ⟨⟨⟨i⟩⟩ | m⟩ <;> rcases b with ⟨⟨j⟩⟩ | ⟨⟨j⟩⟩ | ⟨⟨⟨j⟩⟩ | m'⟩ <;>
    simp only [key] at h <;>
    first
      | (exfalso; omega)
      | (obtain rfl : i = j := (by omega); rfl)
      | (obtain rfl : m = m' := Builtin.index_inj (by omega); rfl)

end Shown

/-- The numbers that were given so far, by the keys of what has them. -/
abbrev Numbering := Std.TreeMap Nat Nat

/-- What meeting something leads to: it gets the next number, or it has one already. -/
inductive Meeting where
  | first (number : Nat)
  | again (number : Nat)

/-- Meets something. -/
def Numbering.meet (s : Shown) : StateM Numbering Meeting := fun numbers ↦
  match numbers[s.key]? with
  | some k => (.again k, numbers)
  | none => (.first numbers.size, numbers.insert s.key numbers.size)

namespace Heap

/-- The form of a function. -/
def functionForm (h : Heap) : FunctionRef → FunctionForm
  | .builtin _ => .native
  | .cell id =>
    match (h.function? id).map Function.behaviour with
    | some (.host _) => .native
    | some (.closure code _) => if code.kind = .arrow then .arrow else .function
    | some (.captured _) | none => .function

/-- Shows a value, given which references were met before and how each was numbered. The first
argument bounds the depth, and no walk is deeper than there are arrays and objects. -/
def walk (h : Heap) : Nat → Value → StateM Numbering Snapshot
  | 0, _ => pure .undefined
  | depth + 1, v => do
    match v with
    | .undefined => pure .undefined
    | .null => pure .null
    | .bool b => pure (.bool b)
    | .number n => pure (.number n)
    | .text t => pure (.text t)
    | .array id =>
      match ← Numbering.meet (.array id) with
      | .again k => pure (.seen k)
      | .first k => return .array k (← (h.elements id).toList.mapM (h.walk depth))
    | .object id =>
      match ← Numbering.meet (.object id) with
      | .again k => pure (.seen k)
      | .first k =>
        return .object k
          (← (h.properties id).toList.mapM fun p ↦ return (p.1, ← h.walk depth p.2))
    | .function f =>
      match ← Numbering.meet (.function f) with
      | .again k => pure (.seen k)
      | .first k => pure (.function k (h.functionName f) (h.functionForm f))

/-- The snapshots of several values under one numbering. -/
def snapshots (h : Heap) (vs : List Value) : List Snapshot :=
  (vs.mapM (h.walk (h.arrays.size + h.objects.size + 1)) |>.run ∅).1

/-- The snapshot of a value. -/
def snapshot (h : Heap) (v : Value) : Snapshot :=
  (h.walk (h.arrays.size + h.objects.size + 1) v |>.run ∅).1

end Heap

/-- A variable with a snapshot of its value. -/
structure BindingSnapshot where
  name : Text
  kind : BindingKind
  value : Snapshot

/-- A completion with a snapshot of the value that it carries. -/
structure CompletionSnapshot where
  completion : Completion
  value : Option Snapshot

namespace Heap

/-- The snapshot of a variable. -/
def bindingSnapshot (h : Heap) (b : Binding) : BindingSnapshot :=
  ⟨b.name, b.kind, h.snapshot b.value⟩

/-- The snapshot of a completion. -/
def completionSnapshot (h : Heap) (c : Completion) : CompletionSnapshot :=
  ⟨c, c.value?.map h.snapshot⟩

/-- The snapshots of the variables of a frame, the oldest first. -/
def bindingSnapshots (h : Heap) (id : FrameId) : List BindingSnapshot :=
  match h.frame? id with
  | some f => f.bindings.reverse.map h.bindingSnapshot
  | none => []

end Heap

end EcmaTree
