import EcmaTree.Proofs.Assignments
import EcmaTree.Proofs.Heap.Soundness
import EcmaTree.Proofs.Heap.Texts

/-!
# Values that are all there

What a value leads to is in the heap, in every state that a session comes to. Such a value keeps its
text and its number when things are added to the heap.
-/

namespace EcmaTree

namespace Heap

/-- Everything that a value leads to is in the heap. -/
def Contains (h : Heap) (v : Value) : Prop :=
  ∀ r, h.Reachable v.ref?.toList r → h.holds r = true

variable {h h' : Heap} {v : Value} {id : ArrayId}

/-- A value that refers to nothing leads nowhere. -/
theorem contains_of_none (hv : v.ref? = none) : h.Contains v := by
  intro r hr
  rw [hv] at hr
  have hnowhere : False := by
    apply hr.closed (P := fun _ ↦ False)
    · exact fun _ ↦ List.not_mem_nil
    · exact fun _ h ↦ h.elim
  exact hnowhere.elim

/-- In a sound heap it is so for every value that can be reached. -/
theorem Sound.contains {roots : List HeapRef} (hs : h.Sound roots)
    (hv : ∀ r ∈ v.ref?, h.Reachable roots r) : h.Contains v := by
  intro r hr
  apply hs.holds
  apply hr.trans
  intro r hr
  exact hv r (Option.mem_toList.mp hr)

theorem Contains.holds (hv : h.Contains v) {r : HeapRef} (hr : v.ref? = some r) :
    h.holds r = true := by
  apply hv
  rw [hr]
  exact .root (List.mem_singleton.mpr rfl)

theorem Contains.element (hid : h.Contains (.array id)) (hv : v ∈ h.elements id) :
    h.Contains v := by
  intro r hr
  apply hid
  apply hr.trans
  intro next hnext
  have harray : h.Reachable (Value.array id).ref?.toList (.array id) :=
    .root (List.mem_singleton.mpr rfl)
  apply harray.next
  exact List.mem_filterMap.mpr ⟨v, Array.mem_toList_iff.mpr hv, Option.mem_toList.mp hnext⟩

namespace Spares

theorem holds (hs : h.Spares h' none) {r : HeapRef} (hr : h.holds r = true) :
    h'.holds r = true := by
  rwa [holds_eq, hs r hr nofun, ← holds_eq]

theorem arrays_eq (hs : h.Spares h' none) (hid : h.holds (.array id) = true) :
    h'.arrays.get? id.index = h.arrays.get? id.index :=
  arrays_eq_of_cell?_eq (hs _ hid nofun)

theorem elements_eq (hs : h.Spares h' none) (hid : h.holds (.array id) = true) :
    h'.elements id = h.elements id :=
  elements_eq_of_cell?_eq (hs _ hid nofun)

theorem functionName_eq (hs : h.Spares h' none) {f : FunctionRef}
    (hf : h.Contains (.function f)) : h'.functionName f = h.functionName f := by
  cases f with
  | builtin => rfl
  | cell id =>
    have hcell := hs (.function id) (hf.holds rfl) nofun
    rw [cell?_function, cell?_function] at hcell
    have hfunction : h'.function? id = h.function? id :=
      Option.map_injective (fun _ _ ↦ Cell.function.inj) hcell
    rw [functionName, functionName, hfunction]

/-- A heap that spares everything shows the same of what is all there. -/
theorem shows (hs : h.Spares h' none) : h.Shows h' h.Contains where
  arrays_eq hid := hs.arrays_eq (hid.holds rfl)
  element hid _ hv := hid.element hv
  functionName_eq hf := hs.functionName_eq hf

end Spares

/-- A heap has got an array that was not there, and all that was there is as before. -/
structure Gains (h : Heap) (id : ArrayId) (es : Array Value) (h' : Heap) : Prop where
  fresh : h.holds (.array id) = false
  get?_eq : h'.arrays.get? id.index = some es
  spares : h.Spares h' none

namespace Gains

variable {es : Array Value}

theorem newArray (h : Heap) (es : Array Value) :
    h.Gains (h.newArray es).1 es (h.newArray es).2 := by
  have hfresh : h.holds (.array (h.newArray es).1) = false := by
    rw [← Bool.not_eq_true]
    intro hheld
    obtain ⟨es', hes⟩ := Option.isSome_iff_exists.mp hheld
    exact Nat.lt_irrefl _ (Store.lt_size_of_get?_eq_some hes)
  constructor
  · exact hfresh
  · rw [Heap.newArray, Store.get?_push, if_pos rfl]
  · intro r hr _
    have hother : r ≠ .array (h.newArray es).1 := by
      rintro rfl
      rw [hfresh] at hr
      cases hr
    rw [cell?_newArray, if_neg hother]

theorem elements_eq (hg : h.Gains id es h') : h'.elements id = es := by
  rw [elements, hg.get?_eq, Option.getD_some]

theorem holds (hg : h.Gains id es h') : h'.holds (.array id) = true := by
  rw [Heap.holds, hg.get?_eq, Option.isSome_some]

end Gains

end Heap

/-- Making an array succeeds, and the heap gains it. -/
theorem Eval.newArray_eq (s : State) (es : Array Value) :
    ∃ id h, newArray es s = .done (.array id) { s with heap := h } ∧ s.heap.Gains id es h :=
  ⟨_, _, rfl, .newArray s.heap es⟩

end EcmaTree
