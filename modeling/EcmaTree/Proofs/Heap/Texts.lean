import EcmaTree.Evaluation.Indices
import Mathlib.Tactic.Common

/-!
# Values with the same texts

What texts and numbers are made of: the elements of arrays, further down as well, and the names of
functions. Where two heaps show the same of these, values have the same texts and numbers in both.
-/

namespace EcmaTree.Heap

/-- Of the values that are shown, the second heap has the same contents as the first: arrays have
the same elements, which are shown, too, and functions have the same name. -/
structure Shows (h h' : Heap) (shown : Value → Prop) : Prop where
  arrays_eq {id : ArrayId} (hid : shown (.array id)) :
    h'.arrays.get? id.index = h.arrays.get? id.index
  element {id : ArrayId} (hid : shown (.array id)) {v : Value} (hv : v ∈ h.elements id) : shown v
  functionName_eq {f : FunctionRef} (hf : shown (.function f)) :
    h'.functionName f = h.functionName f

namespace Shows

variable {h h' : Heap} {shown : Value → Prop} {v : Value}

theorem plainText_eq (hs : h.Shows h' shown) (hv : shown v) : h'.plainText v = h.plainText v := by
  cases v with
  | function f => simp only [plainText, functionText, hs.functionName_eq hv]
  | undefined | null | bool | number | text | object | array => rfl

theorem joinActive_eq (hs : h.Shows h' shown) (active : List Nat) {id : ArrayId} (separator : Text)
    (hid : shown (.array id)) :
    h'.joinActive active id separator = h.joinActive active id separator := by
  fun_induction joinActive h active id separator with
  | case1 active id separator hin => rw [joinActive, dif_pos hin]
  | case2 active id separator hin hnone =>
    rw [← hs.arrays_eq hid] at hnone
    rw [joinActive, dif_neg hin]
    split
    · rfl
    · simp_all
  | case3 active id separator hin elements hsome ih =>
    have helements : h.elements id = elements := by rw [Heap.elements, hsome, Option.getD_some]
    rw [← hs.arrays_eq hid] at hsome
    rw [joinActive, dif_neg hin]
    split
    · simp_all
    · next elements' hsome' =>
      obtain rfl : elements = elements' := Option.some.inj (hsome.symm.trans hsome')
      congr 1
      refine List.map_congr_left fun v hv ↦ ?_
      have hshown : shown v := by
        apply hs.element hid
        rw [helements]
        exact Array.mem_toList_iff.mp hv
      cases v with
      | array inner => exact ih inner hshown
      | undefined | null => rfl
      | _ => exact hs.plainText_eq hshown

theorem join_eq (hs : h.Shows h' shown) {id : ArrayId} (hid : shown (.array id))
    (separator : Text) : h'.join id separator = h.join id separator :=
  hs.joinActive_eq [] separator hid

theorem toText_eq (hs : h.Shows h' shown) (hv : shown v) : h'.toText v = h.toText v := by
  cases v with
  | array id => exact hs.join_eq hv ","
  | _ => exact hs.plainText_eq hv

theorem toNumber_eq (hs : h.Shows h' shown) (hv : shown v) : h'.toNumber v = h.toNumber v := by
  cases v with
  | array id => exact congrArg Number.ofText (hs.join_eq hv ",")
  | _ => rfl

theorem primitive_eq (hs : h.Shows h' shown) (hv : shown v) : h'.primitive v = h.primitive v := by
  cases v with
  | object | array | function => exact congrArg Value.text (hs.toText_eq hv)
  | _ => rfl

theorem relativeIndex_eq (hs : h.Shows h' shown) (hv : shown v) (length fallback : Nat) :
    h'.relativeIndex v length fallback = h.relativeIndex v length fallback := by
  unfold relativeIndex
  split
  · rfl
  · rw [hs.toNumber_eq hv]

theorem clampedIndex_eq (hs : h.Shows h' shown) (hv : shown v) (length fallback : Nat) :
    h'.clampedIndex v length fallback = h.clampedIndex v length fallback := by
  unfold clampedIndex
  split
  · rfl
  · rw [hs.toNumber_eq hv]

end Shows

end EcmaTree.Heap
