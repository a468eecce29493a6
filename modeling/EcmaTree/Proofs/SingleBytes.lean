import EcmaTree.Proofs.Number.Keys
import EcmaTree.Proofs.Slices
import EcmaTree.Proofs.Text.Splitting

/-!
# Single bytes

A program has five ways to read the byte of a text at an index: as an element of the text, as an
element of the array that the text is split into, and by three methods, two of which take a slice
that ends at the number after the index. Past the end they all give nothing, also where that number
is rounded. Before it they give the byte, the slices as long as that number is not rounded, and the
elements as long as the index has no more digits than the key of an element may have. Searching
leads back to every index.
-/

namespace EcmaTree

/-! ## The byte at an index -/

namespace Text

variable {t : Text} {i : Nat}

theorem byte?_eq_none (hi : t.length ≤ i) : t.byte? i = none := by
  rw [byte?_eq]
  exact List.getElem?_eq_none (t.length_eq ▸ hi)

/-- The slice from an index up to the next one has the byte that is there. -/
theorem slice_succ (t : Text) (i : Nat) : t.slice i (i + 1) = (t.byte? i).elim .empty .single := by
  apply Text.ext
  rw [toList_slice, byte?_eq, Nat.add_sub_cancel_left, ← List.head?_drop]
  cases t.toList.drop i <;> rfl

/-- Nothing follows the end. -/
theorem slice_of_length_le (hi : t.length ≤ i) (stop : Nat) : t.slice i stop = .empty := by
  apply Text.ext
  rw [toList_slice, List.drop_eq_nil_of_le (t.length_eq ▸ hi), List.take_nil, toList_empty]

/-! ## Searching -/

end Text

/-! ## The methods -/

namespace TextMethod

variable {s : State} {t : Text} {x : Number} {i : Nat}

theorem run_charAt (hx : x.integer? = some ↑i) :
    run .charAt (.text t) [.number x] s = .done (.text ((t.byte? i).elim .empty .single)) s := by
  change Outcome.done (Value.text ((x.exactIndex?.bind t.byte?).elim .empty .single)) s = _
  rw [Number.exactIndex?_of_integer? hx, Option.bind_some]

/-- The number after an index below 2 ^ 53 is not rounded. -/
theorem integer?_add_one (hx : x.integer? = some ↑i) (hi : i < 2 ^ 53) :
    (x.add 1).integer? = some ↑(i + 1) := by
  rw [Number.add_one_of_integer? hx]
  rcases Nat.lt_or_eq_of_le (Nat.succ_le_of_lt hi) with hlt | heq
  · exact (Number.ofNat_spec hlt).2.2
  · rw [← Nat.succ_eq_add_one, heq]
    decide +kernel

theorem run_slice_add_one (hx : x.integer? = some ↑i) (hi : i < t.length → i < 2 ^ 53) :
    run .slice (.text t) [.number x, .number (x.add 1)] s =
      .done (.text ((t.byte? i).elim .empty .single)) s := by
  change Outcome.done (Value.text (t.slice (x.relativeIndex t.length)
    ((x.add 1).relativeIndex t.length))) s = _
  rw [Number.relativeIndex_of_integer? hx]
  by_cases hend : i < t.length
  · rw [Number.relativeIndex_of_integer? (integer?_add_one hx (hi hend)),
      Nat.min_eq_left hend.le, Nat.min_eq_left hend, Text.slice_succ]
  · have hle := Nat.not_lt.mp hend
    rw [Nat.min_eq_right hle, Text.slice_of_length_le (Nat.le_refl _), Text.byte?_eq_none hle]
    rfl

theorem run_substring_add_one (hx : x.integer? = some ↑i) (hi : i < t.length → i < 2 ^ 53) :
    run .substring (.text t) [.number x, .number (x.add 1)] s =
      .done (.text ((t.byte? i).elim .empty .single)) s := by
  change Outcome.done (Value.text (t.slice
    (min (x.clampedIndex t.length) ((x.add 1).clampedIndex t.length))
    (max (x.clampedIndex t.length) ((x.add 1).clampedIndex t.length)))) s = _
  rw [Number.clampedIndex_of_integer? hx]
  by_cases hend : i < t.length
  · rw [Number.clampedIndex_of_integer? (integer?_add_one hx (hi hend)),
      Nat.min_eq_left hend.le, Nat.min_eq_left hend, Nat.min_eq_left (Nat.le_succ i),
      Nat.max_eq_right (Nat.le_succ i), Text.slice_succ]
  · -- The two ends are put in order, so the second one has to stay at the end of the text.
    have hle := Nat.not_lt.mp hend
    rw [Number.add_one_of_integer? hx, Number.clampedIndex_ofNat_of_le hx hle (Nat.le_succ i),
      Nat.min_eq_right hle, Nat.min_self, Text.slice_of_length_le (Nat.le_refl _),
      Text.byte?_eq_none hle]
    rfl

end TextMethod

/-! ## The elements -/

namespace State

variable {s : State} {x : Number} {i : Nat}

theorem getMember_array (hx : x.integer? = some ↑i) (hi : i < 10 ^ 15) (id : ArrayId)
    (span : Span) :
    Eval.getMember (.array id) (s.heap.propertyKey (.number x)) span s =
      .done ((s.heap.elements id).getD i .undefined) s :=
  (findsElement (Number.index?_toText_eq_some_iff.mpr ⟨hx, hi⟩)).array id span

theorem getMember_text (hx : x.integer? = some ↑i) (hi : i < 10 ^ 15) (t : Text) (span : Span) :
    Eval.getMember (.text t) (s.heap.propertyKey (.number x)) span s =
      .done ((t.byte? i).elim .undefined (.text ∘ .single)) s := by
  refine ((findsElement (Number.index?_toText_eq_some_iff.mpr ⟨hx, hi⟩)).text t span).trans ?_
  cases t.byte? i <;> rfl

end State

/-! ## All ways to read a byte -/

namespace TextMethod

/-- The text that the three methods read at an index. The two slices end at the number after it. -/
structure Reads (s : State) (t : Text) (x : Number) (byte : Text) : Prop where
  charAt : run .charAt (.text t) [.number x] s = .done (.text byte) s
  slice : run .slice (.text t) [.number x, .number (x.add 1)] s = .done (.text byte) s
  substring : run .substring (.text t) [.number x, .number (x.add 1)] s = .done (.text byte) s

/-- The element that is read at an index, from the text and from the array of its bytes. -/
structure Elements (s : State) (t : Text) (x : Number) (element : Value) : Prop where
  member (span : Span) :
    Eval.getMember (.text t) (s.heap.propertyKey (.number x)) span s = .done element s
  split : ∃ id h, run .split (.text t) [.text .empty] s = .done (.array id) { s with heap := h } ∧
    ∀ span, Eval.getMember (.array id) (h.propertyKey (.number x)) span { s with heap := h } =
      .done element { s with heap := h }

variable {t : Text} {x : Number} {i : Nat}

theorem reads (s : State) (hx : x.integer? = some ↑i) (hi : i < t.length → i < 2 ^ 53) :
    Reads s t x ((t.byte? i).elim .empty .single) where
  charAt := run_charAt hx
  slice := run_slice_add_one hx hi
  substring := run_substring_add_one hx hi

/-- The array that a text is split into has its bytes as elements. -/
theorem run_split_empty (s : State) (t : Text) : ∃ id h,
    run .split (.text t) [.text .empty] s = .done (.array id) { s with heap := h } ∧
      h.elements id = ((t.toList.map Text.single).map Value.text).toArray := by
  obtain ⟨id, h, hnew, hgains⟩ := Eval.newArray_eq s ((t.split .empty).map Value.text).toArray
  refine ⟨id, h, hnew, ?_⟩
  rw [hgains.elements_eq, Text.split_empty]

theorem elements (s : State) (hx : x.integer? = some ↑i) (hi : i < 10 ^ 15) :
    Elements s t x ((t.byte? i).elim .undefined (.text ∘ .single)) where
  member := State.getMember_text hx hi t
  split := by
    obtain ⟨id, h, hrun, helements⟩ := run_split_empty s t
    refine ⟨id, h, hrun, fun span ↦ ?_⟩
    refine (State.getMember_array (s := { s with heap := h }) hx hi id span).trans ?_
    rw [helements, Text.byte?_eq, List.map_map, Array.getD_eq_getD_getElem?,
      List.getElem?_toArray, List.getElem?_map]
    cases t.toList[i]? <;> rfl

end TextMethod

end EcmaTree
