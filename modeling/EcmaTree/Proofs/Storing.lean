import EcmaTree.Proofs.Assignments
import EcmaTree.Proofs.Coupling.Basic
import EcmaTree.Proofs.Json.Trees
import EcmaTree.Proofs.Number.Indices

/-!
# Storing properties

What a write of one property does to the heap. It is refused before anything is changed, or it is
dropped, or it changes the one object or array that it is for: an object has one more key at most,
and an array is as long as it has to be.
-/

namespace EcmaTree

/-! ## Elements -/

section

variable {es : Array Value} {n : Nat} (hn : es.size ≤ n)
include hn

theorem size_padded : (es ++ Array.replicate (n - es.size) Value.undefined).size = n := by
  rw [Array.size_append, Array.size_replicate, Nat.add_sub_cancel' hn]

/-- What is filled up reads undefined where nothing was. -/
theorem getElem?_padded (j : Nat) :
    (es ++ Array.replicate (n - es.size) Value.undefined)[j]? =
      if j < n then some (es[j]?.getD .undefined) else none := by
  rw [Array.getElem?_append, Array.getElem?_replicate]
  by_cases hj : j < es.size
  · rw [if_pos hj, if_pos (hj.trans_le hn), Array.getElem?_eq_getElem hj]
    rfl
  · have hfilled : j - es.size < n - es.size ↔ j < n := by omega
    simp only [if_neg hj, hfilled, Array.getElem?_eq_none (Nat.not_lt.mp hj), Option.getD_none]

end

theorem size_resized (es : Array Value) (length : Nat) : (resized es length).size = length := by
  rw [resized]
  split
  · next h => rw [Array.take_eq_extract, Array.size_extract_of_le h, Nat.sub_zero]
  · next h => exact size_padded (Nat.le_of_not_le h)

theorem getElem?_resized (es : Array Value) (length j : Nat) :
    (resized es length)[j]? = if j < length then some (es[j]?.getD .undefined) else none := by
  rw [resized]
  split
  · next h =>
    rw [Array.take_eq_extract, Array.getElem?_extract, Nat.sub_zero, Nat.zero_add,
      Nat.min_eq_left h]
    split
    · next hj =>
      rw [Array.getElem?_eq_getElem (hj.trans_le h)]
      rfl
    · rfl
  · next h => exact getElem?_padded (Nat.le_of_not_le h) j

theorem size_written (es : Array Value) (i : Nat) (v : Value) :
    (written es i v).size = max es.size (i + 1) := by
  rw [written]
  split
  · next hi => rw [Array.size_setIfInBounds, Nat.max_eq_left hi]
  · next hi =>
    rw [Array.size_push, size_padded (Nat.not_lt.mp hi)]
    omega

theorem getElem?_written (es : Array Value) (i j : Nat) (v : Value) :
    (written es i v)[j]? =
      if j = i then some v else if j < i then some (es[j]?.getD .undefined) else es[j]? := by
  rw [written]
  split
  · next hi =>
    rw [Array.getElem?_setIfInBounds]
    by_cases hj : j = i
    · subst hj
      rw [if_pos rfl, if_pos rfl, if_pos hi]
    · rw [if_neg (Ne.symm hj), if_neg hj]
      split
      · next hlt =>
        rw [Array.getElem?_eq_getElem (hlt.trans hi)]
        rfl
      · rfl
  · next hi =>
    have hle := Nat.not_lt.mp hi
    rw [Array.getElem?_push, size_padded hle, getElem?_padded hle]
    split
    · rfl
    · split
      · rfl
      · rw [Array.getElem?_eq_none (by omega)]

/-- The elements of an array after a write to one of them. -/
structure StoresElement (es : Array Value) (i : Nat) (v : Value) (es' : Array Value) : Prop where
  size_eq : es'.size = max es.size (i + 1)
  stored : es'[i]? = some v
  kept {j : Nat} (hj : j < es.size) (hne : j ≠ i) : es'[j]? = es[j]?
  gap {j : Nat} (hj : es.size ≤ j) (hlt : j < i) : es'[j]? = some .undefined

/-- The elements of an array after a write to its length. -/
structure StoresLength (es : Array Value) (length : Nat) (es' : Array Value) : Prop where
  size_eq : es'.size = length
  kept {j : Nat} (hj : j < min es.size length) : es'[j]? = es[j]?
  filled {j : Nat} (hj : es.size ≤ j) (hlt : j < length) : es'[j]? = some .undefined

/-- The properties of an object after a write to one of them. -/
structure StoresProperty (ps : Properties) (key : Text) (v : Value) (ps' : Properties) : Prop where
  stored : ps'.get? key = some v
  kept {other : Text} (hne : other ≠ key) : ps'.get? other = ps.get? other
  keys_eq : ps'.toList.map Prod.fst =
    if key ∈ ps.toList.map Prod.fst then ps.toList.map Prod.fst
    else ps.toList.map Prod.fst ++ [key]

theorem storesElement_written (es : Array Value) (i : Nat) (v : Value) :
    StoresElement es i v (written es i v) where
  size_eq := size_written es i v
  stored := by rw [getElem?_written, if_pos rfl]
  kept {j} hj hne := by
    rw [getElem?_written, if_neg hne, Array.getElem?_eq_getElem hj]
    split <;> rfl
  gap {j} hj hlt := by
    rw [getElem?_written, if_neg hlt.ne, if_pos hlt, Array.getElem?_eq_none hj]
    rfl

theorem storesLength_resized (es : Array Value) (length : Nat) :
    StoresLength es length (resized es length) where
  size_eq := size_resized es length
  kept {j} hj := by
    obtain ⟨hj, hlt⟩ := Nat.lt_min.mp hj
    rw [getElem?_resized, if_pos hlt, Array.getElem?_eq_getElem hj]
    rfl
  filled {j} hj hlt := by
    rw [getElem?_resized, if_pos hlt, Array.getElem?_eq_none hj]
    rfl

theorem storesProperty_insert (ps : Properties) (key : Text) (v : Value) :
    StoresProperty ps key v (ps.insert key v) where
  stored := by rw [OrderedMap.get?_insert, if_pos rfl]
  kept hne := by rw [OrderedMap.get?_insert, if_neg hne.symm]
  keys_eq := by
    split
    · next hkey => exact OrderedMap.keys_insert hkey
    · next hkey => rw [OrderedMap.toList_insert hkey, List.map_append, List.map_singleton]

/-! ## Heaps -/

namespace Heap

variable {h h' : Heap} {o v : Value} {key : Text}

theorem properties_modifyObject {id : ObjectId} (hid : h.holds (.object id) = true)
    (f : Properties → Properties) : (h.modifyObject id f).properties id = f (h.properties id) := by
  obtain ⟨ps, hps⟩ := Option.isSome_iff_exists.mp hid
  rw [properties, modifyObject, Store.get?_modify, if_pos rfl, properties, hps]
  rfl

theorem elements_modifyArray {id : ArrayId} (hid : h.holds (.array id) = true)
    (f : Array Value → Array Value) : (h.modifyArray id f).elements id = f (h.elements id) := by
  obtain ⟨es, hes⟩ := Option.isSome_iff_exists.mp hid
  rw [elements, modifyArray, Store.get?_modify, if_pos rfl, elements, hes]
  rfl

/-- Why a property cannot be written. Undefined and null have none, the length of an array has to be
a natural number up to the greatest length, and its indices end there, too. -/
inductive Refuses (h : Heap) (v : Value) : Value → Text → RuntimeError → Prop where
  | nullish {o : Value} {key : Text} (ho : o.isNullish = true) :
      Refuses h v o key (.unwritable (h.toText o) key)
  | length {id : ArrayId}
      (hv : ∀ n ≤ maxArrayLength, (h.toNumber v).equal (.ofNat n) = false) :
      Refuses h v (.array id) lengthKey .arrayLength
  | index {id : ArrayId} {i : Nat} (hi : maxArrayLength ≤ i) (hdigits : i < 10 ^ 15) :
      Refuses h v (.array id) (.ofNat i) .arrayLength

/-- What becomes of a heap when a property is written. Whatever refers to the same thing reads what
was stored, and nothing else is changed. -/
inductive Stores (h : Heap) (v : Value) : Value → Text → Heap → Prop where
  | property {id : ObjectId} {key : Text} {h' : Heap}
      (hps : StoresProperty (h.properties id) key v (h'.properties id))
      (hreads : ∀ w, w.strictEquals (.object id) = true → h'.member w key = v)
      (hrest : ∀ r ≠ HeapRef.object id, h'.cell? r = h.cell? r) : Stores h v (.object id) key h'
  | element {id : ArrayId} {i : Nat} {h' : Heap} (hi : i < maxArrayLength)
      (hes : StoresElement (h.elements id) i v (h'.elements id))
      (hreads : ∀ w, w.strictEquals (.array id) = true → h'.member w (.ofNat i) = v)
      (hrest : ∀ r ≠ HeapRef.array id, h'.cell? r = h.cell? r) :
      Stores h v (.array id) (.ofNat i) h'
  | length {id : ArrayId} {n : Nat} {h' : Heap} (hn : n ≤ maxArrayLength)
      (hv : (h.toNumber v).equal (.ofNat n) = true)
      (hes : StoresLength (h.elements id) n (h'.elements id))
      (hreads : ∀ w, w.strictEquals (.array id) = true → h'.member w lengthKey = .ofNat n)
      (hrest : ∀ r ≠ HeapRef.array id, h'.cell? r = h.cell? r) : Stores h v (.array id) lengthKey h'
  /-- A value that is no object or array keeps nothing, and an array has no other keys. -/
  | dropped {o : Value} {key : Text} (ho : o.isNullish = false) (hobject : ∀ id, o ≠ .object id)
      (harray : ∀ id, o = .array id → key ≠ lengthKey ∧ ∀ i < 10 ^ 15, key ≠ .ofNat i) :
      Stores h v o key h

theorem lt_of_lt_maxArrayLength {i : Nat} (hi : i < maxArrayLength) : i < 10 ^ 15 :=
  hi.trans (by decide)

theorem Stores.not_refuses (hs : h.Stores v o key h') (e : RuntimeError) :
    ¬ h.Refuses v o key e := by
  intro he
  cases hs with
  | property =>
    cases he with
    | nullish ho => cases ho
  | @element id i _ hi =>
    have hdigits := lt_of_lt_maxArrayLength hi
    generalize hkey : Text.ofNat i = key at he
    cases he with
    | nullish ho => cases ho
    | length => exact Text.ofNat_ne_lengthKey hdigits hkey
    | index hi' hdigits' =>
      have heq := Text.index?_ofNat hdigits
      rw [hkey, Text.index?_ofNat hdigits'] at heq
      exact hi.not_ge (Option.some.inj heq ▸ hi')
  | length hn hv =>
    generalize hkey : lengthKey = key at he
    cases he with
    | nullish ho => cases ho
    | length hv' =>
      rw [hv' _ hn] at hv
      cases hv
    | index _ hdigits => exact Text.ofNat_ne_lengthKey hdigits hkey.symm
  | dropped ho _ harray =>
    cases he with
    | nullish ho' =>
      rw [ho] at ho'
      cases ho'
    | length => exact (harray _ rfl).1 rfl
    | index _ hdigits => exact (harray _ rfl).2 _ hdigits rfl

theorem eq_of_strictEquals_object {w : Value} {id : ObjectId}
    (hw : w.strictEquals (.object id) = true) : w = .object id := by
  cases w with
  | object other => exact congrArg Value.object (eq_of_beq hw)
  | _ => cases hw

theorem eq_of_strictEquals_array {w : Value} {id : ArrayId}
    (hw : w.strictEquals (.array id) = true) : w = .array id := by
  cases w with
  | array other => exact congrArg Value.array (eq_of_beq hw)
  | _ => cases hw

theorem stores_property {id : ObjectId} (hid : h.holds (.object id) = true)
    (key : Text) (v : Value) :
    h.Stores v (.object id) key (h.modifyObject id (·.insert key v)) := by
  have hps := storesProperty_insert (h.properties id) key v
  rw [← properties_modifyObject hid (·.insert key v)] at hps
  refine .property hps ?_ fun r hr ↦ ?_
  · intro w hw
    rw [eq_of_strictEquals_object hw, member, property, hps.stored]
    rfl
  · rw [cell?_modifyObject, if_neg hr]

theorem stores_element {id : ArrayId} {i : Nat} (hid : h.holds (.array id) = true)
    (hi : i < maxArrayLength) (v : Value) :
    h.Stores v (.array id) (.ofNat i) (h.modifyArray id (written · i v)) := by
  have hes := storesElement_written (h.elements id) i v
  rw [← elements_modifyArray hid (written · i v)] at hes
  refine .element hi hes ?_ fun r hr ↦ ?_
  · intro w hw
    have hdigits := lt_of_lt_maxArrayLength hi
    rw [eq_of_strictEquals_array hw, member, arrayMember,
      if_neg (Text.ofNat_ne_lengthKey hdigits), Text.index?_ofNat hdigits]
    dsimp only
    rw [Array.getD_eq_getD_getElem?, hes.stored, Option.getD_some]
  · rw [cell?_modifyArray, if_neg hr]

theorem stores_length {id : ArrayId} {n : Nat} (hid : h.holds (.array id) = true)
    (hn : (h.toNumber v).arrayLength? = some n) :
    h.Stores v (.array id) lengthKey (h.modifyArray id (resized · n)) := by
  have hes := storesLength_resized (h.elements id) n
  rw [← elements_modifyArray hid (resized · n)] at hes
  obtain ⟨hle, hequal⟩ := Number.arrayLength?_eq_some_iff.mp hn
  refine .length hle hequal hes ?_ fun r hr ↦ ?_
  · intro w hw
    rw [eq_of_strictEquals_array hw, member, arrayMember, if_pos rfl, hes.size_eq]
  · rw [cell?_modifyArray, if_neg hr]

end Heap

namespace Eval

open Heap

variable {s : State} {o v : Value} {key : Text} {span : Span}

theorem setArrayMember_length (id : ArrayId) (v : Value) (span : Span) (s : State) :
    setArrayMember id lengthKey v span s =
      match (s.heap.toNumber v).arrayLength? with
      | some n => .done () { s with heap := s.heap.modifyArray id (resized · n) }
      | none => raise .arrayLength span s := by
  rw [setArrayMember, if_pos rfl]
  change (match (s.heap.toNumber v).arrayLength? with
    | some n => modifyHeap (·.modifyArray id (resized · n))
    | none => raise .arrayLength span) s = _
  cases (s.heap.toNumber v).arrayLength? <;> rfl

theorem setArrayMember_of_ne (id : ArrayId) (hkey : key ≠ lengthKey) (v : Value) (span : Span)
    (s : State) :
    setArrayMember id key v span s =
      match key.index? with
      | some i =>
        if i < maxArrayLength then .done () { s with heap := s.heap.modifyArray id (written · i v) }
        else raise .arrayLength span s
      | none => .done () s := by
  rw [setArrayMember, if_neg hkey]
  cases key.index? with
  | none => rfl
  | some i =>
    dsimp only
    split <;> rfl

/-- A write to an array is refused, or stores. -/
theorem setArrayMember_stores {id : ArrayId} (hid : s.heap.holds (.array id) = true) (key : Text)
    (v : Value) (span : Span) :
    (∃ e, s.heap.Refuses v (.array id) key e ∧ setArrayMember id key v span s = raise e span s) ∨
      ∃ h', s.heap.Stores v (.array id) key h' ∧
        setArrayMember id key v span s = .done () { s with heap := h' } := by
  by_cases hkey : key = lengthKey
  · subst hkey
    rw [setArrayMember_length]
    cases hn : (s.heap.toNumber v).arrayLength? with
    | some n => exact .inr ⟨_, stores_length hid hn, rfl⟩
    | none =>
      refine .inl ⟨_, .length fun n hle ↦ Bool.eq_false_iff.mpr fun hequal ↦ ?_, rfl⟩
      rw [Number.arrayLength?_eq_some_iff.mpr ⟨hle, hequal⟩] at hn
      cases hn
  · rw [setArrayMember_of_ne id hkey]
    cases hi : key.index? with
    | none =>
      refine .inr ⟨_, .dropped rfl nofun fun _ _ ↦ ⟨hkey, fun i hdigits heq ↦ ?_⟩, rfl⟩
      rw [heq, Text.index?_ofNat hdigits] at hi
      cases hi
    | some i =>
      obtain ⟨rfl, hdigits⟩ := Text.index?_eq_some_iff.mp hi
      dsimp only
      split
      · next hlt => exact .inr ⟨_, stores_element hid hlt v, rfl⟩
      · next hle => exact .inl ⟨_, .index (Nat.not_lt.mp hle) hdigits, rfl⟩

/-- A write is refused, or stores. -/
theorem setMember_refused_or_stores (ho : ∀ r, o.ref? = some r → s.heap.holds r = true)
    (key : Text) (v : Value) (span : Span) :
    (∃ e, s.heap.Refuses v o key e ∧ setMember o key v span s = raise e span s) ∨
      ∃ h', s.heap.Stores v o key h' ∧
        setMember o key v span s = .done () { s with heap := h' } := by
  cases o with
  | undefined => exact .inl ⟨_, .nullish rfl, rfl⟩
  | null => exact .inl ⟨_, .nullish rfl, rfl⟩
  | object id => exact .inr ⟨_, stores_property (ho _ rfl) key v, rfl⟩
  | array id => exact setArrayMember_stores (ho _ rfl) key v span
  | text | function | bool | number => exact .inr ⟨_, .dropped rfl nofun nofun, rfl⟩

end Eval

namespace Heap

variable {h h' : Heap} {o v : Value} {key : Text} {id : ArrayId}

/-- No array gets longer than the greatest length by a write. -/
theorem Stores.size_eq (hs : h.Stores v o key h') (hlong : maxArrayLength < (h'.elements id).size) :
    (h'.elements id).size = (h.elements id).size := by
  cases hs with
  | property _ _ hrest => rw [elements_eq_of_cell?_eq (hrest _ nofun)]
  | @element written i _ hi hes _ hrest =>
    by_cases hid : id = written
    · subst hid
      have hsize := hes.size_eq
      omega
    · rw [elements_eq_of_cell?_eq (hrest _ fun heq ↦ hid (HeapRef.array.inj heq))]
  | @length written n _ hn _ hes _ hrest =>
    by_cases hid : id = written
    · subst hid
      exact absurd (hes.size_eq ▸ hlong) hn.not_gt
    · rw [elements_eq_of_cell?_eq (hrest _ fun heq ↦ hid (HeapRef.array.inj heq))]
  | dropped => rfl

end Heap

namespace Eval

open Heap

variable {s : State} {o : Value}

/-- A write that is refused throws, and changes nothing. Any other write stores. Neither makes an
array longer than the greatest length. -/
theorem setMember_stores (ho : ∀ r, o.ref? = some r → s.heap.holds r = true) (key : Text)
    (v : Value) (span : Span) :
    ((∃ e, s.heap.Refuses v o key e ∧ ∃ h', s.heap.Spares h' none ∧
        setMember o key v span s = .thrown (s.raised e span) { s with heap := h' }) ∨
      ∃ h', (∀ e, ¬ s.heap.Refuses v o key e) ∧ s.heap.Stores v o key h' ∧
        setMember o key v span s = .done () { s with heap := h' }) ∧
    ∀ id, maxArrayLength < ((setMember o key v span s).state.heap.elements id).size →
      ((setMember o key v span s).state.heap.elements id).size = (s.heap.elements id).size := by
  rcases setMember_refused_or_stores ho key v span with ⟨e, he, heq⟩ | ⟨h', hs, heq⟩
  · rw [heq]
    exact ⟨.inl ⟨e, he, _, .newObject _ _ _, rfl⟩, fun _ _ ↦ rfl⟩
  · rw [heq]
    exact ⟨.inr ⟨h', hs.not_refuses, hs, rfl⟩, fun _ ↦ hs.size_eq⟩

theorem setMember_stores_oneArray :
    let h := (Heap.empty.newArray #[.null]).2
    let s := (Interpreter.start .standard h .start []).state
    let grown := (setMember (.array ⟨0⟩) "3" (.bool true) .nowhere s).state.heap
    s.heap.holds (.array ⟨0⟩) = true ∧
      s.heap.Stores (.bool true) (.array ⟨0⟩) "3" grown ∧ (grown.elements ⟨0⟩).size = 4 := by
  intro h s grown
  have hid : s.heap.holds (.array ⟨0⟩) = true := by decide +kernel
  have ho (r : HeapRef) (hr : (Value.array ⟨0⟩).ref? = some r) : s.heap.holds r = true :=
    Option.some.inj hr ▸ hid
  refine ⟨hid, ?_, by decide +kernel⟩
  rcases setMember_stores ho "3" (.bool true) .nowhere with
    ⟨⟨e, -, h', -, heq⟩ | ⟨h', -, hs, heq⟩, -⟩
  · cases heq
  · rwa [show grown = h' from congrArg (·.state.heap) heq]

end Eval

end EcmaTree
