import EcmaTree.Evaluation.TextMethods
import EcmaTree.Proofs.Heap.Contents
import EcmaTree.Proofs.Indices
import EcmaTree.Session.Interpreter

/-!
# Slices

What the methods take from an array or a text by two indices. Whatever the arguments are, it is a
stretch that lies inside, and two slices that end and begin by the same argument are the whole.
-/

namespace EcmaTree

/-- A part of a list: what stands at an index and after it, but before another index. -/
structure Stretch {α : Type} (whole : List α) (start stop : Nat) (part : List α) : Prop where
  start_le : start ≤ whole.length
  stop_le : stop ≤ whole.length
  length_eq : part.length = stop - start
  getElem?_eq {j : Nat} (hj : j < stop - start) : part[j]? = whole[start + j]?

namespace Stretch

variable {α : Type} {whole front back : List α} {start stop middle : Nat}

theorem take_drop (hstart : start ≤ whole.length) (hstop : stop ≤ whole.length) :
    Stretch whole start stop ((whole.drop start).take (stop - start)) where
  start_le := hstart
  stop_le := hstop
  length_eq := by
    rw [List.length_take, List.length_drop]
    omega
  getElem?_eq hj := by rw [List.getElem?_take_of_lt hj, List.getElem?_drop]

/-- The stretches before an index and from there on are the whole. -/
theorem append (hfront : Stretch whole 0 middle front)
    (hback : Stretch whole middle whole.length back) : front ++ back = whole := by
  have hlength := hfront.length_eq
  apply List.ext_getElem?
  intro j
  by_cases hj : j < middle
  · rw [List.getElem?_append_left (by omega), hfront.getElem?_eq (by omega), Nat.zero_add]
  · rw [List.getElem?_append_right (by omega)]
    by_cases hend : j < whole.length
    · rw [hback.getElem?_eq (by omega)]
      congr 1
      omega
    · have := hback.length_eq
      rw [List.getElem?_eq_none (by omega), List.getElem?_eq_none (by omega)]

end Stretch

namespace Heap

/-- A part of a sequence is what a method's first two arguments name by relative indices. -/
inductive Slices {α : Type} (h : Heap) (args : List Value) (whole part : List α) : Prop where
  | intro {start stop : Nat}
      (hstart : h.Denotes (Number.Relative whole.length) 0 (argument args 0) start)
      (hstop : h.Denotes (Number.Relative whole.length) whole.length (argument args 1) stop)
      (hpart : Stretch whole start stop part)

variable {α : Type} {h h' : Heap} {whole front back : List α} {x : Value}

theorem slices_take_drop (h : Heap) (args : List Value) (whole : List α) {start stop : Nat}
    (hstart : start = h.relativeIndex (argument args 0) whole.length 0)
    (hstop : stop = h.relativeIndex (argument args 1) whole.length whole.length) :
    h.Slices args whole ((whole.drop start).take (stop - start)) := by
  have hdenotes := denotes_relative_iff.mpr hstart
  have hdenotes' := denotes_relative_iff.mpr hstop
  apply Slices.intro hdenotes hdenotes'
  apply Stretch.take_drop
  · exact hdenotes.le (fun _ _ ↦ Number.Relative.le) (Nat.zero_le _)
  · exact hdenotes'.le (fun _ _ ↦ Number.Relative.le) (Nat.le_refl _)

/-- The slice up to an argument and the slice from it on are the whole. -/
theorem Slices.append (hx : x ≠ .undefined) (hnumber : h'.toNumber x = h.toNumber x)
    (hfront : h.Slices [.ofNat 0, x] whole front) (hback : h'.Slices [x] whole back) :
    front ++ back = whole := by
  obtain @⟨first, middle, hfirst, hmiddle, hfront⟩ := hfront
  obtain @⟨middle', last, hmiddle', hlast, hback⟩ := hback
  have hzero : first = 0 := by
    rw [Number.relative_iff.mp hfirst]
    exact (Number.relative_iff.mp (Number.relative_ofNat (by decide) (Nat.zero_le _))).symm
  have hsame : middle' = middle := by
    rw [Denotes, argument, List.getD_cons_zero, if_neg hx, hnumber] at hmiddle'
    rw [Denotes, argument, List.getD_cons_succ, List.getD_cons_zero, if_neg hx] at hmiddle
    rw [Number.relative_iff.mp hmiddle, Number.relative_iff.mp hmiddle']
  have hend : last = whole.length := hlast
  subst hzero hsame hend
  exact hfront.append hback

end Heap

/-! ## Slices of arrays -/

namespace ArrayMethod

/-- A slice of an array is a new array of elements that follow one another. The heap gains it, and
the array is as before. -/
structure Sliced (r : Evaluator) (s : State) (id : ArrayId) (args : List Value) (copy : ArrayId)
    (h : Heap) : Prop where
  run_eq : run r .slice (.array id) args s = .done (.array copy) { s with heap := h }
  slices : s.heap.Slices args (s.heap.elements id).toList (h.elements copy).toList
  gains : s.heap.Gains copy (h.elements copy) h
  kept : h.elements id = s.heap.elements id

/-- Every slice of an array is one, and two slices that meet at an argument have all the
elements. -/
structure SliceLaws (r : Evaluator) (s : State) (id : ArrayId) : Prop where
  slice (args : List Value) : ∃ copy h, Sliced r s id args copy h
  partition {x : Value} (hx : x ≠ .undefined) (hheld : s.heap.Contains x) : ∃ front back h h',
    Sliced r s id [.ofNat 0, x] front h ∧ Sliced r { s with heap := h } id [x] back h' ∧
    h'.elements front ++ h'.elements back = s.heap.elements id

variable {s : State} {id : ArrayId}

theorem exists_sliced (r : Evaluator) (hid : s.heap.holds (.array id) = true) (args : List Value) :
    ∃ copy h, Sliced r s id args copy h := by
  generalize hes : s.heap.elements id = es
  generalize hstart : s.heap.relativeIndex (argument args 0) es.size 0 = start
  generalize hstop : s.heap.relativeIndex (argument args 1) es.size es.size = stop
  obtain ⟨copy, h, hnew, hgains⟩ := Eval.newArray_eq s (es.extract start stop)
  have hrun : run r .slice (.array id) args s = Eval.newArray (es.extract start stop) s := by
    rw [← hstart, ← hstop, ← hes]
    rfl
  have hcopy : (h.elements copy).toList = (es.toList.drop start).take (stop - start) := by
    rw [hgains.elements_eq, Array.toList_extract, List.extract]
  refine ⟨copy, h, hrun.trans hnew, ?_, ?_, hgains.spares.elements_eq hid⟩
  · rw [hcopy, hes]
    apply s.heap.slices_take_drop
    · rw [Array.length_toList, hstart]
    · rw [Array.length_toList, hstop]
  · rwa [hgains.elements_eq]

theorem sliceLaws (r : Evaluator) (hid : s.heap.holds (.array id) = true) : SliceLaws r s id where
  slice := exists_sliced r hid
  partition {x} hx hheld := by
    obtain ⟨front, h, hfront⟩ := exists_sliced r hid [.ofNat 0, x]
    have hid' : h.holds (.array id) = true := hfront.gains.spares.holds hid
    obtain ⟨back, h', hback⟩ := exists_sliced (s := { s with heap := h }) r hid' [x]
    refine ⟨front, back, h, h', hfront, hback, ?_⟩
    -- The new array may not change the number that the argument is converted to.
    have hnumber := hfront.gains.spares.shows.toNumber_eq hheld
    have hslices := hback.slices
    rw [hfront.kept] at hslices
    rw [hback.gains.spares.elements_eq hfront.gains.holds]
    apply Array.toList_inj.mp
    rw [Array.toList_append]
    exact hfront.slices.append hx hnumber hslices

end ArrayMethod

/-! ## Slices of texts -/

namespace TextMethod

/-- A part of a text lies between two clamped indices, the smaller one first, and is the slice
between them. -/
inductive Between (s : State) (t : Text) (args : List Value) (part : Text) : Prop where
  | intro {i j : Nat}
      (hi : s.heap.Denotes (Number.Clamped t.length) 0 (argument args 0) i)
      (hj : s.heap.Denotes (Number.Clamped t.length) t.length (argument args 1) j)
      (hpart : Stretch t.toList (min i j) (max i j) part.toList)
      (hslice : ∀ start stop, s.heap.Denotes (Number.Relative t.length) 0 start (min i j) →
        s.heap.Denotes (Number.Relative t.length) t.length stop (max i j) →
        run .slice (.text t) [start, stop] s = .done (.text part) s)
      (hnumbers : t.length < 2 ^ 53 →
        run .slice (.text t) [.ofNat (min i j), .ofNat (max i j)] s = .done (.text part) s)

/-- A slice of a text has bytes that follow one another, two slices that meet at an argument are the
text, and between clamped indices there is a slice. Nothing changes. -/
structure SliceLaws (s : State) (t : Text) : Prop where
  slice (args : List Value) : ∃ part, run .slice (.text t) args s = .done (.text part) s ∧
    s.heap.Slices args t.toList part.toList
  partition {x : Value} (hx : x ≠ .undefined) : ∃ front back,
    run .slice (.text t) [.ofNat 0, x] s = .done (.text front) s ∧
    run .slice (.text t) [x] s = .done (.text back) s ∧ front ++ back = t
  substring (args : List Value) : ∃ part,
    run .substring (.text t) args s = .done (.text part) s ∧ Between s t args part

theorem run_slice (s : State) (t : Text) (args : List Value) :
    run .slice (.text t) args s =
      .done (.text (t.slice (s.heap.relativeIndex (argument args 0) t.length 0)
        (s.heap.relativeIndex (argument args 1) t.length t.length))) s := rfl

theorem slices_slice (s : State) (t : Text) (args : List Value) :
    s.heap.Slices args t.toList
      (t.slice (s.heap.relativeIndex (argument args 0) t.length 0)
        (s.heap.relativeIndex (argument args 1) t.length t.length)).toList := by
  rw [Text.toList_slice]
  apply s.heap.slices_take_drop
  · rw [← Text.length_eq]
  · rw [← Text.length_eq]

theorem exists_between (s : State) (t : Text) (args : List Value) : ∃ part,
    run .substring (.text t) args s = .done (.text part) s ∧ Between s t args part := by
  generalize hi : s.heap.clampedIndex (argument args 0) t.length 0 = i
  generalize hj : s.heap.clampedIndex (argument args 1) t.length t.length = j
  have hi' : s.heap.Denotes (Number.Clamped t.length) 0 (argument args 0) i :=
    Heap.denotes_clamped_iff.mpr hi.symm
  have hj' : s.heap.Denotes (Number.Clamped t.length) t.length (argument args 1) j :=
    Heap.denotes_clamped_iff.mpr hj.symm
  have hile := hi'.le (fun _ _ ↦ Number.Clamped.le) (Nat.zero_le _)
  have hjle := hj'.le (fun _ _ ↦ Number.Clamped.le) (Nat.le_refl _)
  have hrun : run .substring (.text t) args s = .done (.text (t.slice (min i j) (max i j))) s := by
    rw [← hi, ← hj]
    rfl
  have hslice (start stop : Value)
      (hstart : s.heap.Denotes (Number.Relative t.length) 0 start (min i j))
      (hstop : s.heap.Denotes (Number.Relative t.length) t.length stop (max i j)) :
      run .slice (.text t) [start, stop] s = .done (.text (t.slice (min i j) (max i j))) s := by
    rw [Heap.denotes_relative_iff.mp hstart, Heap.denotes_relative_iff.mp hstop]
    exact run_slice s t [start, stop]
  refine ⟨_, hrun, .intro hi' hj' ?_ hslice ?_⟩
  · rw [Text.toList_slice]
    rw [Text.length_eq] at hile hjle
    apply Stretch.take_drop <;> omega
  · intro hsmall
    apply hslice
    · exact Number.relative_ofNat (by omega) (by omega)
    · exact Number.relative_ofNat (by omega) (by omega)

theorem sliceLaws (s : State) (t : Text) : SliceLaws s t where
  slice args := ⟨_, run_slice s t args, slices_slice s t args⟩
  partition {x} hx := by
    refine ⟨_, _, run_slice s t _, run_slice s t _, Text.ext ?_⟩
    rw [Text.toList_append]
    exact (slices_slice s t _).append hx rfl (slices_slice s t _)
  substring := exists_between s t

end TextMethod

/-- Every array and every text is partitioned by its slices: both ends lie inside whatever the
arguments are, the slice up to an argument and the slice from it on are the whole, and a slice
between clamped indices is the slice between the same two put in order. -/
theorem slices_partition (r : Evaluator) (s : State) :
    (∀ id, s.heap.holds (.array id) = true → ArrayMethod.SliceLaws r s id) ∧
      ∀ t, TextMethod.SliceLaws s t :=
  ⟨fun _ ↦ ArrayMethod.sliceLaws r, TextMethod.sliceLaws s⟩

/-- An array cut before its last element by the text of a negative fraction, a text cut there, too,
and the bytes of the text between two indices of which the second is not a number. -/
theorem slices_partition_fraction :
    let s := (Interpreter.start .standard (Heap.empty.newArray #[.null, .bool true, .null]).2 .start
      []).state
    let r := Config.standard.level 1
    let x : Value := .text "-1.5"
    s.heap.holds (.array ⟨0⟩) = true ∧ x ≠ .undefined ∧ s.heap.Contains x ∧
      (∃ front back h h', ArrayMethod.Sliced r s ⟨0⟩ [.ofNat 0, x] front h ∧
        ArrayMethod.Sliced r { s with heap := h } ⟨0⟩ [x] back h' ∧
        h'.elements front ++ h'.elements back = #[.null, .bool true, .null]) ∧
      (∃ front back, TextMethod.run .slice (.text "abc") [.ofNat 0, x] s = .done (.text front) s ∧
        TextMethod.run .slice (.text "abc") [x] s = .done (.text back) s ∧
        front ++ back = "abc") ∧
      ∃ part, TextMethod.run .substring (.text "abc") [.ofNat 2, .number .nan] s =
          .done (.text part) s ∧
        TextMethod.run .slice (.text "abc") [.ofNat 0, .ofNat 2] s = .done (.text part) s := by
  intro s r x
  have hid : s.heap.holds (.array ⟨0⟩) = true := by decide +kernel
  have hx : x ≠ .undefined := nofun
  have hheld : s.heap.Contains x := Heap.contains_of_none rfl
  obtain ⟨harray, htext⟩ := slices_partition r s
  obtain ⟨part, hpart, @⟨i, j, hi, hj, -, -, hnumbers⟩⟩ :=
    (htext "abc").substring [.ofNat 2, .number .nan]
  obtain rfl : i = 2 := (Heap.denotes_clamped_iff.mp hi).trans (by decide +kernel)
  obtain rfl : j = 0 := (Heap.denotes_clamped_iff.mp hj).trans (by decide +kernel)
  exact ⟨hid, hx, hheld, (harray ⟨0⟩ hid).partition hx hheld, (htext "abc").partition hx, part,
    hpart, hnumbers (by decide +kernel)⟩

end EcmaTree
