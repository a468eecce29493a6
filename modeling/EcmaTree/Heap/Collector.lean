import EcmaTree.Heap.Reference
import Std.Data.TreeSet

/-!
# Collecting

Things of the heap go away in two ways. What nobody refers to is *released* at once. What only
refers to itself in circles stays until a *collection*, which finds it by counting: a thing that is
held more often than the heap holds it has an owner outside, and everything reachable from such
things stays.
-/

namespace EcmaTree

/-- How often each reference occurs in a list, by the numbers of the references. -/
abbrev Tally := Std.TreeMap Nat Nat

namespace Tally

/-- Counts one more occurrence. -/
def add (t : Tally) (r : HeapRef) : Tally := t.insert r.key (t.getD r.key 0 + 1)

/-- Counts the occurrences in a list. -/
def ofList (l : List HeapRef) : Tally := l.foldl add ∅

/-- How often a reference was counted. -/
def count (t : Tally) (r : HeapRef) : Nat := t.getD r.key 0

/-- One more occurrence counts for its own reference only. -/
theorem count_add (t : Tally) (r s : HeapRef) :
    (t.add r).count s = if r = s then t.count s + 1 else t.count s := by
  unfold add count
  rw [Std.TreeMap.getD_insert]
  by_cases h : r = s
  · subst h
    simp
  · have hk : ¬ compare r.key s.key = .eq := fun e ↦ h (HeapRef.key_inj (Nat.compare_eq_eq.mp e))
    simp [h, hk]

/-- A tally counts every reference as often as the list has it. -/
theorem count_ofList (l : List HeapRef) (r : HeapRef) : (ofList l).count r = l.count r := by
  suffices h : ∀ (l : List HeapRef) (t : Tally), (l.foldl add t).count r = t.count r + l.count r by
    have := h l ∅
    simpa [ofList, count] using this
  intro l
  induction l with
  | nil => simp
  | cons a rest ih =>
    intro t
    rw [List.foldl_cons, ih, count_add, List.count_cons]
    by_cases ha : a = r
    · simp [ha]
      omega
    · simp [ha]

end Tally

/-- The things that a collection has found to stay, by the numbers of their references. -/
abbrev Marked := Std.TreeSet Nat

namespace Heap

/-- The things that are not marked. -/
def unmarked (h : Heap) (marked : Marked) : List HeapRef :=
  h.cells.filter fun r ↦ !marked.contains r.key

/-- Marking a thing leaves fewer to mark. -/
theorem unmarked_insert_lt (h : Heap) (marked : Marked) {r : HeapRef} (hr : r ∈ h.cells)
    (hm : marked.contains r.key = false) :
    (h.unmarked (marked.insert r.key)).length < (h.unmarked marked).length := by
  have hsub : h.unmarked (marked.insert r.key) =
      (h.unmarked marked).filter fun s ↦ !(compare r.key s.key == .eq) := by
    unfold unmarked
    rw [List.filter_filter]
    congr 1
    funext s
    rw [Std.TreeSet.contains_insert]
    cases marked.contains s.key <;> cases compare r.key s.key <;> rfl
  rw [hsub]
  apply List.length_filter_lt_length_iff_exists.mpr
  exact ⟨r, by simp [unmarked, hr, hm], by simp⟩

/-- Something is in the heap under a reference. -/
def holds (h : Heap) : HeapRef → Bool
  | .frame id => (h.frames.get? id.index).isSome
  | .object id => (h.objects.get? id.index).isSome
  | .array id => (h.arrays.get? id.index).isSome
  | .function id => (h.functions.get? id.index).isSome

/-- The things of the heap are those that it holds something for. -/
theorem mem_cells {h : Heap} {r : HeapRef} : r ∈ h.cells ↔ h.holds r = true := by
  rcases r with ⟨⟨i⟩⟩ | ⟨⟨i⟩⟩ | ⟨⟨i⟩⟩ | ⟨⟨i⟩⟩ <;> simp [cells, holds, Store.mem_indices]

/-- Marks what is pending, and everything that is reachable from it. -/
def mark (h : Heap) (pending : List HeapRef) (marked : Marked) : Marked :=
  match pending with
  | [] => marked
  | r :: rest =>
    if _hr : h.holds r = true ∧ marked.contains r.key = false then
      h.mark (h.references r ++ rest) (marked.insert r.key)
    else h.mark rest marked
termination_by ((h.unmarked marked).length, pending.length)
decreasing_by
  · exact Prod.Lex.left _ _ (h.unmarked_insert_lt marked (mem_cells.mpr _hr.1) _hr.2)
  · exact Prod.Lex.right _ (Nat.lt_succ_self _)

/-- How often each thing is held, by the heap and by owners outside. -/
def uses (h : Heap) (owners : List HeapRef) : Tally := Tally.ofList (owners ++ h.innerReferences)

/-- The things with an owner outside the heap, given how often each thing is held: those that are
held more often than the heap itself holds them. -/
def roots (h : Heap) (uses : Tally) : List HeapRef :=
  let inner := Tally.ofList h.innerReferences
  h.cells.filter fun r ↦ inner.count r < uses.count r

/-- Removes everything that cannot be reached from what has an owner outside the heap, given how
often each thing is held. The number is how many things that were. -/
def collect (h : Heap) (uses : Tally) : Nat × Heap :=
  let marked := h.mark (h.roots uses) ∅
  ((h.unmarked marked).length, h.restrict fun r ↦ marked.contains r.key)

/-- The things that nobody refers to, neither in the heap nor outside. -/
def unused (h : Heap) (owners : List HeapRef) : List HeapRef :=
  let uses := h.uses owners
  h.cells.filter fun r ↦ uses.count r = 0

/-- Removes what nobody refers to, and then what nobody refers to any more, until everything that is
left is referred to. -/
def release (h : Heap) (owners : List HeapRef) : Heap :=
  if _hn : h.unused owners = [] then h
  else
    let uses := h.uses owners
    (h.restrict fun r ↦ uses.count r != 0).release owners
termination_by h.cells.length
decreasing_by
  rw [cells_restrict]
  obtain ⟨r, hr⟩ := List.exists_mem_of_ne_nil _ _hn
  unfold unused at hr
  rw [List.mem_filter] at hr
  apply List.length_filter_lt_length_iff_exists.mpr
  exact ⟨r, hr.1, by simpa using hr.2⟩

/-- How many frames, objects, arrays and functions the heap holds. -/
structure Census where
  frames : Nat
  objects : Nat
  arrays : Nat
  functions : Nat
deriving DecidableEq, Repr

/-- Counts what the heap holds. -/
def census (h : Heap) : Census :=
  ⟨h.frames.indices.length, h.objects.indices.length, h.arrays.indices.length,
    h.functions.indices.length⟩

end Heap

end EcmaTree
