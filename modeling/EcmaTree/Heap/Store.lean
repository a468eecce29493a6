/-!
# Stores

A store hands out indices for the things that are put into it, in order and never one twice. What it
holds can be changed in place or removed; an index keeps its meaning either way.
-/

namespace EcmaTree

/-- The things stored so far; a removed one leaves an empty cell. -/
structure Store (α : Type) where
  cells : Array (Option α)

namespace Store

variable {α : Type}

/-- The store that never held anything. -/
def empty : Store α := ⟨#[]⟩

instance : Inhabited (Store α) := ⟨empty⟩

/-- How many indices were handed out. -/
def size (s : Store α) : Nat := s.cells.size

/-- What is stored at an index. -/
def get? (s : Store α) (i : Nat) : Option α := s.cells[i]?.join

/-- Stores a thing at the next index, which is the old size. -/
def push (s : Store α) (a : α) : Store α := ⟨s.cells.push (some a)⟩

/-- Changes what is stored at an index. -/
def modify (s : Store α) (i : Nat) (f : α → α) : Store α := ⟨s.cells.modify i (·.map f)⟩

/-- Keeps the things at the chosen indices and removes all others. -/
def restrict (s : Store α) (keep : Nat → Bool) : Store α :=
  ⟨s.cells.mapIdx fun i c ↦ if keep i then c else none⟩

/-- The indices at which something is stored, in order. -/
def indices (s : Store α) : List Nat :=
  (List.range s.size).filter fun i ↦ (s.get? i).isSome

/-- How many of the indices are not in a list. -/
def unvisited (s : Store α) (visited : List Nat) : Nat :=
  ((List.range s.size).filter fun i ↦ !visited.contains i).length

@[simp] theorem get?_empty (i : Nat) : (empty : Store α).get? i = none := by
  simp [empty, get?]

@[simp] theorem size_push (s : Store α) (a : α) : (s.push a).size = s.size + 1 := by
  simp [push, size]

@[simp] theorem size_modify (s : Store α) (i : Nat) (f : α → α) :
    (s.modify i f).size = s.size := by
  simp [modify, size]

@[simp] theorem size_restrict (s : Store α) (keep : Nat → Bool) :
    (s.restrict keep).size = s.size := by
  simp [restrict, size]

/-- What is stored has an index below the size. -/
theorem lt_size_of_get?_eq_some {s : Store α} {i : Nat} {a : α} (h : s.get? i = some a) :
    i < s.size := by
  unfold get? at h
  by_cases hi : i < s.cells.size
  · exact hi
  · simp [Array.getElem?_eq_none (Nat.not_lt.mp hi)] at h

/-- A new thing is found at the old size, and everything else as before. -/
theorem get?_push (s : Store α) (a : α) (i : Nat) :
    (s.push a).get? i = if i = s.size then some a else s.get? i := by
  unfold push get? size
  rw [Array.getElem?_push]
  split <;> rfl

/-- A change is seen at its own index only. -/
theorem get?_modify (s : Store α) (i j : Nat) (f : α → α) :
    (s.modify i f).get? j = if i = j then (s.get? j).map f else s.get? j := by
  unfold modify get?
  rw [Array.getElem?_modify]
  split
  · cases s.cells[j]? with
    | none => rfl
    | some c => cases c <;> rfl
  · rfl

/-- Only the chosen indices still hold something. -/
theorem get?_restrict (s : Store α) (keep : Nat → Bool) (i : Nat) :
    (s.restrict keep).get? i = if keep i then s.get? i else none := by
  unfold restrict get?
  rw [Array.getElem?_mapIdx]
  cases s.cells[i]? with
  | none => simp
  | some c => by_cases hk : keep i <;> simp [hk]

/-- An index is listed exactly when something is stored there. -/
theorem mem_indices {s : Store α} {i : Nat} : i ∈ s.indices ↔ (s.get? i).isSome = true := by
  unfold indices
  rw [List.mem_filter, List.mem_range]
  constructor
  · exact fun h ↦ h.2
  · intro h
    obtain ⟨a, ha⟩ := Option.isSome_iff_exists.mp h
    exact ⟨lt_size_of_get?_eq_some ha, h⟩

/-- A new thing adds its index. -/
theorem indices_push (s : Store α) (a : α) : (s.push a).indices = s.indices ++ [s.size] := by
  unfold indices
  have hnew : [s.size].filter (fun i ↦ ((s.push a).get? i).isSome) = [s.size] :=
    List.filter_cons_of_pos (by rw [get?_push, if_pos rfl]; rfl)
  rw [size_push, List.range_succ, List.filter_append, hnew]
  congr 1
  refine List.filter_congr fun i hi ↦ ?_
  rw [get?_push, if_neg (Nat.ne_of_lt (List.mem_range.mp hi))]

/-- A change in place leaves the indices as they are. -/
theorem indices_modify (s : Store α) (i : Nat) (f : α → α) :
    (s.modify i f).indices = s.indices := by
  unfold indices
  rw [size_modify]
  congr 1
  funext j
  rw [get?_modify]
  split
  · rw [Option.isSome_map]
  · rfl

/-- The chosen ones among the indices are left. -/
theorem indices_restrict (s : Store α) (keep : Nat → Bool) :
    (s.restrict keep).indices = s.indices.filter keep := by
  unfold indices
  rw [List.filter_filter, size_restrict]
  congr 1
  funext i
  rw [get?_restrict]
  cases keep i <;> simp

/-- Visiting an index for the first time leaves fewer to visit. -/
theorem unvisited_cons_lt {s : Store α} {visited : List Nat} {i : Nat} (hi : i < s.size)
    (hv : i ∉ visited) : s.unvisited (i :: visited) < s.unvisited visited := by
  unfold unvisited
  have hsub : (List.range s.size).filter (fun j ↦ !(i :: visited).contains j) =
      ((List.range s.size).filter (fun j ↦ !visited.contains j)).filter (fun j ↦ j != i) := by
    rw [List.filter_filter]
    congr 1
    funext j
    by_cases hj : j = i <;> simp [hj]
  rw [hsub]
  apply List.length_filter_lt_length_iff_exists.mpr
  exact ⟨i, by simp [hi, hv], by simp⟩

end Store

end EcmaTree
