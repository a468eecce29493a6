import Std.Data.TreeMap

/-!
# Maps in insertion order

A map that enumerates its keys in the order of their first insertion. It keeps the entries in that
order, and beside them an index from each key to the position of its entry. That the two go together
is part of the map, so no key has two entries.
-/

namespace EcmaTree

/-- Entries in the order of the first insertion of their keys, and the position of each key. -/
structure OrderedMap (κ ν : Type) [Ord κ] where
  entries : Array (κ × ν)
  index : Std.TreeMap κ Nat
  /-- The index finds a key at the position of its entry, and nowhere else. -/
  consistent (k : κ) (i : Nat) : index[k]? = some i ↔ entries[i]?.map Prod.fst = some k

namespace OrderedMap

variable {κ ν : Type} [Ord κ]

/-- Number of entries. -/
def size (m : OrderedMap κ ν) : Nat := m.entries.size

/-- A map without entries. -/
def isEmpty (m : OrderedMap κ ν) : Bool := m.entries.isEmpty

/-- The entries in order. -/
def toList (m : OrderedMap κ ν) : List (κ × ν) := m.entries.toList

/-- The values in the order of their keys. -/
def values (m : OrderedMap κ ν) : List ν := m.toList.map Prod.snd

/-- The position of a key among the entries. -/
def position? (m : OrderedMap κ ν) (k : κ) : Option Nat := m.index[k]?

/-- A key of the map. -/
def contains (m : OrderedMap κ ν) (k : κ) : Bool := (m.position? k).isSome

/-- The value of a key. -/
def get? (m : OrderedMap κ ν) (k : κ) : Option ν :=
  (m.position? k).bind fun i ↦ m.entries[i]?.map Prod.snd

/-- An entry may be replaced by another one of its key. -/
theorem consistent_setIfInBounds (m : OrderedMap κ ν) {k : κ} {i : Nat} (hk : m.index[k]? = some i)
    (v : ν) (k' : κ) (j : Nat) :
    m.index[k']? = some j ↔ (m.entries.setIfInBounds i (k, v))[j]?.map Prod.fst = some k' := by
  refine (m.consistent k' j).trans ?_
  rw [Array.getElem?_setIfInBounds]
  split
  · next hij =>
    subst hij
    have hi := (m.consistent k i).mp hk
    have hlt : i < m.entries.size := Nat.lt_of_not_le fun hle ↦ by
      rw [Array.getElem?_eq_none hle] at hi
      cases hi
    rw [if_pos hlt, hi]
    rfl
  · rfl

section

variable [Std.TransOrd κ]

/-- The map without entries. -/
def empty : OrderedMap κ ν where
  entries := #[]
  index := ∅
  consistent k i := by
    rw [Std.TreeMap.getElem?_emptyc, Array.getElem?_empty]
    exact ⟨nofun, nofun⟩

instance : Inhabited (OrderedMap κ ν) := ⟨empty⟩

variable [Std.LawfulEqOrd κ]

/-- A new key may get the next position, where no other key is. -/
theorem consistent_push (m : OrderedMap κ ν) {k : κ} (hk : m.index[k]? = none) (v : ν) (k' : κ)
    (i : Nat) : (m.index.insert k m.entries.size)[k']? = some i ↔
      (m.entries.push (k, v))[i]?.map Prod.fst = some k' := by
  rw [Std.TreeMap.getElem?_insert, Array.getElem?_push]
  have hold := m.consistent k' i
  split
  · next heq =>
    obtain rfl : k = k' := Std.LawfulEqCmp.compare_eq_iff_eq.mp heq
    rw [hk] at hold
    split
    · next hi => simp [hi]
    · next hi => simpa [Ne.symm hi] using hold
  · next hne =>
    have hkey : k ≠ k' := fun h ↦ hne (Std.LawfulEqCmp.compare_eq_iff_eq.mpr h)
    rw [hold]
    split
    · next hi => simp [hi, hkey]
    · rfl

/-- Gives a key a value. A key that is present keeps its position; a new one comes last. -/
def insert (m : OrderedMap κ ν) (k : κ) (v : ν) : OrderedMap κ ν :=
  match hk : m.index[k]? with
  | some i => ⟨m.entries.setIfInBounds i (k, v), m.index, m.consistent_setIfInBounds hk v⟩
  | none => ⟨m.entries.push (k, v), m.index.insert k m.entries.size, m.consistent_push hk v⟩

/-- Makes sure that a key is present: a new one gets the given value, and all others stay. -/
def touch (m : OrderedMap κ ν) (k : κ) (v : ν) : OrderedMap κ ν :=
  if m.contains k then m else m.insert k v

/-- The map that results from inserting the pairs from left to right. -/
def ofList (l : List (κ × ν)) : OrderedMap κ ν := l.foldl (fun m p ↦ m.insert p.1 p.2) empty

/-- The map without a key; the entries behind it move up. -/
def erase [BEq κ] (m : OrderedMap κ ν) (k : κ) : OrderedMap κ ν :=
  ofList (m.toList.filter fun p ↦ p.1 != k)

end

end OrderedMap

end EcmaTree
