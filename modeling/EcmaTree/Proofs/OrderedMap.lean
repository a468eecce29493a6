import EcmaTree.OrderedMap
import Mathlib.Data.List.Induction
import Mathlib.Data.List.Nodup
import Mathlib.Tactic.Common

/-!
# Laws of ordered maps

Where the values of a map come from, and what it means that its entries and its index go together:
no key has two entries, and what is looked up by key is what the list of the entries has.
-/

namespace EcmaTree

/-! ### First occurrences -/

section

variable {α : Type} [DecidableEq α]

/-- A first occurrence is kept and comes last. -/
theorem eraseDups_append_singleton (l : List α) (a : α) :
    (l ++ [a]).eraseDups = l.eraseDups ++ if a ∈ l then [] else [a] := by
  rw [List.eraseDups_append, List.removeAll]
  by_cases h : a ∈ l <;> simp [h, List.eraseDups_cons]

theorem nodup_eraseDups (l : List α) : l.eraseDups.Nodup := by
  induction l using List.reverseRecOn with
  | nil => exact List.nodup_nil
  | append_singleton l a ih =>
    rw [eraseDups_append_singleton]
    split
    · rwa [List.append_nil]
    · next h =>
      exact ih.append (List.nodup_singleton a)
        (List.disjoint_singleton.mpr (mt List.mem_eraseDups.mp h))

end

namespace OrderedMap

variable {κ ν : Type} [Ord κ] {m : OrderedMap κ ν} {k k' : κ} {v w : ν}

/-! ### Insertions -/

section

variable [Std.TransOrd κ] [Std.LawfulEqOrd κ] {i : Nat}

theorem insert_of_some (hk : m.index[k]? = some i) (v : ν) :
    m.insert k v =
      ⟨m.entries.setIfInBounds i (k, v), m.index, m.consistent_setIfInBounds hk v⟩ := by
  rw [insert]
  split
  · next j hj =>
    obtain rfl := Option.some.inj (hk.symm.trans hj)
    rfl
  · next hj => cases hk.symm.trans hj

theorem insert_of_none (hk : m.index[k]? = none) (v : ν) :
    m.insert k v =
      ⟨m.entries.push (k, v), m.index.insert k m.entries.size, m.consistent_push hk v⟩ := by
  rw [insert]
  split
  · next j hj => cases hk.symm.trans hj
  · rfl

end

/-! ### Values -/

theorem mem_values_of_get? (h : m.get? k = some v) : v ∈ m.values := by
  rw [get?, Option.bind_eq_some_iff] at h
  obtain ⟨i, _, h⟩ := h
  obtain ⟨p, hp, rfl⟩ := Option.map_eq_some_iff.mp h
  exact List.mem_map_of_mem (Array.mem_toList_iff.mpr (Array.mem_of_getElem? hp))

section

variable [Std.TransOrd κ] [Std.LawfulEqOrd κ]

/-- A map after an insertion has the inserted value, and otherwise values that it had before. -/
theorem mem_values_insert (h : v ∈ (m.insert k w).values) : v = w ∨ v ∈ m.values := by
  obtain ⟨p, hp, rfl⟩ := List.mem_map.mp h
  have hp : p = (k, w) ∨ p ∈ m.toList := by
    cases hk : m.index[k]? with
    | some i =>
      rw [insert_of_some hk, toList, Array.toList_setIfInBounds] at hp
      exact (List.mem_or_eq_of_mem_set hp).symm
    | none =>
      rw [insert_of_none hk, toList, Array.toList_push, List.mem_append, List.mem_singleton] at hp
      exact hp.symm
  rcases hp with rfl | hp
  · exact .inl rfl
  · exact .inr (List.mem_map_of_mem hp)

theorem mem_values_ofList {l : List (κ × ν)} (h : v ∈ (ofList l).values) : v ∈ l.map Prod.snd := by
  suffices hm : ∀ (l : List (κ × ν)) (m : OrderedMap κ ν),
      v ∈ (l.foldl (fun m p ↦ m.insert p.1 p.2) m).values → v ∈ m.values ∨ v ∈ l.map Prod.snd by
    exact (hm l empty h).resolve_left nofun
  intro l
  induction l with
  | nil => exact fun m h ↦ .inl h
  | cons p rest ih =>
    intro m h
    rw [List.map_cons, List.mem_cons]
    rcases ih _ h with h | h
    · exact (mem_values_insert h).elim (.inr ∘ .inl) .inl
    · exact .inr (.inr h)

theorem mem_values_erase [BEq κ] (h : v ∈ (m.erase k).values) : v ∈ m.values := by
  obtain ⟨p, hp, rfl⟩ := List.mem_map.mp (mem_values_ofList h)
  exact List.mem_map_of_mem (List.mem_filter.mp hp).1

end

/-! ### Entries and index -/

theorem position?_eq_some_iff {i : Nat} :
    m.position? k = some i ↔ m.entries[i]?.map Prod.fst = some k :=
  m.consistent k i

theorem getElem?_keys (m : OrderedMap κ ν) (i : Nat) :
    (m.toList.map Prod.fst)[i]? = m.entries[i]?.map Prod.fst := by
  rw [List.getElem?_map, toList, Array.getElem?_toList]

/-- No key has two entries. -/
theorem nodup_keys (m : OrderedMap κ ν) : (m.toList.map Prod.fst).Nodup := by
  rw [List.nodup_iff_getElem?_ne_getElem?]
  intro i j hij hj heq
  obtain ⟨k, hk⟩ : ∃ k, (m.toList.map Prod.fst)[j]? = some k :=
    ⟨_, List.getElem?_eq_getElem hj⟩
  have hi : m.position? k = some i :=
    position?_eq_some_iff.mpr (by rw [← getElem?_keys, heq, hk])
  have hj : m.position? k = some j := position?_eq_some_iff.mpr (by rw [← getElem?_keys, hk])
  exact Nat.ne_of_lt hij (Option.some.inj (hi.symm.trans hj))

/-- A key that has no entry is not in the index. -/
theorem position?_eq_none (hk : k ∉ m.toList.map Prod.fst) : m.position? k = none := by
  cases hi : m.position? k with
  | none => rfl
  | some i =>
    obtain ⟨p, hp, rfl⟩ := Option.map_eq_some_iff.mp (position?_eq_some_iff.mp hi)
    exact absurd (List.mem_map_of_mem (Array.mem_toList_iff.mpr (Array.mem_of_getElem? hp))) hk

/-- Where the index finds a key, there is an entry of the key. -/
theorem exists_entry {i : Nat} (hi : m.position? k = some i) :
    ∃ v, m.entries[i]? = some (k, v) := by
  obtain ⟨⟨_, v⟩, hp, rfl⟩ := Option.map_eq_some_iff.mp (position?_eq_some_iff.mp hi)
  exact ⟨v, hp⟩

/-- A key has the value that its entry has. -/
theorem get?_eq_some_iff : m.get? k = some v ↔ (k, v) ∈ m.toList := by
  rw [get?, Option.bind_eq_some_iff]
  constructor
  · rintro ⟨i, hi, hv⟩
    obtain ⟨w, hw⟩ := exists_entry hi
    rw [hw, Option.map_some, Option.some_inj] at hv
    subst hv
    exact Array.mem_toList_iff.mpr (Array.mem_of_getElem? hw)
  · intro hmem
    obtain ⟨i, hi⟩ := List.getElem?_of_mem hmem
    rw [toList, Array.getElem?_toList] at hi
    exact ⟨i, position?_eq_some_iff.mpr (by rw [hi, Option.map_some]), by rw [hi, Option.map_some]⟩

section

variable [DecidableEq κ]

/-- The position of a key is its place among the keys. -/
theorem position?_eq_idxOf? (m : OrderedMap κ ν) (k : κ) :
    m.position? k = (m.toList.map Prod.fst).idxOf? k := by
  refine Option.ext fun i ↦ ?_
  rw [position?_eq_some_iff, ← getElem?_keys, List.getElem?_eq_some_iff,
    List.idxOf?_eq_some_iff]
  refine exists_congr fun hi ↦ ⟨fun hk ↦ ⟨hk, fun j hj hk' ↦ ?_⟩, And.left⟩
  exact Nat.ne_of_lt hj (m.nodup_keys.getElem_inj_iff.mp (hk'.trans hk.symm))

theorem contains_iff : m.contains k ↔ k ∈ m.toList.map Prod.fst := by
  rw [contains, position?_eq_idxOf?, List.isSome_idxOf?]

end

/-! ### Keys and values after insertions -/

variable [Std.TransOrd κ] [Std.LawfulEqOrd κ]

/-- A new key comes last. -/
theorem toList_insert (hk : k ∉ m.toList.map Prod.fst) :
    (m.insert k v).toList = m.toList ++ [(k, v)] := by
  rw [insert_of_none (position?_eq_none hk), toList, Array.toList_push]
  rfl

/-- A key that is there keeps its place, and so do all others. -/
theorem keys_insert (hk : k ∈ m.toList.map Prod.fst) :
    (m.insert k v).toList.map Prod.fst = m.toList.map Prod.fst := by
  obtain ⟨i, hlt, hi⟩ := List.getElem_of_mem hk
  have hindex : m.index[k]? = some i := by
    refine position?_eq_some_iff.mpr ?_
    rw [← Array.getElem?_toList, ← List.getElem?_map, ← hi]
    exact List.getElem?_eq_getElem hlt
  rw [insert_of_some hindex, toList, Array.toList_setIfInBounds, List.map_set]
  calc (m.toList.map Prod.fst).set i k
    _ = (m.toList.map Prod.fst).set i (m.toList.map Prod.fst)[i] := by rw [hi]
    _ = m.toList.map Prod.fst := List.set_getElem_self hlt

/-- The keys after an insertion: a new one comes last. -/
theorem map_fst_toList_insert [DecidableEq κ] :
    (m.insert k v).toList.map Prod.fst =
      m.toList.map Prod.fst ++ if k ∈ m.toList.map Prod.fst then [] else [k] := by
  split
  · next hk => rw [keys_insert hk, List.append_nil]
  · next hk => rw [toList_insert hk, List.map_append, List.map_singleton]

/-- The inserted key has the inserted value, and every other key has the value it had. -/
theorem get?_insert [DecidableEq κ] :
    (m.insert k v).get? k' = if k = k' then some v else m.get? k' := by
  cases hk : m.index[k]? with
  | some i =>
    obtain ⟨w, hw⟩ := exists_entry hk
    rw [insert_of_some hk]
    dsimp only [get?, position?]
    split
    · next heq =>
      have hlt := (Array.getElem?_eq_some_iff.mp hw).1
      rw [← heq, hk, Option.bind_some, Array.getElem?_setIfInBounds_self_of_lt hlt, Option.map_some]
    · next hne =>
      refine Option.bind_congr fun j hj ↦ ?_
      obtain ⟨w', hw'⟩ := exists_entry hj
      have hij : i ≠ j := by
        rintro rfl
        exact hne (congrArg Prod.fst (Option.some.inj (hw.symm.trans hw')))
      rw [Array.getElem?_setIfInBounds_ne hij]
  | none =>
    rw [insert_of_none hk]
    dsimp only [get?, position?]
    rw [Std.TreeMap.getElem?_insert]
    split
    · next heq =>
      rw [if_pos (Std.LawfulEqCmp.compare_eq_iff_eq.mp heq), Option.bind_some,
        Array.getElem?_push_size, Option.map_some]
    · next hne =>
      rw [if_neg fun heq ↦ hne (Std.LawfulEqCmp.compare_eq_iff_eq.mpr heq)]
      refine Option.bind_congr fun j hj ↦ ?_
      obtain ⟨w', hw'⟩ := exists_entry hj
      have hlt := (Array.getElem?_eq_some_iff.mp hw').1
      rw [Array.getElem?_push_lt hlt, Array.getElem?_eq_getElem hlt]

/-- The index has as many keys as there are entries. -/
theorem size_index [DecidableEq κ] (m : OrderedMap κ ν) : m.index.size = m.entries.size := by
  have hkeys : m.index.keys.Perm (m.toList.map Prod.fst) := by
    refine (List.perm_ext_iff_of_nodup Std.TreeMap.nodup_keys m.nodup_keys).mpr fun k ↦ ?_
    rw [Std.TreeMap.mem_keys, Std.TreeMap.mem_iff_isSome_getElem?, ← contains_iff]
    rfl
  rw [← Std.TreeMap.length_keys, hkeys.length_eq, List.length_map, toList, Array.length_toList]

end OrderedMap

end EcmaTree
