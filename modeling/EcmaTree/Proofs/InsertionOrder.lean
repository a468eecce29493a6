import EcmaTree.Proofs.OrderedMap
import EcmaTree.Text.Order
import Mathlib.Data.List.Forall2

/-!
# Insertion order

Whatever is done with a map, its two halves stay in step: the entries stand in the order in which
their keys first came since the map was last cleared, each with the value it got last, and the index
finds every key where its entry is. A key gets a value when it is accessed or at any later time,
through the reference that the access handed out, which goes on pointing to the entry of the key.
-/

namespace EcmaTree.OrderedMap

/-! ## References -/

section

variable {κ ν : Type} [Ord κ] {m : OrderedMap κ ν} {k k' : κ} {v : ν} {i : Nat}

/-- The place of the entry that an access to a key refers to. A new key gets the next place. -/
def slot (m : OrderedMap κ ν) (k : κ) : Nat := (m.position? k).getD m.size

/-- Gives the entry at a place a value. -/
def assign (m : OrderedMap κ ν) (i : Nat) (v : ν) : OrderedMap κ ν :=
  { m with
    entries := m.entries.modify i fun p ↦ (p.1, v)
    consistent := fun k j ↦ by
      refine (m.consistent k j).trans ?_
      rw [Array.getElem?_modify]
      split
      · rw [Option.map_map]
        rfl
      · rfl }

theorem position?_eq_slot (hk : m.contains k) : m.position? k = some (m.slot k) := by
  obtain ⟨i, hi⟩ := Option.isSome_iff_exists.mp hk
  rw [slot, hi, Option.getD_some]

variable [Std.TransOrd κ] [Std.LawfulEqOrd κ]

/-- An assignment at the place of a key is one to the key. -/
theorem assign_eq_insert (hi : m.position? k = some i) : m.assign i v = m.insert k v := by
  obtain ⟨w, hw⟩ := exists_entry hi
  rw [insert_of_some hi, assign]
  congr 1
  refine Array.ext_getElem? fun j ↦ ?_
  rw [Array.getElem?_modify]
  split
  · next hij =>
    have hlt := (Array.getElem?_eq_some_iff.mp hw).1
    rw [← hij, Array.getElem?_setIfInBounds_self_of_lt hlt, hw, Option.map_some]
  · next hij => rw [Array.getElem?_setIfInBounds_ne hij]

/-- After an insertion the key is where an access to it referred to. -/
theorem position?_insert_self (m : OrderedMap κ ν) (k : κ) (v : ν) :
    (m.insert k v).position? k = some (m.slot k) := by
  rw [slot, position?, position?]
  cases hk : m.index[k]? with
  | some i =>
    rw [insert_of_some hk]
    exact hk
  | none =>
    rw [insert_of_none hk]
    exact Std.TreeMap.getElem?_insert_self

/-- A key that has a place keeps it through insertions. -/
theorem position?_insert_of_some (hi : m.position? k = some i) :
    (m.insert k' v).position? k = some i := by
  cases hk : m.index[k']? with
  | some j =>
    rw [insert_of_some hk]
    exact hi
  | none =>
    have hne : compare k' k ≠ .eq := by
      intro heq
      rw [position?, ← Std.LawfulEqCmp.compare_eq_iff_eq.mp heq, hk] at hi
      exact Option.some_ne_none i hi.symm
    rw [insert_of_none hk, position?, Std.TreeMap.getElem?_insert, if_neg hne]
    exact hi

end

/-! ## Histories -/

/-- What was done with a map, one thing after the other. -/
inductive History (κ ν : Type) where
  /-- Nothing yet. -/
  | start
  /-- An access to a key, which hands out a reference to its value. -/
  | touch (h : History κ ν) (k : κ)
  /-- An access to a key, with an assignment to its value. -/
  | set (h : History κ ν) (k : κ) (v : ν)
  /-- An assignment through a reference, by how many were handed out before it since the map was
  cleared. -/
  | assign (h : History κ ν) (n : Nat) (v : ν)
  /-- A look for the entry of a key. -/
  | find (h : History κ ν) (k : κ)
  /-- A look whether a key is there. -/
  | count (h : History κ ν) (k : κ)
  /-- A removal of all entries, after which no reference is good. -/
  | clear (h : History κ ν)

namespace History

variable {κ ν : Type}

section

variable [Ord κ] [Std.TransOrd κ] [Std.LawfulEqOrd κ] [Inhabited ν]

/-- The map after all of it, and the places that the references of its user point to. -/
def run : History κ ν → OrderedMap κ ν × List Nat
  | start => (empty, [])
  | touch h k => (h.run.1.touch k default, h.run.2 ++ [h.run.1.slot k])
  | set h k v => (h.run.1.insert k v, h.run.2 ++ [h.run.1.slot k])
  | assign h n v =>
    match h.run.2[n]? with
    | some i => (h.run.1.assign i v, h.run.2)
    | none => h.run
  | find h _ => h.run
  | count h _ => h.run
  | clear _ => (empty, [])

/-- The map after all of it. -/
def map (h : History κ ν) : OrderedMap κ ν := h.run.1

/-- The places that the references point to. -/
def references (h : History κ ν) : List Nat := h.run.2

end

/-- The keys of the accesses since the map was cleared. -/
def accessed : History κ ν → List κ
  | start => []
  | touch h k => h.accessed ++ [k]
  | set h k _ => h.accessed ++ [k]
  | assign h _ _ => h.accessed
  | find h _ => h.accessed
  | count h _ => h.accessed
  | clear _ => []

/-- The assignments since the map was cleared, the last one first, each with the key it was for. -/
def assigned : History κ ν → List (κ × ν)
  | start => []
  | touch h _ => h.assigned
  | set h k v => (k, v) :: h.assigned
  | assign h n v => (h.accessed[n]?.map fun k ↦ (k, v)).toList ++ h.assigned
  | find h _ => h.assigned
  | count h _ => h.assigned
  | clear _ => []

variable {h : History κ ν} {k k' : κ} {v : ν} {n i : Nat}

/-- Only what was accessed gets a value. -/
theorem mem_accessed_of_mem_assigned {p : κ × ν} (hp : p ∈ h.assigned) : p.1 ∈ h.accessed := by
  induction h with
  | start => exact nomatch hp
  | touch h k ih => exact List.mem_append_left _ (ih hp)
  | set h k v ih =>
    rcases List.mem_cons.mp hp with rfl | hp
    · exact List.mem_concat_self
    · exact List.mem_append_left _ (ih hp)
  | assign h n v ih =>
    rcases List.mem_append.mp hp with hp | hp
    · obtain ⟨k, hk, rfl⟩ := Option.map_eq_some_iff.mp (Option.mem_toList.mp hp)
      exact List.mem_of_getElem? hk
    · exact ih hp
  | find h k ih => exact ih hp
  | count h k ih => exact ih hp
  | clear h ih => exact nomatch hp

/-- An assignment through a reference is one to the key it was handed out for. -/
theorem assigned_assign (hk : h.accessed[n]? = some k) :
    (h.assign n v).assigned = (h.set k v).assigned := by
  rw [assigned, assigned, hk, Option.map_some, Option.toList_some, List.singleton_append]

theorem assigned_assign_of_none (hn : h.accessed[n]? = none) :
    (h.assign n v).assigned = h.assigned := by
  rw [assigned, hn, Option.map_none, Option.toList_none, List.nil_append]

variable [DecidableEq κ]

/-- The keys in the order in which they first came. -/
def keys (h : History κ ν) : List κ := h.accessed.eraseDups

variable [Inhabited ν]

/-- The value that a key got last. A key that got none has the default one. -/
def value (h : History κ ν) (k : κ) : ν := (h.assigned.lookup k).getD default

/-- The keys in the order in which they first came, each with the value it got last. -/
def entries (h : History κ ν) : List (κ × ν) := h.keys.map fun k ↦ (k, h.value k)

theorem value_set : (h.set k v).value k' = if k = k' then v else h.value k' := by
  rw [value, assigned]
  split
  · next hk => rw [hk, List.lookup_cons_self, Option.getD_some]
  · next hk =>
    rw [List.lookup_cons, beq_false_of_ne (Ne.symm hk)]
    rfl

theorem value_of_not_accessed (hk : k ∉ h.accessed) : h.value k = default := by
  have hnone : h.assigned.lookup k = none := by
    refine List.lookup_eq_none_iff.mpr fun p hp ↦ bne_iff_ne.mpr ?_
    rintro rfl
    exact hk (mem_accessed_of_mem_assigned hp)
  rw [value, hnone, Option.getD_none]

variable [Ord κ] [Std.TransOrd κ] [Std.LawfulEqOrd κ]

/-- The map has the keys of the history in their order, each with its value, and every reference
points to the entry of the key that it was handed out for. -/
structure InStep (h : History κ ν) : Prop where
  keys_eq : h.map.toList.map Prod.fst = h.keys
  get?_eq : ∀ k ∈ h.accessed, h.map.get? k = some (h.value k)
  place : List.Forall₂ (fun k i ↦ h.map.position? k = some i) h.accessed h.references

theorem InStep.mem_keys (hh : h.InStep) : k ∈ h.map.toList.map Prod.fst ↔ k ∈ h.accessed := by
  rw [hh.keys_eq, keys, List.mem_eraseDups]

/-- The entries of the map are those of the history. -/
theorem InStep.toList_eq (hh : h.InStep) : h.map.toList = h.entries := by
  have hvalue : ∀ p ∈ h.map.toList, p = (p.1, h.value p.1) := fun p hp ↦ by
    have hget := hh.get?_eq p.1 (hh.mem_keys.mp (List.mem_map_of_mem hp))
    rw [get?_eq_some_iff.mpr hp] at hget
    exact Prod.ext rfl (Option.some.inj hget)
  calc h.map.toList
    _ = h.map.toList.map fun p ↦ (p.1, h.value p.1) :=
      (List.map_id _).symm.trans (List.map_congr_left hvalue)
    _ = (h.map.toList.map Prod.fst).map fun k ↦ (k, h.value k) := by rw [List.map_map]; rfl
    _ = h.entries := by rw [hh.keys_eq, entries]

/-- What leaves the map, the references and the values as they are keeps them in step. -/
theorem InStep.of_eq {h' : History κ ν} (hh : h.InStep) (hrun : h'.run = h.run)
    (haccessed : h'.accessed = h.accessed) (hvalue : h'.value = h.value) : h'.InStep := by
  have hmap : h'.map = h.map := congrArg Prod.fst hrun
  have hreferences : h'.references = h.references := congrArg Prod.snd hrun
  constructor
  · rw [hmap, keys, haccessed]
    exact hh.keys_eq
  · rw [hmap, haccessed, hvalue]
    exact hh.get?_eq
  · rw [hmap, haccessed, hreferences]
    exact hh.place

/-- An assignment through a reference changes the map as one to the key would. -/
theorem InStep.run_assign (hh : h.InStep) (hk : h.accessed[n]? = some k) :
    (h.assign n v).run = (h.map.insert k v, h.references) := by
  obtain ⟨hn, rfl⟩ := List.getElem?_eq_some_iff.mp hk
  have hn' : n < h.references.length := hh.place.length_eq ▸ hn
  have hplace : h.map.position? h.accessed[n] = some h.references[n] := hh.place.get hn hn'
  have hi : h.run.2[n]? = some h.references[n] := List.getElem?_eq_getElem hn'
  rw [run, hi]
  exact congrArg (·, h.references) (assign_eq_insert hplace)

theorem InStep.run_assign_of_none (hh : h.InStep) (hn : h.accessed[n]? = none) :
    (h.assign n v).run = h.run := by
  have hi : h.run.2[n]? = none :=
    List.getElem?_eq_none (hh.place.length_eq ▸ List.getElem?_eq_none_iff.mp hn)
  rw [run, hi]

theorem inStep_start : (start : History κ ν).InStep := ⟨rfl, nofun, .nil⟩

/-- References keep pointing to their keys when something is inserted. -/
theorem InStep.place_insert (hh : h.InStep) :
    List.Forall₂ (fun k' i ↦ (h.map.insert k v).position? k' = some i) h.accessed h.references :=
  hh.place.imp fun _ _ ↦ position?_insert_of_some

theorem InStep.get?_insert (hh : h.InStep) (hk : k' ∈ h.accessed ∨ k' = k) :
    (h.map.insert k v).get? k' = some ((h.set k v).value k') := by
  rw [OrderedMap.get?_insert, value_set]
  split
  · rfl
  · next hne => exact hh.get?_eq k' (hk.resolve_right (Ne.symm hne))

theorem InStep.set (hh : h.InStep) : (h.set k v).InStep where
  keys_eq := by
    refine (map_fst_toList_insert (m := h.map)).trans ?_
    rw [hh.keys_eq, keys, keys, accessed, eraseDups_append_singleton]
    simp only [List.mem_eraseDups]
  get?_eq k' hk := hh.get?_insert (by rwa [accessed, List.mem_append, List.mem_singleton] at hk)
  place := List.rel_append hh.place_insert (.cons (position?_insert_self _ _ _) .nil)

theorem InStep.touch (hh : h.InStep) : (h.touch k).InStep := by
  by_cases hk : k ∈ h.accessed
  · have hcontains : h.map.contains k := contains_iff.mpr (hh.mem_keys.mpr hk)
    have hmap : (h.touch k).map = h.map := if_pos hcontains
    constructor
    · rw [hmap, hh.keys_eq, keys, keys, accessed, eraseDups_append_singleton, if_pos hk,
        List.append_nil]
    · intro k' hk'
      rw [accessed, List.mem_append, List.mem_singleton] at hk'
      rw [hmap]
      exact hh.get?_eq k' (hk'.elim id fun heq ↦ heq ▸ hk)
    · rw [hmap]
      exact List.rel_append hh.place (.cons (position?_eq_slot hcontains) .nil)
  · -- A new key has the default value, as if that had been assigned to it.
    have hnew : ¬ h.map.contains k := fun hcontains ↦
      hk (hh.mem_keys.mp (contains_iff.mp hcontains))
    have hmap : h.map.touch k default = h.map.insert k default := if_neg hnew
    refine (hh.set (k := k) (v := default)).of_eq (congrArg (·, _) hmap) rfl (funext fun k' ↦ ?_)
    rw [value_set]
    split
    · next heq => exact heq ▸ value_of_not_accessed (h := h) hk
    · rfl

theorem InStep.assign (hh : h.InStep) : (h.assign n v).InStep := by
  cases hk : h.accessed[n]? with
  | none =>
    refine hh.of_eq (hh.run_assign_of_none hk) rfl (funext fun k ↦ ?_)
    rw [value, value, assigned_assign_of_none hk]
  | some k =>
    have hmap : (h.assign n v).map = h.map.insert k v := by rw [map, hh.run_assign hk]
    have hreferences : (h.assign n v).references = h.references := by
      rw [references, hh.run_assign hk]
    constructor
    · rw [hmap, OrderedMap.keys_insert (hh.mem_keys.mpr (List.mem_of_getElem? hk))]
      exact hh.keys_eq
    · intro k' hk'
      rw [hmap, hh.get?_insert (.inl hk'), value, value, assigned_assign hk]
    · rw [hmap, hreferences]
      exact hh.place_insert

theorem inStep (h : History κ ν) : h.InStep := by
  induction h with
  | start => exact inStep_start
  | touch h k ih => exact ih.touch
  | set h k v ih => exact ih.set
  | assign h n v ih => exact ih.assign
  | find h k ih => exact ih.of_eq rfl rfl rfl
  | count h k ih => exact ih.of_eq rfl rfl rfl
  | clear h ih => exact inStep_start.of_eq rfl rfl rfl

/-- Whatever was done with a map, its entries are the keys in the order in which they first came
since it was cleared, each with the value it got last. No key has two entries, the index leads from
each key to the place of its entry and holds nothing else, and what is found for a key is what the
entries have. -/
theorem insertion_order_kept (h : History κ ν) :
    h.map.toList = h.entries ∧ (h.map.toList.map Prod.fst).Nodup ∧
      (∀ (k : κ) (i : Nat), h.map.index[k]? = some i ↔ h.map.entries[i]?.map Prod.fst = some k) ∧
      h.map.index.size = h.map.entries.size ∧ h.map.size = h.entries.length ∧
      (h.map.isEmpty ↔ h.entries = []) ∧
      ∀ k, h.map.position? k = h.keys.idxOf? k ∧ (h.map.contains k ↔ k ∈ h.keys) ∧
        ∀ v, h.map.get? k = some v ↔ (k, v) ∈ h.entries := by
  have hh := h.inStep
  have hlist := hh.toList_eq
  refine ⟨hlist, h.map.nodup_keys, h.map.consistent, h.map.size_index, ?_, ?_,
    fun k ↦ ⟨?_, ?_, fun v ↦ ?_⟩⟩
  · rw [← hlist, toList, Array.length_toList, size]
  · rw [← hlist, toList, isEmpty, Array.isEmpty_iff, Array.toList_eq_nil_iff]
  · rw [position?_eq_idxOf?, hh.keys_eq]
  · rw [contains_iff, hh.keys_eq]
  · rw [get?_eq_some_iff, hlist]

/-- A map that is cleared and then used again: `b` comes first and then `a`, which gets another
value through the second reference, while `b` never gets one. -/
def reused : History Text Text :=
  .assign (.touch (.set (.touch (.clear (.set .start "x" "0")) "b") "a" "1") "b") 1 "2"

theorem insertion_order_kept_reused :
    reused.map.toList = ([("b", .empty), ("a", "2")] : List (Text × Text)) ∧
      reused.map.index.size = 2 ∧ reused.map.position? "a" = some 1 ∧
      ¬ reused.map.contains "x" := by
  have hentries : reused.entries = ([("b", .empty), ("a", "2")] : List (Text × Text)) := by rfl
  have hkeys : reused.keys = (["b", "a"] : List Text) := by rfl
  obtain ⟨hlist, -, -, hindex, hsize, -, hfind⟩ := insertion_order_kept reused
  refine ⟨hlist.trans hentries, ?_, ?_, ?_⟩
  · rw [hindex]
    exact hsize.trans (congrArg List.length hentries)
  · rw [(hfind "a").1, hkeys]
    rfl
  · rw [(hfind "x").2.1, hkeys]
    decide

end History

end EcmaTree.OrderedMap
