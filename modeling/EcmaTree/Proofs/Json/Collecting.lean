import EcmaTree.Proofs.Json.Grammar
import EcmaTree.Proofs.OrderedMap

/-!
# Collecting members

Setting the keys of an object in turn leaves them in the order in which they first came, each with
the last of its values. That determines the members.
-/

namespace EcmaTree.Json

/-- The members after all pairs got their values in turn. -/
def setMembers (pairs members : List (Text × Json)) : List (Text × Json) :=
  pairs.foldl (fun seen p ↦ setMember p.1 p.2 seen) members

@[simp] theorem lookup_nil (key : Text) : lookup key [] = none := rfl

@[simp] theorem lookup_cons (key : Text) (member : Text × Json) (rest : List (Text × Json)) :
    lookup key (member :: rest) = if member.1 = key then some member.2 else lookup key rest := by
  rw [lookup, List.find?_cons]
  split
  · next h => rw [if_pos (of_decide_eq_true h), Option.map_some]
  · next h => rw [if_neg (of_decide_eq_false h), lookup]

theorem lookup_setMember (key other : Text) (value : Json) (members : List (Text × Json)) :
    lookup other (setMember key value members) =
      if key = other then some value else lookup other members := by
  induction members with
  | nil => exact lookup_cons _ _ _
  | cons member rest ih =>
    rw [setMember]
    split
    · next h =>
      rw [lookup_cons, lookup_cons, h]
      split <;> rfl
    · next h =>
      rw [lookup_cons, lookup_cons, ih]
      split
      · next hother => rw [if_neg fun hkey ↦ h (hother.trans hkey.symm)]
      · rfl

theorem keys_setMember (key : Text) (value : Json) (members : List (Text × Json)) :
    (setMember key value members).map Prod.fst =
      members.map Prod.fst ++ if key ∈ members.map Prod.fst then [] else [key] := by
  induction members with
  | nil => rfl
  | cons member rest ih =>
    rw [setMember]
    split
    · next h => simp [h]
    · next h =>
      rw [List.map_cons, ih, List.map_cons, List.cons_append]
      simp only [List.mem_cons, Ne.symm h, false_or]

/-- A new key comes last among the members. -/
theorem setMember_of_notMem {key : Text} {value : Json} {members : List (Text × Json)}
    (h : key ∉ members.map Prod.fst) : setMember key value members = members ++ [(key, value)] := by
  induction members with
  | nil => rfl
  | cons member rest ih =>
    rw [List.map_cons, List.mem_cons, not_or] at h
    rw [setMember, if_neg (Ne.symm h.1), ih h.2, List.cons_append]

/-- New keys come last among the members in their order. -/
theorem setMembers_of_nodup {pairs members : List (Text × Json)}
    (h : ((members ++ pairs).map Prod.fst).Nodup) :
    setMembers pairs members = members ++ pairs := by
  induction pairs generalizing members with
  | nil => exact (List.append_nil members).symm
  | cons pair rest ih =>
    have hnew : pair.1 ∉ members.map Prod.fst := by
      rw [List.map_append, List.map_cons] at h
      exact fun hmem ↦ (List.nodup_append.mp h).2.2 pair.1 hmem pair.1 List.mem_cons_self rfl
    have happend : members ++ pair :: rest = members ++ [pair] ++ rest := by
      rw [List.append_assoc, List.singleton_append]
    rw [setMembers, List.foldl_cons, ← setMembers, setMember_of_notMem hnew, happend]
    exact ih (happend ▸ h)

theorem lookup_of_notMem {key : Text} {members : List (Text × Json)}
    (h : key ∉ members.map Prod.fst) : lookup key members = none := by
  rw [lookup, Option.map_eq_none_iff, List.find?_eq_none]
  intro member hmember hkey
  exact h (of_decide_eq_true hkey ▸ List.mem_map_of_mem hmember)

/-- An object is determined by the order of its keys and their values. -/
theorem eq_of_keys_of_lookup {members others : List (Text × Json)}
    (hnodup : (members.map Prod.fst).Nodup)
    (hkeys : members.map Prod.fst = others.map Prod.fst)
    (hvalues : ∀ key, lookup key members = lookup key others) : members = others := by
  induction members generalizing others with
  | nil =>
    rw [List.map_nil, eq_comm, List.map_eq_nil_iff] at hkeys
    exact hkeys.symm
  | cons member rest ih =>
    obtain ⟨other, tail, rfl⟩ : ∃ other tail, others = other :: tail := by
      cases others with
      | nil => exact absurd hkeys (List.cons_ne_nil _ _)
      | cons other tail => exact ⟨other, tail, rfl⟩
    rw [List.map_cons, List.map_cons] at hkeys
    obtain ⟨hkey, hrest⟩ := List.cons.inj hkeys
    rw [List.map_cons, List.nodup_cons] at hnodup
    have hvalue := hvalues member.1
    rw [lookup_cons, lookup_cons, if_pos rfl, if_pos hkey.symm] at hvalue
    obtain rfl : member = other := Prod.ext hkey (Option.some.inj hvalue)
    rw [ih hnodup.2 hrest]
    intro key
    by_cases h : member.1 = key
    · rw [← h, lookup_of_notMem hnodup.1, lookup_of_notMem (hrest ▸ hnodup.1)]
    · have hvalue := hvalues key
      rwa [lookup_cons, lookup_cons, if_neg h, if_neg h] at hvalue

namespace Grammar

theorem collects_setMembers (pairs : List (Text × Json)) :
    Collects pairs (setMembers pairs []) := by
  induction pairs using List.reverseRecOn with
  | nil => exact ⟨rfl, fun _ ↦ rfl⟩
  | append_singleton pairs pair ih =>
    rw [setMembers, List.foldl_append, List.foldl_cons, List.foldl_nil, ← setMembers]
    constructor
    · rw [keys_setMember, ih.keys, List.map_append, List.map_singleton,
        eraseDups_append_singleton]
      simp only [List.mem_eraseDups]
    · intro key
      rw [lookup_setMember, ih.values, List.reverse_append, List.reverse_singleton,
        List.singleton_append, lookup_cons]

/-- Pairs are collected to one object only. -/
theorem collects_iff {pairs members : List (Text × Json)} :
    Collects pairs members ↔ members = setMembers pairs [] := by
  constructor
  · intro h
    have hset := collects_setMembers pairs
    refine eq_of_keys_of_lookup ?_ (h.keys.trans hset.keys.symm) fun key ↦
      (h.values key).trans (hset.values key).symm
    rw [h.keys]
    exact nodup_eraseDups _
  · rintro rfl
    exact collects_setMembers pairs

/-- Without a repeated key the pairs are the members. -/
theorem collects_self {members : List (Text × Json)} :
    Collects members members ↔ (members.map Prod.fst).Nodup := by
  constructor
  · intro h
    rw [h.keys]
    exact nodup_eraseDups _
  · intro h
    have hset : setMembers members [] = [] ++ members := setMembers_of_nodup h
    exact collects_iff.mpr hset.symm

end Grammar

end EcmaTree.Json
