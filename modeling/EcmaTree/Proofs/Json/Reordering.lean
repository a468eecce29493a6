import EcmaTree.Proofs.Json.Collecting
import Mathlib.Data.List.Perm.Basic

/-!
# Orders of members

Documents that are the same but for the order of the members of their objects. What a key means does
not depend on that order where the keys are all different, as they are in every document that is
read. Where no object of a text repeats a key, the document has the members of the text in their
order, so that texts with their members in other orders are read as such documents.
-/

namespace EcmaTree.Json

/-! ## Looking up -/

section

variable {key : Text} {j : Json} {members others : List (Text × Json)}

/-- Where the keys are all different, each means what stands beside it. -/
theorem lookup_eq_some_iff (hkeys : (members.map Prod.fst).Nodup) :
    lookup key members = some j ↔ (key, j) ∈ members := by
  induction members with
  | nil => simp
  | cons member rest ih =>
    obtain ⟨k, i⟩ := member
    rw [List.map_cons, List.nodup_cons] at hkeys
    rw [lookup_cons, List.mem_cons, Prod.mk.injEq]
    split
    · next hk =>
      dsimp only at hk
      subst hk
      have hrest : (k, j) ∉ rest := fun hmem ↦ hkeys.1 (List.mem_map.mpr ⟨_, hmem, rfl⟩)
      rw [Option.some.injEq, eq_comm]
      simp [hrest]
    · next hk =>
      have hne : ¬(key = k ∧ j = i) := fun h ↦ hk h.1.symm
      rw [ih hkeys.2, or_iff_right hne]

theorem lookup_perm (hkeys : (members.map Prod.fst).Nodup) (hperm : members.Perm others) :
    lookup key members = lookup key others := by
  have hkeys' : (others.map Prod.fst).Nodup := (hperm.map Prod.fst).nodup_iff.mp hkeys
  ext j
  rw [lookup_eq_some_iff hkeys, lookup_eq_some_iff hkeys', hperm.mem_iff]

end

/-! ## Documents -/

mutual

/-- The second document is the first one with the members of objects in other orders. -/
inductive Reorders : Json → Json → Prop where
  | same (j : Json) : Reorders j j
  | array {items others : List Json} (h : ItemsReorder items others) :
      Reorders (.array items) (.array others)
  /-- The values of the members are reordered on their own. -/
  | object {members inner others : List (Text × Json)} (hkeys : (members.map Prod.fst).Nodup)
      (h : MembersReorder members inner) (hperm : inner.Perm others) :
      Reorders (.object members) (.object others)

inductive ItemsReorder : List Json → List Json → Prop where
  | nil : ItemsReorder [] []
  | cons {j j' : Json} {items others : List Json} (h : Reorders j j')
      (hrest : ItemsReorder items others) : ItemsReorder (j :: items) (j' :: others)

inductive MembersReorder : List (Text × Json) → List (Text × Json) → Prop where
  | nil : MembersReorder [] []
  | cons {key : Text} {j j' : Json} {members others : List (Text × Json)} (h : Reorders j j')
      (hrest : MembersReorder members others) :
      MembersReorder ((key, j) :: members) ((key, j') :: others)

end

theorem MembersReorder.keys {members inner : List (Text × Json)}
    (h : MembersReorder members inner) : inner.map Prod.fst = members.map Prod.fst := by
  induction members generalizing inner with
  | nil =>
    cases h
    rfl
  | cons member rest ih =>
    cases h with
    | cons _ hrest => rw [List.map_cons, List.map_cons, ih hrest]

/-- Only the values change before the members are moved. -/
theorem MembersReorder.lookup_inner {members inner others : List (Text × Json)}
    (h : MembersReorder members inner) (hkeys : (members.map Prod.fst).Nodup)
    (hperm : inner.Perm others) (key : Text) : lookup key inner = lookup key others :=
  lookup_perm (h.keys ▸ hkeys) hperm

end EcmaTree.Json
