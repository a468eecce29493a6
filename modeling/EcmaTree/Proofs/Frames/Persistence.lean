import EcmaTree.Heap.Scope
import Mathlib.Data.List.Forall2

/-!
# Persistence of frames

A frame persists when it keeps its parent, its receiver and its variables, and the constants among
these keep their values. It grows when it gets further variables besides.
-/

namespace EcmaTree

/-- The same variable, perhaps with another value if it is not constant. -/
structure Binding.Persists (b b' : Binding) : Prop where
  name_eq : b'.name = b.name
  kind_eq : b'.kind = b.kind
  value_eq (h : b.kind = .const) : b'.value = b.value

namespace Binding.Persists

theorem refl (b : Binding) : b.Persists b := ⟨rfl, rfl, fun _ ↦ rfl⟩

theorem trans {a b b' : Binding} (h : a.Persists b) (h' : b.Persists b') : a.Persists b' where
  name_eq := h'.name_eq.trans h.name_eq
  kind_eq := h'.kind_eq.trans h.kind_eq
  value_eq ha := (h'.value_eq (h.kind_eq.trans ha)).trans (h.value_eq ha)

theorem forall₂_refl (bs : List Binding) : List.Forall₂ Binding.Persists bs bs :=
  List.forall₂_same.mpr fun b _ ↦ refl b

theorem forall₂_trans {as bs : List Binding} (h : List.Forall₂ Binding.Persists as bs) :
    ∀ {cs}, List.Forall₂ Binding.Persists bs cs → List.Forall₂ Binding.Persists as cs := by
  induction h with
  | nil => exact id
  | cons hab _ ih =>
    intro cs h'
    cases h' with
    | cons hbc hrest => exact .cons (hab.trans hbc) (ih hrest)

end Binding.Persists

/-- The same frame after assignments to variables that are not constant. -/
structure Frame.Persists (f f' : Frame) : Prop where
  parent_eq : f'.parent = f.parent
  receiver_eq : f'.receiver = f.receiver
  bindings : List.Forall₂ Binding.Persists f.bindings f'.bindings

/-- The same frame after assignments to variables that are not constant, and after declarations,
which put their variables before the ones that are there. -/
def Frame.Grows (f f' : Frame) : Prop :=
  ∃ kept, kept <:+ f'.bindings ∧ f.Persists { f' with bindings := kept }

namespace Frame

variable {f g f' : Frame}

theorem Persists.refl (f : Frame) : f.Persists f :=
  ⟨rfl, rfl, Binding.Persists.forall₂_refl f.bindings⟩

theorem Persists.trans (h : f.Persists g) (h' : g.Persists f') : f.Persists f' where
  parent_eq := h'.parent_eq.trans h.parent_eq
  receiver_eq := h'.receiver_eq.trans h.receiver_eq
  bindings := Binding.Persists.forall₂_trans h.bindings h'.bindings

theorem Persists.grows (h : f.Persists f') : f.Grows f' := ⟨f'.bindings, List.suffix_rfl, h⟩

theorem Grows.trans (h : f.Grows g) (h' : g.Grows f') : f.Grows f' := by
  obtain ⟨kept, hsuffix, hf⟩ := h
  obtain ⟨later, hlater, hg⟩ := h'
  -- of what the second step kept, the part that the first one had kept already
  obtain ⟨n, rfl⟩ : ∃ n, kept = g.bindings.drop n := ⟨_, List.suffix_iff_eq_drop.mp hsuffix⟩
  refine ⟨later.drop n, (List.drop_suffix n later).trans hlater, hf.trans ?_⟩
  exact ⟨hg.parent_eq, hg.receiver_eq, List.forall₂_drop n hg.bindings⟩

/-- A declaration makes a frame grow. -/
theorem grows_define (f : Frame) (b : Binding) : f.Grows (f.define b) :=
  ⟨f.bindings, List.suffix_cons b f.bindings, .refl f⟩

theorem forall₂_assignFirst {name : Text} {b : Binding} {bs : List Binding}
    (hb : bs.find? (fun b ↦ b.name == name) = some b) (hk : b.kind ≠ .const) (v : Value) :
    List.Forall₂ Binding.Persists bs (assignFirst name v bs) := by
  induction bs with
  | nil => exact .nil
  | cons a rest ih =>
    rw [List.find?_cons] at hb
    rw [assignFirst]
    split at hb
    · next ha =>
      obtain rfl := Option.some.inj hb
      rw [if_pos ha]
      exact .cons ⟨rfl, rfl, fun h ↦ absurd h hk⟩ (Binding.Persists.forall₂_refl rest)
    · next ha =>
      rw [if_neg (by simp [ha])]
      exact .cons (.refl a) (ih hb)

/-- Assigning to a variable that is not constant changes its value and nothing else. -/
theorem persists_assign {name : Text} {b : Binding} (hb : f.find? name = some b)
    (hk : b.kind ≠ .const) (v : Value) : f.Persists (f.assign name v) :=
  ⟨rfl, rfl, forall₂_assignFirst hb hk v⟩

end Frame

end EcmaTree
