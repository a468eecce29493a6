import EcmaTree.Proofs.Heap.Cells

/-!
# Reachability

Which things of the heap refer to which, one rule for every place that can hold a reference, and
what can be reached that way. The collector's list of references is shown to have the same rules.
-/

namespace EcmaTree

/-- The places of a frame that hold references. -/
theorem Frame.mem_references {f : Frame} {r : HeapRef} :
    r ∈ f.references ↔
      (∃ p, f.parent = some p ∧ .frame p = r) ∨ (∃ b ∈ f.bindings, b.value.ref? = some r) ∨
        (∃ v, f.receiver = some v ∧ v.ref? = some r) ∨
        ∃ c v, f.signal = some c ∧ c.value? = some v ∧ v.ref? = some r := by
  simp only [references, List.mem_append, Option.mem_toList, List.mem_filterMap,
    Option.bind_eq_some_iff, Option.map_eq_some_iff, or_assoc]
  grind

/-- A further variable adds its value to what a frame refers to. -/
theorem Frame.mem_references_define {f : Frame} {b : Binding} {r : HeapRef}
    (hr : r ∈ (f.define b).references) : r ∈ f.references ∨ b.value.ref? = some r := by
  rw [mem_references] at hr ⊢
  rcases hr with hr | ⟨b', hb, hr⟩ | hr
  · exact .inl (.inl hr)
  · rcases List.mem_cons.mp hb with rfl | hb
    · exact .inr hr
    · exact .inl (.inr (.inl ⟨b', hb, hr⟩))
  · exact .inl (.inr (.inr hr))

/-- A sibling refers to nothing that the frame does not refer to. -/
theorem Frame.mem_references_sibling {f : Frame} {r : HeapRef} (hr : r ∈ f.sibling.references) :
    r ∈ f.references := by
  rw [mem_references] at hr ⊢
  rcases hr with hr | hr | hr | ⟨c, _, hc, _⟩
  · exact .inl hr
  · exact .inr (.inl hr)
  · exact .inr (.inr (.inl hr))
  · cases hc

namespace Heap

/-- A thing refers to another in one of the places that hold references. -/
inductive Refers (h : Heap) : HeapRef → HeapRef → Prop where
  | parent {id p : FrameId} {f : Frame} (hf : h.frame? id = some f) (hp : f.parent = some p) :
      Refers h (.frame id) (.frame p)
  | binding {id : FrameId} {f : Frame} {b : Binding} {r : HeapRef} (hf : h.frame? id = some f)
      (hb : b ∈ f.bindings) (hr : b.value.ref? = some r) : Refers h (.frame id) r
  | receiver {id : FrameId} {f : Frame} {v : Value} {r : HeapRef} (hf : h.frame? id = some f)
      (hv : f.receiver = some v) (hr : v.ref? = some r) : Refers h (.frame id) r
  | signal {id : FrameId} {f : Frame} {c : Completion} {v : Value} {r : HeapRef}
      (hf : h.frame? id = some f) (hs : f.signal = some c) (hv : c.value? = some v)
      (hr : v.ref? = some r) : Refers h (.frame id) r
  | property {id : ObjectId} {ps : Properties} {k : Text} {v : Value} {r : HeapRef}
      (ho : h.objects.get? id.index = some ps) (hv : (k, v) ∈ ps.toList)
      (hr : v.ref? = some r) : Refers h (.object id) r
  | element {id : ArrayId} {es : Array Value} {v : Value} {r : HeapRef}
      (ha : h.arrays.get? id.index = some es) (hv : v ∈ es) (hr : v.ref? = some r) :
      Refers h (.array id) r
  | captured {id : FunctionId} {f : Function} {p : FrameId} (hf : h.function? id = some f)
      (hp : (∃ code, f.behaviour = .closure code p) ∨ f.behaviour = .captured p) :
      Refers h (.function id) (.frame p)

/-- What can be reached from the given things. -/
inductive Reachable (h : Heap) (roots : List HeapRef) : HeapRef → Prop where
  | root {r : HeapRef} (hr : r ∈ roots) : Reachable h roots r
  | step {a b : HeapRef} (ha : Reachable h roots a) (hab : h.Refers a b) : Reachable h roots b

private theorem refers_frame {h : Heap} {id : FrameId} {f : Frame} (hf : h.frame? id = some f)
    {r : HeapRef} (hr : r ∈ f.references) : h.Refers (.frame id) r := by
  rcases Frame.mem_references.mp hr with
    ⟨p, hp, rfl⟩ | ⟨b, hb, hr⟩ | ⟨v, hv, hr⟩ | ⟨c, v, hs, hv, hr⟩
  · exact .parent hf hp
  · exact .binding hf hb hr
  · exact .receiver hf hv hr
  · exact .signal hf hs hv hr

/-- The collector knows of every reference there is, and of no other. -/
theorem refers_iff {h : Heap} {a b : HeapRef} : h.Refers a b ↔ b ∈ h.references a := by
  constructor
  · intro hab
    cases hab with
    | parent hf hp => simp [references, hf, Frame.references, hp]
    | binding hf hb hr =>
      simp only [references, hf, Option.map_some, Option.getD_some, Frame.references,
        List.mem_append, List.mem_filterMap]
      exact .inl (.inl (.inr ⟨_, hb, hr⟩))
    | receiver hf hv hr => simp [references, hf, Frame.references, hv, hr]
    | signal hf hs hv hr => simp [references, hf, Frame.references, hs, hv, hr]
    | property ho hv hr =>
      simp only [references, properties, ho, Option.getD_some, OrderedMap.values,
        List.mem_filterMap, List.mem_map]
      exact ⟨_, ⟨_, hv, rfl⟩, hr⟩
    | element ha hv hr =>
      simp only [references, elements, ha, Option.getD_some, List.mem_filterMap]
      exact ⟨_, Array.mem_toList_iff.mpr hv, hr⟩
    | captured hf hp =>
      rcases hp with ⟨code, hp⟩ | hp <;> simp [references, hf, Function.references, hp]
  · intro hb
    rw [references_eq] at hb
    cases a with
    | frame id =>
      cases hf : h.frame? id with
      | none => simp [cell?, hf] at hb
      | some f => exact refers_frame hf (by simpa [cell?, hf, Cell.references] using hb)
    | object id =>
      cases ho : h.objects.get? id.index with
      | none => simp [cell?, ho] at hb
      | some ps =>
        simp only [cell?, ho, Option.map_some, Option.getD_some, Cell.references,
          OrderedMap.values, List.mem_filterMap, List.mem_map] at hb
        obtain ⟨v, ⟨⟨k, w⟩, hm, rfl⟩, hr⟩ := hb
        exact .property ho hm hr
    | array id =>
      cases ha : h.arrays.get? id.index with
      | none => simp [cell?, ha] at hb
      | some es =>
        simp only [cell?, ha, Option.map_some, Option.getD_some, Cell.references,
          List.mem_filterMap] at hb
        obtain ⟨v, hv, hr⟩ := hb
        exact .element ha (Array.mem_toList_iff.mp hv) hr
    | function id =>
      cases hf : h.function? id with
      | none => simp [cell?, hf] at hb
      | some f =>
        simp only [cell?, hf, Option.map_some, Option.getD_some, Cell.references,
          Function.references] at hb
        cases hc : f.behaviour with
        | closure code p =>
          obtain rfl : b = .frame p := by simpa [hc] using hb
          exact .captured hf (.inl ⟨code, hc⟩)
        | captured p =>
          obtain rfl : b = .frame p := by simpa [hc] using hb
          exact .captured hf (.inr hc)
        | host f => simp [hc] at hb

/-- Only what is in the heap refers to something. -/
theorem holds_of_refers {h : Heap} {a b : HeapRef} (hab : h.Refers a b) : h.holds a = true := by
  rw [holds_eq]
  cases hc : h.cell? a with
  | some c => rfl
  | none => simp [refers_iff, references_of_none hc] at hab

/-- What is stored under a reference decides what it refers to. -/
theorem refers_congr {h h' : Heap} {a b : HeapRef} (hc : h.references a = h'.references a) :
    h.Refers a b ↔ h'.Refers a b := by
  rw [refers_iff, refers_iff, hc]

namespace Reachable

variable {h h' : Heap} {roots more : List HeapRef} {r s : HeapRef}

theorem next (hr : h.Reachable roots r) (hs : s ∈ h.references r) : h.Reachable roots s :=
  .step hr (refers_iff.mpr hs)

/-- From things that can be reached nothing else can be reached. -/
theorem trans (hmore : ∀ r ∈ more, h.Reachable roots r) (hr : h.Reachable more r) :
    h.Reachable roots r := by
  induction hr with
  | root hr => exact hmore _ hr
  | step _ hab ih => exact .step ih hab

theorem mono (hsub : ∀ r ∈ more, r ∈ roots) (hr : h.Reachable more r) : h.Reachable roots r :=
  hr.trans fun s hs ↦ .root (hsub s hs)

/-- A set that has the roots and is closed under references has everything that can be reached. -/
theorem closed {P : HeapRef → Prop} (hroots : ∀ r ∈ roots, P r)
    (hnext : ∀ a, P a → ∀ b ∈ h.references a, P b) (hr : h.Reachable roots r) : P r := by
  induction hr with
  | root hr => exact hroots _ hr
  | step _ hab ih => exact hnext _ ih _ (refers_iff.mp hab)

end Reachable

end Heap

end EcmaTree
