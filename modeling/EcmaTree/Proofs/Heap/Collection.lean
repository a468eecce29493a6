import EcmaTree.Proofs.Heap.Reachability
import Mathlib.Data.Set.Card

/-!
# Collection

A collection removes exactly what cannot be reached from things with an owner outside the heap. The
owners are not given to it: it knows how often each thing is held in total, and finds the owners by
counting how often the heap itself holds it.
-/

namespace EcmaTree

/-! ### Marking -/

namespace Marked

/-- A thing is marked. -/
def Has (marked : Marked) (r : HeapRef) : Prop := marked.contains r.key = true

theorem not_has_empty (r : HeapRef) : ¬ Has ∅ r := by
  simp [Has]

theorem has_insert {marked : Marked} {r s : HeapRef} :
    Has (marked.insert r.key) s ↔ r = s ∨ marked.Has s := by
  unfold Has
  rw [Std.TreeSet.contains_insert, Bool.or_eq_true]
  constructor
  · rintro (hk | hs)
    · exact .inl (HeapRef.key_inj (Nat.compare_eq_eq.mp (beq_iff_eq.mp hk)))
    · exact .inr hs
  · rintro (rfl | hs)
    · exact .inl (by simp)
    · exact .inr hs

end Marked

namespace Heap

/-- Marking forgets no mark. -/
theorem mark_mono (h : Heap) (pending : List HeapRef) (marked : Marked) {r : HeapRef}
    (hr : marked.Has r) : (h.mark pending marked).Has r := by
  fun_induction mark h pending marked with
  | case1 marked => exact hr
  | case2 marked a rest _ ih => exact ih (Marked.has_insert.mpr (.inr hr))
  | case3 marked a rest _ ih => exact ih hr

/-- Marking reaches everything that is pending and there. -/
theorem mark_pending (h : Heap) (pending : List HeapRef) (marked : Marked) {r : HeapRef}
    (hr : r ∈ pending) (hc : h.holds r = true) : (h.mark pending marked).Has r := by
  fun_induction mark h pending marked with
  | case1 marked => simp at hr
  | case2 marked a rest _ ih =>
    rcases List.mem_cons.mp hr with rfl | hr
    · exact h.mark_mono _ _ (Marked.has_insert.mpr (.inl rfl))
    · exact ih (List.mem_append_right _ hr)
  | case3 marked a rest ha ih =>
    rcases List.mem_cons.mp hr with rfl | hr
    · exact h.mark_mono _ _ (by simpa [Marked.Has, hc] using ha)
    · exact ih hr

/-- What was marked is there and was pending, or reachable from what was, or marked before. -/
theorem mark_sound (h : Heap) (pending : List HeapRef) (marked : Marked) {r : HeapRef}
    (hr : (h.mark pending marked).Has r) :
    marked.Has r ∨ h.holds r = true ∧ h.Reachable pending r := by
  fun_induction mark h pending marked with
  | case1 marked => exact .inl hr
  | case2 marked a rest ha ih =>
    have hpending : ∀ s ∈ h.references a ++ rest, h.Reachable (a :: rest) s := by
      intro s hs
      rcases List.mem_append.mp hs with hs | hs
      · exact .next (.root (List.mem_cons_self ..)) hs
      · exact .root (List.mem_cons_of_mem _ hs)
    rcases ih hr with hm | ⟨hc, hp⟩
    · rcases Marked.has_insert.mp hm with rfl | hm
      · exact .inr ⟨ha.1, .root (List.mem_cons_self ..)⟩
      · exact .inl hm
    · exact .inr ⟨hc, hp.trans hpending⟩
  | case3 marked a rest _ ih =>
    rcases ih hr with hm | ⟨hc, hp⟩
    · exact .inl hm
    · exact .inr ⟨hc, hp.mono fun s hs ↦ List.mem_cons_of_mem _ hs⟩

/-- The invariant of marking: what a marked thing refers to is marked too, or still pending. -/
def Pursued (h : Heap) (pending : List HeapRef) (marked : Marked) : Prop :=
  ∀ r, marked.Has r → ∀ s ∈ h.references r, h.holds s = true → marked.Has s ∨ s ∈ pending

/-- When nothing is pending any more, the marked things are closed under references. -/
theorem mark_closed (h : Heap) (pending : List HeapRef) (marked : Marked)
    (hp : h.Pursued pending marked) {r s : HeapRef} (hr : (h.mark pending marked).Has r)
    (hs : s ∈ h.references r) (hc : h.holds s = true) : (h.mark pending marked).Has s := by
  fun_induction mark h pending marked with
  | case1 marked => simpa using hp r hr s hs hc
  | case2 marked a rest _ ih =>
    apply ih _ hr
    intro x hx y hy hyc
    rcases Marked.has_insert.mp hx with rfl | hx
    · exact .inr (List.mem_append_left _ hy)
    · rcases hp x hx y hy hyc with hm | hm
      · exact .inl (Marked.has_insert.mpr (.inr hm))
      · rcases List.mem_cons.mp hm with rfl | hm
        · exact .inl (Marked.has_insert.mpr (.inl rfl))
        · exact .inr (List.mem_append_right _ hm)
  | case3 marked a rest ha ih =>
    apply ih _ hr
    intro x hx y hy hyc
    rcases hp x hx y hy hyc with hm | hm
    · exact .inl hm
    · rcases List.mem_cons.mp hm with rfl | hm
      · exact .inl (by simpa [Marked.Has, hyc] using ha)
      · exact .inr hm

/-- From no marks, marking finds what is there and can be reached. -/
theorem has_mark {h : Heap} {pending : List HeapRef} {r : HeapRef} :
    (h.mark pending ∅).Has r ↔ h.holds r = true ∧ h.Reachable pending r := by
  constructor
  · intro hr
    rcases h.mark_sound pending ∅ hr with hm | hr
    · exact absurd hm (Marked.not_has_empty r)
    · exact hr
  · rintro ⟨hc, hr⟩
    have hall : ∀ {s}, h.Reachable pending s → h.holds s = true → (h.mark pending ∅).Has s := by
      intro s hs
      induction hs with
      | root hs => exact h.mark_pending pending ∅ hs
      | @step a b _ hab ih =>
        intro hb
        exact h.mark_closed pending ∅ (fun x hx ↦ absurd hx (Marked.not_has_empty x))
          (ih (holds_of_refers hab)) (refers_iff.mp hab) hb
    exact hall hr hc

/-! ### Owners -/

end Heap

/-- How often a value holds a thing. -/
def Value.pointersTo (v : Value) (r : HeapRef) : Nat := if v.ref? = some r then 1 else 0

/-- How often a thing of the heap holds another: once for every place in it. -/
def Cell.pointersTo (r : HeapRef) : Cell → Nat
  | .frame f =>
    (if f.parent.map HeapRef.frame = some r then 1 else 0) +
      (f.bindings.map fun b ↦ b.value.pointersTo r).sum +
      (f.receiver.elim 0 fun v ↦ v.pointersTo r) +
      ((f.signal.bind Completion.value?).elim 0 fun v ↦ v.pointersTo r)
  | .object ps => (ps.toList.map fun p ↦ p.2.pointersTo r).sum
  | .array es => (es.toList.map fun v ↦ v.pointersTo r).sum
  | .function f =>
    match f.behaviour with
    | .closure _ p | .captured p => if HeapRef.frame p = r then 1 else 0
    | .host _ => 0

private theorem count_filterMap_ref (vs : List Value) (r : HeapRef) :
    (vs.filterMap Value.ref?).count r = (vs.map fun v ↦ v.pointersTo r).sum := by
  induction vs with
  | nil => rfl
  | cons v rest ih =>
    rw [List.map_cons, List.sum_cons, ← ih, List.filterMap_cons, Value.pointersTo]
    cases hv : v.ref? with
    | none => simp
    | some s =>
      rw [List.count_cons, Nat.add_comm]
      by_cases hs : s = r <;> simp [hs]

private theorem count_toList_ref (o : Option Value) (r : HeapRef) :
    (o.bind Value.ref?).toList.count r = o.elim 0 fun v ↦ v.pointersTo r := by
  cases o with
  | none => rfl
  | some v =>
    rw [Option.bind_some, Option.elim_some, Value.pointersTo]
    cases hv : v.ref? with
    | none => simp
    | some s => by_cases hs : s = r <;> simp [hs]

/-- The collector's list of references has one entry for every place that holds a reference. -/
theorem Cell.count_references (c : Cell) (r : HeapRef) :
    c.references.count r = c.pointersTo r := by
  cases c with
  | frame f =>
    have hp : ((f.parent.map HeapRef.frame).toList).count r =
        if f.parent.map HeapRef.frame = some r then 1 else 0 := by
      cases f.parent with
      | none => rfl
      | some p => by_cases hp : HeapRef.frame p = r <;> simp [hp]
    have hb : (f.bindings.filterMap fun b ↦ b.value.ref?).count r =
        (f.bindings.map fun b ↦ b.value.pointersTo r).sum := by
      have := count_filterMap_ref (f.bindings.map Binding.value) r
      rwa [List.filterMap_map, List.map_map] at this
    simp only [references, Frame.references, List.count_append, pointersTo, hp, hb,
      count_toList_ref]
  | object ps =>
    rw [references, count_filterMap_ref, OrderedMap.values, List.map_map]
    rfl
  | array es => rw [references, count_filterMap_ref, pointersTo]
  | function f =>
    rw [references, Function.references, pointersTo]
    cases f.behaviour with
    | closure code p => by_cases hp : HeapRef.frame p = r <;> simp [hp]
    | captured p => by_cases hp : HeapRef.frame p = r <;> simp [hp]
    | host f => rfl

namespace Heap

/-- How often the heap holds a thing: once for every place in every thing of the heap. -/
def pointersTo (h : Heap) (r : HeapRef) : Nat :=
  (h.cells.map fun s ↦ (h.cell? s).elim 0 (Cell.pointersTo r)).sum

theorem count_innerReferences (h : Heap) (r : HeapRef) :
    h.innerReferences.count r = h.pointersTo r := by
  rw [innerReferences, List.count_flatMap, pointersTo]
  congr 1
  apply List.map_congr_left
  intro s _
  rw [Function.comp_apply, references_eq]
  cases h.cell? s with
  | none => rfl
  | some c => exact c.count_references r

/-- The counts that a heap with its owners has. -/
theorem count_uses (h : Heap) (owners : List HeapRef) (r : HeapRef) :
    (h.uses owners).count r = h.pointersTo r + owners.count r := by
  rw [uses, Tally.count_ofList, List.count_append, count_innerReferences, Nat.add_comm]

/-- Counting finds the things that have an owner. -/
theorem mem_roots {h : Heap} {owners : List HeapRef} {uses : Tally}
    (hu : ∀ r, h.holds r = true → uses.count r = h.pointersTo r + owners.count r) {r : HeapRef} :
    r ∈ h.roots uses ↔ h.holds r = true ∧ r ∈ owners := by
  simp only [roots, List.mem_filter, mem_cells, Tally.count_ofList, count_innerReferences,
    decide_eq_true_eq]
  constructor
  · rintro ⟨hc, hlt⟩
    rw [hu r hc] at hlt
    exact ⟨hc, List.count_pos_iff.mp (by omega)⟩
  · rintro ⟨hc, hr⟩
    have := List.count_pos_iff.mpr hr
    rw [hu r hc]
    exact ⟨hc, by omega⟩

/-- What is not there leads nowhere, so only owners of what is there matter. -/
theorem reachable_roots {h : Heap} {owners : List HeapRef} {uses : Tally}
    (hu : ∀ r, h.holds r = true → uses.count r = h.pointersTo r + owners.count r) {r : HeapRef}
    (hc : h.holds r = true) : h.Reachable (h.roots uses) r ↔ h.Reachable owners r := by
  constructor
  · exact fun hr ↦ hr.mono fun s hs ↦ ((mem_roots hu).mp hs).2
  · intro hr
    induction hr with
    | root hr => exact .root ((mem_roots hu).mpr ⟨hc, hr⟩)
    | step _ hab ih => exact .step (ih (holds_of_refers hab)) hab

/-! ### What is left -/

/-- The things of the heap are listed once each. -/
theorem cells_nodup (h : Heap) : h.cells.Nodup := by
  have hi {α : Type} (s : Store α) : s.indices.Nodup := List.nodup_range.filter _
  simp only [cells, List.nodup_append, List.mem_append, List.mem_map]
  refine ⟨⟨⟨?_, ?_, ?_⟩, ?_, ?_⟩, ?_, ?_⟩
  all_goals first
    | exact (hi _).map fun a b hab ↦ by simpa using hab
    | grind

/-- What is left has not changed, and it is what can be reached from things with an owner. -/
theorem cell?_collect {h : Heap} {owners : List HeapRef} {uses : Tally}
    (hu : ∀ r, h.holds r = true → uses.count r = h.pointersTo r + owners.count r)
    (r : HeapRef) (c : Cell) :
    (h.collect uses).2.cell? r = some c ↔ h.cell? r = some c ∧ h.Reachable owners r := by
  have hm : (h.mark (h.roots uses) ∅).Has r ↔ h.holds r = true ∧ h.Reachable owners r := by
    rw [has_mark]
    exact and_congr_right fun hc ↦ reachable_roots hu hc
  simp only [collect, cell?_restrict]
  cases hc : h.cell? r with
  | none => simp
  | some d =>
    have hh : h.holds r = true := by rw [holds_eq, hc]; rfl
    by_cases hr : h.Reachable owners r
    · have : (h.mark (h.roots uses) ∅).contains r.key = true := hm.mpr ⟨hh, hr⟩
      simp [this, hr]
    · have : ¬ (h.mark (h.roots uses) ∅).contains r.key = true := fun hx ↦ hr (hm.mp hx).2
      simp [this, hr]

/-- The number that a collection has is that of the things it removed. -/
theorem fst_collect {h : Heap} {owners : List HeapRef} {uses : Tally}
    (hu : ∀ r, h.holds r = true → uses.count r = h.pointersTo r + owners.count r) :
    (h.collect uses).1 = {r | h.holds r = true ∧ ¬ h.Reachable owners r}.ncard := by
  have hset : {r | h.holds r = true ∧ ¬ h.Reachable owners r} =
      ((h.unmarked (h.mark (h.roots uses) ∅)).toFinset : Set HeapRef) := by
    ext r
    have hm : (h.mark (h.roots uses) ∅).Has r ↔ h.holds r = true ∧ h.Reachable owners r := by
      rw [has_mark]
      exact and_congr_right fun hc ↦ reachable_roots hu hc
    rw [Marked.Has] at hm
    simp only [Set.mem_ofPred_eq, unmarked, List.coe_toFinset, List.mem_filter, mem_cells,
      Bool.not_eq_true', ← Bool.not_eq_true, hm]
    tauto
  have hnodup : (h.unmarked (h.mark (h.roots uses) ∅)).Nodup := h.cells_nodup.filter _
  rw [hset, Set.ncard_coe_finset, List.toFinset_card_of_nodup hnodup]
  rfl

/-- A collection removes exactly what cannot be reached from a thing with an owner outside the heap,
changes nothing of what is left, and has the number of things it removed, if it is told how often
each thing is held: once for every place in the heap and once for every owner. -/
theorem collect_exact (h : Heap) (owners : List HeapRef) (uses : Tally)
    (hu : ∀ r, h.holds r = true → uses.count r = h.pointersTo r + owners.count r) :
    (∀ r c, (h.collect uses).2.cell? r = some c ↔ h.cell? r = some c ∧ h.Reachable owners r) ∧
      (h.collect uses).1 = {r | h.holds r = true ∧ ¬ h.Reachable owners r}.ncard :=
  ⟨cell?_collect hu, fst_collect hu⟩

/-- An object and an array that hold each other, besides an array that holds itself. -/
def rings : Heap :=
  let (o, h) := empty.newObject .empty
  let (a, h) := h.newArray #[.object o, .object o]
  let (b, h) := h.newArray #[]
  (h.modifyObject o (·.insert "next" (.array a))).modifyArray b (·.push (.array b))

/-- With an owner of the second array only, the first two go away. -/
theorem collect_rings :
    (∀ r, rings.holds r = true →
      (rings.uses [.array ⟨1⟩]).count r = rings.pointersTo r + [HeapRef.array ⟨1⟩].count r) ∧
    (rings.collect (rings.uses [.array ⟨1⟩])).1 = 2 ∧
    2 = {r | rings.holds r = true ∧ ¬ rings.Reachable [.array ⟨1⟩] r}.ncard := by
  have hu (r : HeapRef) : (rings.uses [.array ⟨1⟩]).count r =
      rings.pointersTo r + [HeapRef.array ⟨1⟩].count r := count_uses ..
  have hroots : rings.roots (rings.uses [.array ⟨1⟩]) = [.array ⟨1⟩] := by rfl
  -- The second array is marked once, and refers to nothing but itself.
  have hmark : rings.mark [.array ⟨1⟩] ∅ = (∅ : Marked).insert (HeapRef.array ⟨1⟩).key := by
    have hself : rings.references (.array ⟨1⟩) ++ [] = [.array ⟨1⟩] := by rfl
    rw [mark, dif_pos (by decide), hself, mark, dif_neg (by decide), mark]
  have htwo : (rings.collect (rings.uses [.array ⟨1⟩])).1 = 2 := by
    rw [collect, hroots, hmark]
    rfl
  exact ⟨fun r _ ↦ hu r, htwo, htwo ▸ (collect_exact rings _ _ fun r _ ↦ hu r).2⟩

end Heap

end EcmaTree
