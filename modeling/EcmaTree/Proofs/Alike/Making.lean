import EcmaTree.Proofs.Alike.Members
import EcmaTree.Session.ValueSpec

/-!
# Making values alike

The values of specifications are the same when they are made in alike heaps, and the heaps are still
alike with them.
-/

namespace EcmaTree

open Carries

instance : Carries ArrayId := ⟨fun id ↦ [.array id]⟩
instance : Carries ObjectId := ⟨fun id ↦ [.object id]⟩
instance : Carries FunctionId := ⟨fun id ↦ [.function id]⟩
instance : Carries (List (Text × Value)) := ⟨fun bs ↦ refs (bs.map Prod.snd)⟩

@[simp, grind =] theorem refs_arrayId (id : ArrayId) : refs id = [.array id] := rfl
@[simp, grind =] theorem refs_objectId (id : ObjectId) : refs id = [.object id] := rfl
@[simp, grind =] theorem refs_functionId (id : FunctionId) : refs id = [.function id] := rfl

@[simp, grind =] theorem refs_bindings (bs : List (Text × Value)) :
    refs bs = refs (bs.map Prod.snd) := rfl

/-- Whatever is reached can be taken as a root. -/
theorem Heap.Matched.saturate {free whole intact : Prop} {roots : List HeapRef} {h h' : Heap}
    (ha : h.Matched free whole intact roots h') :
    ∃ all, h.Matched free whole intact all h' ∧ ∀ r, h.Reachable roots r → r ∈ all := by
  classical
  let all := (roots ++ h.cells.flatMap h.references).filter fun r ↦ h.Reachable roots r
  refine ⟨all, ha.shrink fun r hr ↦ by simpa using (List.mem_filter.mp hr).2, fun r hr ↦ ?_⟩
  refine List.mem_filter.mpr ⟨?_, by simpa using hr⟩
  cases hr with
  | root hr => exact List.mem_append_left _ hr
  | @step a _ _ hab =>
    have ha : a ∈ h.cells := mem_cells.mpr (holds_of_refers hab)
    exact List.mem_append_right _ (List.mem_flatMap.mpr ⟨a, ha, refers_iff.mp hab⟩)

/-- A global frame refers to the values that it is given. -/
theorem Heap.Matched.newGlobal {free whole intact : Prop} {roots : List HeapRef} {h h' : Heap}
    (ha : h.Matched free whole intact roots h') {bindings : List (Text × Value)}
    (hbindings : refs bindings ⊆ roots) :
    (h.newGlobal bindings).1 = (h'.newGlobal bindings).1 ∧
      (h.newGlobal bindings).2.Matched free whole intact (.frame (h.newGlobal bindings).1 :: roots)
        (h'.newGlobal bindings).2 := by
  refine ha.newFrame _ fun r hr ↦ ?_
  rcases Frame.mem_references.mp hr with
    ⟨_, ⟨⟩, _⟩ | ⟨b, hb, hr⟩ | ⟨_, ⟨⟩, _⟩ | ⟨_, _, ⟨⟩, _⟩
  rcases List.mem_append.mp (List.mem_reverse.mp hb) with hb | hb
  · simp only [List.mem_cons, List.not_mem_nil, or_false] at hb
    rcases hb with rfl | rfl | rfl <;> cases hr
  · obtain ⟨x, hx, rfl⟩ := List.mem_map.mp hb
    exact .root (hbindings (mem_refs_list.mpr ⟨x.2, List.mem_map_of_mem hx, hr⟩))

namespace ValueSpec

/-- Heaps under construction that are alike, with the same things numbered in them. -/
structure Building.Alike (free whole intact : Prop) (roots : List HeapRef) (b b' : Building) :
    Prop where
  heap : b.heap.Matched free whole intact roots b'.heap
  numbered : b.numbered = b'.numbered
  reached : ∀ p ∈ b.numbered, refs p.2 ⊆ roots

/-- Everything that names mean is among the roots, and nothing goes away. -/
structure Scope.Within (scope : Scope) (roots : List HeapRef) : Prop where
  kept {name : Text} {v : Value} (hv : scope.kept name = some v) : refs v ⊆ roots
  bound {name : Text} {v : Value} (hv : scope.bound name = some v) : refs v ⊆ roots
  tidy (inUse : List HeapRef) (h : Heap) : scope.tidy inUse h = h

theorem Scope.within_empty (roots : List HeapRef) : Scope.empty.Within roots where
  kept hv := by cases hv
  bound hv := by cases hv
  tidy _ _ := rfl

theorem Scope.Within.mono {scope : Scope} {roots more : List HeapRef} (hs : scope.Within roots)
    (hm : roots ⊆ more) : scope.Within more where
  kept hv := List.Subset.trans (hs.kept hv) hm
  bound hv := List.Subset.trans (hs.bound hv) hm
  tidy := hs.tidy

/-- Makes the same in alike heaps. What is made is a root afterwards. -/
def Build.Alike {α : Type} [Carries α] (free whole intact : Prop) (roots : List HeapRef)
    (m : Build α) : Prop :=
  ∀ b b' : Building, b.Alike free whole intact roots b' →
    ∃ more, roots ⊆ more ∧ refs (m b).1 ⊆ more ∧ (m b).1 = (m b').1 ∧
      (m b).2.Alike free whole intact more (m b').2

namespace Build.Alike

variable {α β : Type} [Carries α] [Carries β] {free whole intact : Prop} {roots : List HeapRef}
  {scope : Scope} {inUse : List HeapRef}

theorem pure {a : α} (ha : refs a ⊆ roots) : Build.Alike free whole intact roots (Pure.pure a) :=
  fun _ _ h ↦ ⟨roots, List.Subset.refl _, ha, rfl, h⟩

theorem bind {m : Build α} {f : α → Build β} (hm : Build.Alike free whole intact roots m)
    (hf : ∀ a more, roots ⊆ more → refs a ⊆ more → Build.Alike free whole intact more (f a)) :
    Build.Alike free whole intact roots (m >>= f) := by
  intro b b' h
  obtain ⟨more, hroots, ha, heq, h⟩ := hm b b' h
  obtain ⟨most, hmore, hb, heq', h⟩ := hf _ _ hroots ha _ _ h
  refine ⟨most, List.Subset.trans hroots hmore, hb, ?_, ?_⟩
  · change (f (m b).1 (m b).2).1 = (f (m b').1 (m b').2).1
    rw [← heq]
    exact heq'
  · change Building.Alike free whole intact most (f (m b).1 (m b).2).2 (f (m b').1 (m b').2).2
    rw [← heq]
    exact h

/-- Something is made that refers to nothing yet. -/
theorem create {f : Heap → α × Heap}
    (hf : ∀ h h' : Heap, h.Matched free whole intact roots h' →
      (f h).1 = (f h').1 ∧ (f h).2.Matched free whole intact (refs (f h).1 ++ roots) (f h').2) :
    Build.Alike free whole intact roots (ValueSpec.create f) := by
  intro b b' h
  obtain ⟨heq, hh⟩ := hf _ _ h.heap
  refine ⟨refs (f b.heap).1 ++ roots, List.subset_append_right .., List.subset_append_left .., heq,
    hh, h.numbered, fun p hp ↦ ?_⟩
  exact List.subset_append_of_subset_right _ (h.reached p hp)

theorem changeHeap {f : Heap → Heap}
    (hf : ∀ h h' : Heap, h.Matched free whole intact roots h' →
      (f h).Matched free whole intact roots (f h')) :
    Build.Alike free whole intact roots (ValueSpec.changeHeap f) :=
  fun _ _ h ↦ ⟨roots, List.Subset.refl _, List.nil_subset _, rfl, hf _ _ h.heap, h.numbered,
    h.reached⟩

theorem tidy (hs : scope.Within roots) (inUse : List HeapRef) :
    Build.Alike free whole intact roots (ValueSpec.tidy scope inUse) := by
  intro b b' h
  refine ⟨roots, List.Subset.refl _, List.nil_subset _, rfl, ?_, h.numbered, h.reached⟩
  simp only [ValueSpec.tidy, hs.tidy]
  exact h.heap

theorem register (hs : scope.Within roots) (inUse : List HeapRef) (id : Option Nat) {v : Value}
    (hv : refs v ⊆ roots) :
    Build.Alike free whole intact roots (ValueSpec.register scope inUse id v) := by
  cases id with
  | none => exact pure (List.nil_subset _)
  | some n =>
    intro b b' h
    have hgiven : Building.Alike free whole intact roots
        { b with numbered := (n, v) :: b.numbered.filter fun p ↦ p.1 != n }
        { b' with numbered := (n, v) :: b'.numbered.filter fun p ↦ p.1 != n } :=
      { heap := h.heap
        numbered := by rw [h.numbered]
        reached := fun p hp ↦ by
          rcases List.mem_cons.mp hp with rfl | hp
          · exact hv
          · exact h.reached p (List.mem_filter.mp hp).1 }
    rw [← h.numbered] at hgiven
    unfold ValueSpec.register
    dsimp only
    rw [← h.numbered]
    split
    · exact tidy hs inUse _ _ hgiven
    · exact ⟨roots, List.Subset.refl _, List.nil_subset _, rfl, hgiven⟩

theorem setProperty (hs : scope.Within roots) (inUse : List HeapRef) {id : ObjectId} (key : Text)
    {v : Value} (hid : .object id ∈ roots) (hv : refs v ⊆ roots) :
    Build.Alike free whole intact roots (ValueSpec.setProperty scope inUse id key v) := by
  intro b b' h
  have hchanged : Building.Alike free whole intact roots
      { b with heap := b.heap.modifyObject id (·.insert key v) }
      { b' with heap := b'.heap.modifyObject id (·.insert key v) } :=
    { h with
      heap := h.heap.changeObject (.root hid) (fun ps ↦ by
        have := refs_insert ps key v
        grind) fun r hr ↦ .root (hv hr) }
  unfold ValueSpec.setProperty
  dsimp only
  rw [← h.heap.properties_eq (.root hid)]
  split
  · exact tidy hs inUse _ _ hchanged
  · exact ⟨roots, List.Subset.refl _, List.nil_subset _, rfl, hchanged⟩

end Build.Alike

open Build.Alike

variable {free whole intact : Prop}

mutual

theorem build_alike {scope : Scope} {roots : List HeapRef} (hs : scope.Within roots)
    (inUse : List HeapRef) : ∀ spec, Build.Alike free whole intact roots (build scope inUse spec)
  | undefined | null | bool _ | number _ | text _ => pure (List.nil_subset _)
  | array id elements => by
    rw [build]
    refine bind (Build.Alike.create fun h h' ha ↦ ha.newArray #[] nofun) fun a more hm ha ↦ ?_
    have hs := hs.mono hm
    refine bind (Build.Alike.register hs _ id ha) fun _ more' hm' _ ↦ ?_
    refine bind (fillArray_alike (hs.mono hm') _ (hm' (ha (List.mem_singleton.mpr rfl))) elements)
      fun _ most hmost _ ↦ pure ?_
    exact List.Subset.trans ha (List.Subset.trans hm' hmost)
  | object id members => by
    rw [build]
    refine bind (Build.Alike.create fun h h' ha ↦ ha.newObject .empty nofun) fun o more hm ho ↦ ?_
    have hs := hs.mono hm
    refine bind (Build.Alike.register hs _ id ho) fun _ more' hm' _ ↦ ?_
    refine bind (fillObject_alike (hs.mono hm') _ (hm' (ho (List.mem_singleton.mpr rfl))) members)
      fun _ most hmost _ ↦ pure ?_
    exact List.Subset.trans ho (List.Subset.trans hm' hmost)
  | host id function name => by
    rw [build]
    refine bind (Build.Alike.create fun h h' ha ↦ ha.newFunction (.host name function) nofun)
      fun f more hm hf ↦ ?_
    refine bind (Build.Alike.register (hs.mono hm) _ id hf) fun _ most hmost _ ↦ pure ?_
    exact List.Subset.trans hf hmost
  | numbered id => by
    intro b b' h
    rw [build]
    dsimp only
    rw [← h.numbered]
    refine ⟨roots, List.Subset.refl _, ?_, rfl, h⟩
    cases hp : b.numbered.find? fun p ↦ p.1 = id with
    | none => exact List.nil_subset _
    | some p => exact h.reached p (List.mem_of_find?_eq_some hp)
  | kept name => by
    rw [build]
    refine pure ?_
    cases hv : scope.kept name with
    | none => exact List.nil_subset _
    | some v => exact hs.kept hv
  | bound name => by
    rw [build]
    refine pure ?_
    cases hv : scope.bound name with
    | none => exact List.nil_subset _
    | some v => exact hs.bound hv

theorem fillArray_alike {scope : Scope} {roots : List HeapRef} (hs : scope.Within roots)
    (inUse : List HeapRef) {id : ArrayId} (hid : .array id ∈ roots) :
    ∀ specs, Build.Alike free whole intact roots (fillArray scope inUse id specs)
  | [] => pure (List.nil_subset _)
  | spec :: rest => by
    rw [fillArray]
    refine bind (build_alike hs inUse spec) fun v more hm hv ↦ ?_
    refine bind (Build.Alike.changeHeap fun h h' ha ↦ ?_) fun _ most hmost _ ↦
      fillArray_alike ((hs.mono hm).mono hmost) inUse (hmost (hm hid)) rest
    exact ha.changeArray (.root (hm hid)) (fun es ↦ by simp) fun r hr ↦ .root (hv hr)

theorem fillObject_alike {scope : Scope} {roots : List HeapRef} (hs : scope.Within roots)
    (inUse : List HeapRef) {id : ObjectId} (hid : .object id ∈ roots) :
    ∀ members, Build.Alike free whole intact roots (fillObject scope inUse id members)
  | [] => pure (List.nil_subset _)
  | (key, spec) :: rest => by
    rw [fillObject]
    refine bind (build_alike hs inUse spec) fun v more hm hv ↦ ?_
    exact bind (Build.Alike.setProperty (hs.mono hm) inUse key (hm hid) hv) fun _ most hmost _ ↦
      fillObject_alike ((hs.mono hm).mono hmost) inUse (hmost (hm hid)) rest

end

theorem buildAll_alike {scope : Scope} {roots : List HeapRef} (hs : scope.Within roots)
    (inUse : List HeapRef) :
    ∀ specs, Build.Alike free whole intact roots (buildAll scope inUse specs)
  | [] => pure (List.nil_subset _)
  | spec :: rest => by
    rw [buildAll]
    refine bind (build_alike hs inUse spec) fun v more hm hv ↦ ?_
    refine bind (buildAll_alike (hs.mono hm) _ rest) fun vs most hmost hvs ↦ pure ?_
    rw [refs_cons]
    exact List.append_subset.mpr ⟨List.Subset.trans hv hmost, hvs⟩

theorem buildCall_alike {scope : Scope} {roots : List HeapRef} (hs : scope.Within roots)
    (function : ValueSpec) (arguments : List ValueSpec) (receiver : ValueSpec) :
    Build.Alike free whole intact roots (buildCall scope function arguments receiver) := by
  refine bind (build_alike hs [] function) fun callee more hmore hcallee ↦ ?_
  have hs := hs.mono hmore
  refine bind (buildAll_alike hs _ arguments) fun args most hmost hargs ↦ ?_
  have hs := hs.mono hmost
  refine bind (build_alike hs _ receiver) fun this all hall hthis ↦ pure ?_
  have hcallee := List.Subset.trans hcallee (List.Subset.trans hmost hall)
  rw [refs_pair, refs_pair]
  exact List.append_subset.mpr
    ⟨hcallee, List.append_subset.mpr ⟨List.Subset.trans hargs hall, hthis⟩⟩

theorem buildBindings_alike {scope : Scope} {roots : List HeapRef} (hs : scope.Within roots)
    (inUse : List HeapRef) :
    ∀ specs, Build.Alike free whole intact roots (buildBindings scope inUse specs)
  | [] => pure (List.nil_subset _)
  | (name, spec) :: rest => by
    rw [buildBindings]
    refine bind (build_alike hs inUse spec) fun v more hm hv ↦ ?_
    refine bind (buildBindings_alike (hs.mono hm) _ rest) fun vs most hmost hvs ↦ pure ?_
    rw [refs_bindings, List.map_cons, refs_cons]
    exact List.append_subset.mpr ⟨List.Subset.trans hv hmost, hvs⟩

end ValueSpec

end EcmaTree
