import EcmaTree.Proofs.Frames.Scopes

/-!
# Recasting variables

The variables of a frame are *recast* when they all become variables of one kind. A frame whose
variables are constants can still be read, copied and collected. So where a frame is out of scope it
makes no difference to a step of an evaluation whether the variables of the frame are constants.
-/

namespace EcmaTree

/-! ### Stores -/

namespace Store

variable {α : Type} {s t : Store α}

theorem eq_of_get?_eq (hsize : s.size = t.size) (h : ∀ i, s.get? i = t.get? i) : s = t := by
  obtain ⟨cells⟩ := s
  obtain ⟨cells'⟩ := t
  congr 1
  refine Array.ext hsize fun i hi hi' ↦ ?_
  have hcell := h i
  rw [get?, get?, Array.getElem?_eq_getElem hi, Array.getElem?_eq_getElem hi'] at hcell
  exact hcell

theorem modify_modify (s : Store α) (i : Nat) (f g : α → α) :
    (s.modify i f).modify i g = s.modify i (g ∘ f) := by
  refine eq_of_get?_eq (by simp only [size_modify]) fun j ↦ ?_
  rw [get?_modify, get?_modify, get?_modify]
  split
  · rw [Option.map_map]
  · rfl

theorem modify_comm {i j : Nat} {f g : α → α} (h : i ≠ j ∨ ∀ a, f (g a) = g (f a)) :
    (s.modify j g).modify i f = (s.modify i f).modify j g := by
  refine eq_of_get?_eq (by simp only [size_modify]) fun k ↦ ?_
  simp only [get?_modify]
  split
  · split
    · next hi hj =>
      have hfg : f ∘ g = g ∘ f := funext (h.resolve_left fun hne ↦ hne (hi.trans hj.symm))
      rw [Option.map_map, Option.map_map, hfg]
    · rfl
  · rfl

theorem push_modify {i : Nat} (hi : i < s.size) (f : α → α) (a : α) :
    (s.modify i f).push a = (s.push a).modify i f := by
  refine eq_of_get?_eq (by simp only [size_push, size_modify]) fun j ↦ ?_
  rw [get?_push, get?_modify, get?_modify, get?_push, size_modify]
  by_cases hj : j = s.size
  · rw [if_pos hj, if_pos hj, if_neg (by omega)]
  · rw [if_neg hj, if_neg hj]

theorem restrict_modify (s : Store α) (i : Nat) (f : α → α) (keep : Nat → Bool) :
    (s.modify i f).restrict keep = (s.restrict keep).modify i f := by
  refine eq_of_get?_eq (by simp only [size_restrict, size_modify]) fun j ↦ ?_
  simp only [get?_restrict, get?_modify]
  split
  · rfl
  · split <;> rfl

end Store

/-! ### Frames -/

/-- The same variable as one of another kind. -/
def Binding.recast (kind : BindingKind) (b : Binding) : Binding := { b with kind := kind }

namespace Frame

variable {kind kind' : BindingKind}

/-- The same frame with variables of one kind. -/
def recast (kind : BindingKind) (f : Frame) : Frame :=
  { f with bindings := f.bindings.map (Binding.recast kind) }

theorem recast_recast (f : Frame) : (f.recast kind).recast kind' = f.recast kind' := by
  rw [recast, recast, recast, List.map_map]
  rfl

theorem references_recast (f : Frame) : (f.recast kind).references = f.references := by
  rw [references, references, recast, List.filterMap_map]
  rfl

theorem find?_recast (f : Frame) (name : Text) :
    (f.recast kind).find? name = (f.find? name).map (Binding.recast kind) := by
  rw [find?, recast, List.find?_map]
  rfl

theorem assign_recast (f : Frame) (name : Text) (v : Value) :
    (f.recast kind).assign name v = (f.assign name v).recast kind := by
  have hfirst (bs : List Binding) : assignFirst name v (bs.map (Binding.recast kind)) =
      (assignFirst name v bs).map (Binding.recast kind) := by
    induction bs with
    | nil => rfl
    | cons b rest ih =>
      rw [List.map_cons, assignFirst, assignFirst, ih, apply_ite (List.map (Binding.recast kind))]
      rfl
  exact congrArg (Frame.mk f.parent · f.receiver f.signal) (hfirst f.bindings)

/-- All variables of a frame are of one kind if recasting them makes no difference. -/
theorem recast_eq_self_iff {f : Frame} :
    f.recast kind = f ↔ ∀ b ∈ f.bindings, b.kind = kind := by
  have hbinding (b : Binding) : b.recast kind = b ↔ b.kind = kind :=
    ⟨fun h ↦ (congrArg Binding.kind h).symm, fun h ↦ h ▸ rfl⟩
  constructor
  · intro h b hb
    have hmap : f.bindings.map (Binding.recast kind) = f.bindings.map id :=
      (congrArg bindings h).trans (List.map_id f.bindings).symm
    exact (hbinding b).mp (List.map_inj_left.mp hmap b hb)
  · intro h
    have hmap : f.bindings.map (Binding.recast kind) = f.bindings.map id :=
      List.map_inj_left.mpr fun b hb ↦ (hbinding b).mpr (h b hb)
    exact congrArg (Frame.mk f.parent · f.receiver f.signal) (hmap.trans (List.map_id f.bindings))

end Frame

/-! ### Heaps -/

namespace Heap

variable {h h' : Heap} {id g : FrameId} {kind kind' : BindingKind}

/-- The same heap, in which the variables of a frame are of one kind. -/
def recast (h : Heap) (id : FrameId) (kind : BindingKind) : Heap :=
  h.modifyFrame id (Frame.recast kind)

theorem frame?_recast (h : Heap) (id g : FrameId) (kind : BindingKind) :
    (h.recast id kind).frame? g =
      if id = g then (h.frame? g).map (Frame.recast kind) else h.frame? g :=
  h.frame?_modifyFrame id g (Frame.recast kind)

theorem recast_recast (h : Heap) (id : FrameId) :
    (h.recast id kind).recast id kind' = h.recast id kind' := by
  have hcomp : Frame.recast kind' ∘ Frame.recast kind = Frame.recast kind' :=
    funext Frame.recast_recast
  rw [recast, recast, recast, modifyFrame, modifyFrame, modifyFrame, Store.modify_modify, hcomp]

theorem modifyFrame_recast {f : Frame → Frame}
    (hf : id ≠ g ∨ ∀ x : Frame, f (x.recast kind) = (f x).recast kind) :
    (h.recast id kind).modifyFrame g f = (h.modifyFrame g f).recast id kind := by
  have hindex : g.index ≠ id.index ∨ ∀ x : Frame, f (x.recast kind) = (f x).recast kind :=
    hf.imp_left fun hne heq ↦ hne (congrArg FrameId.mk heq.symm)
  exact congrArg (Heap.mk · h.objects h.arrays h.functions) (Store.modify_comm hindex)

theorem newFrame_recast (hid : id.index < h.frames.size) (f : Frame) :
    (h.recast id kind).newFrame f = ((h.newFrame f).1, (h.newFrame f).2.recast id kind) := by
  rw [newFrame, recast, modifyFrame, Store.push_modify hid, Store.size_modify]
  rfl

/-- Recasting a frame makes no difference if its variables are of the kind already. -/
theorem recast_eq_self_iff :
    h.recast id kind = h ↔ ∀ f, h.frame? id = some f → ∀ b ∈ f.bindings, b.kind = kind := by
  have hframe (g : FrameId) := h.frame?_recast id g kind
  constructor
  · intro heq f hf
    have hsame := hframe id
    rw [heq, if_pos rfl, hf] at hsame
    exact Frame.recast_eq_self_iff.mp (Option.some.inj hsame).symm
  · intro hkinds
    refine congrArg (Heap.mk · h.objects h.arrays h.functions)
      (Store.eq_of_get?_eq (Store.size_modify ..) fun i ↦ ?_)
    refine (hframe ⟨i⟩).trans ?_
    split
    · next heq =>
      cases hf : h.frame? ⟨i⟩ with
      | none => exact hf.symm
      | some f =>
        have hsame := Frame.recast_eq_self_iff.mpr (hkinds f (heq ▸ hf))
        rw [Option.map_some, hsame]
        exact hf.symm
    · rfl

theorem keepsScope_recast (h : Heap) (id : FrameId) (kind : BindingKind) (g : FrameId) :
    h.KeepsScope (h.recast id kind) g :=
  h.keepsScope_modifyFrame g id fun _ ↦ ⟨rfl, rfl⟩

theorem resembles_recast (h : Heap) (id : FrameId) (kind : BindingKind) :
    (h.recast id kind).Resembles h where
  objects_eq := rfl
  arrays_eq := rfl
  size_eq := rfl
  function_rel := (Resembles.refl h).function_rel

/-! ### Reading names -/

theorem findLocal?_recast (h : Heap) (id g : FrameId) (kind : BindingKind) (name : Text) :
    (h.recast id kind).findLocal? g name =
      if id = g then (h.findLocal? g name).map (Binding.recast kind) else h.findLocal? g name := by
  rw [findLocal?, frame?_recast, findLocal?]
  split
  · cases h.frame? g with
    | none => rfl
    | some f => exact f.find?_recast name
  · rfl

theorem owner?_recast (h : Heap) (id g : FrameId) (kind : BindingKind) (name : Text) :
    (h.recast id kind).owner? g name = h.owner? g name := by
  rw [owner?, owner?, (h.keepsScope_recast id kind g).chain_eq]
  congr 1
  funext p
  rw [findLocal?_recast]
  split
  · rw [Option.isSome_map]
  · rfl

/-- The variables of a frame that is out of scope are not read. -/
theorem findLocal?_recast_of_owner? {owner : FrameId} {name : Text}
    (hid : id ∉ h.chain g ∨ h.recast id kind = h) (howner : h.owner? g name = some owner) :
    (h.recast id kind).findLocal? owner name = h.findLocal? owner name := by
  rcases hid with hid | hid
  · have hmem : owner ∈ h.chain g := List.mem_of_find?_eq_some howner
    have hne : id ≠ owner := fun heq ↦ hid (heq ▸ hmem)
    rw [findLocal?_recast, if_neg hne]
  · rw [hid]

theorem lookup_recast (hid : id ∉ h.chain g ∨ h.recast id kind = h) (name : Text) :
    (h.recast id kind).lookup g name = h.lookup g name := by
  rw [lookup_eq_bind, lookup_eq_bind, owner?_recast]
  cases howner : h.owner? g name with
  | none => rfl
  | some owner => exact findLocal?_recast_of_owner? hid howner

theorem assign_recast (hid : id ∉ h.chain g ∨ h.recast id kind = h) (name : Text) (v : Value) :
    (h.recast id kind).assign g name v =
      ((h.assign g name v).1, (h.assign g name v).2.recast id kind) := by
  rw [assign, assign, owner?_recast]
  cases howner : h.owner? g name with
  | none => rfl
  | some owner =>
    dsimp only
    rw [findLocal?_recast_of_owner? hid howner]
    cases h.findLocal? owner name with
    | none => rfl
    | some b =>
      dsimp only
      split
      · rfl
      · rw [modifyFrame_recast (.inr fun x ↦ x.assign_recast name v)]

/-! ### Collecting -/

theorem cells_recast (h : Heap) (id : FrameId) (kind : BindingKind) :
    (h.recast id kind).cells = h.cells := by
  rw [cells, recast, modifyFrame, Store.indices_modify]
  rfl

theorem references_recast (h : Heap) (id : FrameId) (kind : BindingKind) (r : HeapRef) :
    (h.recast id kind).references r = h.references r := by
  cases r with
  | frame g =>
    rw [references, references, frame?_recast]
    split
    · rw [Option.map_map]
      congr 2
      exact funext Frame.references_recast
    · rfl
  | object | array | function => rfl

theorem innerReferences_recast (h : Heap) (id : FrameId) (kind : BindingKind) :
    (h.recast id kind).innerReferences = h.innerReferences := by
  rw [innerReferences, innerReferences, cells_recast]
  congr 1
  exact funext (h.references_recast id kind)

/-- What is marked is decided by what there is and what it refers to. -/
theorem mark_congr (hholds : ∀ r, h'.holds r = h.holds r)
    (hrefs : ∀ r, h'.references r = h.references r) (pending : List HeapRef) (marked : Marked) :
    h'.mark pending marked = h.mark pending marked := by
  fun_induction h.mark pending marked with
  | case1 marked => rw [mark]
  | case2 marked r rest hr ih => rw [mark, dif_pos (hholds r ▸ hr), hrefs, ih]
  | case3 marked r rest hr ih => rw [mark, dif_neg (hholds r ▸ hr), ih]

theorem holds_recast (h : Heap) (id : FrameId) (kind : BindingKind) (r : HeapRef) :
    (h.recast id kind).holds r = h.holds r := by
  rw [Bool.eq_iff_iff, ← mem_cells, ← mem_cells, cells_recast]

theorem collect_recast (h : Heap) (id : FrameId) (kind : BindingKind) (owners : List HeapRef) :
    (h.recast id kind).collect ((h.recast id kind).uses owners) =
      ((h.collect (h.uses owners)).1, (h.collect (h.uses owners)).2.recast id kind) := by
  have huses : (h.recast id kind).uses owners = h.uses owners := by
    rw [uses, uses, innerReferences_recast]
  have hroots (uses : Tally) : (h.recast id kind).roots uses = h.roots uses := by
    rw [roots, roots, innerReferences_recast, cells_recast]
  have hrestrict (keep : HeapRef → Bool) :
      (h.recast id kind).restrict keep = (h.restrict keep).recast id kind := by
    rw [restrict, recast, modifyFrame, Store.restrict_modify]
    rfl
  rw [huses, collect, collect, hroots,
    mark_congr (h.holds_recast id kind) (h.references_recast id kind), unmarked, cells_recast,
    hrestrict]
  rfl

end Heap

/-! ### States and steps -/

namespace State

variable {s : State} {id : FrameId}

/-- The state as it is given to code inside or outside of the scope of a frame: the variables of the
frame are those of a let declaration to the one, and constants to the other. -/
def recast (s : State) (id : FrameId) (inside : Bool) : State :=
  { s with heap := s.heap.recast id (if inside then .let else .const) }

@[simp] theorem recast_recast (s : State) (id : FrameId) (inside inside' : Bool) :
    (s.recast id inside).recast id inside' = s.recast id inside' := by
  rw [recast, recast, recast, Heap.recast_recast]

/-- A frame that is out of scope shows nothing, and one that is recast as it is shows the same. -/
theorem resembles_recast {inside : Bool}
    (hid : id ∉ s.heap.chain s.frame ∨ s.recast id inside = s) :
    (s.recast id inside).Resembles s where
  heap := s.heap.resembles_recast id _
  lookup_eq name := (Heap.lookup_recast (hid.imp_right (congrArg heap)) name).symm
  receiver_eq := by
    have hhome := (s.heap.keepsScope_recast id (if inside then .let else .const) s.frame).home?_eq
    rw [Heap.receiver_eq_home?, Heap.receiver_eq_home?]
    exact congrArg (·.getD .undefined) hhome.symm
  depth_eq := rfl
  calls_eq := rfl
  log_eq := rfl

theorem opened_recast (hid : id.index < s.heap.frames.size) (f : Frame) (inside : Bool) :
    (s.recast id inside).opened f = (s.opened f).recast id inside := by
  rw [opened, recast, Heap.newFrame_recast hid]
  rfl

theorem booked_recast (s : State) (id : FrameId) (inside : Bool) :
    (s.recast id inside).booked = s.booked.recast id inside := by
  have hcreated : (s.recast id inside).heap.created = s.heap.created := by
    rw [Heap.created, recast, Heap.recast, Heap.modifyFrame, Store.size_modify]
    rfl
  rw [booked, hcreated]
  rfl

theorem collect_recast (s : State) (id : FrameId) (inside : Bool) :
    (s.recast id inside).collect = s.collect.recast id inside := by
  have hcollect : (s.recast id inside).heap.collect
      ((s.recast id inside).heap.uses (s.recast id inside).owners) = _ :=
    s.heap.collect_recast id (if inside then .let else .const) s.owners
  rw [collect, hcollect, booked_recast]
  rfl

theorem passMoment_recast (c : Config) (m : Moment) (s : State) (id : FrameId) (inside : Bool) :
    (s.recast id inside).passMoment c m = (s.passMoment c m).recast id inside := by
  have hmoments (t : State) : (t.recast id inside).moments = t.moments := rfl
  have haccounting (t : State) : (t.recast id inside).accounting = t.accounting := rfl
  rw [passMoment, passMoment, booked_recast, collect_recast, hmoments, haccounting]
  split
  · rfl
  · rfl

end State

/-- It makes no difference to a step whether a frame is recast before or after it, if the frame is
out of scope or recast as it is, and the step does not mark it. -/
theorem Effect.run_recast (c : Config) (e : Effect) {s : State} {id : FrameId} {inside : Bool}
    (hmarks : e.marks = true → s.frame ≠ id)
    (hid : id ∉ s.heap.chain s.frame ∨ s.recast id inside = s) :
    e.run c (s.recast id inside) = (e.run c s).recast id inside := by
  cases e with
  | object | array | host | closure | modifyObject | modifyArray | nameFunction | note => rfl
  | assign name v =>
    rw [run, State.recast, Heap.assign_recast (hid.imp_right (congrArg State.heap))]
    rfl
  | define | signal =>
    have hne := hmarks rfl
    exact congrArg (fun h ↦ { s with heap := h }) (Heap.modifyFrame_recast (.inl hne.symm))
  | record vs =>
    have hsnapshots :=
      (s.heap.resembles_recast id (if inside then .let else .const)).snapshots_eq vs
    exact congrArg (fun entry ↦ { s.recast id inside with log := entry :: s.log }) hsnapshots.symm
  | moment m => exact s.passMoment_recast c m id inside

end EcmaTree
