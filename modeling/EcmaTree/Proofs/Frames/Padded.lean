import EcmaTree.Proofs.Alike.Identity
import EcmaTree.Proofs.Frames.Scopes

/-!
# An empty frame more

A heap is padded when it has one frame more than another heap, which is empty and stands between a
frame and what was made below that. Names and receivers are looked up past it, so what changes a
heap does the same to the padded one.
-/

namespace EcmaTree

/-- The place of a frame in a heap that has one frame more, at some index. -/
def FrameId.past (id extra : FrameId) : FrameId :=
  if id.index < extra.index then id else ⟨id.index + 1⟩

namespace FrameId

variable {id id' outer extra : FrameId}

theorem past_of_lt (h : id.index < extra.index) : id.past extra = id := if_pos h

theorem past_of_le (h : extra.index ≤ id.index) : id.past extra = ⟨id.index + 1⟩ :=
  if_neg h.not_gt

theorem past_ne (id extra : FrameId) : id.past extra ≠ extra := by
  intro h
  rw [past] at h
  split at h
  · next hlt => exact hlt.ne (congrArg index h)
  · next hlt =>
    have hindex := congrArg index h
    dsimp only at hindex
    omega

theorem past_lt_past (id id' extra : FrameId) :
    (id.past extra).index < (id'.past extra).index ↔ id.index < id'.index := by
  rw [past, past]
  split <;> split <;> simp only <;> omega

theorem index_past_eq_iff (id id' extra : FrameId) :
    (id.past extra).index = (id'.past extra).index ↔ id.index = id'.index := by
  have hlt := past_lt_past id id' extra
  have hgt := past_lt_past id' id extra
  omega

/-- The same frame, or the empty one below the outer frame instead of that. -/
def Follows (outer extra id id' : FrameId) : Prop :=
  id' = id.past extra ∨ id = outer ∧ id' = extra

end FrameId

/-- The same frame, but that its parent may be the empty frame if it is a newer one. -/
structure Frame.Pads (outer extra id : FrameId) (f f' : Frame) : Prop where
  parent : Option.Rel
    (fun p p' ↦ p' = p.past extra ∨ p = outer ∧ p' = extra ∧ extra.index ≤ id.index)
    f.parent f'.parent
  bindings_eq : f'.bindings = f.bindings
  receiver_eq : f'.receiver = f.receiver
  signal_eq : f'.signal = f.signal

namespace Frame.Pads

variable {outer extra id id' : FrameId} {f f' : Frame}

/-- Frames that know of no empty frame are the same in both heaps. -/
theorem refl (hf : ∀ p, f.parent = some p → p.index < extra.index) :
    f.Pads outer extra id f where
  parent := by
    cases hp : f.parent with
    | none => exact .none
    | some p => exact .some (.inl (FrameId.past_of_lt (hf p hp)).symm)
  bindings_eq := rfl
  receiver_eq := rfl
  signal_eq := rfl

/-- A newer frame may have the same parent. -/
theorem mono (h : f.Pads outer extra id f') (hid : extra.index ≤ id'.index) :
    f.Pads outer extra id' f' := by
  refine ⟨?_, h.bindings_eq, h.receiver_eq, h.signal_eq⟩
  have hp := h.parent
  generalize f.parent = p, f'.parent = p' at hp ⊢
  cases hp with
  | none => exact .none
  | some hp => exact .some (hp.imp_right fun hp ↦ ⟨hp.1, hp.2.1, hid⟩)

/-- A new frame below a frame, or below the empty one. -/
theorem below {p p' : FrameId} (hp : FrameId.Follows outer extra p p')
    (hid : extra.index ≤ id.index)
    (bindings : List Binding) (receiver : Option Value) :
    Frame.Pads outer extra id ⟨some p, bindings, receiver, none⟩
      ⟨some p', bindings, receiver, none⟩ := by
  refine ⟨.some ?_, rfl, rfl, rfl⟩
  rcases hp with hp | ⟨hp, hp'⟩
  · exact .inl hp
  · exact .inr ⟨hp, hp', hid⟩

end Frame.Pads

namespace Heap

/-- The second heap is the first one with an empty frame more, below the outer frame. -/
structure Padded (outer extra : FrameId) (h h' : Heap) : Prop where
  objects_eq : h'.objects = h.objects
  arrays_eq : h'.arrays = h.arrays
  functions_size : h'.functions.size = h.functions.size
  function_rel (id : FunctionId) : Option.Rel (Function.Resembles (FrameId.Follows outer extra))
    (h.function? id) (h'.function? id)
  outer_lt : outer.index < extra.index
  extra_le : extra.index ≤ h.frames.size
  frames_size : h'.frames.size = h.frames.size + 1
  empty : h'.frame? extra = some (.ofParent (some outer))
  frame_rel (id : FrameId) :
    Option.Rel (Frame.Pads outer extra id) (h.frame? id) (h'.frame? (id.past extra))

namespace Padded

variable {outer extra id id' : FrameId} {h h' : Heap} {f f' : Frame} {name : Text}

/-! ### Reading -/

theorem resembles (hp : h.Padded outer extra h') : h.Resembles h' where
  objects_eq := hp.objects_eq
  arrays_eq := hp.arrays_eq
  size_eq := hp.functions_size
  function_rel id := by
    have hid := hp.function_rel id
    generalize h.function? id = g, h'.function? id = g' at hid ⊢
    cases hid with
    | none => exact .none
    | some hg => exact .some (hg.mono fun _ ↦ trivial)

theorem past_parent_lt {p p' : FrameId} (hp : h.Padded outer extra h')
    (hparent : p' = p.past extra ∨ p = outer ∧ p' = extra ∧ extra.index ≤ id.index) :
    p'.index < (id.past extra).index ↔ p.index < id.index := by
  rcases hparent with rfl | ⟨rfl, rfl, hle⟩
  · exact FrameId.past_lt_past ..
  · have hlt := hp.outer_lt
    rw [FrameId.past_of_le hle]
    dsimp only
    omega

/-- Whatever is looked for along a chain is found past the empty frame. -/
theorem findSome?_chain {α : Type} (hp : h.Padded outer extra h') {find : FrameId → Option α}
    {find' : FrameId → Option α} (hextra : find' extra = none)
    (hfind : ∀ id, find' (id.past extra) = find id) (hid : FrameId.Follows outer extra id id') :
    (h'.chain id').findSome? find' = (h.chain id).findSome? find := by
  have hempty (hplain : (h'.chain (outer.past extra)).findSome? find' =
      (h.chain outer).findSome? find) :
      (h'.chain extra).findSome? find' = (h.chain outer).findSome? find := by
    rw [chain, hp.empty]
    simp only [Frame.ofParent]
    rw [if_pos hp.outer_lt, List.findSome?_cons, hextra, ← hplain,
      FrameId.past_of_lt hp.outer_lt]
  have hplain (id : FrameId) :
      (h'.chain (id.past extra)).findSome? find' = (h.chain id).findSome? find := by
    induction hn : id.index using Nat.strong_induction_on generalizing id with
    | _ n ih =>
      subst hn
      have hrel := hp.frame_rel id
      generalize hf : h.frame? id = f, hf' : h'.frame? (id.past extra) = f' at hrel
      cases hrel with
      | none => rw [chain_of_none hf, chain_of_none hf', List.findSome?_nil, List.findSome?_nil]
      | @some f f' hpads =>
        rw [chain_of_some hf, chain_of_some hf']
        have hparent := hpads.parent
        generalize f.parent = p, f'.parent = p' at hparent
        cases hparent with
        | none => simp [hfind]
        | @some p p' hstep =>
          simp only [Option.elim_some, hp.past_parent_lt hstep]
          split
          · next hlt =>
            rw [List.findSome?_cons, List.findSome?_cons, hfind]
            have hrest : (h'.chain p').findSome? find' = (h.chain p).findSome? find := by
              rcases hstep with rfl | ⟨rfl, rfl, -⟩
              · exact ih _ hlt p rfl
              · exact hempty (ih _ hlt p rfl)
            rw [hrest]
          · simp [hfind]
  rcases hid with rfl | ⟨rfl, rfl⟩
  · exact hplain id
  · exact hempty (hplain id)

theorem findLocal?_past (hp : h.Padded outer extra h') (id : FrameId) (name : Text) :
    h'.findLocal? (id.past extra) name = h.findLocal? id name := by
  have hrel := hp.frame_rel id
  rw [findLocal?, findLocal?]
  generalize h.frame? id = f, h'.frame? (id.past extra) = f' at hrel
  cases hrel with
  | none => rfl
  | some hpads => simp only [Option.bind_some, Frame.find?, hpads.bindings_eq]

theorem findLocal?_extra (hp : h.Padded outer extra h') (name : Text) :
    h'.findLocal? extra name = none := by
  rw [findLocal?, hp.empty]
  rfl

theorem lookup_eq (hp : h.Padded outer extra h') (hid : FrameId.Follows outer extra id id')
    (name : Text) : h'.lookup id' name = h.lookup id name :=
  hp.findSome?_chain (hp.findLocal?_extra name) (hp.findLocal?_past · name) hid

theorem receiver_eq (hp : h.Padded outer extra h') (hid : FrameId.Follows outer extra id id') :
    h'.receiver id' = h.receiver id := by
  have hempty : (h'.frame? extra).bind Frame.receiver = none := by
    rw [hp.empty]
    rfl
  have hpast (id : FrameId) : (h'.frame? (id.past extra)).bind Frame.receiver =
      (h.frame? id).bind Frame.receiver := by
    have hrel := hp.frame_rel id
    generalize h.frame? id = f, h'.frame? (id.past extra) = f' at hrel
    cases hrel with
    | none => rfl
    | some hpads => exact hpads.receiver_eq
  have hhome : h'.home? id' = h.home? id := hp.findSome?_chain hempty hpast hid
  rw [receiver_eq_home?, receiver_eq_home?, hhome]

/-- The frame that has a binding is the same one. -/
theorem owner?_eq (hp : h.Padded outer extra h') (hid : FrameId.Follows outer extra id id')
    (name : Text) : h'.owner? id' name = (h.owner? id name).map (·.past extra) := by
  rw [owner?, owner?, List.find?_eq_findSome?_guard, List.find?_eq_findSome?_guard,
    List.map_findSome?]
  refine hp.findSome?_chain ?_ (fun p ↦ ?_) hid
  · simp [Option.guard, hp.findLocal?_extra]
  · simp only [Option.guard, hp.findLocal?_past, Function.comp_apply]
    split <;> rfl

/-! ### Changes -/

theorem of_frames (hp : h.Padded outer extra h') {g g' : Heap} (hframes : g.frames = h.frames)
    (hframes' : g'.frames = h'.frames) (hobjects : g'.objects = g.objects)
    (harrays : g'.arrays = g.arrays) (hsize : g'.functions.size = g.functions.size)
    (hfunctions : ∀ id, Option.Rel (Function.Resembles (FrameId.Follows outer extra))
      (g.function? id) (g'.function? id)) : g.Padded outer extra g' where
  objects_eq := hobjects
  arrays_eq := harrays
  functions_size := hsize
  function_rel := hfunctions
  outer_lt := hp.outer_lt
  extra_le := hframes ▸ hp.extra_le
  frames_size := by rw [hframes, hframes', hp.frames_size]
  empty := by
    rw [frame?, hframes']
    exact hp.empty
  frame_rel id := by
    rw [frame?, frame?, hframes, hframes']
    exact hp.frame_rel id

theorem newFunction (hp : h.Padded outer extra h') {f f' : Function}
    (hf : f.Resembles (FrameId.Follows outer extra) f') :
    (h.newFunction f).2.Padded outer extra (h'.newFunction f').2 := by
  refine hp.of_frames rfl rfl hp.objects_eq hp.arrays_eq ?_ fun id ↦ ?_
  · rw [Heap.newFunction, Heap.newFunction, Store.size_push, Store.size_push, hp.functions_size]
  · rw [function?, function?, Heap.newFunction, Heap.newFunction, Store.get?_push, Store.get?_push,
      hp.functions_size]
    split
    · exact .some hf
    · exact hp.function_rel id

theorem nameFunction (hp : h.Padded outer extra h') (id : FunctionId) (name : Text) :
    (h.nameFunction id name).Padded outer extra (h'.nameFunction id name) := by
  refine hp.of_frames rfl rfl hp.objects_eq hp.arrays_eq ?_ fun other ↦ ?_
  · rw [Heap.nameFunction, Heap.nameFunction, modifyFunction, modifyFunction, Store.size_modify,
      Store.size_modify, hp.functions_size]
  · have hrel := hp.function_rel other
    rw [function?, function?, Heap.nameFunction, Heap.nameFunction, modifyFunction, modifyFunction,
      Store.get?_modify, Store.get?_modify]
    rw [function?, function?] at hrel
    generalize h.functions.get? other.index = f, h'.functions.get? other.index = f' at hrel ⊢
    cases hrel with
    | none => simp
    | some hf =>
      split
      · refine .some ?_
        dsimp only
        rw [hf.name_eq]
        split
        · exact hf.named name
        · exact hf
      · exact .some hf

/-- The same frame changes, and keeps its parent. -/
theorem modifyFrame (hp : h.Padded outer extra h') (id : FrameId) {g : Frame → Frame}
    (hg : ∀ {p f f'}, Frame.Pads outer extra p f f' → Frame.Pads outer extra p (g f) (g f')) :
    (h.modifyFrame id g).Padded outer extra (h'.modifyFrame (id.past extra) g) := by
  have hne : (id.past extra).index ≠ extra.index := fun he ↦
    FrameId.past_ne id extra (congrArg FrameId.mk he)
  refine { hp with
    extra_le := ?_
    frames_size := ?_
    empty := ?_
    frame_rel := fun other ↦ ?_ }
  · rw [Heap.modifyFrame, Store.size_modify]
    exact hp.extra_le
  · rw [Heap.modifyFrame, Heap.modifyFrame, Store.size_modify, Store.size_modify]
    exact hp.frames_size
  · rw [frame?, Heap.modifyFrame, Store.get?_modify, if_neg hne]
    exact hp.empty
  · have hrel := hp.frame_rel other
    rw [frame?, frame?, Heap.modifyFrame, Heap.modifyFrame, Store.get?_modify, Store.get?_modify]
    rw [frame?, frame?] at hrel
    simp only [FrameId.index_past_eq_iff]
    generalize h.frames.get? other.index = f, h'.frames.get? (other.past extra).index = f' at hrel ⊢
    cases hrel with
    | none => simp
    | some hf =>
      split
      · exact .some (hg hf)
      · exact .some hf

theorem assign (hp : h.Padded outer extra h') (hid : FrameId.Follows outer extra id id')
    (name : Text) (v : Value) :
    (h.assign id name v).2.Padded outer extra (h'.assign id' name v).2 := by
  rw [Heap.assign, Heap.assign, hp.owner?_eq hid]
  cases h.owner? id name with
  | none => exact hp
  | some owner =>
    dsimp only [Option.map_some]
    rw [hp.findLocal?_past]
    cases h.findLocal? owner name with
    | none => exact hp
    | some b =>
      dsimp only
      split
      · exact hp
      · refine hp.modifyFrame owner fun hpads ↦
          ⟨hpads.parent, ?_, hpads.receiver_eq, hpads.signal_eq⟩
        rw [Frame.assign, Frame.assign, hpads.bindings_eq]

/-- A new frame is the newest one in both heaps. -/
theorem newFrame (hp : h.Padded outer extra h')
    (hf : f.Pads outer extra (h.newFrame f).1 f') :
    (h.newFrame f).2.Padded outer extra (h'.newFrame f').2 ∧
      (h'.newFrame f').1 = (h.newFrame f).1.past extra := by
  have hle := hp.extra_le
  have hsize := hp.frames_size
  refine ⟨{ hp with
    extra_le := ?_
    frames_size := ?_
    empty := ?_
    frame_rel := fun id ↦ ?_ }, ?_⟩
  · rw [Heap.newFrame, Store.size_push]
    omega
  · rw [Heap.newFrame, Heap.newFrame, Store.size_push, Store.size_push, hsize]
  · rw [frame?, Heap.newFrame, Store.get?_push, if_neg (by omega)]
    exact hp.empty
  · have hrel := hp.frame_rel id
    rw [frame?, frame?] at hrel
    have heq : (id.past extra).index = h'.frames.size ↔ id.index = h.frames.size := by
      have hnew : (⟨h.frames.size⟩ : FrameId).past extra = ⟨h'.frames.size⟩ :=
        hsize ▸ FrameId.past_of_le hle
      have heq := FrameId.index_past_eq_iff id ⟨h.frames.size⟩ extra
      rwa [hnew] at heq
    rw [frame?, frame?, Heap.newFrame, Heap.newFrame, Store.get?_push, Store.get?_push]
    simp only [heq]
    split
    · next hnew =>
      obtain ⟨index⟩ := id
      subst hnew
      exact .some hf
    · exact hrel
  · exact (congrArg FrameId.mk hsize).trans (FrameId.past_of_le hle).symm

end Padded

/-- A new empty frame pads a heap. -/
theorem padded_newChild {h : Heap} {roots : List HeapRef} (hs : h.Sound roots) {id : FrameId}
    (hid : id.index < h.frames.size) :
    h.Padded id (h.newChild id).1 (h.newChild id).2 where
  objects_eq := rfl
  arrays_eq := rfl
  functions_size := rfl
  function_rel other := by
    change Option.Rel _ (h.function? other) (h.function? other)
    cases hg : h.function? other with
    | none => exact .none
    | some g =>
      have hcell : h.cell? (.function other) = some (.function g) :=
        congrArg (Option.map Cell.function) hg
      have hscope {p : FrameId} (hp : .frame p ∈ g.references) :
          FrameId.Follows id (h.newChild id).1 p p := by
        obtain ⟨f, hf, -⟩ := hs.exists_frame (hs.closed _ _ hcell _ hp)
        exact .inl (FrameId.past_of_lt (Store.lt_size_of_get?_eq_some hf)).symm
      obtain ⟨name, _ | _ | _⟩ := g
      · exact .some (.closure name _ (hscope (List.mem_singleton_self _)))
      · exact .some (.captured name (hscope (List.mem_singleton_self _)))
      · exact .some (.host name _)
  outer_lt := hid
  extra_le := le_rfl
  frames_size := Store.size_push ..
  empty := (Store.get?_push ..).trans (if_pos rfl)
  frame_rel other := by
    by_cases hlt : other.index < h.frames.size
    · have hplace : other.past (h.newChild id).1 = other := FrameId.past_of_lt hlt
      have hold : (h.newChild id).2.frame? other = h.frame? other :=
        (Store.get?_push ..).trans (if_neg hlt.ne)
      rw [hplace, hold]
      cases hf : h.frame? other with
      | none => exact .none
      | some f => exact .some (.refl fun p hp ↦ (hs.ordered.parent_lt hf hp).trans hlt)
    · have hnone : h.frame? other = none :=
        Option.eq_none_iff_forall_ne_some.mpr fun f hf ↦ hlt (Store.lt_size_of_get?_eq_some hf)
      have hplace : other.past (h.newChild id).1 = ⟨other.index + 1⟩ :=
        FrameId.past_of_le (Nat.le_of_not_lt hlt)
      have hnew : (h.newChild id).2.frame? ⟨other.index + 1⟩ = none := by
        rw [frame?, newChild, newFrame, Store.get?_push, if_neg (by dsimp only; omega)]
        exact Option.eq_none_iff_forall_ne_some.mpr fun f hf ↦
          hlt (Nat.lt_of_succ_lt (Store.lt_size_of_get?_eq_some hf))
      rw [hnone, hplace, hnew]
      exact .none

end Heap

/-! ### What can be reached -/

/-- The place of a thing in a heap that has one frame more. -/
def HeapRef.past (r : HeapRef) (extra : FrameId) : HeapRef :=
  match r with
  | .frame id => .frame (id.past extra)
  | .object id => .object id
  | .array id => .array id
  | .function id => .function id

theorem Value.past_of_ref? {v : Value} {r : HeapRef} (h : v.ref? = some r) (extra : FrameId) :
    r.past extra = r := by
  cases r with
  | frame id => rcases v with _ | _ | _ | _ | _ | _ | _ | ⟨_ | _⟩ <;> cases h
  | object | array | function => rfl

/-- The same thing, but that it may refer to the empty frame instead of the outer one. -/
inductive Cell.Pads (outer extra : FrameId) : HeapRef → Cell → Cell → Prop where
  | frame {id : FrameId} {f f' : Frame} (h : f.Pads outer extra id f') :
      Pads outer extra (.frame id) (.frame f) (.frame f')
  | object (id : ObjectId) (ps : Properties) :
      Pads outer extra (.object id) (.object ps) (.object ps)
  | array (id : ArrayId) (es : Array Value) : Pads outer extra (.array id) (.array es) (.array es)
  | function {id : FunctionId} {f f' : Function}
      (h : f.Resembles (FrameId.Follows outer extra) f') :
      Pads outer extra (.function id) (.function f) (.function f')

/-- A reference to the same thing, or to the empty frame instead of the outer one. -/
def HeapRef.Follows (outer extra : FrameId) (r r' : HeapRef) : Prop :=
  r' = r.past extra ∨ r = .frame outer ∧ r' = .frame extra

namespace Cell.Pads

variable {outer extra : FrameId} {r : HeapRef} {d d' : Cell}

/-- What refers to something refers to what is there in its place. -/
theorem references (h : Cell.Pads outer extra r d d') :
    List.Forall₂ (HeapRef.Follows outer extra) d.references d'.references := by
  have hsame {vs : List HeapRef} (hvs : ∀ x ∈ vs, ∃ v : Value, v.ref? = some x) :
      List.Forall₂ (HeapRef.Follows outer extra) vs vs := by
    refine List.forall₂_same.mpr fun x hx ↦ ?_
    obtain ⟨v, hv⟩ := hvs x hx
    exact .inl (Value.past_of_ref? hv extra).symm
  have hvalues (vs : List Value) : List.Forall₂ (HeapRef.Follows outer extra)
      (vs.filterMap Value.ref?) (vs.filterMap Value.ref?) := by
    refine hsame fun x hx ↦ ?_
    obtain ⟨v, -, hv⟩ := List.mem_filterMap.mp hx
    exact ⟨v, hv⟩
  cases h with
  | object id ps => exact hvalues ps.values
  | array id es => exact hvalues es.toList
  | @frame id f f' h =>
    have hparent : List.Forall₂ (HeapRef.Follows outer extra) (f.parent.map HeapRef.frame).toList
        (f'.parent.map HeapRef.frame).toList := by
      have hp := h.parent
      generalize f.parent = p, f'.parent = p' at hp
      cases hp with
      | none => exact .nil
      | some hp =>
        refine .cons ?_ .nil
        rcases hp with rfl | ⟨rfl, rfl, -⟩
        · exact .inl rfl
        · exact .inr ⟨rfl, rfl⟩
    rw [Cell.references, Cell.references, Frame.references, Frame.references, h.bindings_eq,
      h.receiver_eq, h.signal_eq, List.append_assoc, List.append_assoc, List.append_assoc,
      List.append_assoc]
    refine List.rel_append hparent (hsame fun x hx ↦ ?_)
    simp only [List.mem_append, List.mem_filterMap, Option.mem_toList,
      Option.bind_eq_some_iff] at hx
    grind
  | @function id f f' h =>
    have hscope {p p' : FrameId} (hp : FrameId.Follows outer extra p p') :
        HeapRef.Follows outer extra (.frame p) (.frame p') := by
      rcases hp with rfl | ⟨rfl, rfl⟩
      · exact .inl rfl
      · exact .inr ⟨rfl, rfl⟩
    cases h with
    | closure name code hp => exact .cons (hscope hp) .nil
    | captured name hp => exact .cons (hscope hp) .nil
    | host => exact .nil

end Cell.Pads

namespace Heap

private theorem exists_right {α β : Type} {R : α → β → Prop} {l : List α} {l' : List β}
    (h : List.Forall₂ R l l') {x : α} (hx : x ∈ l) : ∃ y ∈ l', R x y := by
  induction h with
  | nil => cases hx
  | @cons a b _ _ hab _ ih =>
    rcases List.mem_cons.mp hx with rfl | hx
    · exact ⟨b, List.mem_cons_self, hab⟩
    · obtain ⟨y, hy, hxy⟩ := ih hx
      exact ⟨y, List.mem_cons_of_mem _ hy, hxy⟩

/-- From some roots the same can be reached in both heaps, and past the empty frame in the
second. -/
structure PadsFrom (outer extra : FrameId) (roots : List HeapRef) (h h' : Heap) : Prop where
  cells {r : HeapRef} (hr : h.Reachable roots r) :
    Option.Rel (Cell.Pads outer extra r) (h.cell? r) (h'.cell? (r.past extra))
  only {r : HeapRef} (hr : h'.Reachable roots r) :
    r = .frame extra ∨ ∃ p, h.Reachable roots p ∧ r = p.past extra
  empty (hr : h'.Reachable roots (.frame extra)) :
    h'.frame? extra = some (.ofParent (some outer))

namespace Padded

variable {outer extra : FrameId} {h h' g g' : Heap} {roots : List HeapRef} {r : HeapRef}

theorem cell?_rel (hp : h.Padded outer extra h') (r : HeapRef) :
    Option.Rel (Cell.Pads outer extra r) (h.cell? r) (h'.cell? (r.past extra)) := by
  cases r with
  | frame id =>
    have hrel := hp.frame_rel id
    rw [HeapRef.past, cell?_frame, cell?_frame]
    generalize h.frame? id = f, h'.frame? (id.past extra) = f' at hrel
    cases hrel with
    | none => exact .none
    | some hf => exact .some (.frame hf)
  | object id =>
    rw [HeapRef.past, cell?_object, cell?_object, hp.objects_eq]
    cases h.objects.get? id.index with
    | none => exact .none
    | some ps => exact .some (.object id ps)
  | array id =>
    rw [HeapRef.past, cell?_array, cell?_array, hp.arrays_eq]
    cases h.arrays.get? id.index with
    | none => exact .none
    | some es => exact .some (.array id es)
  | function id =>
    have hrel := hp.function_rel id
    rw [HeapRef.past, cell?_function, cell?_function]
    generalize h.function? id = f, h'.function? id = f' at hrel
    cases hrel with
    | none => exact .none
    | some hf => exact .some (.function hf)

theorem references_rel (hp : h.Padded outer extra h') (r : HeapRef) :
    List.Forall₂ (HeapRef.Follows outer extra) (h.references r) (h'.references (r.past extra)) := by
  have hrel := hp.cell?_rel r
  rw [references_eq, references_eq]
  generalize h.cell? r = d, h'.cell? (r.past extra) = d' at hrel
  cases hrel with
  | none => exact .nil
  | some hd => exact hd.references

/-- The empty frame refers to the outer one. -/
theorem references_extra (hp : h.Padded outer extra h') :
    h'.references (.frame extra) = [.frame outer] := by
  rw [references, hp.empty]
  rfl

/-- What is reached in the one heap is reached in the other one. -/
theorem reachable_past (hp : h.Padded outer extra h') (hroots : ∀ x ∈ roots, x.past extra = x)
    (hr : h.Reachable roots r) : h'.Reachable roots (r.past extra) := by
  refine hr.closed (P := fun r ↦ h'.Reachable roots (r.past extra)) (fun x hx ↦ ?_)
    fun a ha b hb ↦ ?_
  · exact .root ((hroots x hx).symm ▸ hx)
  · obtain ⟨b', hb', hrel⟩ := exists_right (hp.references_rel a) hb
    have hb' := ha.next hb'
    rcases hrel with rfl | ⟨rfl, rfl⟩
    · exact hb'
    · have hplace : (HeapRef.frame outer).past extra = .frame outer :=
        congrArg HeapRef.frame (FrameId.past_of_lt hp.outer_lt)
      rw [hplace]
      exact hb'.next (hp.references_extra ▸ List.mem_singleton_self _)

theorem exists_of_reachable (hp : h.Padded outer extra h') (hroots : ∀ x ∈ roots, x.past extra = x)
    (hr : h'.Reachable roots r) :
    r = .frame extra ∧ h.Reachable roots (.frame outer) ∨
      ∃ p, h.Reachable roots p ∧ r = p.past extra := by
  refine hr.closed (P := fun r ↦ r = .frame extra ∧ h.Reachable roots (.frame outer) ∨
      ∃ p, h.Reachable roots p ∧ r = p.past extra) (fun x hx ↦ ?_) fun a ha b hb ↦ ?_
  · exact .inr ⟨x, .root hx, (hroots x hx).symm⟩
  · rcases ha with ⟨rfl, ha⟩ | ⟨p, hp', rfl⟩
    · rw [hp.references_extra, List.mem_singleton] at hb
      subst hb
      exact .inr ⟨.frame outer, ha, (congrArg HeapRef.frame (FrameId.past_of_lt hp.outer_lt)).symm⟩
    · obtain ⟨x, hx, hrel⟩ := exists_right (hp.references_rel p).flip hb
      have hx := hp'.next hx
      rcases hrel with rfl | ⟨rfl, rfl⟩
      · exact .inr ⟨x, hx, rfl⟩
      · exact .inl ⟨rfl, hx⟩

/-- As far as some roots reach, heaps that are alike to a heap and a padded one are so, too. -/
theorem padsFrom (hp : h.Padded outer extra h') (hroots : ∀ x ∈ roots, x.past extra = x)
    (hg : g.Alike False False roots h) (hg' : g'.Alike False False roots h') :
    g.PadsFrom outer extra roots g' := by
  have hleft {r : HeapRef} : g.Reachable roots r ↔ h.Reachable roots r :=
    hg.reachable_iff fun _ hx ↦ .root hx
  have hright {r : HeapRef} : g'.Reachable roots r ↔ h'.Reachable roots r :=
    hg'.reachable_iff fun _ hx ↦ .root hx
  refine ⟨fun {r} hr ↦ ?_, fun {r} hr ↦ ?_, fun hr ↦ ?_⟩
  · have hpast := hright.mpr (hp.reachable_past hroots (hleft.mp hr))
    rw [hg.cell?_eq (.inr hr), hg'.cell?_eq (.inr hpast)]
    exact hp.cell?_rel r
  · exact (hp.exists_of_reachable hroots (hright.mp hr)).imp_left And.left |>.imp_right
      fun ⟨p, hp, hr⟩ ↦ ⟨p, hleft.mpr hp, hr⟩
  · rw [hg'.frame?_eq (.inr hr)]
    exact hp.empty

end Padded

end Heap

end EcmaTree
