import EcmaTree.Proofs.Discipline.Level
import EcmaTree.Proofs.Frames.Persistence
import EcmaTree.Proofs.Transparency

/-!
# Frames are append-only

Whatever is evaluated, frames persist. Only the current frame can grow, and only when a declaration
is evaluated in it. What a collection takes away can no longer be reached.
-/

namespace EcmaTree

/-- What became of the frames of a state: old ones may be missing, but all that are there persist,
or have grown if they were current and that is allowed for. Another frame may have become current
only if it is new. -/
structure State.Framed (c : Config) (k : Conduct) (s t : State) : Prop where
  size_le : s.heap.frames.size ≤ t.heap.frames.size
  depth_eq : t.depth = s.depth
  frame_eq : t.frame = s.frame ∨ k = .moving ∧ s.heap.frames.size ≤ t.frame.index
  kept {id : FrameId} {f' : Frame} (hid : id.index < s.heap.frames.size)
    (h : t.heap.frame? id = some f') :
    ∃ f, s.heap.frame? id = some f ∧ (f.Persists f' ∨ k ≠ .still ∧ id = s.frame ∧ f.Grows f')
  /-- Without collections no frame is missing. -/
  present (hc : ∀ m n a, c.collects m n a = false) {id : FrameId}
    (h : t.heap.frame? id = none) : s.heap.frame? id = none

namespace State.Framed

variable {c : Config} {k : Conduct} {s t u : State}

/-- A step that makes no frame, and changes the frames at most in ways in which they persist. -/
theorem of_persists (hsize : t.heap.frames.size = s.heap.frames.size) (hdepth : t.depth = s.depth)
    (hframe : t.frame = s.frame)
    (h : ∀ id, Option.Rel Frame.Persists (s.heap.frame? id) (t.heap.frame? id)) :
    Framed c k s t where
  size_le := hsize.ge
  depth_eq := hdepth
  frame_eq := .inl hframe
  kept {id f'} _ hf' := by
    have hid := h id
    rw [hf'] at hid
    cases hs : s.heap.frame? id with
    | none => simp [hs] at hid
    | some f =>
      rw [hs] at hid
      cases hid with
      | some hp => exact ⟨f, rfl, .inl hp⟩
  present _ id ht := by
    have hid := h id
    rw [ht] at hid
    cases hs : s.heap.frame? id with
    | none => rfl
    | some f => simp [hs] at hid

theorem of_frames_eq (hframes : t.heap.frames = s.heap.frames) (hdepth : t.depth = s.depth)
    (hframe : t.frame = s.frame) : Framed c k s t := by
  refine of_persists (congrArg Store.size hframes) hdepth hframe fun id ↦ ?_
  have hid : t.heap.frame? id = s.heap.frame? id := by
    rw [Heap.frame?, Heap.frame?, hframes]
  rw [hid]
  cases s.heap.frame? id with
  | none => exact .none
  | some f => exact .some (.refl f)

theorem of_modifyFrame {id : FrameId} {g : Frame → Frame}
    (hg : ∀ f, s.heap.frame? id = some f → f.Persists (g f)) :
    Framed c k s { s with heap := s.heap.modifyFrame id g } := by
  refine of_persists (Store.size_modify ..) rfl rfl fun other ↦ ?_
  rw [Heap.frame?, Heap.frame?, Heap.modifyFrame, Store.get?_modify]
  cases hf : s.heap.frames.get? other.index with
  | none => simp
  | some f =>
    split
    · next hid =>
      obtain rfl : id = other := congrArg FrameId.mk hid
      exact .some (hg f hf)
    · exact .some (.refl f)

theorem refl (s : State) : Framed c k s s := of_frames_eq rfl rfl rfl

theorem trans (h : Framed c k s t) (h' : Framed c k t u) : Framed c k s u where
  size_le := h.size_le.trans h'.size_le
  depth_eq := h'.depth_eq.trans h.depth_eq
  frame_eq := by
    rcases h'.frame_eq with hu | ⟨hk, hu⟩
    · rw [hu]
      exact h.frame_eq
    · exact .inr ⟨hk, h.size_le.trans hu⟩
  kept {id f'} hid hu := by
    obtain ⟨g, ht, hg⟩ := h'.kept (hid.trans_le h.size_le) hu
    obtain ⟨f, hs, hf⟩ := h.kept hid ht
    refine ⟨f, hs, ?_⟩
    rcases hg with hg | ⟨hk, hcur, hg⟩
    · rcases hf with hf | ⟨hk, hcur, hf⟩
      · exact .inl (hf.trans hg)
      · exact .inr ⟨hk, hcur, hf.trans hg.grows⟩
    · -- a frame that existed before can be current now only if it was so before
      have hcur' : id = s.frame := by
        rcases h.frame_eq with he | ⟨_, hnew⟩
        · exact hcur.trans he
        · rw [hcur] at hid
          omega
      rcases hf with hf | ⟨_, _, hf⟩
      · exact .inr ⟨hk, hcur', hf.grows.trans hg⟩
      · exact .inr ⟨hk, hcur', hf.trans hg⟩
  present hc {id} hu := h.present hc (h'.present hc hu)

theorem of_touch {h : Heap} (ht : s.heap.Touch h) : Framed c k s { s with heap := h } := by
  cases ht with
  | object | array | host | modifyObject | modifyArray | nameFunction =>
    exact of_frames_eq rfl rfl rfl
  | setSignal id completion =>
    exact of_modifyFrame fun f _ ↦ ⟨rfl, rfl, (Frame.Persists.refl f).bindings⟩
  | assign id name v =>
    rw [Heap.assign]
    split
    · exact refl s
    · next owner _ =>
      split
      · exact refl s
      · next b hb =>
        split
        · exact refl s
        · next hk =>
          refine of_modifyFrame fun f hf ↦ Frame.persists_assign ?_ hk v
          rwa [Heap.findLocal?, hf] at hb

/-- A collection may take frames away, and does nothing else to them. -/
theorem of_moment (m : Moment) : Framed c k s (s.passMoment c m) := by
  rw [State.passMoment]
  split
  · next hnow =>
    refine ⟨(Store.size_restrict ..).ge, rfl, .inl rfl, fun {id f'} _ h ↦ ?_, fun hc ↦ ?_⟩
    · refine ⟨f', ?_, .inl (.refl f')⟩
      have hid : ∃ keep, (s.heap.frames.restrict keep).get? id.index = some f' := ⟨_, h⟩
      obtain ⟨keep, hid⟩ := hid
      rw [Store.get?_restrict] at hid
      split at hid
      · exact hid
      · cases hid
    · rw [hc] at hnow
      cases hnow
  · exact of_frames_eq rfl rfl rfl

/-- A new frame changes none that is there, and may become the current one. -/
theorem of_newFrame (f : Frame) :
    Framed c .moving s
      { s with heap := (s.heap.newFrame f).2, frame := (s.heap.newFrame f).1 } where
  size_le := by
    rw [Heap.newFrame]
    simp
  depth_eq := rfl
  frame_eq := .inr ⟨rfl, le_rfl⟩
  kept {id f'} hid h := by
    rw [Heap.frame?, Heap.newFrame, Store.get?_push, if_neg hid.ne] at h
    exact ⟨f', h, .inl (.refl f')⟩
  present _ id h := by
    rw [Heap.frame?, Heap.newFrame, Store.get?_push] at h
    split at h
    · cases h
    · exact h

theorem of_still (h : Framed c .still s t) : Framed c k s t where
  size_le := h.size_le
  depth_eq := h.depth_eq
  frame_eq := .inl (h.frame_eq.resolve_right fun hm ↦ nomatch hm.1)
  kept hid ht := by
    obtain ⟨f, hs, hf⟩ := h.kept hid ht
    exact ⟨f, hs, .inl (hf.resolve_right fun hg ↦ hg.1 rfl)⟩
  present := h.present

theorem of_declaring (h : Framed c .declaring s t) : Framed c .moving s t where
  size_le := h.size_le
  depth_eq := h.depth_eq
  frame_eq := .inl (h.frame_eq.resolve_right fun hm ↦ nomatch hm.1)
  kept hid ht := by
    obtain ⟨f, hs, hf⟩ := h.kept hid ht
    exact ⟨f, hs, hf.imp_right fun hg ↦ ⟨nofun, hg.2⟩⟩
  present := h.present

theorem of_define (s : State) (name : Text) (v : Value) (kind : BindingKind) :
    Framed c .declaring s { s with heap := s.heap.define s.frame name v kind } where
  size_le := (Store.size_modify ..).ge
  depth_eq := rfl
  frame_eq := .inl rfl
  kept {id f'} _ h := by
    rw [Heap.frame?, Heap.define, Heap.modifyFrame, Store.get?_modify] at h
    split at h
    · next hid =>
      obtain ⟨f, hf, rfl⟩ := Option.map_eq_some_iff.mp h
      exact ⟨f, hf, .inr ⟨by decide, congrArg FrameId.mk hid.symm, f.grows_define _⟩⟩
    · exact ⟨f', h, .inl (.refl f')⟩
  present _ id h := by
    rw [Heap.frame?, Heap.define, Heap.modifyFrame, Store.get?_modify] at h
    split at h
    · exact Option.map_eq_none_iff.mp h
    · exact h

/-- What happens in a new frame leaves the others as they are: the new one was current there. -/
theorem of_opening {f : Frame}
    (h : Framed c .moving
      { s with
        heap := (s.heap.newFrame f).2
        frame := (s.heap.newFrame f).1
        held := .frame s.frame :: s.held } t) :
    Framed c .still s { t with frame := s.frame, held := s.held } where
  size_le := by
    have hsize := h.size_le
    rw [Heap.newFrame, Store.size_push] at hsize
    exact Nat.le_of_succ_le hsize
  depth_eq := h.depth_eq
  frame_eq := .inl rfl
  kept {id f'} hid ht := by
    obtain ⟨g, hg, hf⟩ := h.kept (by rw [Heap.newFrame, Store.size_push]; omega) ht
    rw [Heap.frame?, Heap.newFrame, Store.get?_push, if_neg hid.ne] at hg
    refine ⟨g, hg, .inl (hf.resolve_right fun hgrow ↦ ?_)⟩
    exact hid.ne (congrArg FrameId.index hgrow.2.1)
  present hc {id} ht := by
    have hnew := h.present hc ht
    rw [Heap.frame?, Heap.newFrame, Store.get?_push] at hnew
    split at hnew
    · cases hnew
    · exact hnew

end State.Framed

/-- Keeping frames is a discipline, which accepts all code and allows for all faults. -/
def Discipline.framed (c : Config) : Discipline c where
  Accepts _ := True
  Fits _ := True
  Way := State.Framed c
  Faults _ := True
  Exhausts := True
  accepts_part _ _ := trivial
  accepts_code _ _ := trivial
  exhausts _ _ := trivial
  fits _ _ := trivial
  depth_eq h := h.depth_eq
  refl := State.Framed.refl
  trans := State.Framed.trans
  of_still := State.Framed.of_still
  of_declaring := State.Framed.of_declaring
  way_quiet h := by
    cases h with
    | heap ht => exact .of_touch ht
    | record | note => exact .of_frames_eq rfl rfl rfl
    | moment m => exact .of_moment m
  way_make _ := .of_frames_eq rfl rfl rfl
  way_define := State.Framed.of_define
  way_sibling s := .of_newFrame _
  way_holding h := ⟨h.size_le, h.depth_eq, h.frame_eq, h.kept, h.present⟩
  way_calls h := ⟨h.size_le, h.depth_eq, h.frame_eq, h.kept, h.present⟩
  way_deeper _ h := ⟨h.size_le, rfl, h.frame_eq, h.kept, h.present⟩
  way_opening _ h := .of_opening h
  absent _ _ := trivial
  faults _ _ := trivial
  host _ := trivial

namespace Config

theorem framed_expr (c : Config) (level : Nat) (e : Expr) (s : State) :
    s.Framed c .still (c.expr level e s).state := by
  have h := (Discipline.framed c).level trivial
    (fun _ _ _ _ _ ↦ ⟨fun _ ↦ trivial, fun _ ↦ trivial⟩) level s.depth
  exact (h.1 (.expr e) trivial s rfl trivial).1

theorem framed_stmt (c : Config) (level : Nat) (x : Stmt) (s : State) :
    s.Framed c x.conduct (c.stmt level x s).state := by
  have h := (Discipline.framed c).level trivial
    (fun _ _ _ _ _ ↦ ⟨fun _ ↦ trivial, fun _ ↦ trivial⟩) level s.depth
  exact (h.1 (.stmt x) trivial s rfl trivial).1

/-- The same configuration without collections. -/
def uncollected (c : Config) : Config := { c with collects := fun _ _ _ ↦ false }

end Config

open Carries

/-- What an outcome refers to besides its state: the result, or what was thrown. -/
def Outcome.references {α : Type} [Carries α] : Outcome α → List HeapRef
  | done a _ => refs a
  | thrown e _ => refs e
  | faulted .. | exhausted _ => []

/-- The frames that there were in a state are there after an evaluation, with their parents, their
receivers, their variables and the values of their constants, and the current one with further
variables if that is allowed. A frame that is missing can no longer be reached. -/
structure Outcome.KeepsFrames {α : Type} [Carries α] (s : State) (declares : Bool) (o : Outcome α) :
    Prop where
  kept {id : FrameId} {f f' : Frame} (h : s.heap.frame? id = some f)
    (h' : o.state.heap.frame? id = some f') :
    f.Persists f' ∨ declares = true ∧ id = s.frame ∧ f.Grows f'
  missing {id : FrameId} {f : Frame} (h : s.heap.frame? id = some f)
    (h' : o.state.heap.frame? id = none) :
    ¬ o.state.heap.Reachable (o.references ++ o.state.owners) (.frame id)

/-- Alike outcomes leave states that are alike as far as the outcome and its owners reach. -/
theorem Outcome.Alike.state {α : Type} [Carries α] {p : Pairing} (hfree : ¬ p.free)
    (hshort : ¬ p.short) {held : List Holder} {o o' : Outcome α} (h : o.Alike p held [] o') :
    o.state.Alike p o.references o'.state := by
  cases h with
  | done a h => exact h.mono (List.subset_append_left ..)
  | thrown e h => exact h
  | faulted e h => exact h
  | exhausted h => exact h
  | free hp => exact (hfree hp).elim
  | short hp => exact (hshort hp).elim

/-- What an evaluation can still reach is there in the evaluation that never collects, too, and that
one misses no frame. -/
theorem Outcome.keepsFrames {α : Type} [Carries α] {c : Config} {k : Conduct} {declares : Bool}
    {s : State} {m m' : Eval α} (hk : k ≠ .still → declares = true)
    (ha : Eval.Alike (.collecting c c.collects fun _ _ _ ↦ false) [] [] m m')
    (hm : s.Framed c k (m s).state) (hm' : s.Framed c.uncollected k (m' s).state) :
    (m s).KeepsFrames s declares where
  kept {id f f'} h h' := by
    obtain ⟨g, hg, hf⟩ := hm.kept (Store.lt_size_of_get?_eq_some h) h'
    obtain rfl := Option.some.inj (h.symm.trans hg)
    exact hf.imp_right fun hgrow ↦ ⟨hk hgrow.1, hgrow.2⟩
  missing {id f} h h' hr := by
    have hstates := (ha s s (State.Alike.refl _ [] s False.elim nofun)).state not_false not_false
    have hsame := hstates.heap.frame?_eq (.inr hr)
    have hnone := hm'.present (fun _ _ _ ↦ rfl) (hsame.symm.trans h')
    rw [h] at hnone
    cases hnone

/-- Whatever is evaluated in whatever state, and however it ends, every frame keeps its parent, its
receiver, its variables with their kinds, and the values of its constants. Only the current frame
can get further variables, which come after the ones that it has, and only from a statement that is
a declaration or leads to one through branches and labels alone. A frame that a collection took away
can be reached neither from the outcome nor from an owner. -/
theorem Config.frames_append_only (c : Config) (level : Nat) (s : State) :
    (∀ e, (c.expr level e s).KeepsFrames s false) ∧
      ∀ x, (c.stmt level x s).KeepsFrames s x.declares := by
  have hlevel := Pairing.level_alike (.collecting c c.collects fun _ _ _ ↦ false)
    (.inl (Eq.refl level))
  refine ⟨fun e ↦ ?_, fun x ↦ ?_⟩
  · exact Outcome.keepsFrames (fun h ↦ (h rfl).elim) (hlevel.expr (.refl False e))
      (c.framed_expr level e s) (c.uncollected.framed_expr level e s)
  · refine Outcome.keepsFrames (fun h ↦ ?_) (hlevel.stmt (.refl False x)) (c.framed_stmt level x s)
      (c.uncollected.framed_stmt level x s)
    unfold Stmt.conduct at h
    by_contra hx
    exact h (if_neg hx)

end EcmaTree
