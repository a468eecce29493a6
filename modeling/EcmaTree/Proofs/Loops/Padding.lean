import EcmaTree.Proofs.Coupling.Level
import EcmaTree.Proofs.Frames.AppendOnly
import EcmaTree.Proofs.Frames.Padded

/-!
# Evaluation in a padded heap

Where an evaluation begins in an empty frame below the current one, it ends as it would have without
that frame. Collections set aside, the heap that it leaves is the one that it would have left, with
the empty frame in it.
-/

namespace EcmaTree

/-- The second state has an empty frame more. It is current instead of the outer frame, unless
another frame is current. -/
structure State.Padded (outer extra : FrameId) (aligned : Bool) (s t : State) : Prop where
  heap : s.heap.Padded outer extra t.heap
  frame : aligned = true ∧ t.frame = s.frame.past extra ∨
    aligned = false ∧ s.frame = outer ∧ t.frame = extra
  depth_eq : t.depth = s.depth
  calls_eq : t.calls = s.calls
  log_eq : t.log = s.log
  notices_eq : t.notices = s.notices

namespace State.Padded

variable {c : Config} {outer extra : FrameId} {aligned : Bool} {s t : State} {f f' : Frame}

theorem follows (h : Padded outer extra aligned s t) :
    FrameId.Follows outer extra s.frame t.frame := by
  rcases h.frame with ⟨-, hframe⟩ | ⟨-, hframe⟩
  · exact .inl hframe
  · exact .inr hframe

theorem frame_eq (h : Padded outer extra true s t) : t.frame = s.frame.past extra :=
  (h.frame.resolve_right fun hf ↦ nomatch hf.1).2

theorem resembles (h : Padded outer extra aligned s t) : s.Resembles t where
  heap := h.heap.resembles
  lookup_eq name := h.heap.lookup_eq h.follows name
  receiver_eq := h.heap.receiver_eq h.follows
  depth_eq := h.depth_eq
  calls_eq := h.calls_eq
  log_eq := h.log_eq

/-- Only the heaps change, and stay padded. -/
theorem withHeap (h : Padded outer extra aligned s t) {g g' : Heap}
    (hg : g.Padded outer extra g') :
    Padded outer extra aligned { s with heap := g } { t with heap := g' } :=
  { h with heap := hg }

/-- A step does the same in both heaps. -/
theorem run (h : Padded outer extra aligned s t) (e : Effect)
    (he : e.marks = true → aligned = true) :
    Padded outer extra aligned (e.run c.uncollected s) (e.run c.uncollected t) := by
  have hh := h.heap
  cases e with
  | object ps =>
    exact h.withHeap (hh.of_frames rfl rfl (congrArg (Store.push · ps) hh.objects_eq) hh.arrays_eq
      hh.functions_size hh.function_rel)
  | array es =>
    exact h.withHeap (hh.of_frames rfl rfl hh.objects_eq (congrArg (Store.push · es) hh.arrays_eq)
      hh.functions_size hh.function_rel)
  | host name g => exact h.withHeap (hh.newFunction (.host name g))
  | closure code => exact h.withHeap (hh.newFunction (.closure code.name code h.follows))
  | modifyObject id g =>
    exact h.withHeap (hh.of_frames rfl rfl (congrArg (Store.modify · id.index g) hh.objects_eq)
      hh.arrays_eq hh.functions_size hh.function_rel)
  | modifyArray id g =>
    exact h.withHeap (hh.of_frames rfl rfl hh.objects_eq
      (congrArg (Store.modify · id.index g) hh.arrays_eq) hh.functions_size hh.function_rel)
  | nameFunction id name => exact h.withHeap (hh.nameFunction id name)
  | assign name v => exact h.withHeap (hh.assign h.follows name v)
  | define name v kind =>
    obtain rfl := he rfl
    have hdefined := hh.modifyFrame s.frame (g := (·.define ⟨name, kind, v⟩)) fun hpads ↦
      ⟨hpads.parent, congrArg (List.cons _) hpads.bindings_eq, hpads.receiver_eq, hpads.signal_eq⟩
    rw [← h.frame_eq] at hdefined
    exact h.withHeap hdefined
  | signal completion =>
    obtain rfl := he rfl
    have hsignal := hh.modifyFrame s.frame (g := fun f ↦ { f with signal := some completion })
      fun hpads ↦ ⟨hpads.parent, hpads.bindings_eq, hpads.receiver_eq, rfl⟩
    rw [← h.frame_eq] at hsignal
    exact h.withHeap hsignal
  | record vs =>
    exact { h with log_eq := congrArg₂ List.cons (hh.resembles.snapshots_eq vs) h.log_eq }
  | note n => exact { h with notices_eq := congrArg (n :: ·) h.notices_eq }
  | moment m => exact { h with }

/-- The same frame is opened in both, and is current in both. -/
theorem opened (h : Padded outer extra aligned s t)
    (hf : f.Pads outer extra (s.heap.newFrame f).1 f') :
    Padded outer extra true (s.opened f) (t.opened f') := by
  obtain ⟨hheap, hid⟩ := h.heap.newFrame hf
  exact { h with
    heap := hheap
    frame := .inl ⟨rfl, hid⟩ }

/-- The frame that a sibling begins as is the same in both. -/
theorem siblingOf (h : Padded outer extra true s t) :
    (s.heap.siblingOf s.frame).Pads outer extra (s.heap.newSibling s.frame).1
      (t.heap.siblingOf t.frame) := by
  have hrel := h.heap.frame_rel s.frame
  rw [Heap.siblingOf, Heap.siblingOf, h.frame_eq]
  generalize s.heap.frame? s.frame = g, t.heap.frame? (s.frame.past extra) = g' at hrel
  cases hrel with
  | none => exact .refl fun p hp ↦ by cases hp
  | some hpads =>
    have hlt : extra.index ≤ (s.heap.newSibling s.frame).1.index := h.heap.extra_le
    have hsibling := hpads.mono hlt
    exact ⟨hsibling.parent, hsibling.bindings_eq, hsibling.receiver_eq, rfl⟩

end State.Padded

/-- An evaluation that is compared with itself in a padded heap. While the empty frame is current,
nothing is declared in it. -/
def Coupling.padded (c : Config) (outer extra : FrameId) : Coupling c.uncollected Bool where
  Rel := State.Padded outer extra
  Marks aligned := aligned = true
  inner _ := true
  marks_inner _ := rfl
  resembles h := h.resembles
  effect e he h := h.run e he
  hold _ h := { h with }
  release _ h _ _ := { h with }
  opening h := h.opened (.below h.follows h.heap.extra_le [] none)
  encloses _ :=
    { closing := fun h h' _ _ ↦ { h' with frame := h.frame }
      throws := fun _ ↦ trivial }
  sibling h := by
    obtain ⟨hheap, hid⟩ := h.heap.newFrame h.siblingOf
    exact { h with
      heap := hheap
      frame := .inl ⟨rfl, hid⟩ }
  call entry _ h :=
    { h with
      depth_eq := congrArg (· + 1) h.depth_eq
      calls_eq := congrArg (entry :: ·) h.calls_eq }
  returning h h' := { h' with depth_eq := h.depth_eq, calls_eq := h.calls_eq }

namespace Coupling

theorem padded_level (c : Config) (outer extra : FrameId) (n : Nat) :
    (padded c outer extra).Evaluators (fun _ ↦ c.uncollected.level n) (c.uncollected.level n) := by
  refine level (.of_forall fun _ _ ↦ trivial)
    (fun {mode s t f code scope scope'} args this h hf ↦ ?_) n
  obtain ⟨⟨id, name, rfl, hleft⟩, ⟨_, _, ⟨⟩, hright⟩⟩ := hf
  have hscope : FrameId.Follows outer extra scope scope' := by
    have hrel := h.heap.function_rel id
    rw [hleft, hright] at hrel
    obtain ⟨hrel⟩ := hrel
    cases hrel
    assumption
  refine ⟨true, ⟨?_, rfl, h.opened (.below hscope h.heap.extra_le _ _)⟩⟩
  exact ⟨fun h h' _ _ ↦ { h' with frame := h.frame }, fun _ ↦ trivial⟩

end Coupling

end EcmaTree
