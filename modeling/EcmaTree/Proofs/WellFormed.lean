import EcmaTree.Proofs.Reached

/-!
# Well-formed heaps

In every state that a session comes to, everything is there that can still be reached, closures have
the frames that they captured, and names are looked up in a frame and all its ancestors, up to a
frame without a parent.
-/

namespace EcmaTree

namespace Heap

/-- The frames from one frame up to one without a parent. These, and nothing else, are looked
through for a name or a receiver, and counted for the depth. -/
structure Resolves (h : Heap) (id : FrameId) (frames : List FrameId) : Prop where
  lineage : h.Lineage id frames
  lookup_eq (name : Text) : h.lookup id name = frames.findSome? (h.findLocal? · name)
  receiver_eq : h.receiver id =
    (frames.findSome? fun f ↦ (h.frame? f).bind Frame.receiver).getD .undefined
  depth_eq : h.depth id + 1 = frames.length

/-- What the roots reach is in the heap as a thing of its kind, and every closure and every frame
of the heap leads to a frame without a parent. -/
structure WellFormed (h : Heap) (roots : List HeapRef) : Prop where
  present {r : HeapRef} (hr : h.Reachable roots r) : h.holds r = true
  captured {id : FunctionId} {name : Text} {code : FunctionNode} {scope : FrameId}
    (hf : h.function? id = some ⟨name, .closure code scope⟩) : ∃ f, h.frame? scope = some f
  resolves {id : FrameId} {f : Frame} (hf : h.frame? id = some f) : ∃ frames, h.Resolves id frames

namespace Lineage

variable {h : Heap} {id : FrameId} {frames : List FrameId}

theorem length_pos (hl : h.Lineage id frames) : 0 < frames.length := by
  cases hl with
  | outermost | inside => exact Nat.succ_pos _

end Lineage

variable {h : Heap} {roots : List HeapRef}

theorem Sound.wellFormed (hs : h.Sound roots) : h.WellFormed roots where
  present hr := hs.holds hr
  captured {id name code scope} hf := by
    have hcell : h.cell? (.function id) = some (.function ⟨name, .closure code scope⟩) :=
      congrArg (Option.map Cell.function) hf
    obtain ⟨f, hframe, _⟩ :=
      hs.exists_frame (hs.closed _ _ hcell (.frame scope) (List.mem_singleton.mpr rfl))
    exact ⟨f, hframe⟩
  resolves {id f} hf := by
    have hl := hs.lineage_chain (holds_of_cell? (congrArg (Option.map Cell.frame) hf))
    exact ⟨h.chain id, hl, fun _ ↦ rfl, rfl, Nat.sub_add_cancel hl.length_pos⟩

end Heap

/-- In every state that a session comes to, while it evaluates something and after that, the heap is
well-formed from what is at hand and from what the current frame, the host and the evaluations under
way hold. -/
theorem Session.heap_wellFormed {c : Config} {s : Session} (hs : s.Reached c) :
    s.Passes fun _ kept t ↦ t.heap.WellFormed (t.roots kept) := by
  obtain ⟨t, ha⟩ := hs.exists_alike
  exact ha.passes fun active kept u _ hu ↦ hu.wellFormed

/-- The frame that a function with code captured. -/
def Behaviour.scope? : Behaviour → Option FrameId
  | closure _ frame => some frame
  | captured _ | host _ => none

/-- A session in which a function was made in each turn of a loop, before and after a collection.
The frame that the first function captured leads to the global one. -/
theorem Session.heap_wellFormed_captured :
    let s := (Session.start .standard .start []).after 8 (Program.capturing .let).body
    let collected := (s.step 1 .collect).2
    s.Reached .standard ∧ (s.Passes fun _ kept t ↦ t.heap.WellFormed (t.roots kept)) ∧
      (∃ name code frames, s.heap.function? ⟨0⟩ = some ⟨name, .closure code ⟨3⟩⟩ ∧
        s.heap.Resolves ⟨3⟩ frames ∧ frames.length = 3) ∧
      collected.Reached .standard ∧
      collected.Passes fun _ kept t ↦ t.heap.WellFormed (t.roots kept) := by
  intro s collected
  have hs : s.Reached .standard := .after (.start .start []) 8 _
  have hcollected : collected.Reached .standard := .step 1 .collect hs
  have hpasses := Session.heap_wellFormed hs
  have hidle : s.heap.WellFormed (s.interpreter.state.roots (Carries.refs s.holder)) :=
    hpasses.idle
  have hscope : (s.heap.function? ⟨0⟩).bind (·.behaviour.scope?) = some ⟨3⟩ := by decide +kernel
  obtain ⟨name, code, hfunction⟩ : ∃ name code,
      s.heap.function? ⟨0⟩ = some ⟨name, .closure code ⟨3⟩⟩ := by
    obtain ⟨⟨name, behaviour⟩, hfunction, hscope⟩ := Option.bind_eq_some_iff.mp hscope
    cases behaviour with
    | closure code scope =>
      obtain rfl : scope = ⟨3⟩ := Option.some.inj hscope
      exact ⟨name, code, hfunction⟩
    | captured | host => cases hscope
  obtain ⟨f, hframe⟩ := hidle.captured hfunction
  obtain ⟨frames, hresolves⟩ := hidle.resolves hframe
  have hdepth : s.heap.depth ⟨3⟩ = 2 := by decide +kernel
  exact ⟨hs, hpasses, ⟨_, _, frames, hfunction, hresolves, by rw [← hresolves.depth_eq, hdepth]⟩,
    hcollected, Session.heap_wellFormed hcollected⟩

end EcmaTree
