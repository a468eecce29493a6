import EcmaTree.Proofs.Heap.Reachability

/-!
# Sound heaps

A heap is sound when whatever its things refer to is there, and frames have parents that are older
than they are. So everything is there that can be reached from roots that are, and every chain of
frames leads to a frame without a parent. What refers only to what is reached can be stored in a
sound heap.
-/

namespace EcmaTree

/-- The thing can be stored under the reference. The parent of a frame has to be older. -/
def Cell.Fits (r : HeapRef) (c : Cell) : Prop :=
  ∀ id f q, r = .frame id → c = .frame f → f.parent = some q → q.index < id.index

namespace Cell

theorem fits_frame {id : FrameId} {f : Frame} :
    (Cell.frame f).Fits (.frame id) ↔ ∀ q, f.parent = some q → q.index < id.index := by
  constructor
  · exact fun h q hq ↦ h id f q rfl rfl hq
  · rintro h _ _ q ⟨⟩ ⟨⟩ hq
    exact h q hq

theorem fits_object {r : HeapRef} {ps : Properties} : (Cell.object ps).Fits r := by
  intro _ _ _ _ h
  cases h

theorem fits_array {r : HeapRef} {es : Array Value} : (Cell.array es).Fits r := by
  intro _ _ _ _ h
  cases h

theorem fits_function {r : HeapRef} {f : Function} : (Cell.function f).Fits r := by
  intro _ _ _ _ h
  cases h

end Cell

namespace Heap

/-- After a change of one thing nothing else is reached that was not before, if what is stored
refers only to what the roots reached. -/
theorem reachable_store {h g : Heap} {roots : List HeapRef} {r : HeapRef} {c : Option Cell}
    (hg : ∀ s, g.cell? s = if s = r then c else h.cell? s)
    (hrefs : ∀ d, c = some d → ∀ x ∈ d.references, h.Reachable roots x) {s : HeapRef}
    (hs : g.Reachable (r :: roots) s) : s = r ∨ h.Reachable roots s := by
  refine hs.closed (fun a ha ↦ (List.mem_cons.mp ha).imp id .root) ?_
  intro a ha b hb
  rw [Heap.references_eq, hg] at hb
  by_cases hr : a = r
  · rw [if_pos hr] at hb
    cases hd : c with
    | none => simp [hd] at hb
    | some d => exact .inr (hrefs d hd b (by simpa [hd] using hb))
  · rw [if_neg hr, ← Heap.references_eq] at hb
    exact .inr ((ha.resolve_left hr).next hb)

theorem holds_of_cell? {h : Heap} {r : HeapRef} {c : Cell} (hc : h.cell? r = some c) :
    h.holds r = true := by
  rw [holds_eq, hc]
  rfl

theorem exists_cell? {h : Heap} {r : HeapRef} (hr : h.holds r = true) :
    ∃ c, h.cell? r = some c := by
  rw [holds_eq] at hr
  exact Option.isSome_iff_exists.mp hr

/-- The roots are in the heap, and so is whatever its things refer to. All things fit where they
are. -/
structure Sound (h : Heap) (roots : List HeapRef) : Prop where
  roots : ∀ r ∈ roots, h.holds r = true
  fits : ∀ r c, h.cell? r = some c → c.Fits r
  closed : ∀ r c, h.cell? r = some c → ∀ x ∈ c.references, h.holds x = true

namespace Sound

variable {h g : Heap} {roots less : List HeapRef}

/-- Nothing is wrong with a heap in which nothing is. -/
theorem empty : Heap.empty.Sound [] where
  roots := nofun
  fits r c hc := by cases r <;> simp [cell?, Heap.empty, frame?, function?] at hc
  closed r c hc := by cases r <;> simp [cell?, Heap.empty, frame?, function?] at hc

theorem holds (hs : h.Sound roots) {r : HeapRef} (hr : h.Reachable roots r) :
    h.holds r = true := by
  refine hr.closed hs.roots fun a ha b hb ↦ ?_
  obtain ⟨c, hc⟩ := exists_cell? ha
  rw [references_of_cell? hc] at hb
  exact hs.closed a c hc b hb

theorem exists_frame (hs : h.Sound roots) {id : FrameId} (hr : h.holds (.frame id) = true) :
    ∃ f, h.frame? id = some f ∧ ∀ q, f.parent = some q → q.index < id.index := by
  obtain ⟨c, hc⟩ := exists_cell? hr
  have hfits := hs.fits _ c hc
  rw [cell?_frame] at hc
  obtain ⟨f, hf, rfl⟩ := Option.map_eq_some_iff.mp hc
  exact ⟨f, hf, Cell.fits_frame.mp hfits⟩

/-- Fewer roots reach less. -/
theorem shrink (hs : h.Sound roots) (hless : ∀ r ∈ less, h.Reachable roots r) : h.Sound less :=
  { hs with roots := fun r hr ↦ hs.holds (hless r hr) }

/-- A change of one thing keeps a heap sound, if what is stored fits and refers only to what the
roots reach. The new thing can then be a root itself. -/
theorem store (hs : h.Sound roots) {r : HeapRef} {c : Cell}
    (hg : ∀ s, g.cell? s = if s = r then some c else h.cell? s) (hfits : c.Fits r)
    (hrefs : ∀ x ∈ c.references, h.Reachable roots x) : g.Sound (r :: roots) := by
  have hholds {s : HeapRef} (hsh : h.holds s = true) : g.holds s = true := by
    rw [holds_eq, hg]
    split
    · rfl
    · rwa [holds_eq] at hsh
  have hcell {s : HeapRef} {d : Cell} (hd : g.cell? s = some d) :
      s = r ∧ d = c ∨ h.cell? s = some d := by
    rw [hg] at hd
    split at hd
    · next hsr => exact .inl ⟨hsr, (Option.some.inj hd).symm⟩
    · exact .inr hd
  constructor
  case roots =>
    intro s hsr
    rcases List.mem_cons.mp hsr with rfl | hsr
    · exact holds_of_cell? ((hg s).trans (if_pos rfl))
    · exact hholds (hs.roots s hsr)
  case fits =>
    intro s d hd
    rcases hcell hd with ⟨rfl, rfl⟩ | hd
    · exact hfits
    · exact hs.fits s d hd
  case closed =>
    intro s d hd x hx
    rcases hcell hd with ⟨rfl, rfl⟩ | hd
    · exact hholds (hs.holds (hrefs x hx))
    · exact hholds (hs.closed s d hd x hx)

end Sound

/-- A frame and its ancestors, as parents lead from one to the next, up to a frame without one. -/
inductive Lineage (h : Heap) : FrameId → List FrameId → Prop where
  | outermost {id : FrameId} {f : Frame} (hf : h.frame? id = some f) (hp : f.parent = none) :
      Lineage h id [id]
  | inside {id q : FrameId} {f : Frame} {rest : List FrameId} (hf : h.frame? id = some f)
      (hp : f.parent = some q) (hq : Lineage h q rest) : Lineage h id (id :: rest)

/-- What lookups go through in a sound heap are all ancestors of a frame. -/
theorem Sound.lineage_chain {h : Heap} {roots : List HeapRef} (hs : h.Sound roots) {id : FrameId}
    (hr : h.holds (.frame id) = true) : h.Lineage id (h.chain id) := by
  fun_induction chain h id with
  | case1 id hf =>
    obtain ⟨f, hsome, _⟩ := hs.exists_frame hr
    rw [hf] at hsome
    cases hsome
  | case2 id f hf hp => exact .outermost hf hp
  | case3 id f hf q hp hlt ih =>
    have hcell : h.cell? (.frame id) = some (.frame f) := congrArg (Option.map Cell.frame) hf
    have hparent : .frame q ∈ f.references := Frame.mem_references.mpr (.inl ⟨q, hp, rfl⟩)
    exact .inside hf hp (ih (hs.closed _ _ hcell _ hparent))
  | case4 id f hf q hp hlt =>
    obtain ⟨g, hg, holder⟩ := hs.exists_frame hr
    obtain rfl := Option.some.inj (hf.symm.trans hg)
    exact (hlt (holder q hp)).elim

end Heap

end EcmaTree
