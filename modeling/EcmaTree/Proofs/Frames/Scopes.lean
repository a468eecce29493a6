import EcmaTree.Proofs.Alike.State
import EcmaTree.Proofs.Coupling.Basic

/-!
# Scopes

The current frame and the held ones are those in which something is under way. No step of an
evaluation changes the ancestors of such a frame, nor the receivers that these have, and a new frame
has the ancestors that its parent had.
-/

namespace EcmaTree

namespace Heap

variable {h h' : Heap} {id : FrameId} {f : Frame}

/-- The receiver of the innermost frame which has one, if any frame has. -/
def home? (h : Heap) (id : FrameId) : Option Value :=
  (h.chain id).findSome? fun f ↦ (h.frame? f).bind Frame.receiver

theorem receiver_eq_home? (h : Heap) (id : FrameId) :
    h.receiver id = (h.home? id).getD .undefined := rfl

/-- Frames have older parents, and functions captured frames that were made. -/
structure Ordered (h : Heap) : Prop where
  parent_lt {id q : FrameId} {f : Frame} (hf : h.frame? id = some f) (hq : f.parent = some q) :
    q.index < id.index
  scope_lt {id : FunctionId} {name : Text} {code : FunctionNode} {scope : FrameId}
    (hf : h.function? id = some ⟨name, .closure code scope⟩) : scope.index < h.frames.size

theorem Sound.ordered {roots : List HeapRef} (hs : h.Sound roots) : h.Ordered where
  parent_lt {id q f} hf hq := by
    have hcell : h.cell? (.frame id) = some (.frame f) := congrArg (Option.map Cell.frame) hf
    exact Cell.fits_frame.mp (hs.fits _ _ hcell) q hq
  scope_lt {id name code scope} hf := by
    have hcell : h.cell? (.function id) = some (.function ⟨name, .closure code scope⟩) :=
      congrArg (Option.map Cell.function) hf
    obtain ⟨f, hf, -⟩ := hs.exists_frame
      (hs.closed _ _ hcell (.frame scope) (List.mem_singleton_self _))
    exact Store.lt_size_of_get?_eq_some hf

namespace Ordered

theorem newFunction (hh : h.Ordered) {g : Function}
    (hg : ∀ code scope, g.behaviour = .closure code scope → scope.index < h.frames.size) :
    (h.newFunction g).2.Ordered where
  parent_lt := hh.parent_lt
  scope_lt {id name code scope} hf := by
    rw [function?, Heap.newFunction, Store.get?_push] at hf
    split at hf
    · obtain rfl := Option.some.inj hf
      exact hg code scope rfl
    · exact hh.scope_lt hf

theorem nameFunction (hh : h.Ordered) (id : FunctionId) (name : Text) :
    (h.nameFunction id name).Ordered where
  parent_lt := hh.parent_lt
  scope_lt {other old code scope} hf := by
    rw [function?, Heap.nameFunction, modifyFunction, Store.get?_modify] at hf
    split at hf
    · obtain ⟨⟨_, _⟩, hg, hname⟩ := Option.map_eq_some_iff.mp hf
      split at hname
      · cases hname
        exact hh.scope_lt hg
      · cases hname
        exact hh.scope_lt hg
    · exact hh.scope_lt hf

theorem modifyFrame (hh : h.Ordered) (id : FrameId) {g : Frame → Frame}
    (hg : ∀ f, (g f).parent = f.parent) : (h.modifyFrame id g).Ordered where
  parent_lt {other q f} hf hq := by
    rw [frame?_modifyFrame] at hf
    split at hf
    · obtain ⟨f', hf', rfl⟩ := Option.map_eq_some_iff.mp hf
      exact hh.parent_lt hf' ((hg f').symm.trans hq)
    · exact hh.parent_lt hf hq
  scope_lt hf := by
    rw [Heap.modifyFrame, Store.size_modify]
    exact hh.scope_lt hf

theorem assign (hh : h.Ordered) (id : FrameId) (name : Text) (v : Value) :
    (h.assign id name v).2.Ordered := by
  rw [Heap.assign]
  split
  · exact hh
  · split
    · exact hh
    · split
      · exact hh
      · exact hh.modifyFrame _ fun _ ↦ rfl

theorem newFrame (hh : h.Ordered) (hf : ∀ q, f.parent = some q → q.index < h.frames.size) :
    (h.newFrame f).2.Ordered where
  parent_lt {other q g} hg hq := by
    rw [frame?, Heap.newFrame, Store.get?_push] at hg
    split at hg
    · next heq =>
      obtain rfl := Option.some.inj hg
      rw [heq]
      exact hf q hq
    · exact hh.parent_lt hg hq
  scope_lt hg := by
    rw [Heap.newFrame, Store.size_push]
    exact (hh.scope_lt hg).trans (Nat.lt_succ_self _)

theorem restrict (hh : h.Ordered) (keep : HeapRef → Bool) : (h.restrict keep).Ordered where
  parent_lt {other q g} hg hq := by
    rw [frame?, Heap.restrict, Store.get?_restrict] at hg
    split at hg
    · exact hh.parent_lt hg hq
    · cases hg
  scope_lt {other name code scope} hg := by
    rw [function?, Heap.restrict, Store.get?_restrict] at hg
    rw [Heap.restrict, Store.size_restrict]
    split at hg
    · exact hh.scope_lt hg
    · cases hg

theorem collect (hh : h.Ordered) (uses : Tally) : (h.collect uses).2.Ordered :=
  hh.restrict fun r ↦ (h.mark (h.roots uses) ∅).contains r.key

end Ordered

/-- What is at stake for the frames in a scope: the parent and the receiver. -/
def scope? (h : Heap) (id : FrameId) : Option (Option FrameId × Option Value) :=
  (h.frame? id).map fun f ↦ (f.parent, f.receiver)

theorem chain_eq_of_scope? (h : Heap) (id : FrameId) :
    h.chain id =
      match h.scope? id with
      | none => []
      | some (none, _) => [id]
      | some (some q, _) => if q.index < id.index then id :: h.chain q else [id] := by
  rw [chain, scope?]
  cases h.frame? id with
  | none => rfl
  | some f =>
    cases hq : f.parent <;> simp [hq]

theorem chain_of_some (hf : h.frame? id = some f) :
    h.chain id =
      f.parent.elim [id] fun q ↦ if q.index < id.index then id :: h.chain q else [id] := by
  rw [chain, hf]
  dsimp only
  cases f.parent <;> rfl

theorem chain_of_frame? (hh : h.Ordered) (hf : h.frame? id = some f) :
    h.chain id = id :: f.parent.elim [] h.chain := by
  rw [chain_of_some hf]
  cases hp : f.parent with
  | none => rfl
  | some q => exact if_pos (hh.parent_lt hf hp)

theorem chain_of_none (hf : h.frame? id = none) : h.chain id = [] := by
  rw [chain, hf]

theorem home?_of_frame? (hh : h.Ordered) (hf : h.frame? id = some f) :
    h.home? id = f.receiver.or (f.parent.bind h.home?) := by
  rw [home?, chain_of_frame? hh hf, List.findSome?_cons, hf, Option.bind_some]
  cases f.receiver with
  | some v => rfl
  | none =>
    cases f.parent with
    | none => rfl
    | some q => rfl

theorem home?_of_none (hf : h.frame? id = none) : h.home? id = none := by
  rw [home?, chain_of_none hf]
  rfl

/-- A frame has the same ancestors in two heaps, and these have the same receivers. -/
structure KeepsScope (h h' : Heap) (id : FrameId) : Prop where
  chain_eq : h'.chain id = h.chain id
  home?_eq : h'.home? id = h.home? id

theorem KeepsScope.refl (h : Heap) (id : FrameId) : h.KeepsScope h id := ⟨rfl, rfl⟩

theorem KeepsScope.trans {h'' : Heap} (hh : h.KeepsScope h' id) (hh' : h'.KeepsScope h'' id) :
    h.KeepsScope h'' id :=
  ⟨hh'.chain_eq.trans hh.chain_eq, hh'.home?_eq.trans hh.home?_eq⟩

/-- A scope is decided by the frames that parents lead to. -/
theorem keepsScope_of {P : FrameId → Prop} (heq : ∀ p, P p → h'.scope? p = h.scope? p)
    (hnext : ∀ p q f, P p → h.frame? p = some f → f.parent = some q → q.index < p.index → P q)
    (hid : P id) : h.KeepsScope h' id := by
  have hreceiver (p : FrameId) (hp : P p) :
      (h'.frame? p).bind Frame.receiver = (h.frame? p).bind Frame.receiver := by
    have hp := heq p hp
    rw [scope?, scope?] at hp
    generalize h.frame? p = a, h'.frame? p = b at hp ⊢
    cases a <;> cases b <;> simp_all
  have hall : h'.chain id = h.chain id ∧ ∀ p ∈ h.chain id, P p := by
    fun_induction chain h id with
    | case1 p hf => rw [chain_eq_of_scope?, heq p hid, scope?, hf]; simp
    | case2 p f hf hq => rw [chain_eq_of_scope?, heq p hid, scope?, hf]; simpa [hq] using hid
    | case3 p f hf q hq hlt ih =>
      obtain ⟨hchain, hmem⟩ := ih (hnext p q f hid hf hq hlt)
      rw [chain_eq_of_scope?, heq p hid, scope?, hf]
      simpa [hq, hlt, hchain] using ⟨hid, hmem⟩
    | case4 p f hf q hq hlt =>
      rw [chain_eq_of_scope?, heq p hid, scope?, hf]
      simpa [hq, hlt] using hid
  refine ⟨hall.1, ?_⟩
  rw [home?, home?, hall.1]
  have hmem := hall.2
  generalize h.chain id = ids at hmem
  induction ids with
  | nil => rfl
  | cons p rest ih =>
    rw [List.findSome?_cons, List.findSome?_cons, hreceiver p (hmem p List.mem_cons_self),
      ih fun q hq ↦ hmem q (List.mem_cons_of_mem _ hq)]

theorem scope?_modifyFrame (h : Heap) (changed id : FrameId) {g : Frame → Frame}
    (hg : ∀ f, (g f).parent = f.parent ∧ (g f).receiver = f.receiver) :
    (h.modifyFrame changed g).scope? id = h.scope? id := by
  rw [scope?, scope?, frame?_modifyFrame]
  split
  · rw [Option.map_map]
    congr 1
    funext f
    exact Prod.ext (hg f).1 (hg f).2
  · rfl

theorem keepsScope_modifyFrame (h : Heap) (id changed : FrameId) {g : Frame → Frame}
    (hg : ∀ f, (g f).parent = f.parent ∧ (g f).receiver = f.receiver) :
    h.KeepsScope (h.modifyFrame changed g) id :=
  keepsScope_of (P := fun _ ↦ True) (fun p _ ↦ h.scope?_modifyFrame changed p hg)
    (fun _ _ _ _ _ _ _ ↦ trivial) trivial

theorem keepsScope_newFrame (hid : id.index < h.frames.size) (f : Frame) :
    h.KeepsScope (h.newFrame f).2 id := by
  refine keepsScope_of (P := fun p ↦ p.index < h.frames.size) (fun p hp ↦ ?_)
    (fun p q g hp _ _ hlt ↦ hlt.trans hp) hid
  rw [scope?, scope?, frame?, newFrame, Store.get?_push, if_neg hp.ne, frame?]

/-- A collection changes no scope of an owner. -/
theorem keepsScope_collect {owners : List HeapRef} (hid : .frame id ∈ owners) :
    h.KeepsScope (h.collect (h.uses owners)).2 id := by
  refine keepsScope_of (P := fun p ↦ h.Reachable owners (.frame p)) (fun p hp ↦ ?_)
    (fun p q f hp hf hq _ ↦ hp.step (.parent hf hq)) (.root hid)
  have hcell := cell?_collect_of_reachable hp
  rw [cell?_frame, cell?_frame] at hcell
  have hframe := Option.map_injective (fun _ _ h ↦ Cell.frame.inj h) hcell
  rw [scope?, scope?, hframe]

/-- A new frame has the ancestors of its parent above it. -/
theorem chain_newFrame (h : Heap) {f : Frame}
    (hf : ∀ q, f.parent = some q → q.index < h.frames.size) :
    (h.newFrame f).2.chain (h.newFrame f).1 = (h.newFrame f).1 :: f.parent.elim [] h.chain := by
  have hnew : (h.newFrame f).2.frame? (h.newFrame f).1 = some f := by
    rw [frame?, newFrame, Store.get?_push, if_pos rfl]
  rw [chain, hnew]
  dsimp only
  cases hq : f.parent with
  | none => rfl
  | some q =>
    have hlt := hf q hq
    rw [Option.elim_some, ← (keepsScope_newFrame hlt f).chain_eq]
    exact if_pos hlt

/-- A new frame without receiver sees what its parent sees. -/
theorem home?_newFrame (h : Heap) {f : Frame}
    (hf : ∀ q, f.parent = some q → q.index < h.frames.size) :
    (h.newFrame f).2.home? (h.newFrame f).1 = f.receiver.or (f.parent.bind h.home?) := by
  have hnew : (h.newFrame f).2.frame? (h.newFrame f).1 = some f := by
    rw [frame?, newFrame, Store.get?_push, if_pos rfl]
  rw [home?, chain_newFrame h hf, List.findSome?_cons, hnew, Option.bind_some]
  cases f.receiver with
  | some v => rfl
  | none =>
    cases hq : f.parent with
    | none => rfl
    | some q =>
      have hkeeps := keepsScope_newFrame (hf q hq) f
      have hhome := hkeeps.home?_eq
      rw [home?, hkeeps.chain_eq] at hhome
      exact hhome

/-- The frame that a sibling of a frame begins as. -/
def siblingOf (h : Heap) (id : FrameId) : Frame :=
  ((h.frame? id).map Frame.sibling).getD (.ofParent none)

theorem newSibling_eq (h : Heap) (id : FrameId) :
    h.newSibling id = h.newFrame (h.siblingOf id) := rfl

theorem parent_siblingOf_lt (hh : h.Ordered) (hid : id.index < h.frames.size) {q : FrameId}
    (hq : (h.siblingOf id).parent = some q) : q.index < h.frames.size := by
  rw [siblingOf] at hq
  cases hf : h.frame? id with
  | none => simp [hf, Frame.ofParent] at hq
  | some f =>
    rw [hf] at hq
    exact (hh.parent_lt hf hq).trans hid

/-- A sibling has the ancestors of the frame that it copies. -/
theorem chain_eq_siblingOf (hh : h.Ordered) (hf : h.frame? id = some f) :
    h.chain id = id :: (h.siblingOf id).parent.elim [] h.chain := by
  rw [chain_of_frame? hh hf, siblingOf, hf]
  rfl

/-- A sibling sees what the frame saw that it copies. -/
theorem home?_siblingOf (hh : h.Ordered) (id : FrameId) :
    (h.siblingOf id).receiver.or ((h.siblingOf id).parent.bind h.home?) = h.home? id := by
  rw [siblingOf]
  cases hf : h.frame? id with
  | none =>
    rw [home?_of_none hf]
    rfl
  | some f =>
    rw [home?_of_frame? hh hf]
    rfl

end Heap

/-! ### Scopes of a state -/

namespace State

variable {c : Config} {s : State} {g : FrameId} {f : Frame}

/-- The current frame, and the frames that are held until they are current again. -/
def scopes (s : State) : List FrameId := s.frame :: s.held.filterMap Holder.frame?

theorem scopes_opened (s : State) (f : Frame) :
    (s.opened f).scopes = (s.heap.newFrame f).1 :: s.scopes := rfl

theorem scopes_hold {x : Holder} (hx : x.frame? = none) (s : State) :
    State.scopes { s with held := x :: s.held } = s.scopes :=
  congrArg (s.frame :: ·) (List.filterMap_cons_none hx)

theorem scopes_of_held {x : Holder} (hx : x.frame? = none) {hs : List Holder}
    (h : s.held = x :: hs) : State.scopes { s with held := hs } = s.scopes := by
  rw [scopes, scopes, h, List.filterMap_cons_none hx]

/-- What is in scope has an owner outside of the heap. -/
theorem mem_owners_of_mem_scopes (hg : g ∈ s.scopes) : .frame g ∈ s.owners := by
  rcases List.mem_cons.mp hg with rfl | hg
  · exact List.mem_cons_self
  · obtain ⟨x, hx, hxg⟩ := List.mem_filterMap.mp hg
    refine List.mem_cons_of_mem _ (List.mem_flatMap.mpr ⟨x, hx, ?_⟩)
    cases x with
    | frame id =>
      obtain rfl := Option.some.inj hxg
      exact List.mem_singleton_self _
    | values | elements | properties => cases hxg

/-- The heap is in order, and what is in scope was made. -/
structure Scoped (s : State) : Prop where
  ordered : s.heap.Ordered
  lt_size : ∀ g ∈ s.scopes, g.index < s.heap.frames.size

theorem scoped_of_sound {kept : List HeapRef} (hs : s.heap.Sound (s.roots kept)) : s.Scoped where
  ordered := hs.ordered
  lt_size g hg := by
    have hholds : s.heap.holds (.frame g) = true :=
      hs.roots _ (List.mem_append_right _ (mem_owners_of_mem_scopes hg))
    obtain ⟨f, hf, -⟩ := hs.exists_frame hholds
    exact Store.lt_size_of_get?_eq_some hf

end State

namespace Effect

variable {s : State} {g : FrameId}

theorem scopes_run_eq (c : Config) (e : Effect) (s : State) : (e.run c s).scopes = s.scopes := by
  rw [State.scopes, State.scopes, frame_run, held_run]

theorem keepsScope_assign (h : Heap) (id : FrameId) (name : Text) (v : Value) (g : FrameId) :
    h.KeepsScope (h.assign id name v).2 g := by
  rw [Heap.assign]
  split
  · exact .refl h g
  · split
    · exact .refl h g
    · split
      · exact .refl h g
      · exact h.keepsScope_modifyFrame g _ fun _ ↦ ⟨rfl, rfl⟩

/-- No step changes a scope. -/
theorem keepsScope_run (c : Config) (e : Effect) (hg : g ∈ s.scopes) :
    s.heap.KeepsScope (e.run c s).heap g := by
  cases e with
  | object | array | host | closure | modifyObject | modifyArray | nameFunction | record | note =>
    exact Heap.keepsScope_of (P := fun _ ↦ True) (fun _ _ ↦ rfl)
      (fun _ _ _ _ _ _ _ ↦ trivial) trivial
  | assign name v => exact keepsScope_assign _ _ _ _ g
  | define | signal => exact Heap.keepsScope_modifyFrame _ g _ fun _ ↦ ⟨rfl, rfl⟩
  | moment m =>
    rw [run, State.passMoment]
    split
    · exact Heap.keepsScope_collect (State.mem_owners_of_mem_scopes hg)
    · exact .refl _ g

/-- No step makes or forgets a frame that is in scope. -/
theorem size_run (c : Config) (e : Effect) (s : State) :
    (e.run c s).heap.frames.size = s.heap.frames.size := by
  cases e with
  | object | array | host | closure | modifyObject | modifyArray | nameFunction | record | note =>
    rfl
  | assign name v =>
    rw [run, Heap.assign]
    split
    · rfl
    · split
      · rfl
      · split
        · rfl
        · exact Store.size_modify ..
  | define | signal => exact Store.size_modify ..
  | moment m =>
    rw [run, State.passMoment]
    split
    · exact Store.size_restrict ..
    · rfl

theorem ordered_run (c : Config) (e : Effect) (hs : s.Scoped) : (e.run c s).heap.Ordered := by
  have hh := hs.ordered
  cases e with
  | object | array | modifyObject | modifyArray | record | note => exact ⟨hh.parent_lt, hh.scope_lt⟩
  | host => exact hh.newFunction nofun
  | closure code =>
    refine hh.newFunction fun _ scope hscope ↦ ?_
    obtain ⟨-, rfl⟩ := Behaviour.closure.inj hscope
    exact hs.lt_size _ List.mem_cons_self
  | nameFunction id name => exact hh.nameFunction id name
  | assign name v => exact hh.assign _ name v
  | define | signal => exact hh.modifyFrame _ fun _ ↦ rfl
  | moment m =>
    rw [run, State.passMoment]
    split
    · exact hh.collect _
    · exact hh

theorem scoped_run (c : Config) (e : Effect) (hs : s.Scoped) : (e.run c s).Scoped where
  ordered := e.ordered_run c hs
  lt_size g hg := by
    rw [size_run]
    exact hs.lt_size g (e.scopes_run_eq c s ▸ hg)

end Effect

namespace State.Scoped

variable {s u : State} {f : Frame}

theorem opened (hs : s.Scoped) (hf : ∀ q, f.parent = some q → q.index < s.heap.frames.size) :
    (s.opened f).Scoped where
  ordered := hs.ordered.newFrame hf
  lt_size g hg := by
    change g.index < (s.heap.frames.push f).size
    rw [Store.size_push]
    rcases List.mem_cons.mp hg with rfl | hg
    · exact Nat.lt_succ_self _
    · exact (hs.lt_size g hg).trans (Nat.lt_succ_self _)

theorem hold (hs : s.Scoped) {x : Holder} (hx : x.frame? = none) :
    State.Scoped { s with held := x :: s.held } :=
  ⟨hs.ordered, fun g hg ↦ hs.lt_size g (scopes_hold hx s ▸ hg)⟩

theorem release (hs : s.Scoped) {x : Holder} (hx : x.frame? = none) {held : List Holder}
    (h : s.held = x :: held) : State.Scoped { s with held := held } :=
  ⟨hs.ordered, fun g hg ↦ hs.lt_size g (scopes_of_held hx h ▸ hg)⟩

theorem keepsScope_opened (hs : s.Scoped) {g : FrameId} (hg : g ∈ s.scopes) (f : Frame) :
    s.heap.KeepsScope (s.opened f).heap g :=
  Heap.keepsScope_newFrame (hs.lt_size g hg) f

/-- What is in scope outside is so inside, too. -/
theorem closed (hu : u.Scoped) (hheld : u.held = .frame s.frame :: s.held) :
    State.Scoped { u with frame := s.frame, held := s.held } where
  ordered := hu.ordered
  lt_size g hg := by
    refine hu.lt_size g (List.mem_cons_of_mem _ ?_)
    rw [hheld]
    exact hg

/-- A sibling of the current frame takes its place. -/
theorem sibling (hs : s.Scoped) :
    State.Scoped
      { s with heap := (s.heap.newSibling s.frame).2, frame := (s.heap.newSibling s.frame).1 } := by
  have hopened := hs.opened fun q hq ↦
    Heap.parent_siblingOf_lt hs.ordered (hs.lt_size _ List.mem_cons_self) hq
  refine ⟨hopened.ordered, fun g hg ↦ hopened.lt_size g ?_⟩
  rcases List.mem_cons.mp hg with rfl | hg
  · exact List.mem_cons_self
  · exact List.mem_cons_of_mem _ (List.mem_cons_of_mem _ hg)

end State.Scoped

end EcmaTree
