import EcmaTree.Proofs.Alike.State
import EcmaTree.Proofs.Results

/-!
# Alike evaluations

Two evaluations are alike when they take alike states to alike outcomes. Each construct that
evaluations are made of has a rule here. A rule names what is at hand before and after: only
that, and what is held, is still there once something was evaluated that may collect.
-/

namespace EcmaTree

open Carries

/-- Outcomes with the same ending and alike states, in which is held what was held before. Where the
second evaluation is free to differ, anything is like an ending of the first that is no result. -/
inductive Outcome.Alike (p : Pairing) (held : List Holder) (kept : List HeapRef) {α : Type}
    [Carries α] : Outcome α → Outcome α → Prop where
  | done (a : α) {s t : State} (h : s.Alike p (refs a ++ kept) t) (hs : s.held = held) :
      Outcome.Alike p held kept (.done a s) (.done a t)
  | thrown (e : Thrown) {s t : State} (h : s.Alike p (refs e) t) (hs : s.held = held) :
      Outcome.Alike p held kept (.thrown e s) (.thrown e t)
  | faulted (e : Fault) {s t : State} (h : s.Alike p [] t) (hs : s.held = held) :
      Outcome.Alike p held kept (.faulted e s) (.faulted e t)
  | exhausted {s t : State} (h : s.Alike p [] t) (hs : s.held = held) :
      Outcome.Alike p held kept (.exhausted s) (.exhausted t)
  | free (hp : p.free) (e : StructuralError) (s : State) (o : Outcome α) :
      Outcome.Alike p held kept (.faulted (.structural e) s) o
  | short (hp : p.short) (s : State) (o : Outcome α) :
      Outcome.Alike p held kept (.exhausted s) o

namespace Outcome.Alike

variable {p : Pairing} {held : List Holder} {kept kept' : List HeapRef} {α : Type} [Carries α]
  {o o' : Outcome α}

theorem mono (h : o.Alike p held kept o') (hk : kept' ⊆ kept) : o.Alike p held kept' o' := by
  cases h with
  | done a h hs => exact .done a (h.mono (by grind)) hs
  | thrown e h hs => exact .thrown e h hs
  | faulted e h hs => exact .faulted e h hs
  | exhausted h hs => exact .exhausted h hs
  | free hp e s _ => exact .free hp e s _
  | short hp s _ => exact .short hp s _

/-- A change of the states that keeps alike what is at hand in them, and brings something back to
hand. -/
theorem mapState {q : Pairing} {held' : List Holder} (back : List HeapRef) {f g : State → State}
    (h : o.Alike p held kept o')
    (hf : ∀ s t vs, s.held = held → s.Alike p vs t → (f s).Alike q (back ++ vs) (g t))
    (hheld : ∀ s, s.held = held → (f s).held = held')
    (hfree : p.free → q.free := by exact fun h ↦ h)
    (hshort : p.short → q.short := by exact fun h ↦ h) :
    (o.mapState f).Alike q held' (back ++ kept) (o'.mapState g) := by
  cases h with
  | done a h hs => exact .done a ((hf _ _ _ hs h).mono (by grind)) (hheld _ hs)
  | thrown e h hs => exact .thrown e ((hf _ _ _ hs h).mono (by simp)) (hheld _ hs)
  | faulted e h hs => exact .faulted e (hf _ _ _ hs h).forget (hheld _ hs)
  | exhausted h hs => exact .exhausted (hf _ _ _ hs h).forget (hheld _ hs)
  | free hp e _ _ => exact .free (hfree hp) e _ _
  | short hp _ _ => exact .short (hshort hp) _ _

theorem bind {β : Type} [Carries β] {k : List HeapRef} {m m' : Eval α} {f f' : α → Eval β}
    {s t : State} (h : (m s).Alike p held k (m' t))
    (hf : ∀ a u v, m s = .done a u → u.held = held → u.Alike p (refs a ++ k) v →
      (f a u).Alike p held kept (f' a v)) :
    ((m >>= f) s).Alike p held kept ((m' >>= f') t) := by
  rw [Eval.bind_apply, Eval.bind_apply]
  generalize hs : m s = o, m' t = o' at h ⊢
  cases h with
  | @done a u v h hu => exact hf a u v hs hu h
  | thrown e h hu => exact .thrown e h hu
  | faulted e h hu => exact .faulted e h hu
  | exhausted h hu => exact .exhausted h hu
  | free hp e u _ => exact .free hp e u _
  | short hp u _ => exact .short hp u _

end Outcome.Alike

namespace Eval

variable {α β : Type}

/-- Evaluations with alike outcomes in alike states. What is in `kept` is at hand before, and what
is in `kept'` after a result. -/
def Alike (p : Pairing) (kept kept' : List HeapRef) [Carries α] (m m' : Eval α) : Prop :=
  ∀ s t, s.Alike p kept t → (m s).Alike p s.held kept' (m' t)

/-- An evaluation always ends with a structural error, or by exhaustion. -/
def Stops (m : Eval α) : Prop :=
  ∀ s, (∃ e t, m s = .faulted (.structural e) t) ∨ ∃ t, m s = .exhausted t

theorem Stops.not_yields {m : Eval α} (hm : m.Stops) {a : α} : ¬ m.Yields a := by
  rintro ⟨s, t, h⟩
  rcases hm s with ⟨e, u, hs⟩ | ⟨u, hs⟩ <;> simp [hs] at h

theorem Stops.bind {m : Eval α} (hm : m.Stops) (f : α → Eval β) : (m >>= f).Stops := by
  intro s
  rw [bind_apply]
  rcases hm s with ⟨e, t, hs⟩ | ⟨t, hs⟩
  · exact .inl ⟨e, t, by rw [hs]⟩
  · exact .inr ⟨t, by rw [hs]⟩

theorem Stops.map {m : Eval α} (hm : m.Stops) (f : α → β) : (f <$> m).Stops := by
  rw [map_eq_pure_bind]
  exact hm.bind _

theorem Stops.inFrame {m : Eval α} (hm : m.Stops) (id : FrameId) : (Eval.inFrame id m).Stops := by
  intro s
  rw [Eval.inFrame, Eval.holding, Outcome.mapState_mapState]
  rcases hm { s with frame := id, held := .frame s.frame :: s.held } with ⟨e, t, hs⟩ | ⟨t, hs⟩
  · exact .inl ⟨e, _, by rw [hs]; rfl⟩
  · exact .inr ⟨_, by rw [hs]; rfl⟩

theorem Stops.inChild {m : Eval α} (hm : m.Stops) : (Eval.inChild m).Stops :=
  fun _ ↦ hm.inFrame _ _

theorem stops_structural (cause : StructuralCause) (span : Span) :
    (Eval.structural cause span : Eval α).Stops :=
  fun s ↦ .inl ⟨⟨cause, span⟩, s, rfl⟩

namespace Alike

variable {p : Pairing} {kept kept' : List HeapRef} [Carries α] [Carries β] {m m' : Eval α}

/-! ### Sequences -/

theorem mono_left {less : List HeapRef} (hm : Alike p less kept' m m') (hk : less ⊆ kept) :
    Alike p kept kept' m m' :=
  fun s t h ↦ hm s t (h.mono hk)

theorem mono_right {less : List HeapRef} (hm : Alike p kept kept' m m')
    (hk : less ⊆ kept' := by grind) : Alike p kept less m m' :=
  fun s t h ↦ (hm s t h).mono hk

theorem pure {a : α} (ha : refs a ⊆ kept) (hk : kept' ⊆ kept) :
    Alike p kept kept' (Pure.pure a) (Pure.pure a) :=
  fun _ _ h ↦ .done a (h.mono (List.append_subset.mpr ⟨ha, hk⟩)) rfl

/-- A result is all that stays at hand. -/
theorem finish {a : α} (ha : refs a ⊆ kept) :
    Alike p kept [] (Pure.pure a) (Pure.pure a) :=
  pure ha (List.nil_subset _)

/-- Nothing happens. -/
theorem skip : Alike p kept kept (Pure.pure ()) (Pure.pure ()) :=
  pure (List.nil_subset _) (List.Subset.refl _)

theorem bind {k : List HeapRef} {f f' : α → Eval β} (hm : Alike p kept k m m')
    (hf : ∀ a, m.Yields a → Alike p (refs a ++ k) kept' (f a) (f' a)) :
    Alike p kept kept' (m >>= f) (m' >>= f') :=
  fun s t h ↦ (hm s t h).bind fun a u v hs hu h' ↦ by
    have := hf a ⟨s, u, hs⟩ u v h'
    rwa [hu] at this

omit [Carries α] in
/-- A value that is known beforehand is no step of an evaluation. -/
theorem afterPure {a : α} {f f' : α → Eval β} (hf : Alike p kept kept' (f a) (f' a)) :
    Alike p kept kept' (Pure.pure a >>= f) (Pure.pure a >>= f') :=
  hf

theorem map {k : List HeapRef} {f : α → β} (hm : Alike p kept k m m')
    (hf : ∀ a, refs (f a) ⊆ refs a ++ k) : Alike p kept k (f <$> m) (f <$> m') := by
  rw [map_eq_pure_bind, map_eq_pure_bind]
  exact bind hm fun a _ ↦ pure (hf a) (List.subset_append_right _ _)

/-- If the second evaluation is free to differ, anything is like one that cannot have a result. -/
theorem of_stops (hp : p.free) (hm : m.Stops) (m' : Eval α) : Alike p kept kept' m m' := by
  intro s t _
  rcases hm s with ⟨e, u, hs⟩ | ⟨u, hs⟩
  · rw [hs]
    exact .free hp e u _
  · rw [hs]
    exact .short (p.short_of_free hp) u _

theorem fault (e : Fault) : Alike p kept kept' (Eval.fault e : Eval α) (Eval.fault e) :=
  fun _ _ h ↦ .faulted e h.forget rfl

theorem exhaust : Alike p kept kept' (Eval.exhaust : Eval α) Eval.exhaust :=
  fun _ _ h ↦ .exhausted h.forget rfl

/-- If the second evaluation may have more levels, anything is like exhaustion. -/
theorem exhaust_short (hp : p.short) (m' : Eval α) : Alike p kept kept' Eval.exhaust m' :=
  fun s _ _ ↦ .short hp s _

theorem rethrow {e : Thrown} (he : refs e ⊆ kept) :
    Alike p kept kept' (Eval.rethrow e : Eval α) (Eval.rethrow e) :=
  fun _ _ h ↦ .thrown e (h.mono he) rfl

theorem catching (hm : Alike p kept [] m m') :
    Alike p kept [] (Eval.catching m) (Eval.catching m') := by
  intro s t h
  have ho := hm s t h
  rw [Eval.catching, Eval.catching]
  generalize m s = o, m' t = o' at ho ⊢
  cases ho with
  | done a h' hu => exact .done (Except.ok a) h' hu
  | thrown e h' hu => exact .done (Except.error e) (h'.mono (by grind)) hu
  | faulted e h' hu => exact .faulted e h' hu
  | exhausted h' hu => exact .exhausted h' hu
  | free hp e u o => exact .free hp e u _
  | short hp u o => exact .short hp u _

/-! ### Holding and frames -/

/-- What is held can be used in between, and is at hand again afterwards. -/
theorem holdingWithin {x : Holder} (hm : ∀ s t, x ∈ s.held → s.Alike p kept t →
      (m s).Alike p s.held kept' (m' t)) (hx : refs x ⊆ kept) :
    Alike p kept (refs x ++ kept') (Eval.holding x m) (Eval.holding x m') :=
  fun _ _ h ↦ (hm _ _ (List.mem_cons_self ..) (h.hold hx)).mapState (refs x)
    (fun _ _ _ hu huv ↦ huv.release hu h.held) fun _ _ ↦ rfl

theorem holding {x : Holder} (hm : Alike p kept kept' m m') (hx : refs x ⊆ kept := by grind) :
    Alike p kept (refs x ++ kept') (Eval.holding x m) (Eval.holding x m') :=
  holdingWithin (fun s t _ ↦ hm s t) hx

/-- Both evaluations go on in a new frame, which has just been made. -/
theorem inFrame (hm : Alike p kept kept' m m') {s t : State} {id : FrameId} {h h' : Heap}
    (ha : s.Alike p kept t)
    (hh : h.Matched p.free p.whole p.intact (.frame id :: s.roots kept) h') :
    (Eval.inFrame id m { s with heap := h }).Alike p s.held kept'
      (Eval.inFrame id m' { t with heap := h' }) := by
  have hin : State.Alike p kept
      { s with heap := h, frame := id, held := .frame s.frame :: s.held }
      { t with heap := h', frame := id, held := .frame t.frame :: t.held } :=
    { ha with
      heap := hh.shrink fun r hr ↦ .root (by
        simp only [State.roots, State.owners, List.flatMap_cons, Holder.references] at hr ⊢
        grind)
      frame := rfl
      held := by rw [ha.frame, ha.held] }
  rw [Eval.inFrame, Eval.inFrame, Eval.holding, Eval.holding, Outcome.mapState_mapState,
    Outcome.mapState_mapState]
  refine (hm _ _ hin).mapState []
    (fun u v ks hu huv ↦ { huv with heap := ?_, frame := ha.frame, held := ha.held }) fun _ _ ↦ rfl
  refine huv.heap.shrink fun r hr ↦ .root ?_
  simp only [State.roots, State.owners, hu, List.flatMap_cons, Holder.references] at hr ⊢
  grind

theorem inChild (hm : Alike p kept kept' m m') :
    Alike p kept kept' (Eval.inChild m) (Eval.inChild m') := by
  intro s t h
  obtain ⟨hid, hh⟩ := h.heap.newChild s.frame State.reachable_frame
  have ht : t.heap.newChild s.frame = t.heap.newChild t.frame := by rw [h.frame]
  rw [ht] at hid hh
  rw [Eval.inChild, Eval.inChild]
  simp only [← hid]
  exact hm.inFrame h hh

/-- A program begins where nothing is active. -/
theorem withCallFrame (entry : CallFrame) (hidle : ∀ active ∈ p.active, active = [])
    (hm : Alike (p.entered (.program entry)) kept kept' m m') :
    Alike p kept kept' (Eval.withCallFrame entry m) (Eval.withCallFrame entry m') := by
  intro s t h
  have hin : State.Alike (p.entered (.program entry)) kept { s with calls := entry :: s.calls }
      { t with calls := entry :: t.calls } :=
    { h with
      calls := congrArg (entry :: ·) h.calls
      accounts := fun _ hactive ↦ by
        obtain ⟨active, ha, rfl⟩ := Option.map_eq_some_iff.mp hactive
        obtain rfl := hidle active ha
        exact (h.accounts [] ha).program entry }
  exact (hm _ _ hin).mapState []
    (fun u v ks _ huv ↦ { huv with
      calls := h.calls
      accounts := fun active ha ↦ by
        have hinner := huv.accounts _ (Option.map_eq_some_iff.mpr ⟨active, ha, rfl⟩)
        obtain rfl := hidle active ha
        exact (h.accounts [] ha).of_program hinner }) fun _ ↦ id

/-- A call begins, of which there are not too many yet. -/
theorem called (entry : CallFrame) (hm : Alike (p.entered (.call entry)) kept kept' m m')
    {s t : State} (h : s.Alike p kept t) (hlt : s.depth < p.left.maxDepth) :
    (Eval.deeper (Eval.withCallFrame entry m) s).Alike p s.held kept'
      (Eval.deeper (Eval.withCallFrame entry m') t) := by
  have hin : State.Alike (p.entered (.call entry)) kept
      { s with depth := s.depth + 1, calls := entry :: s.calls }
      { t with depth := t.depth + 1, calls := entry :: t.calls } :=
    { h with
      depth := congrArg (· + 1) h.depth
      calls := congrArg (entry :: ·) h.calls
      accounts := fun _ hactive ↦ by
        obtain ⟨active, ha, rfl⟩ := Option.map_eq_some_iff.mp hactive
        exact (h.accounts active ha).call hlt entry }
  rw [Eval.deeper, Eval.deeper, Eval.withCallFrame, Eval.withCallFrame, Outcome.mapState_mapState,
    Outcome.mapState_mapState]
  exact (hm _ _ hin).mapState []
    (fun u v ks _ huv ↦ { huv with
      depth := h.depth
      calls := h.calls
      accounts := h.accounts }) fun _ ↦ id

/-! ### Reading and changing the state -/

theorem read {f f' : State → α} (hf : ∀ s t, s.Alike p kept t →
      f s = f' t ∧ ∀ r ∈ refs (f s), s.heap.Reachable (s.roots kept) r) :
    Alike p kept kept (Eval.read f) (Eval.read f') := by
  intro s t h
  obtain ⟨heq, hreach⟩ := hf s t h
  rw [Eval.read, Eval.read, ← heq]
  exact .done (f s) (h.keep fun r hr ↦
    (List.mem_append.mp hr).elim (hreach r) State.reachable_of_mem) rfl

theorem readHeap {f f' : Heap → α} (hf : ∀ h h' roots, h.Alike p.free p.whole roots h' →
      (∀ r ∈ kept, h.Reachable roots r) → f h = f' h' ∧ ∀ r ∈ refs (f h), h.Reachable roots r) :
    Alike p kept kept (Eval.readHeap f) (Eval.readHeap f') :=
  read fun _ _ h ↦ hf _ _ _ h.heap.toAlike fun _ ↦ State.reachable_of_mem

theorem modify {f f' : State → State} (hf : ∀ s t, s.Alike p kept t → (f s).Alike p kept' (f' t))
    (hheld : ∀ s, (f s).held = s.held) : Alike p kept kept' (Eval.modify f) (Eval.modify f') :=
  fun s t h ↦ .done () (hf s t h) (hheld s)

theorem modifyHeap {f f' : Heap → Heap}
    (hf : ∀ h h' roots, h.Matched p.free p.whole p.intact roots h' →
      (∀ r ∈ kept, h.Reachable roots r) → (f h).Matched p.free p.whole p.intact roots (f' h')) :
    Alike p kept kept (Eval.modifyHeap f) (Eval.modifyHeap f') :=
  fun _ _ h ↦ .done () (h.withHeap (hf _ _ _ h.heap fun _ ↦ State.reachable_of_mem)) rfl

/-- Something is made in both heaps, and nothing else changes that was reached. -/
theorem updateHeap {f f' : Heap → α × Heap}
    (hf : ∀ h h' roots, h.Matched p.free p.whole p.intact roots h' →
      (∀ r ∈ kept, h.Reachable roots r) →
      (f h).1 = (f' h').1 ∧
        (f h).2.Matched p.free p.whole p.intact (refs (f h).1 ++ roots) (f' h').2) :
    Alike p kept kept (Eval.updateHeap f) (Eval.updateHeap f') := by
  intro s t h
  obtain ⟨heq, hh⟩ := hf _ _ _ h.heap fun _ ↦ State.reachable_of_mem
  rw [Eval.updateHeap, Eval.updateHeap]
  simp only [← heq]
  refine .done _ (h.withHeap ?_) rfl
  rwa [State.roots, List.append_assoc]

/-! ### Values -/

theorem textOf {v : Value} (hv : refs v ⊆ kept) :
    Alike p kept kept (Eval.textOf v) (Eval.textOf v) :=
  readHeap fun _ _ _ ha hk ↦ ⟨ha.toText_eq (Heap.reaches_of_subset hk hv), nofun⟩

theorem numberOf {v : Value} (hv : refs v ⊆ kept) :
    Alike p kept kept (Eval.numberOf v) (Eval.numberOf v) :=
  readHeap fun _ _ _ ha hk ↦ ⟨ha.toNumber_eq (Heap.reaches_of_subset hk hv), nofun⟩

theorem lookup (name : Text) : Alike p kept kept (Eval.lookup name) (Eval.lookup name) := by
  refine read fun s t h ↦ ⟨?_, ?_⟩
  · rw [← h.frame]
    exact h.heap.lookup_eq State.reachable_frame name
  · cases hb : s.heap.lookup s.frame name with
    | none => exact nofun
    | some b => exact Heap.reachable_of_reaches (Heap.reaches_lookup State.reachable_frame hb)

theorem newArray {es : Array Value} (hes : refs es ⊆ kept) :
    Alike p kept kept (Eval.newArray es) (Eval.newArray es) :=
  updateHeap fun _ _ _ ha hk ↦ by
    obtain ⟨hid, hh⟩ := ha.newArray es fun r hr ↦ hk r (hes hr)
    exact ⟨congrArg Value.array hid, hh⟩

theorem newObject {ps : Properties} (hps : refs ps ⊆ kept) :
    Alike p kept kept (Eval.newObject ps) (Eval.newObject ps) :=
  updateHeap fun _ _ _ ha hk ↦ by
    obtain ⟨hid, hh⟩ := ha.newObject ps fun r hr ↦ hk r (hps hr)
    exact ⟨congrArg Value.object hid, hh⟩

/-! ### Throwing -/

theorem throwValue {v : Value} (calls : CallTrace) (origin : Span) (hv : refs v ⊆ kept) :
    Alike p kept kept' (Eval.throwValue v calls origin : Eval α)
      (Eval.throwValue v calls origin) := by
  intro s t h
  have hreach := Heap.reaches_of_subset (fun _ ↦ State.reachable_of_mem (s := s)) hv
  rw [Eval.throwValue, Eval.throwValue, ← h.heap.thrown_eq hreach]
  exact .thrown _ (h.mono hv) rfl

theorem refs_errorProperties (kind : ErrorKind) (message stack : Text) :
    refs (Heap.errorProperties kind message stack) = [] := by
  refine List.eq_nil_iff_forall_not_mem.mpr fun r hr ↦ ?_
  obtain ⟨v, hv, hr⟩ := mem_refs_list.mp hr
  have hv := OrderedMap.mem_values_ofList hv
  simp only [List.map_cons, List.map_nil, List.mem_cons, List.not_mem_nil, or_false] at hv
  rcases hv with rfl | rfl | rfl <;> cases hr

theorem newError (kind : ErrorKind) (message stack : Text) :
    Alike p kept kept (Eval.newObject (Heap.errorProperties kind message stack))
      (Eval.newObject (Heap.errorProperties kind message stack)) :=
  newObject (by rw [refs_errorProperties]; exact List.nil_subset _)

theorem calls : Alike p kept kept (Eval.read State.calls) (Eval.read State.calls) :=
  read fun _ _ h ↦ ⟨h.calls, nofun⟩

theorem raise (e : RuntimeError) (span : Span) :
    Alike p kept kept' (Eval.raise e span : Eval α) (Eval.raise e span) := by
  refine bind calls fun _ _ ↦ ?_
  exact bind (newError _ _ _) fun _ _ ↦ throwValue _ _ (List.subset_append_left _ _)

theorem raiseBare (e : RuntimeError) :
    Alike p kept kept' (Eval.raiseBare e : Eval α) (Eval.raiseBare e) :=
  bind (newError _ _ _) fun _ _ ↦ throwValue _ _ (List.subset_append_left _ _)

/-! ### Frames and moments -/

/-- The current frame changes, and refers to nothing but what it referred to and what is at hand. -/
theorem modifyFrame {c : Frame → Frame} (hc : ∀ f, (c f).references ⊆ f.references ++ kept)
    (hparent : ∀ f, (c f).parent = f.parent) :
    Alike p kept kept (Eval.modify fun s ↦ { s with heap := s.heap.modifyFrame s.frame c })
      (Eval.modify fun s ↦ { s with heap := s.heap.modifyFrame s.frame c }) := by
  refine modify (fun s t h ↦ ?_) fun _ ↦ rfl
  have hreach (f : Frame) (hf : s.heap.frame? s.frame = some f) :
      ∀ r ∈ (c f).references, s.heap.Reachable (s.roots kept) r := fun r hr ↦ by
    rcases List.mem_append.mp (hc f hr) with hr | hr
    · exact Heap.reachable_of_frame State.reachable_frame hf hr
    · exact State.reachable_of_mem hr
  have hh := h.heap.modifyFrame s.frame c State.reachable_frame hreach hparent
  have ht : t.heap.modifyFrame s.frame c = t.heap.modifyFrame t.frame c := by rw [h.frame]
  rw [ht] at hh
  exact h.withHeap hh

theorem define {name : Text} {v : Value} (kind : BindingKind) (hv : refs v ⊆ kept) :
    Alike p kept kept (Eval.define name v kind) (Eval.define name v kind) := by
  refine modifyFrame (fun _ _ hr ↦ List.mem_append.mpr ?_) fun _ ↦ rfl
  exact (Frame.mem_references_define hr).imp_right fun hr ↦ hv (Option.mem_toList.mpr hr)

theorem setSignal {c : Completion} (hc : refs c ⊆ kept) :
    Alike p kept kept (Eval.setSignal c) (Eval.setSignal c) := by
  refine modifyFrame (fun f r hr ↦ ?_) fun _ ↦ rfl
  rw [List.mem_append, Frame.mem_references]
  rw [Frame.mem_references] at hr
  rcases hr with hr | hr | hr | ⟨_, v, ⟨⟩, hv, hr⟩
  · exact .inl (.inl hr)
  · exact .inl (.inr (.inl hr))
  · exact .inl (.inr (.inr (.inl hr)))
  · have : r ∈ refs c := by
      rw [← refs_value?, hv]
      exact Option.mem_toList.mpr hr
    exact .inr (hc this)

theorem passMoment (m : Moment) : Alike p kept [] (Eval.modify (State.passMoment p.left m))
    (Eval.modify (State.passMoment p.right m)) :=
  modify (fun _ _ h ↦ h.forget.passMoment m) fun s ↦ State.held_passMoment p.left m s

end Alike

end Eval

end EcmaTree
