import EcmaTree.Proofs.Alike.Level
import EcmaTree.Proofs.Alike.Making
import EcmaTree.Session.Session

/-!
# Alike sessions

Sessions that differ only in what can no longer be reached, and in when they collect, give the same
answers and are still alike after each step. A collection in one of them keeps them alike.
-/

namespace EcmaTree

open Carries

/-- The evaluations differ in nothing but their collections, and begin where nothing is active. -/
structure Pairing.Collecting (p : Pairing) : Prop where
  not_free : ¬ p.free
  not_short : ¬ p.short
  not_whole : ¬ p.whole
  idle : ∀ active ∈ p.active, active = []

instance {α : Type} [Carries α] : Carries (Except Failure α) := ⟨fun
  | .ok a => refs a
  | .error _ => []⟩

@[simp, grind =] theorem refs_succeeded {α : Type} [Carries α] (a : α) :
    refs (Except.ok a : Except Failure α) = refs a := rfl

@[simp, grind =] theorem refs_failed {α : Type} [Carries α] (e : Failure) :
    refs (Except.error e : Except Failure α) = [] := rfl

/-! ### Endings -/

/-- Outcomes with the same ending, after each of which something is at hand. -/
inductive Outcome.Ends (p : Pairing) (kept : List HeapRef) {α : Type} [Carries α] :
    Outcome α → Outcome α → Prop where
  | done (a : α) {s t : State} (h : s.Alike p (refs a ++ kept) t) :
      Outcome.Ends p kept (.done a s) (.done a t)
  | thrown (e : Thrown) {s t : State} (h : s.Alike p (refs e ++ kept) t) :
      Outcome.Ends p kept (.thrown e s) (.thrown e t)
  | faulted (e : Fault) {s t : State} (h : s.Alike p kept t) :
      Outcome.Ends p kept (.faulted e s) (.faulted e t)
  | exhausted {s t : State} (h : s.Alike p kept t) :
      Outcome.Ends p kept (.exhausted s) (.exhausted t)

/-- What is held during an evaluation is at hand after it, however it ends. -/
theorem Eval.Alike.ends {α : Type} [Carries α] {p : Pairing} (hp : p.Collecting)
    {kept kept' : List HeapRef} {m m' : Eval α} (hm : Eval.Alike p kept kept' m m') {x : Holder}
    (hx : refs x ⊆ kept) {s t : State} (h : s.Alike p kept t) :
    Outcome.Ends p (refs x) (Eval.holding x m s) (Eval.holding x m' t) := by
  have ho := hm _ _ (h.hold hx)
  rw [Eval.holding, Eval.holding]
  generalize m { s with held := x :: s.held } = o, m' { t with held := x :: t.held } = o' at ho ⊢
  cases ho with
  | done a huv hu => exact .done a ((huv.release hu h.held).mono (by grind))
  | thrown e huv hu => exact .thrown e ((huv.release hu h.held).mono (by grind))
  | faulted e huv hu => exact .faulted e ((huv.release hu h.held).mono (by grind))
  | exhausted huv hu => exact .exhausted ((huv.release hu h.held).mono (by grind))
  | free hf => exact (hp.not_free hf).elim
  | short hs => exact (hp.not_short hs).elim

/-! ### Sessions -/

/-- Sessions that are the same for every step to come, while something is at hand. -/
structure Session.Alike (p : Pairing) (extra : List HeapRef) (s t : Session) : Prop where
  left : s.interpreter.config = p.left
  right : t.interpreter.config = p.right
  state : s.interpreter.state.Alike p (extra ++ refs s.holder) t.interpreter.state
  uncaught : s.interpreter.uncaught = t.interpreter.uncaught
  kept : s.kept = t.kept

/-- What was thrown and what is kept is what a session holds. -/
theorem Session.refs_holder (s : Session) :
    refs s.holder = refs s.interpreter.error ++ refs s.kept.values :=
  refs_cons ..

/-- What is at hand is reached. -/
theorem Session.reaches {s : Session} {extra : List HeapRef} {v : Value}
    (hv : refs v ⊆ extra ++ refs s.holder) :
    s.heap.Reaches (s.interpreter.state.roots (extra ++ refs s.holder)) v :=
  Heap.reaches_of_subset (fun _ ↦ State.reachable_of_mem) hv

namespace Session.Alike

variable {p : Pairing} {extra more : List HeapRef} {s t : Session}

theorem error_eq (ha : s.Alike p extra t) : s.interpreter.error = t.interpreter.error := by
  rw [Interpreter.error, Interpreter.error, ha.uncaught]

theorem holder_eq (ha : s.Alike p extra t) : s.holder = t.holder := by
  rw [holder, holder, ha.error_eq, ha.kept]

theorem mono (ha : s.Alike p extra t) (hm : more ⊆ extra) : s.Alike p more t :=
  { ha with state := ha.state.mono (by grind) }

/-- Both sessions go on in other states. -/
theorem withState (ha : s.Alike p extra t) {u v : State}
    (huv : u.Alike p (more ++ refs s.holder) v) :
    Session.Alike p more (s.withState u) (t.withState v) :=
  { ha with state := huv }

/-- Both sessions go on with other heaps. -/
theorem withHeap (ha : s.Alike p extra t) {h h' : Heap}
    (hh : h.Matched p.free p.whole p.intact
      (s.interpreter.state.roots (more ++ refs s.holder)) h') :
    Session.Alike p more (s.withHeap h) (t.withHeap h') :=
  { ha with state := ha.state.withHeap hh }

/-- A value at hand can be kept. -/
theorem keepAs (ha : s.Alike p extra t) (name : Option Text) {v : Value}
    (hv : refs v ⊆ extra) : Session.Alike p [] (s.keepAs name v) (t.keepAs name v) := by
  cases name with
  | none => exact ha.mono (List.nil_subset _)
  | some n =>
    refine { ha with
      state := ha.state.mono ?_
      kept := by rw [Session.keepAs, Session.keepAs, ha.kept] }
    have hkept : refs (s.kept.insert n v).values ⊆ refs v ++ refs s.kept.values :=
      subset_refs fun w hw ↦ by
        rcases OrderedMap.mem_values_insert hw with rfl | hw
        · exact List.subset_append_left ..
        · exact List.subset_append_of_subset_right _ (refs_subset_of_mem hw)
    rw [refs_holder, refs_holder]
    change [] ++ (refs s.interpreter.error ++ refs (s.kept.insert n v).values) ⊆ _
    grind

theorem snapshot_eq (ha : s.Alike p extra t) {v : Value}
    (hv : refs v ⊆ extra ++ refs s.holder) : s.heap.snapshot v = t.heap.snapshot v :=
  ha.state.heap.snapshot_eq (reaches hv)

theorem scope_eq (ha : s.Alike p extra t) : s.scope = t.scope := by
  have hbound (name : Text) : s.heap.lookup s.interpreter.state.frame name =
      t.heap.lookup t.interpreter.state.frame name := by
    rw [← ha.state.frame]
    exact ha.state.heap.lookup_eq State.reachable_frame name
  simp only [scope, ha.kept, hbound]

end Session.Alike

/-- The same result, which is at hand in alike sessions. -/
inductive Session.Gives (p : Pairing) {α : Type} [Carries α] :
    α × Session → α × Session → Prop where
  | intro (a : α) {s t : Session} (h : s.Alike p (refs a) t) : Session.Gives p (a, s) (a, t)

namespace Session

variable {p : Pairing} {extra : List HeapRef} {s t : Session}

theorem Gives.of_eq {α : Type} [Carries α] {r r' : α × Session} (h : r.1 = r'.1)
    (ha : r.2.Alike p (refs r.1) r'.2) : Gives p r r' := by
  obtain ⟨a, s⟩ := r
  obtain ⟨_, t⟩ := r'
  obtain rfl := h
  exact .intro a ha

namespace Alike

/-- Both sessions make the same values. -/
theorem make {α : Type} [Carries α] (hp : p.Collecting) (ha : s.Alike p extra t)
    {m : ValueSpec.Scope → ValueSpec.Build α}
    (hm : ∀ scope roots, scope.Within roots → (m scope).Alike p.free p.whole p.intact roots) :
    Gives p (s.make m) (t.make m) := by
  obtain ⟨all, hall, hreach⟩ := ha.state.heap.saturate
  have hwithin : s.scope.Within all := by
    refine ⟨fun {name v} hv r hr ↦ ?_, fun {name v} hv r hr ↦ ?_, fun _ _ ↦ rfl⟩
    · have hv : refs v ⊆ refs s.kept.values :=
        refs_subset_of_mem (OrderedMap.mem_values_of_get? hv)
      refine hreach r (State.reachable_of_mem ?_)
      rw [refs_holder]
      grind
    · obtain ⟨b, hb, rfl⟩ := Option.map_eq_some_iff.mp hv
      exact hreach r (Heap.reachable_of_reaches
        (Heap.reaches_lookup State.reachable_frame hb) r hr)
  obtain ⟨most, hmost, hrefs, heq, hmade⟩ := hm _ _ hwithin
    ⟨s.heap, s.interpreter.state.accounting, []⟩ ⟨t.heap, t.interpreter.state.accounting, []⟩
    ⟨hall, rfl, nofun⟩
  rw [ha.scope_eq] at heq hrefs hmade
  refine .of_eq ?_ ?_
  · rw [Session.make, Session.make, ha.scope_eq]
    exact heq
  · rw [Session.make, Session.make, ha.scope_eq]
    refine ha.withState { ha.state with
      heap := hmade.heap.shrink fun r hr ↦ .root ?_
      accounting := fun h ↦ (hp.not_whole h).elim }
    rcases List.mem_append.mp hr with hr | hr
    · rcases List.mem_append.mp hr with hr | hr
      · exact hrefs hr
      · exact hmost (hreach r (State.reachable_of_mem (List.mem_append_right _ hr)))
    · exact hmost (hreach r (State.reachable_of_mem_owners hr))

/-- Evaluations that are alike have the same result. -/
theorem evaluate {α : Type} [Carries α] (hp : p.Collecting) (ha : s.Alike p extra t) (level : Nat)
    {m : Evaluator → Eval α}
    (hm : ∀ r r', r.Alike p r' → (∀ a, r.Alike (p.entered a) r') →
      Eval.Alike p (extra ++ refs s.holder) [] (m r) (m r')) :
    Gives p (s.evaluate level m) (t.evaluate level m) := by
  have hr : (p.left.level level).Alike p (p.right.level level) := p.level_alike (.inl rfl)
  have hin (a : Activation) : (p.left.level level).Alike (p.entered a) (p.right.level level) :=
    (p.entered a).level_alike (.inl rfl)
  have ho := (hm _ _ hr hin).ends hp (List.subset_append_right extra (refs s.holder)) ha.state
  rw [Session.evaluate, Session.evaluate, ha.left, ha.right, ← ha.holder_eq]
  generalize Eval.holding s.holder (m (p.left.level level)) s.interpreter.state = o,
    Eval.holding s.holder (m (p.right.level level)) t.interpreter.state = o' at ho ⊢
  cases ho with
  | done a h => exact .intro (Except.ok a) (ha.withState h)
  | @thrown e u v h =>
    have hu := ha.withState h
    have hsnapshot : u.heap.snapshot e.value = v.heap.snapshot e.value :=
      hu.snapshot_eq (List.subset_append_left ..)
    dsimp only
    rw [hsnapshot]
    exact .intro _ (hu.mono (List.nil_subset _))
  | faulted e h => exact .intro _ (ha.withState h)
  | exhausted h => exact .intro _ (ha.withState h)

/-! ### Collections -/

/-- A collection in the first session makes no difference. -/
theorem collect_left (hp : p.Collecting) (ha : s.Alike p [] t) : s.collect.Alike p [] t := by
  have hheld := (ha.state.hold (x := s.holder) (List.subset_append_right [] _)).forget
  have hdone := (hheld.collect_left hp.not_whole).release rfl ha.state.held
  exact { ha with state := hdone.mono fun _ ↦ List.mem_append_left _ }

/-! ### The beginning -/

/-- Sessions that start with the same bindings are alike. -/
theorem start (hp : p.Collecting) (accounting accounting' : Accounting)
    (bindings : List (Text × ValueSpec)) :
    Session.Alike p [] (Session.start p.left accounting bindings)
      (Session.start p.right accounting' bindings) := by
  have hbuild : ValueSpec.Build.Alike p.free p.whole p.intact []
      (ValueSpec.buildBindings .empty [] bindings) :=
    ValueSpec.buildBindings_alike (ValueSpec.Scope.within_empty []) [] bindings
  have hm := hbuild ⟨.empty, accounting, []⟩ ⟨.empty, accounting', []⟩
    ⟨.refl p.free p.whole fun _ ↦ .empty, rfl, nofun⟩
  rw [Session.start, Session.start, ValueSpec.make, ValueSpec.make]
  generalize ValueSpec.buildBindings .empty [] bindings ⟨.empty, accounting, []⟩ = m,
    ValueSpec.buildBindings .empty [] bindings ⟨.empty, accounting', []⟩ = m' at hm ⊢
  obtain ⟨values, b⟩ := m
  obtain ⟨_, b'⟩ := m'
  obtain ⟨more, _, hvalues, rfl, hmade⟩ := hm
  obtain ⟨hframe, hheap⟩ := hmade.heap.newGlobal hvalues
  refine {
    left := rfl
    right := rfl
    uncaught := rfl
    kept := rfl
    state := {
      heap := hheap.shrink fun r hr ↦ .root ?_
      frame := hframe
      depth := rfl
      calls := rfl
      log := rfl
      notices := rfl
      held := rfl
      moments := fun _ ↦ rfl
      accounting := fun h ↦ (hp.not_whole h).elim
      accounts := fun active ha ↦ hp.idle active ha ▸ .nil p.left } }
  -- Nothing is at hand yet but the global frame.
  rcases List.mem_cons.mp hr with rfl | hr
  · exact List.mem_cons_self ..
  · cases hr

end Alike

end Session

end EcmaTree
