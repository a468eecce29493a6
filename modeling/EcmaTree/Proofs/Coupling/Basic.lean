import EcmaTree.Proofs.Calling
import EcmaTree.Proofs.Coupling.Resembling
import EcmaTree.Proofs.Results

/-!
# Couplings

A *coupling* relates the states of two evaluations of the same code. It says what related states
have in common, is kept by the steps that evaluations take, and leads into the scopes that they open
and out again. Two evaluations are coupled if from related states they end the same way, in related
states. Every construct that evaluations are made of keeps the coupling of its parts.
-/

namespace EcmaTree

/-- The frame that a holder holds. -/
def Holder.frame? : Holder → Option FrameId
  | frame id => some id
  | values _ | elements _ | properties _ => none

/-- What one step of an evaluation does, in words that make sense in any state. -/
inductive Effect where
  | object (ps : Properties)
  | array (es : Array Value)
  | host (name : Text) (f : HostFunction)
  | closure (code : FunctionNode)
  | modifyObject (id : ObjectId) (f : Properties → Properties)
  | modifyArray (id : ArrayId) (f : Array Value → Array Value)
  | nameFunction (id : FunctionId) (name : Text)
  | assign (name : Text) (v : Value)
  | define (name : Text) (v : Value) (kind : BindingKind)
  | signal (completion : Completion)
  | record (vs : List Value)
  | note (n : Notice)
  | moment (m : Moment)

namespace Effect

/-- Declarations, and what else a statement does to the frame that it is evaluated in. -/
def marks : Effect → Bool
  | define .. | signal _ => true
  | _ => false

/-- The state after a step. -/
def run (c : Config) : Effect → State → State
  | object ps, s => { s with heap := (s.heap.newObject ps).2 }
  | array es, s => { s with heap := (s.heap.newArray es).2 }
  | host name f, s => { s with heap := (s.heap.newFunction ⟨name, .host f⟩).2 }
  | closure code, s =>
    { s with heap := (s.heap.newFunction ⟨code.name, .closure code s.frame⟩).2 }
  | modifyObject id f, s => { s with heap := s.heap.modifyObject id f }
  | modifyArray id f, s => { s with heap := s.heap.modifyArray id f }
  | nameFunction id name, s => { s with heap := s.heap.nameFunction id name }
  | assign name v, s => { s with heap := (s.heap.assign s.frame name v).2 }
  | define name v kind, s => { s with heap := s.heap.define s.frame name v kind }
  | signal completion, s => { s with heap := s.heap.setSignal s.frame completion }
  | record vs, s => { s with log := s.heap.snapshots vs :: s.log }
  | note n, s => { s with notices := n :: s.notices }
  | moment m, s => s.passMoment c m

variable (c : Config) (e : Effect) (s : State)

/-- No step changes the current frame, what is active, or what is held. -/
theorem scopes_run : (e.run c s).frame = s.frame ∧ (e.run c s).depth = s.depth ∧
    (e.run c s).calls = s.calls ∧ (e.run c s).held = s.held := by
  cases e with
  | moment m =>
    rw [run, State.passMoment]
    split <;> exact ⟨rfl, rfl, rfl, rfl⟩
  | _ => exact ⟨rfl, rfl, rfl, rfl⟩

@[simp] theorem frame_run : (e.run c s).frame = s.frame := (e.scopes_run c s).1

@[simp] theorem held_run : (e.run c s).held = s.held := (e.scopes_run c s).2.2.2

end Effect

namespace Heap

theorem fst_newObject_congr {h h' : Heap} (ho : h'.objects = h.objects) (ps : Properties) :
    (h'.newObject ps).1 = (h.newObject ps).1 := by
  rw [newObject, newObject, ho]

theorem lookup_eq_bind (h : Heap) (id : FrameId) (name : Text) :
    h.lookup id name = (h.owner? id name).bind (h.findLocal? · name) := by
  rw [lookup, owner?]
  induction h.chain id with
  | nil => rfl
  | cons f rest ih =>
    rw [List.findSome?_cons, List.find?_cons, ih]
    cases hf : h.findLocal? f name with
    | none => rfl
    | some b => exact hf.symm

/-- What an assignment to a name comes to is decided by what the name means. -/
theorem fst_assign (h : Heap) (id : FrameId) (name : Text) (v : Value) :
    (h.assign id name v).1 =
      match h.lookup id name with
      | none => .notFound
      | some b => if b.kind = .const then .constViolation else .ok := by
  rw [assign, lookup_eq_bind]
  cases h.owner? id name with
  | none => rfl
  | some owner =>
    dsimp only [Option.bind_some]
    cases h.findLocal? owner name with
    | none => rfl
    | some b =>
      dsimp only
      split <;> rfl

end Heap

namespace State

/-- The state in which a new frame is current, and the one before is held. -/
def opened (s : State) (f : Frame) : State :=
  { s with
    heap := (s.heap.newFrame f).2
    frame := (s.heap.newFrame f).1
    held := .frame s.frame :: s.held }

/-- What is thrown for an error that knows of the active calls. -/
def raised (s : State) (e : RuntimeError) (span : Span) : Thrown :=
  let stack := Report.stack e.kind.name e.message s.calls
  let made := s.heap.newObject (Heap.errorProperties e.kind e.message stack)
  made.2.thrown (.object made.1) s.calls span

/-- What is thrown for an error that knows nothing of the active calls. -/
def raisedBare (s : State) (e : RuntimeError) : Thrown :=
  let made := s.heap.newObject (Heap.errorProperties e.kind e.message .empty)
  made.2.thrown (.object made.1) [] .nowhere

/-- Two states show an evaluation the same. -/
structure Resembles (s t : State) : Prop where
  heap : s.heap.Resembles t.heap
  lookup_eq (name : Text) : t.heap.lookup t.frame name = s.heap.lookup s.frame name
  receiver_eq : t.heap.receiver t.frame = s.heap.receiver s.frame
  depth_eq : t.depth = s.depth
  calls_eq : t.calls = s.calls
  log_eq : t.log = s.log

theorem Resembles.refl (s : State) : s.Resembles s :=
  ⟨.refl s.heap, fun _ ↦ rfl, rfl, rfl, rfl, rfl⟩

theorem Resembles.raised_eq {s t : State} (h : s.Resembles t) (e : RuntimeError) (span : Span) :
    t.raised e span = s.raised e span := by
  rw [raised, raised, h.calls_eq]
  rw [(h.heap.newObject _).thrown_eq, Heap.fst_newObject_congr h.heap.objects_eq]

theorem Resembles.raisedBare_eq {s t : State} (h : s.Resembles t) (e : RuntimeError) :
    t.raisedBare e = s.raisedBare e := by
  rw [raisedBare, raisedBare]
  rw [(h.heap.newObject _).thrown_eq, Heap.fst_newObject_congr h.heap.objects_eq]

end State

theorem Eval.inFrame_newFrame {α : Type} (m : Eval α) (s : State) (f : Frame) :
    Eval.inFrame (s.heap.newFrame f).1 m { s with heap := (s.heap.newFrame f).2 } =
      (m (s.opened f)).mapState fun u ↦ { u with frame := s.frame, held := s.held } := by
  change ((m (s.opened f)).mapState _).mapState _ = _
  cases m (s.opened f) <;> rfl

theorem Eval.inChild_apply {α : Type} (m : Eval α) (s : State) :
    Eval.inChild m s =
      (m (s.opened (.ofParent (some s.frame)))).mapState
        fun u ↦ { u with frame := s.frame, held := s.held } :=
  Eval.inFrame_newFrame m s _

/-- What a relation of states asks of a scope in another mode: what is related inside is related
outside when the scope is left, and what may be thrown inside may be thrown outside. -/
structure Coupling.Encloses {Mode : Type} (Rel : Mode → State → State → Prop)
    (Throws : Mode → Thrown → Prop) (m inside : Mode) : Prop where
  closing {s t u v : State} (h : Rel m s t) (h' : Rel inside u v)
    (hu : u.held = .frame s.frame :: s.held) (hv : v.held = .frame t.frame :: t.held) :
    Rel m { u with frame := s.frame, held := s.held } { v with frame := t.frame, held := t.held }
  throws {e : Thrown} (he : Throws inside e) : Throws m e

/-- A relation of the states of two evaluations, in modes that change with the frame and with the
active calls, and what may be thrown meanwhile. The first evaluation may also end with an alarm. -/
structure Coupling (c : Config) (Mode : Type) where
  Rel : Mode → State → State → Prop
  Throws : Mode → Thrown → Prop := fun _ _ ↦ True
  Alarm : Fault → Prop := fun _ ↦ False
  /-- Statements may be evaluated, and mark the current frame. -/
  Marks : Mode → Prop := fun _ ↦ True
  /-- The mode in a new frame below the current one. -/
  inner : Mode → Mode
  /-- The mode inside of a call. -/
  calling : CallFrame → Mode → Mode := fun _ m ↦ m
  marks_inner (m : Mode) : Marks (inner m) := by intros; trivial
  resembles {m : Mode} {s t : State} (h : Rel m s t) : s.Resembles t
  effect {m : Mode} {s t : State} (e : Effect) (he : e.marks = true → Marks m) (h : Rel m s t) :
    Rel m (e.run c s) (e.run c t)
  hold {m : Mode} {s t : State} {x : Holder} (hx : x.frame? = none) (h : Rel m s t) :
    Rel m { s with held := x :: s.held } { t with held := x :: t.held }
  release {m : Mode} {s t : State} {x : Holder} {hs ht : List Holder} (hx : x.frame? = none)
    (h : Rel m s t) (hleft : s.held = x :: hs) (hright : t.held = x :: ht) :
    Rel m { s with held := hs } { t with held := ht }
  opening {m : Mode} {s t : State} (h : Rel m s t) :
    Rel (inner m) (s.opened (.ofParent (some s.frame))) (t.opened (.ofParent (some t.frame)))
  encloses (m : Mode) : Coupling.Encloses Rel Throws m (inner m)
  sibling {m : Mode} {s t : State} (h : Rel (inner m) s t) :
    Rel (inner m)
      { s with heap := (s.heap.newSibling s.frame).2, frame := (s.heap.newSibling s.frame).1 }
      { t with heap := (t.heap.newSibling t.frame).2, frame := (t.heap.newSibling t.frame).1 }
  call {m : Mode} {s t : State} (entry : CallFrame) (hs : s.depth < c.maxDepth) (h : Rel m s t) :
    Rel (calling entry m) { s with depth := s.depth + 1, calls := entry :: s.calls }
      { t with depth := t.depth + 1, calls := entry :: t.calls }
  returning {m : Mode} {s t u v : State} {entry : CallFrame} (h : Rel m s t)
    (h' : Rel (calling entry m) u v) :
    Rel m { u with depth := s.depth, calls := s.calls }
      { v with depth := t.depth, calls := t.calls }
  throws_call {m : Mode} {entry : CallFrame} {e : Thrown} (he : Throws (calling entry m) e) :
    Throws m e := by intros; trivial
  throws_raised {m : Mode} {s t : State} (h : Rel m s t) (e : RuntimeError) (span : Span) :
    Throws m (s.raised e span) := by intros; trivial

namespace Coupling

variable {c : Config} {Mode : Type} {k : Coupling c Mode} {mode : Mode} {s t u v : State}
  {α β σ : Type} {m m' : Eval α}

/-- Two states to which evaluations lead that began in two others. Both hold what they held. -/
structure After (k : Coupling c Mode) (mode : Mode) (s t u v : State) : Prop where
  rel : k.Rel mode u v
  left : u.held = s.held
  right : v.held = t.held

/-- Two evaluations that began in two states end the same way, or the first one with an alarm. -/
inductive Ends (k : Coupling c Mode) (mode : Mode) (s t : State) :
    Outcome α → Outcome α → Prop where
  | done (a : α) {u v : State} (h : k.After mode s t u v) : Ends k mode s t (.done a u) (.done a v)
  | thrown {e : Thrown} (he : k.Throws mode e) {u v : State} (h : k.After mode s t u v) :
      Ends k mode s t (.thrown e u) (.thrown e v)
  | faulted (e : Fault) {u v : State} (h : k.After mode s t u v) :
      Ends k mode s t (.faulted e u) (.faulted e v)
  | exhausted {u v : State} (h : k.After mode s t u v) :
      Ends k mode s t (.exhausted u) (.exhausted v)
  | alarm {e : Fault} (he : k.Alarm e) (u : State) (o : Outcome α) :
      Ends k mode s t (.faulted e u) o

/-- Two evaluations end the same way whenever they begin in related states. -/
def Couples (k : Coupling c Mode) (mode : Mode) (m m' : Eval α) : Prop :=
  ∀ s t, k.Rel mode s t → k.Ends mode s t (m s) (m' t)

theorem After.self (h : k.Rel mode s t) : k.After mode s t s t := ⟨h, rfl, rfl⟩

theorem After.trans {s' t' : State} (h : k.After mode s t u v) (h' : k.After mode u v s' t') :
    k.After mode s t s' t' :=
  ⟨h'.rel, h'.left.trans h.left, h'.right.trans h.right⟩

theorem Ends.trans {o o' : Outcome α} (h : k.After mode s t u v) (ho : k.Ends mode u v o o') :
    k.Ends mode s t o o' := by
  cases ho with
  | done a ha => exact .done a (h.trans ha)
  | thrown he ha => exact .thrown he (h.trans ha)
  | faulted e ha => exact .faulted e (h.trans ha)
  | exhausted ha => exact .exhausted (h.trans ha)
  | alarm he => exact .alarm he _ _

theorem Ends.bind {f f' : α → Eval β} (ho : k.Ends mode s t (m s) (m' t))
    (hf : ∀ a, k.Couples mode (f a) (f' a)) :
    k.Ends mode s t ((m >>= f) s) ((m' >>= f') t) := by
  rw [Eval.bind_apply, Eval.bind_apply]
  generalize m s = o, m' t = o' at ho ⊢
  cases ho with
  | done a ha => exact .trans ha (hf a _ _ ha.rel)
  | thrown he ha => exact .thrown he ha
  | faulted e ha => exact .faulted e ha
  | exhausted ha => exact .exhausted ha
  | alarm he => exact .alarm he _ _

/-- Where the alarm never goes off, both evaluations leave related states. -/
theorem Ends.rel {o o' : Outcome α} (hk : ∀ e, ¬ k.Alarm e) (ho : k.Ends mode s t o o') :
    k.Rel mode o.state o'.state := by
  cases ho with
  | done a ha => exact ha.rel
  | thrown he ha => exact ha.rel
  | faulted e ha => exact ha.rel
  | exhausted ha => exact ha.rel
  | alarm he => exact (hk _ he).elim

/-- Where the state of the second evaluation decides that of the first one, so does its outcome. -/
theorem Ends.eq_mapState {o o' : Outcome α} (hk : ∀ e, ¬ k.Alarm e) {f : State → State}
    (heq : ∀ {u v}, k.Rel mode u v → u = f v) (ho : k.Ends mode s t o o') : o = o'.mapState f := by
  cases ho with
  | done a ha => exact congrArg (Outcome.done a) (heq ha.rel)
  | thrown he ha => exact congrArg (Outcome.thrown _) (heq ha.rel)
  | faulted e ha => exact congrArg (Outcome.faulted e) (heq ha.rel)
  | exhausted ha => exact congrArg Outcome.exhausted (heq ha.rel)
  | alarm he => exact (hk _ he).elim

/-- Where only equal states are related, both evaluations are the same. -/
theorem Ends.eq {o o' : Outcome α} (hk : ∀ e, ¬ k.Alarm e)
    (heq : ∀ {u v}, k.Rel mode u v → u = v) (ho : k.Ends mode s t o o') : o = o' :=
  (ho.eq_mapState hk heq).trans o'.mapState_id

/-- Where only equal states are related, both evaluations are the same unless the alarm goes off. -/
theorem Ends.alarm_or_eq {o o' : Outcome α} (heq : ∀ {u v}, k.Rel mode u v → u = v)
    (ho : k.Ends mode s t o o') :
    (∃ e u, k.Alarm e ∧ o = .faulted e u) ∨ o = o' ∧ k.Rel mode o.state o'.state := by
  cases ho with
  | done a ha => exact .inr ⟨congrArg (Outcome.done a) (heq ha.rel), ha.rel⟩
  | thrown he ha => exact .inr ⟨congrArg (Outcome.thrown _) (heq ha.rel), ha.rel⟩
  | faulted e ha => exact .inr ⟨congrArg (Outcome.faulted e) (heq ha.rel), ha.rel⟩
  | exhausted ha => exact .inr ⟨congrArg Outcome.exhausted (heq ha.rel), ha.rel⟩
  | alarm he => exact .inl ⟨_, _, he, rfl⟩

/-- Where the alarm never goes off, what was held is held afterwards. -/
theorem Ends.held_eq {o o' : Outcome α} (hk : ∀ e, ¬ k.Alarm e) (ho : k.Ends mode s t o o') :
    o'.state.held = t.held := by
  cases ho with
  | done a ha => exact ha.right
  | thrown he ha => exact ha.right
  | faulted e ha => exact ha.right
  | exhausted ha => exact ha.right
  | alarm he => exact (hk _ he).elim

/-- A scope in a mode of its own is left. -/
theorem Ends.leave {inside : Mode} {s' t' : State} {o o' : Outcome α} {f g : State → State}
    (hthrows : ∀ {e}, k.Throws inside e → k.Throws mode e) (ho : k.Ends inside s' t' o o')
    (h : ∀ {u v}, k.After inside s' t' u v → k.After mode s t (f u) (g v)) :
    k.Ends mode s t (o.mapState f) (o'.mapState g) := by
  cases ho with
  | done a ha => exact .done a (h ha)
  | thrown he ha => exact .thrown (hthrows he) (h ha)
  | faulted e ha => exact .faulted e (h ha)
  | exhausted ha => exact .exhausted (h ha)
  | alarm he => exact .alarm he _ _

/-- A value that is thrown without the active calls. -/
theorem ends_throwValue (h : k.Rel mode s t) {v : Value}
    (hv : k.Throws mode (s.heap.thrown v [] .nowhere)) :
    k.Ends mode s t ((Eval.throwValue v [] .nowhere : Eval α) s)
      (Eval.throwValue v [] .nowhere t) := by
  rw [Eval.throwValue, Eval.throwValue, (k.resembles h).heap.thrown_eq]
  exact .thrown hv (.self h)

/-- An error that is raised without the active calls. -/
theorem ends_raiseBare (h : k.Rel mode s t) {e : RuntimeError}
    (he : k.Throws mode (s.raisedBare e)) :
    k.Ends mode s t ((Eval.raiseBare e : Eval α) s) (Eval.raiseBare e t) := by
  let made := Effect.object (Heap.errorProperties e.kind e.message .empty)
  change k.Ends mode s t (.thrown (s.raisedBare e) (made.run c s))
    (.thrown (t.raisedBare e) (made.run c t))
  rw [(k.resembles h).raisedBare_eq]
  exact .thrown he ⟨k.effect made nofun h, rfl, rfl⟩

namespace Couples

/-! ### Sequences -/

theorem pure (a : α) : k.Couples mode (Pure.pure a : Eval α) (Pure.pure a) :=
  fun _ _ h ↦ .done a (.self h)

theorem bind {f f' : α → Eval β} (hm : k.Couples mode m m')
    (hf : ∀ a, k.Couples mode (f a) (f' a)) : k.Couples mode (m >>= f) (m' >>= f') :=
  fun s t h ↦ (hm s t h).bind hf

theorem map (f : α → β) (hm : k.Couples mode m m') : k.Couples mode (f <$> m) (f <$> m') := by
  rw [map_eq_pure_bind, map_eq_pure_bind]
  exact hm.bind fun _ ↦ pure _

theorem exhaust : k.Couples mode (Eval.exhaust : Eval α) Eval.exhaust :=
  fun _ _ h ↦ .exhausted (.self h)

theorem fault (e : Fault) : k.Couples mode (Eval.fault e : Eval α) (Eval.fault e) :=
  fun _ _ h ↦ .faulted e (.self h)

theorem structural (cause : StructuralCause) (span : Span) :
    k.Couples mode (Eval.structural cause span : Eval α) (Eval.structural cause span) :=
  fault _

theorem rethrow {e : Thrown} (he : k.Throws mode e) :
    k.Couples mode (Eval.rethrow e : Eval α) (Eval.rethrow e) :=
  fun _ _ h ↦ .thrown he (.self h)

/-- What goes on after a handler may rely on what the handler can catch. -/
theorem catching_bind {f f' : Except Thrown α → Eval β} (hm : k.Couples mode m m')
    (hok : ∀ a, k.Couples mode (f (.ok a)) (f' (.ok a)))
    (herror : ∀ e, k.Throws mode e → k.Couples mode (f (.error e)) (f' (.error e))) :
    k.Couples mode (Eval.catching m >>= f) (Eval.catching m' >>= f') := by
  intro s t h
  have ho := hm s t h
  rw [Eval.bind_apply, Eval.bind_apply, Eval.catching, Eval.catching]
  generalize m s = o, m' t = o' at ho ⊢
  cases ho with
  | done a ha => exact .trans ha (hok a _ _ ha.rel)
  | thrown he ha => exact .trans ha (herror _ he _ _ ha.rel)
  | faulted e ha => exact .faulted e ha
  | exhausted ha => exact .exhausted ha
  | alarm he u' => exact .alarm he u' _

theorem catching (hm : k.Couples mode m m') :
    k.Couples mode (Eval.catching m) (Eval.catching m') := by
  have h : k.Couples mode (Eval.catching m >>= Pure.pure) (Eval.catching m' >>= Pure.pure) :=
    catching_bind hm (fun _ ↦ pure _) fun _ _ ↦ pure _
  rwa [bind_pure, bind_pure] at h

/-! ### Reading -/

theorem read {f : State → α} (hf : ∀ {s t : State}, s.Resembles t → f t = f s) :
    k.Couples mode (Eval.read f) (Eval.read f) := by
  intro s t h
  rw [Eval.read, Eval.read, hf (k.resembles h)]
  exact .done _ (.self h)

theorem readHeap {f : Heap → α} (hf : ∀ {h h' : Heap}, h.Resembles h' → f h' = f h) :
    k.Couples mode (Eval.readHeap f) (Eval.readHeap f) :=
  read fun h ↦ hf h.heap

theorem textOf (v : Value) : k.Couples mode (Eval.textOf v) (Eval.textOf v) :=
  readHeap fun h ↦ h.toText_eq v

theorem numberOf (v : Value) : k.Couples mode (Eval.numberOf v) (Eval.numberOf v) :=
  readHeap fun h ↦ h.toNumber_eq v

theorem elements (id : ArrayId) : k.Couples mode (Eval.elements id) (Eval.elements id) :=
  readHeap fun h ↦ h.elements_eq id

theorem lookup (name : Text) : k.Couples mode (Eval.lookup name) (Eval.lookup name) :=
  read fun h ↦ h.lookup_eq name

/-- What is read from the heap may be relied on for the states that it is read in. -/
theorem readHeap_bind {g : Heap → α} {f f' : α → Eval β}
    (hg : ∀ {h h' : Heap}, h.Resembles h' → g h' = g h)
    (hf : ∀ {s t : State}, k.Rel mode s t → k.Ends mode s t (f (g s.heap) s) (f' (g s.heap) t)) :
    k.Couples mode (Eval.readHeap g >>= f) (Eval.readHeap g >>= f') := by
  intro s t h
  change k.Ends mode s t (f (g s.heap) s) (f' (g t.heap) t)
  rw [hg (k.resembles h).heap]
  exact hf h

/-! ### Steps -/

/-- An evaluation that takes one step. -/
theorem step (e : Effect) (he : e.marks = true → k.Marks mode) {f : State → α}
    (hf : ∀ {s t : State}, s.Resembles t → f t = f s) :
    k.Couples mode (fun s ↦ .done (f s) (e.run c s)) fun s ↦ .done (f s) (e.run c s) := by
  intro s t h
  change k.Ends mode s t (.done (f s) (e.run c s)) (.done (f t) (e.run c t))
  rw [hf (k.resembles h)]
  exact .done _ ⟨k.effect e he h, e.held_run c s, e.held_run c t⟩

theorem modifyArray (id : ArrayId) (f : Array Value → Array Value) :
    k.Couples mode (Eval.modifyHeap (·.modifyArray id f)) (Eval.modifyHeap (·.modifyArray id f)) :=
  step (.modifyArray id f) nofun fun _ ↦ rfl

theorem modifyObject (id : ObjectId) (f : Properties → Properties) :
    k.Couples mode (Eval.modifyHeap (·.modifyObject id f))
      (Eval.modifyHeap (·.modifyObject id f)) :=
  step (.modifyObject id f) nofun fun _ ↦ rfl

theorem nameFunction (id : FunctionId) (name : Text) :
    k.Couples mode (Eval.modifyHeap (·.nameFunction id name))
      (Eval.modifyHeap (·.nameFunction id name)) :=
  step (.nameFunction id name) nofun fun _ ↦ rfl

theorem newArray (es : Array Value) : k.Couples mode (Eval.newArray es) (Eval.newArray es) :=
  step (.array es) nofun fun h ↦ by
    simp only [h.heap.arrays_eq]

theorem newObject (ps : Properties) : k.Couples mode (Eval.newObject ps) (Eval.newObject ps) :=
  step (.object ps) nofun fun h ↦ by
    simp only [h.heap.objects_eq]

theorem newHostFunction (name : Text) (f : HostFunction) :
    k.Couples mode (Eval.newFunction ⟨name, .host f⟩) (Eval.newFunction ⟨name, .host f⟩) :=
  step (.host name f) nofun fun h ↦ by
    simp only [h.heap.size_eq]

theorem makeFunction (code : FunctionNode) :
    k.Couples mode (Evaluator.makeFunction code) (Evaluator.makeFunction code) :=
  step (.closure code) nofun fun h ↦ by
    simp only [h.heap.size_eq]

theorem define (hm : k.Marks mode) (name : Text) (v : Value) (kind : BindingKind) :
    k.Couples mode (Eval.define name v kind) (Eval.define name v kind) :=
  step (.define name v kind) (fun _ ↦ hm) fun _ ↦ rfl

theorem setSignal (hm : k.Marks mode) (completion : Completion) :
    k.Couples mode (Eval.setSignal completion) (Eval.setSignal completion) :=
  step (.signal completion) (fun _ ↦ hm) fun _ ↦ rfl

theorem record (vs : List Value) : k.Couples mode (Eval.record vs) (Eval.record vs) :=
  step (.record vs) nofun fun _ ↦ rfl

theorem note (n : Notice) :
    k.Couples mode (Eval.modify fun s ↦ { s with notices := n :: s.notices })
      (Eval.modify fun s ↦ { s with notices := n :: s.notices }) :=
  step (.note n) nofun fun _ ↦ rfl

theorem assignVariable (name : Text) (v : Value) :
    k.Couples mode (Target.assignVariable name v) (Target.assignVariable name v) :=
  step (f := fun s ↦ (s.heap.assign s.frame name v).1) (.assign name v) nofun fun h ↦ by
    rw [Heap.fst_assign, Heap.fst_assign, h.lookup_eq]

/-! ### Throwing -/

theorem throwValue (v : Value) (span : Span)
    (hv : ∀ {s t}, k.Rel mode s t → k.Throws mode (s.heap.thrown v s.calls span)) :
    k.Couples mode (do Eval.throwValue v (← Eval.read State.calls) span : Eval α)
      (do Eval.throwValue v (← Eval.read State.calls) span) := by
  intro s t h
  have hr := k.resembles h
  change k.Ends mode s t (.thrown (s.heap.thrown v s.calls span) s)
    (.thrown (t.heap.thrown v t.calls span) t)
  rw [hr.heap.thrown_eq, hr.calls_eq]
  exact .thrown (hv h) (.self h)

theorem raise (e : RuntimeError) (span : Span) :
    k.Couples mode (Eval.raise e span : Eval α) (Eval.raise e span) := by
  intro s t h
  let stack := Report.stack e.kind.name e.message s.calls
  have hstack : Report.stack e.kind.name e.message t.calls = stack :=
    congrArg _ (k.resembles h).calls_eq
  change k.Ends mode s t
    (.thrown (s.raised e span)
      ((Effect.object (Heap.errorProperties e.kind e.message stack)).run c s))
    (.thrown (t.raised e span) ((Effect.object (Heap.errorProperties e.kind e.message
      (Report.stack e.kind.name e.message t.calls))).run c t))
  rw [(k.resembles h).raised_eq, hstack]
  exact .thrown (k.throws_raised h e span) ⟨k.effect _ nofun h, rfl, rfl⟩

/-! ### Scopes -/

theorem holding {x : Holder} (hx : x.frame? = none) (hm : k.Couples mode m m') :
    k.Couples mode (Eval.holding x m) (Eval.holding x m') := by
  intro s t h
  refine .leave id (hm _ _ (k.hold hx h)) fun ha ↦ ?_
  exact ⟨k.release hx ha.rel ha.left ha.right, rfl, rfl⟩

theorem passMoment {r r' : Evaluator} (hr : r.config = c) (hr' : r'.config = c) (moment : Moment)
    (vs : List Value) : k.Couples mode (r.passMoment moment vs) (r'.passMoment moment vs) := by
  rw [Evaluator.passMoment, Evaluator.passMoment, hr, hr']
  exact holding rfl (step (.moment moment) nofun fun _ ↦ rfl)

/-- A scope with a new frame of its own. -/
theorem inFresh {inside : Mode} {f f' : Frame} (he : Encloses k.Rel k.Throws mode inside)
    (h : k.Rel mode s t) (hopen : k.Rel inside (s.opened f) (t.opened f'))
    (hm : k.Couples inside m m') :
    k.Ends mode s t
      (Eval.inFrame (s.heap.newFrame f).1 m { s with heap := (s.heap.newFrame f).2 })
      (Eval.inFrame (t.heap.newFrame f').1 m' { t with heap := (t.heap.newFrame f').2 }) := by
  rw [Eval.inFrame_newFrame, Eval.inFrame_newFrame]
  refine .leave he.throws (hm _ _ hopen) fun ha ↦ ?_
  exact ⟨he.closing h ha.rel ha.left ha.right, rfl, rfl⟩

theorem inChild (hm : k.Couples (k.inner mode) m m') :
    k.Couples mode (Eval.inChild m) (Eval.inChild m') :=
  fun _ _ h ↦ inFresh (k.encloses mode) h (k.opening h) hm

theorem enterSibling :
    k.Couples (k.inner mode) Evaluator.enterSibling Evaluator.enterSibling :=
  fun _ _ h ↦ .done () ⟨k.sibling h, rfl, rfl⟩

/-- A scope with a further entry on the call trace, in a mode of its own. -/
theorem withCallFrame {inside : Mode} (entry : CallFrame)
    (henter : ∀ {s t}, k.Rel mode s t →
      k.Rel inside { s with calls := entry :: s.calls } { t with calls := entry :: t.calls })
    (hleave : ∀ {s t u v}, k.Rel mode s t → k.Rel inside u v →
      k.Rel mode { u with calls := s.calls } { v with calls := t.calls })
    (hthrows : ∀ {e}, k.Throws inside e → k.Throws mode e) (hm : k.Couples inside m m') :
    k.Couples mode (Eval.withCallFrame entry m) (Eval.withCallFrame entry m') :=
  fun _ _ h ↦ .leave hthrows (hm _ _ (henter h)) fun ha ↦ ⟨hleave h ha.rel, ha.left, ha.right⟩

/-- A call for which there is no room is an error, on both sides. -/
theorem inCall (name : Text) (site : Span)
    (hm : k.Couples (k.calling (c.callFrame name site) mode) m m') :
    k.Couples mode (c.inCall name site m) (c.inCall name site m') := by
  intro s t h
  have hdepth := (k.resembles h).depth_eq
  rw [Config.inCall, Config.inCall, hdepth]
  split
  · next hlt =>
    have hmap (s : State) (m : Eval α) :
        Eval.deeper (Eval.withCallFrame (c.callFrame name site) m) s =
          (m { s with depth := s.depth + 1, calls := c.callFrame name site :: s.calls }).mapState
            fun u ↦ { u with depth := s.depth, calls := s.calls } := by
      change ((m _).mapState _).mapState _ = _
      cases m { s with depth := s.depth + 1, calls := c.callFrame name site :: s.calls } <;> rfl
    rw [hmap, hmap]
    refine .leave k.throws_call (hm _ _ (k.call _ hlt h)) fun ha ↦ ?_
    exact ⟨k.returning h ha.rel, ha.left, ha.right⟩
  · exact raise _ _ s t h

/-! ### Repetition -/

theorem iterate {round round' : σ → Eval (Round σ β)}
    (hround : ∀ x, k.Couples mode (round x) (round' x)) (n : Nat) (x : σ) :
    k.Couples mode (Eval.iterate round n x) (Eval.iterate round' n x) := by
  induction n generalizing x with
  | zero => exact exhaust
  | succ n ih =>
    refine (hround x).bind fun result ↦ ?_
    cases result with
    | again y => exact ih y
    | «over» b => exact pure b

theorem overIndices (id : ArrayId) {visit visit' : σ → Nat → Value → Eval σ}
    (hvisit : ∀ result i element,
      k.Couples mode (visit result i element) (visit' result i element))
    (indices : List Nat) (result : σ) :
    k.Couples mode (Eval.overIndices id visit indices result)
      (Eval.overIndices id visit' indices result) := by
  induction indices generalizing result with
  | nil => exact pure result
  | cons i rest ih =>
    refine (elements id).bind fun es ↦ ?_
    split
    · exact pure result
    · exact (hvisit _ _ _).bind ih

theorem forCallback (id : ArrayId) (callback : Value) (indices : List Nat) (start : σ)
    {visit visit' : σ → Nat → Value → Eval σ}
    (hvisit : ∀ result i element,
      k.Couples mode (visit result i element) (visit' result i element)) :
    k.Couples mode (Eval.forCallback id callback indices start visit)
      (Eval.forCallback id callback indices start visit') :=
  holding rfl (overIndices id hvisit indices start)

end Couples

end Coupling

end EcmaTree
