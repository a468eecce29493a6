import EcmaTree.Proofs.Discipline.Level

/-!
# Courses of evaluations

What an evaluation can do to the state, however it ends: a few changes of the heap, records and
notices, moments that pass, and scopes, at whose end what they changed is as before. Whatever holds
of these holds of every evaluation.
-/

namespace EcmaTree

/-- One change of a heap. -/
inductive Heap.Change (h : Heap) : Heap → Prop where
  | child (id : FrameId) : Change h (h.newChild id).2
  | sibling (id : FrameId) : Change h (h.newSibling id).2
  | call (self : FunctionRef) (code : FunctionNode) (scope : FrameId) (args : List Value)
      (receiver : Value) :
      Change h (h.newFrame (Evaluator.callFrame self code scope args receiver)).2
  | object (ps : Properties) : Change h (h.newObject ps).2
  | array (es : Array Value) : Change h (h.newArray es).2
  | function (f : Function) : Change h (h.newFunction f).2
  | define (id : FrameId) (name : Text) (v : Value) (kind : BindingKind) :
      Change h (h.define id name v kind)
  | assign (id : FrameId) (name : Text) (v : Value) : Change h (h.assign id name v).2
  | setSignal (id : FrameId) (c : Completion) : Change h (h.setSignal id c)
  | modifyObject (id : ObjectId) (f : Properties → Properties) : Change h (h.modifyObject id f)
  | modifyArray (id : ArrayId) (f : Array Value → Array Value) : Change h (h.modifyArray id f)
  | nameFunction (id : FunctionId) (name : Text) : Change h (h.nameFunction id name)

/-- The ways from one state to another under a configuration. Only what is `moving` may leave
another frame current than the one it began in; the rounds of a loop do. -/
inductive State.Course (c : Config) : Bool → State → State → Prop where
  | refl {moving : Bool} (s : State) : Course c moving s s
  | trans {moving : Bool} {s t u : State} (h : Course c moving s t) (h' : Course c moving t u) :
      Course c moving s u
  | still {s t : State} (h : Course c false s t) : Course c true s t
  | heap {moving : Bool} {s : State} {h : Heap} (hc : s.heap.Change h) :
      Course c moving s { s with heap := h }
  | record {moving : Bool} (s : State) (entry : List Snapshot) :
      Course c moving s { s with log := entry :: s.log }
  | note {moving : Bool} (s : State) (n : Notice) :
      Course c moving s { s with notices := n :: s.notices }
  | moment {moving : Bool} (s : State) (m : Moment) : Course c moving s (s.passMoment c m)
  | holding {moving : Bool} {s t : State} (x : Holder)
      (h : Course c moving { s with held := x :: s.held } t) :
      Course c moving s { t with held := s.held }
  | inFrame {moving : Bool} {s t : State} (id : FrameId)
      (h : Course c true { s with frame := id, held := .frame s.frame :: s.held } t) :
      Course c moving s { t with frame := s.frame, held := s.held }
  | withCallFrame {moving : Bool} {s t : State} (entry : CallFrame)
      (h : Course c moving { s with calls := entry :: s.calls } t) :
      Course c moving s { t with calls := s.calls }
  | deeper {moving : Bool} {s t : State} (hs : s.depth < c.maxDepth)
      (h : Course c moving { s with depth := s.depth + 1 } t) :
      Course c moving s { t with depth := s.depth }
  | enter (s : State) (id : FrameId) : Course c true s { s with frame := id }

namespace State

/-- A moment that passes touches the heap and the accounts only. -/
theorem exists_passMoment (c : Config) (m : Moment) (s : State) :
    ∃ h a, s.passMoment c m = { s with heap := h, moments := s.moments + 1, accounting := a } := by
  rw [passMoment]
  split
  · exact ⟨_, _, rfl⟩
  · exact ⟨_, _, rfl⟩

/-- On any way the active calls and what is held are as before at its end. -/
theorem Course.scopes_eq {c : Config} {moving : Bool} {s t : State} (h : s.Course c moving t) :
    t.depth = s.depth ∧ t.calls = s.calls ∧ t.held = s.held := by
  induction h with
  | refl | heap | record | note | enter => exact ⟨rfl, rfl, rfl⟩
  | trans _ _ ih ih' =>
    obtain ⟨hd, hc, hh⟩ := ih
    obtain ⟨hd', hc', hh'⟩ := ih'
    exact ⟨hd'.trans hd, hc'.trans hc, hh'.trans hh⟩
  | still _ ih => exact ih
  | moment s m =>
    obtain ⟨_, _, h⟩ := s.exists_passMoment c m
    rw [h]
    exact ⟨rfl, rfl, rfl⟩
  | holding _ _ ih => exact ⟨ih.1, ih.2.1, rfl⟩
  | inFrame _ _ ih => exact ⟨ih.1, ih.2.1, rfl⟩
  | withCallFrame _ _ ih => exact ⟨ih.1, rfl, ih.2.2⟩
  | deeper _ _ ih => exact ⟨rfl, ih.2.1, ih.2.2⟩

theorem Course.of_touch {c : Config} {moving : Bool} {s : State} {h : Heap} (ht : s.heap.Touch h) :
    s.Course c moving { s with heap := h } := by
  refine .heap ?_
  cases ht with
  | object ps => exact .object ps
  | array es => exact .array es
  | host name f => exact .function _
  | assign id name v => exact .assign id name v
  | setSignal id c => exact .setSignal id c
  | modifyObject id f => exact .modifyObject id f
  | modifyArray id f => exact .modifyArray id f
  | nameFunction id name => exact .nameFunction id name

theorem Course.of_opens {c : Config} {moving : Bool} {s : State} {f : Frame} (hf : s.Opens f) :
    s.Course c moving { s with heap := (s.heap.newFrame f).2 } := by
  cases hf with
  | child => exact .heap (.child s.frame)
  | call self code scope args receiver => exact .heap (.call self code scope args receiver)

end State

/-- Taking a course is a discipline, which accepts all code and allows for all faults. -/
def Discipline.courses (c : Config) : Discipline c where
  Accepts _ := True
  Fits _ := True
  Way k s t := s.Course c (k = .moving) t
  Faults _ := True
  Exhausts := True
  accepts_part _ _ := trivial
  accepts_code _ _ := trivial
  exhausts _ _ := trivial
  fits _ _ := trivial
  depth_eq h := h.scopes_eq.1
  refl s := .refl s
  trans h h' := .trans h h'
  of_still {k _ _} h := by
    cases k with
    | still | declaring => exact h
    | moving => exact .still h
  of_declaring h := .still h
  way_quiet h := by
    cases h with
    | heap ht => exact .of_touch ht
    | record entry => exact .record _ entry
    | note n => exact .note _ n
    | moment m => exact .moment _ m
  way_make _ := .heap (.function _)
  way_define _ _ _ _ := .heap (.define ..)
  way_sibling s := .trans (.heap (.sibling s.frame)) (.enter _ _)
  way_holding {_ _ _ x} h := .holding x h
  way_calls {_ _ _ entry} h := .withCallFrame entry h
  way_deeper hs h := .deeper hs h
  way_opening {s _ _} hf h :=
    (State.Course.of_opens hf).trans (.inFrame (s.heap.newFrame _).1 h)
  absent _ _ := trivial
  faults _ _ := trivial
  host _ := trivial

/-- Whatever the state and however it ends, the evaluation leaves a state to which there is a
way. -/
def Eval.Courses {α : Type} (c : Config) (moving : Bool) (m : Eval α) : Prop :=
  ∀ s : State, s.Course c moving (m s).state

/-- Evaluators whose evaluations of the nodes inside a node take such courses. -/
structure Evaluator.Courses (c : Config) (r : Evaluator) : Prop where
  config : r.config = c
  expr {moving : Bool} (e : Expr) : Eval.Courses c moving (r.expr e)
  stmt {moving : Bool} (s : Stmt) : Eval.Courses c moving (r.stmt s)
  call {moving : Bool} (f : Value) (args : List Value) (receiver : Value) :
    Eval.Courses c moving (r.call f args receiver)

namespace Eval.Courses

variable {α : Type} {c : Config} {moving : Bool} {m : Eval α} {depth : Nat}

theorem of_allows (h : ∀ depth, (Discipline.courses c).Allows depth .declaring m) :
    Courses c moving m := by
  intro s
  have hs : s.Course c false (m s).state := (h s.depth s rfl trivial).1
  cases moving with
  | false => exact hs
  | true => exact .still hs

theorem allows (hm : Courses c false m) : (Discipline.courses c).Allows depth .still m := by
  refine fun s _ _ ↦ ⟨hm s, ?_⟩
  cases m s <;> trivial

end Eval.Courses

namespace Evaluator.Courses

variable {c : Config} {moving : Bool} {r : Evaluator}

theorem serves (hr : r.Courses c) (depth : Nat) (x : Part) :
    (Discipline.courses c).Serves depth r x := by
  cases x with
  | expr e => exact (hr.expr e).allows
  | stmt s => exact (hr.stmt s).allows.of_still
  | function => trivial

theorem callFunction (hr : r.Courses c) (f : FunctionRef) (args : List Value) (receiver : Value)
    (site : Span) : Eval.Courses c moving (r.callFunction f args receiver site) := by
  refine .of_allows fun depth ↦ .of_still
    (.callFunction hr.config (fun f args receiver _ ↦ ?_) f args receiver site)
  exact .apply hr.config (fun f args receiver ↦ (hr.call f args receiver).allows)
    (fun code _ ↦ .body (fun y _ ↦ hr.serves _ y) fun _ _ ↦ ⟨fun _ ↦ trivial, fun _ ↦ trivial⟩)
    f args receiver

theorem program (hr : r.Courses c) (p : Program) : Eval.Courses c moving (r.program p) :=
  .of_allows fun depth ↦ .program (fun s _ ↦ hr.serves depth (.stmt s))
    fun _ _ ↦ ⟨fun _ ↦ trivial, fun _ ↦ trivial⟩

end Evaluator.Courses

/-- Every level takes courses of this kind. -/
theorem Config.level_courses (c : Config) (n : Nat) : (c.level n).Courses c := by
  have h := (Discipline.courses c).level trivial
    (fun _ _ _ _ _ ↦ ⟨fun _ ↦ trivial, fun _ ↦ trivial⟩) n
  exact {
    config := rfl
    expr := fun e ↦ .of_allows fun depth ↦ ((h depth).1 (.expr e) trivial).of_still
    stmt := fun s ↦ .of_allows fun depth ↦ ((h depth).1 (.stmt s) trivial).declaring
    call := fun f args receiver ↦ .of_allows fun depth ↦ ((h depth).2 f args receiver).of_still }

end EcmaTree
