import EcmaTree.Evaluation.Expressions
import EcmaTree.Evaluation.Loops
import EcmaTree.Proofs.Results
import EcmaTree.Proofs.Tree.Parts

/-!
# Disciplines

What an evaluation can do to the state, however it ends, consists of a few kinds of steps and of
scopes, at whose end what they changed is as before. A *discipline* is a relation of states that has
all of these and their compositions, together with the code that may run and the faults that may
arise. Every construct that evaluations are made of observes every discipline.
-/

namespace EcmaTree

/-- How freely an evaluation treats the current frame: it leaves the frame as it is, or declares
variables in it, or also moves on to another one. -/
inductive Conduct where
  | still | declaring | moving
deriving DecidableEq, Repr

/-- Declarations, and what leads to one through branches and labels alone. -/
def Stmt.declares : Stmt → Bool
  | .declare .. | .function .. => true
  | .conditional _ consequent (some alternate) _ => consequent.declares || alternate.declares
  | .conditional _ consequent none _ => consequent.declares
  | .labeled _ body _ => body.declares
  | .returned .. | .expression .. | .block .. | .empty _ | .whileLoop .. | .doWhileLoop ..
  | .forLoop .. | .switch .. | .breaking .. | .continuing .. | .throwing .. | .guarded ..
  | .unsupported .. => false

/-- How a statement treats the frame that it is evaluated in. -/
def Stmt.conduct (s : Stmt) : Conduct := if s.declares then .declaring else .still

/-- A change of the heap that makes no frame and no code, and declares nothing. -/
inductive Heap.Touch (h : Heap) : Heap → Prop where
  | object (ps : Properties) : Touch h (h.newObject ps).2
  | array (es : Array Value) : Touch h (h.newArray es).2
  | host (name : Text) (f : HostFunction) : Touch h (h.newFunction ⟨name, .host f⟩).2
  | assign (id : FrameId) (name : Text) (v : Value) : Touch h (h.assign id name v).2
  | setSignal (id : FrameId) (c : Completion) : Touch h (h.setSignal id c)
  | modifyObject (id : ObjectId) (f : Properties → Properties) : Touch h (h.modifyObject id f)
  | modifyArray (id : ArrayId) (f : Array Value → Array Value) : Touch h (h.modifyArray id f)
  | nameFunction (id : FunctionId) (name : Text) : Touch h (h.nameFunction id name)

/-- A step that any evaluation may take. -/
inductive State.Quiet (c : Config) (s : State) : State → Prop where
  | heap {h : Heap} (ht : s.heap.Touch h) : Quiet c s { s with heap := h }
  | record (entry : List Snapshot) : Quiet c s { s with log := entry :: s.log }
  | note (n : Notice) : Quiet c s { s with notices := n :: s.notices }
  | moment (m : Moment) : Quiet c s (s.passMoment c m)

/-- The frames that are opened in a state: below the current frame, or for a call. -/
inductive State.Opens (s : State) : Frame → Prop where
  | child : s.Opens (.ofParent (some s.frame))
  | call (self : FunctionRef) (code : FunctionNode) (scope : FrameId) (args : List Value)
      (receiver : Value) : s.Opens (Evaluator.callFrame self code scope args receiver)

/-- The fault of a break or a continue that no statement around it is meant by. -/
def Fault.isStray : Fault → Bool
  | .structural ⟨.strayBreak _, _⟩ | .structural ⟨.strayContinue _, _⟩ => true
  | _ => false

/-- Code of the host that may end with a fault of its own making. -/
def HostCode.Raises (e : Fault) (code : HostCode) : Prop := code.Reaches (.fault e)

/-- A relation between the states before and after an evaluation, the nodes that are evaluated, and
how evaluations may fail to end with a value or a throw. -/
structure Discipline (c : Config) where
  /-- What may be evaluated, or made into a function. -/
  Accepts : Part → Prop
  /-- All functions of a store have code that may be run. -/
  Fits : Store Function → Prop
  /-- Where an evaluation may lead. -/
  Way : Conduct → State → State → Prop
  Faults : Fault → Prop
  Exhausts : Prop
  accepts_part {x y : Part} (hx : Accepts x) (hy : y ∈ x.parts) : Accepts y
  accepts_code {fs : Store Function} {i : Nat} {name : Text} {code : FunctionNode} {scope : FrameId}
    (hf : Fits fs) (hi : fs.get? i = some ⟨name, .closure code scope⟩) : Accepts (.function code)
  /-- Only a loop can go on for ever. -/
  exhausts {s : Stmt} (hs : Accepts (.stmt s)) (hl : s.isLoop = true) : Exhausts
  fits {k : Conduct} {s t : State} (h : Way k s t) (hs : Fits s.heap.functions) :
    Fits t.heap.functions
  depth_eq {k : Conduct} {s t : State} (h : Way k s t) : t.depth = s.depth
  refl {k : Conduct} (s : State) : Way k s s
  trans {k : Conduct} {s t u : State} (h : Way k s t) (h' : Way k t u) : Way k s u
  of_still {k : Conduct} {s t : State} (h : Way .still s t) : Way k s t
  of_declaring {s t : State} (h : Way .declaring s t) : Way .moving s t
  way_quiet {s t : State} (h : s.Quiet c t) : Way .still s t
  way_make {s : State} {code : FunctionNode} (hc : Accepts (.function code)) :
    Way .still s
      { s with heap := (s.heap.newFunction ⟨code.name, .closure code s.frame⟩).2 }
  way_define (s : State) (name : Text) (v : Value) (kind : BindingKind) :
    Way .declaring s { s with heap := s.heap.define s.frame name v kind }
  way_sibling (s : State) :
    Way .moving s
      { s with heap := (s.heap.newSibling s.frame).2, frame := (s.heap.newSibling s.frame).1 }
  way_holding {k : Conduct} {s t : State} {x : Holder}
    (h : Way k { s with held := x :: s.held } t) :
    Way k s { t with held := s.held }
  way_calls {k : Conduct} {s t : State} {entry : CallFrame}
    (h : Way k { s with calls := entry :: s.calls } t) : Way k s { t with calls := s.calls }
  way_deeper {k : Conduct} {s t : State} (hs : s.depth < c.maxDepth)
    (h : Way k { s with depth := s.depth + 1 } t) : Way k s { t with depth := s.depth }
  way_opening {s t : State} {f : Frame} (hf : s.Opens f)
    (h : Way .moving
      { s with
        heap := (s.heap.newFrame f).2
        frame := (s.heap.newFrame f).1
        held := .frame s.frame :: s.held } t) :
    Way .still s { t with frame := s.frame, held := s.held }
  /-- Only an argument or an item of a sequence can be found to be absent. -/
  absent {x : Part} (hx : Accepts x) (hi : ¬ x.HasItems) : Faults .absent
  faults {e : Fault} (he : e.isStray = false) (hn : e ≠ .absent) : Faults e
  host {number count : Nat} {e : Fault} (he : (c.others number count).Raises e) : Faults e

namespace Discipline

variable {c : Config} {d : Discipline c} {depth : Nat} {k : Conduct} {α β : Type} {m : Eval α}

/-- An ending that the discipline allows for. -/
def Permits (d : Discipline c) : Outcome α → Prop
  | .done .. | .thrown .. => True
  | .faulted e _ => d.Faults e
  | .exhausted _ => d.Exhausts

/-- In any state with so many active calls and with functions that fit, the evaluation goes a way of
the discipline, whichever way it ends. -/
def Allows (d : Discipline c) (depth : Nat) (k : Conduct) (m : Eval α) : Prop :=
  ∀ s : State, s.depth = depth → d.Fits s.heap.functions → d.Way k s (m s).state ∧ d.Permits (m s)

namespace Allows

/-! ### Conduct -/

theorem of_still (hm : d.Allows depth .still m) : d.Allows depth k m :=
  fun s hd hf ↦ ⟨d.of_still (hm s hd hf).1, (hm s hd hf).2⟩

theorem moving (hm : d.Allows depth .declaring m) : d.Allows depth .moving m :=
  fun s hd hf ↦ ⟨d.of_declaring (hm s hd hf).1, (hm s hd hf).2⟩

/-! ### Sequences -/

theorem pure (a : α) : d.Allows depth k (Pure.pure a : Eval α) := fun s _ _ ↦ ⟨d.refl s, trivial⟩

theorem bind_of {f : α → Eval β} (hm : d.Allows depth k m)
    (hf : ∀ a, m.Yields a → d.Allows depth k (f a)) : d.Allows depth k (m >>= f) := by
  intro s hd hs
  have h := hm s hd hs
  rw [Eval.bind_apply]
  cases ho : m s with
  | done a t =>
    rw [ho] at h
    have hway : d.Way k s t := h.1
    have h' := hf a ⟨s, t, ho⟩ t ((d.depth_eq hway).trans hd) (d.fits hway hs)
    exact ⟨d.trans hway h'.1, h'.2⟩
  | thrown | faulted | exhausted =>
    rw [ho] at h
    exact h

theorem bind {f : α → Eval β} (hm : d.Allows depth k m) (hf : ∀ a, d.Allows depth k (f a)) :
    d.Allows depth k (m >>= f) :=
  hm.bind_of fun a _ ↦ hf a

theorem map (f : α → β) (hm : d.Allows depth k m) : d.Allows depth k (f <$> m) := by
  rw [map_eq_pure_bind]
  exact hm.bind fun _ ↦ pure _

theorem exhaust (hx : d.Exhausts) : d.Allows depth k (Eval.exhaust : Eval α) :=
  fun s _ _ ↦ ⟨d.refl s, hx⟩

theorem fault {e : Fault} (he : d.Faults e) : d.Allows depth k (Eval.fault e : Eval α) :=
  fun s _ _ ↦ ⟨d.refl s, he⟩

theorem codeless : d.Allows depth k (Eval.fault .codeless : Eval α) := fault (d.faults rfl nofun)

theorem unsupportedNode (type : Text) (span : Span) :
    d.Allows depth k (Eval.structural (.unsupportedNode type) span : Eval α) :=
  fault (d.faults rfl nofun)

theorem unsupportedOperator (operator type : Text) (span : Span) :
    d.Allows depth k (Eval.structural (.unsupportedOperator operator type) span : Eval α) :=
  fault (d.faults rfl nofun)

theorem rethrow (e : Thrown) : d.Allows depth k (Eval.rethrow e : Eval α) :=
  fun s _ _ ↦ ⟨d.refl s, trivial⟩

theorem throwValue (v : Value) (calls : CallTrace) (origin : Span) :
    d.Allows depth k (Eval.throwValue v calls origin : Eval α) :=
  fun s _ _ ↦ ⟨d.refl s, trivial⟩

theorem catching (hm : d.Allows depth k m) : d.Allows depth k (Eval.catching m) := by
  intro s hd hs
  have h := hm s hd hs
  rw [Eval.catching]
  cases ho : m s with
  | done | thrown =>
    rw [ho] at h
    exact ⟨h.1, trivial⟩
  | faulted | exhausted =>
    rw [ho] at h
    exact h

/-! ### Reading and changing the state -/

theorem read (f : State → α) : d.Allows depth k (Eval.read f) := fun s _ _ ↦ ⟨d.refl s, trivial⟩

theorem readHeap (f : Heap → α) : d.Allows depth k (Eval.readHeap f) :=
  fun s _ _ ↦ ⟨d.refl s, trivial⟩

/-- What is read from the heap may be relied on for the state that it is read in. -/
theorem readHeap_bind (g : Heap → α) {f : α → Eval β}
    (hf : ∀ s : State, d.Fits s.heap.functions → d.Allows depth k (f (g s.heap))) :
    d.Allows depth k (Eval.readHeap g >>= f) :=
  fun s hd hs ↦ hf s hs s hd hs

theorem textOf (v : Value) : d.Allows depth k (Eval.textOf v) := readHeap _

theorem numberOf (v : Value) : d.Allows depth k (Eval.numberOf v) := readHeap _

theorem lookup (name : Text) : d.Allows depth k (Eval.lookup name) := read _

theorem modifyHeap {f : Heap → Heap} (hf : ∀ h : Heap, h.Touch (f h)) :
    d.Allows depth k (Eval.modifyHeap f) :=
  fun s _ _ ↦ ⟨d.of_still (d.way_quiet (.heap (hf s.heap))), trivial⟩

theorem updateHeap {f : Heap → α × Heap} (hf : ∀ h : Heap, h.Touch (f h).2) :
    d.Allows depth k (Eval.updateHeap f) :=
  fun s _ _ ↦ ⟨d.of_still (d.way_quiet (.heap (hf s.heap))), trivial⟩

theorem newArray (es : Array Value) : d.Allows depth k (Eval.newArray es) :=
  updateHeap fun _ ↦ .array es

theorem newObject (ps : Properties) : d.Allows depth k (Eval.newObject ps) :=
  updateHeap fun _ ↦ .object ps

theorem newHostFunction (name : Text) (f : HostFunction) :
    d.Allows depth k (Eval.newFunction ⟨name, .host f⟩) :=
  updateHeap fun _ ↦ .host name f

theorem define (name : Text) (v : Value) (kind : BindingKind) :
    d.Allows depth .declaring (Eval.define name v kind) :=
  fun s _ _ ↦ ⟨d.way_define s name v kind, trivial⟩

theorem setSignal (completion : Completion) : d.Allows depth k (Eval.setSignal completion) :=
  fun _ _ _ ↦ ⟨d.of_still (d.way_quiet (.heap (.setSignal ..))), trivial⟩

theorem record (vs : List Value) : d.Allows depth k (Eval.record vs) :=
  fun _ _ _ ↦ ⟨d.of_still (d.way_quiet (.record _)), trivial⟩

theorem makeFunction {code : FunctionNode} (hc : d.Accepts (.function code)) :
    d.Allows depth k (Evaluator.makeFunction code) :=
  fun _ _ _ ↦ ⟨d.of_still (d.way_make hc), trivial⟩

theorem passMoment {r : Evaluator} (hr : r.config = c) (moment : Moment) (vs : List Value) :
    d.Allows depth k (r.passMoment moment vs) := by
  intro s _ _
  rw [Evaluator.passMoment, hr]
  exact ⟨d.of_still (d.way_holding (d.way_quiet (.moment moment))), trivial⟩

theorem raise (e : RuntimeError) (span : Span) : d.Allows depth k (Eval.raise e span : Eval α) :=
  bind (read _) fun _ ↦ bind (newObject _) fun _ ↦ throwValue _ _ _

theorem raiseBare (e : RuntimeError) : d.Allows depth k (Eval.raiseBare e : Eval α) :=
  bind (newObject _) fun _ ↦ throwValue _ _ _

/-! ### Scopes -/

theorem permits_mapState {o : Outcome α} {f : State → State} (h : d.Permits o) :
    d.Permits (o.mapState f) := by
  cases o <;> exact h

theorem holding (x : Holder) (hm : d.Allows depth k m) : d.Allows depth k (Eval.holding x m) := by
  intro s hd hs
  obtain ⟨hway, hend⟩ := hm { s with held := x :: s.held } hd hs
  rw [Eval.holding, Outcome.state_mapState]
  exact ⟨d.way_holding hway, permits_mapState hend⟩

theorem withCallFrame (entry : CallFrame) (hm : d.Allows depth k m) :
    d.Allows depth k (Eval.withCallFrame entry m) := by
  intro s hd hs
  obtain ⟨hway, hend⟩ := hm { s with calls := entry :: s.calls } hd hs
  rw [Eval.withCallFrame, Outcome.state_mapState]
  exact ⟨d.way_calls hway, permits_mapState hend⟩

/-- A body that runs one call deeper. Where that would be one call too many it need not be allowed,
since then it is not run. -/
theorem inCall (name : Text) (site : Span)
    (hm : depth < c.maxDepth → d.Allows (depth + 1) k m) :
    d.Allows depth k (c.inCall name site m) := by
  rintro s rfl hs
  rw [Config.inCall]
  split
  · next hlt =>
    obtain ⟨hway, hend⟩ := (hm hlt).withCallFrame (c.callFrame name site)
      { s with depth := s.depth + 1 } rfl hs
    rw [Eval.deeper, Outcome.state_mapState]
    exact ⟨d.way_deeper hlt hway, permits_mapState hend⟩
  · exact raise _ _ s rfl hs

theorem inFresh {s : State} {f : Frame} (hf : s.Opens f) (hd : s.depth = depth)
    (hs : d.Fits s.heap.functions) (hm : d.Allows depth .moving m) :
    let o := Eval.inFrame (s.heap.newFrame f).1 m { s with heap := (s.heap.newFrame f).2 }
    d.Way k s o.state ∧ d.Permits o := by
  obtain ⟨hway, hend⟩ := hm { s with
    heap := (s.heap.newFrame f).2
    frame := (s.heap.newFrame f).1
    held := .frame s.frame :: s.held } hd hs
  dsimp only
  rw [Eval.inFrame, Eval.holding, Outcome.state_mapState, Outcome.state_mapState]
  exact ⟨(d.of_still (d.way_opening hf hway) :), permits_mapState (permits_mapState hend)⟩

theorem inChild (hm : d.Allows depth .moving m) : d.Allows depth k (Eval.inChild m) :=
  fun _ hd hs ↦ hm.inFresh .child hd hs

theorem enterSibling : d.Allows depth .moving Evaluator.enterSibling :=
  fun s _ _ ↦ ⟨d.way_sibling s, trivial⟩

/-! ### Repetition -/

theorem iterate {σ : Type} {round : σ → Eval (Round σ β)} (hx : d.Exhausts)
    (hround : ∀ x, d.Allows depth k (round x)) (n : Nat) (x : σ) :
    d.Allows depth k (Eval.iterate round n x) := by
  induction n generalizing x with
  | zero => exact exhaust hx
  | succ n ih =>
    refine bind (hround x) fun result ↦ ?_
    cases result with
    | again y => exact ih y
    | «over» b => exact pure b

theorem overIndices {σ : Type} (id : ArrayId) {visit : σ → Nat → Value → Eval σ}
    (hvisit : ∀ result i element, d.Allows depth k (visit result i element)) (indices : List Nat)
    (result : σ) : d.Allows depth k (Eval.overIndices id visit indices result) := by
  induction indices generalizing result with
  | nil => exact pure result
  | cons i rest ih =>
    refine bind (readHeap _) fun es ↦ ?_
    split
    · exact pure result
    · exact bind (hvisit _ _ _) ih

theorem forCallback {σ : Type} (id : ArrayId) (callback : Value) (indices : List Nat) (start : σ)
    {visit : σ → Nat → Value → Eval σ}
    (hvisit : ∀ result i element, d.Allows depth k (visit result i element)) :
    d.Allows depth k (Eval.forCallback id callback indices start visit) :=
  holding _ (overIndices id hvisit indices start)

end Allows

end Discipline

end EcmaTree
