import EcmaTree.Evaluation.HostCode
import EcmaTree.Heap.Accounting
import EcmaTree.Heap.Collector
import EcmaTree.Heap.Scope

/-!
# Evaluations

An evaluation turns a state into an outcome. Outcomes keep four endings apart: a result, a thrown
value, a fault that no handler sees, and the exhaustion of the bound on nested evaluations.
-/

namespace EcmaTree

/-- What a name without a binding means. -/
inductive UnboundPolicy where
  /-- The name itself, as a text. -/
  | nameAsText
  /-- A reference error. -/
  | throwError
deriving DecidableEq, Repr

/-- When an evaluation under way might collect. -/
inductive Moment where
  /-- The host was called. -/
  | hostCalled (function : HostFunction)
  /-- The host is about to do something. -/
  | hostActs (function : HostFunction)
  /-- The host is about to return. -/
  | hostReturns (function : HostFunction)
  /-- A function of the program returned. -/
  | returned

/-- Collections happen when the host is asked for one, and when one is due as a function of the
program returns. -/
def Moment.standard : Moment → Nat → Accounting → Bool
  | hostCalled f, _, _ => f = .gc
  | hostActs _, _, _ | hostReturns _, _, _ => false
  | returned, _, a => a.isDue

/-- What an evaluation does not change. -/
structure Config where
  unbound : UnboundPolicy
  /-- How many calls may be active at once. -/
  maxDepth : Nat
  /-- Whether reading a name without a binding is noted. -/
  noteUnbound : Bool
  source : Source
  /-- Whether a moment is used for a collection, given how many moments there were before. The host
  may collect whenever it is called. -/
  collects : Moment → Nat → Accounting → Bool
  /-- The code of the other functions of the host, for so many arguments. -/
  others : Nat → Nat → HostCode

/-- A note that a name without a binding was read. -/
structure Notice where
  name : Text
  span : Span
deriving DecidableEq

/-- The line that tells of a notice. -/
def Notice.toText (n : Notice) : Text :=
  "walkjs: unresolved identifier '" ++ n.name ++ "' at " ++ n.span.location ++
    ", reading it as a string\n"

/-- What an evaluation works on. -/
structure State where
  heap : Heap
  /-- The current frame. -/
  frame : FrameId
  /-- How many calls are active. -/
  depth : Nat
  calls : CallTrace
  /-- What the host recorded, the newest entry first. -/
  log : List (List Snapshot)
  /-- The names without binding that were read, the newest first. -/
  notices : List Notice
  /-- What the host and the evaluations under way hold of the heap. -/
  held : List Holder
  /-- How many moments there were at which a collection could have happened. -/
  moments : Nat
  accounting : Accounting

namespace State

/-- What has an owner outside the heap, once for every place that holds it. -/
def owners (s : State) : List HeapRef := .frame s.frame :: s.held.flatMap Holder.references

/-- The state after what was made since the last time was booked. -/
def booked (s : State) : State :=
  { s with accounting := s.accounting.made (s.heap.created - s.accounting.allocated) }

/-- Collects. -/
def collect (s : State) : State :=
  let (removed, h) := s.heap.collect (s.heap.uses s.owners)
  { s with heap := h, accounting := s.booked.accounting.collectionEnded removed }

/-- Lets a moment pass, and collects if it is one for that. -/
def passMoment (c : Config) (m : Moment) (s : State) : State :=
  let t := s.booked
  let t := if c.collects m t.moments t.accounting then t.collect else t
  { t with moments := t.moments + 1 }

end State

/-- How an evaluation ends, and the state it leaves. -/
inductive Outcome (α : Type) where
  | done (value : α) (state : State)
  | thrown (thrown : Thrown) (state : State)
  | faulted (fault : Fault) (state : State)
  | exhausted (state : State)

namespace Outcome

variable {α β : Type}

/-- The state that an evaluation leaves. -/
def state : Outcome α → State
  | done _ s | thrown _ s | faulted _ s | exhausted s => s

/-- Changes the state that an evaluation leaves. -/
@[inline] def mapState (f : State → State) : Outcome α → Outcome α
  | done a s => done a (f s)
  | thrown t s => thrown t (f s)
  | faulted e s => faulted e (f s)
  | exhausted s => exhausted (f s)

@[simp] theorem state_mapState (f : State → State) (o : Outcome α) :
    (o.mapState f).state = f o.state := by
  cases o <;> rfl

end Outcome

/-- An evaluation with a result of the given type. -/
def Eval (α : Type) := State → Outcome α

namespace Eval

variable {α β : Type}

/-- Ends with a result and changes nothing. -/
@[always_inline, inline] protected def pure (a : α) : Eval α := fun s ↦ .done a s

/-- Goes on with the result of the first evaluation; any other ending of it is the ending. -/
@[always_inline, inline] protected def bind (m : Eval α) (f : α → Eval β) : Eval β := fun s ↦
  match m s with
  | .done a s => f a s
  | .thrown t s => .thrown t s
  | .faulted e s => .faulted e s
  | .exhausted s => .exhausted s

@[always_inline] instance : Monad Eval where
  pure := Eval.pure
  bind := Eval.bind

/-- A plain result leaves the state as it is. -/
theorem pure_apply (a : α) (s : State) : (pure a : Eval α) s = .done a s := rfl

/-- A sequence goes on from the state that its first part leaves. -/
theorem bind_apply (m : Eval α) (f : α → Eval β) (s : State) :
    (m >>= f) s =
      match m s with
      | .done a t => f a t
      | .thrown e t => .thrown e t
      | .faulted e t => .faulted e t
      | .exhausted t => .exhausted t := rfl

/-- An evaluation with its result renamed to itself is the same evaluation. -/
theorem bind_pure_id (m : Eval α) : (m >>= fun a ↦ pure (id a)) = m := by
  funext s
  rw [bind_apply]
  cases m s <;> rfl

/-- How a sequence is bracketed does not matter. -/
theorem bind_bind {γ : Type} (m : Eval α) (f : α → Eval β) (g : β → Eval γ) :
    m >>= f >>= g = m >>= fun a ↦ f a >>= g := by
  funext s
  simp only [bind_apply]
  cases m s <;> rfl

instance : LawfulMonad Eval := LawfulMonad.mk' Eval bind_pure_id (fun _ _ ↦ rfl) bind_bind

/-- Ends because the bound on nested evaluations is reached. -/
def exhaust : Eval α := fun s ↦ .exhausted s

/-- Ends with a fault. -/
def fault (e : Fault) : Eval α := fun s ↦ .faulted e s

/-- Ends with a structural error. -/
def structural (cause : StructuralCause) (span : Span) : Eval α := fault (.structural ⟨cause, span⟩)

/-- Throws again what was thrown before. -/
def rethrow (t : Thrown) : Eval α := fun s ↦ .thrown t s

/-- Ends with a result where the given evaluation throws. -/
@[inline] def catching (m : Eval α) : Eval (Except Thrown α) := fun s ↦
  match m s with
  | .done a s => .done (.ok a) s
  | .thrown t s => .done (.error t) s
  | .faulted e s => .faulted e s
  | .exhausted s => .exhausted s

/-- Reads the state. -/
@[inline] def read (f : State → α) : Eval α := fun s ↦ .done (f s) s

/-- Changes the state. -/
@[inline] def modify (f : State → State) : Eval Unit := fun s ↦ .done () (f s)

/-- Reads the heap. -/
@[inline] def readHeap (f : Heap → α) : Eval α := fun s ↦ .done (f s.heap) s

/-- Changes the heap. -/
@[inline] def modifyHeap (f : Heap → Heap) : Eval Unit := fun s ↦
  .done () { s with heap := f s.heap }

/-- Changes the heap and has a result. -/
@[inline] def updateHeap (f : Heap → α × Heap) : Eval α := fun s ↦
  let (a, h) := f s.heap
  .done a { s with heap := h }

/-- The text of a value. -/
def textOf (v : Value) : Eval Text := readHeap (·.toText v)

/-- The number of a value. -/
def numberOf (v : Value) : Eval Number := readHeap (·.toNumber v)

/-- Makes an array. -/
def newArray (elements : Array Value) : Eval Value :=
  updateHeap fun h ↦ let (id, h) := h.newArray elements; (.array id, h)

/-- Makes an object. -/
def newObject (properties : Properties) : Eval Value :=
  updateHeap fun h ↦ let (id, h) := h.newObject properties; (.object id, h)

/-- Makes a function. -/
def newFunction (f : Function) : Eval Value :=
  updateHeap fun h ↦ let (id, h) := h.newFunction f; (.function (.cell id), h)

/-- Throws a value. -/
def throwValue (v : Value) (calls : CallTrace) (origin : Span) : Eval α := fun s ↦
  .thrown (s.heap.thrown v calls origin) s

/-- Throws the object of an error, with the active calls in its stack. -/
def raise (e : RuntimeError) (span : Span) : Eval α := do
  let calls ← read State.calls
  let stack := Report.stack e.kind.name e.message calls
  throwValue (← newObject (Heap.errorProperties e.kind e.message stack)) calls span

/-- Throws the object of an error that knows nothing of the active calls. -/
def raiseBare (e : RuntimeError) : Eval α := do
  throwValue (← newObject (Heap.errorProperties e.kind e.message .empty)) [] .nowhere

/-- Holds something meanwhile. Whoever goes on with it afterwards has to, since a collection may
happen before. -/
@[inline] def holding (x : Holder) (m : Eval α) : Eval α := fun s ↦
  let outer := s.held
  (m { s with held := x :: outer }).mapState fun t ↦ { t with held := outer }

/-- Runs in a frame; the frame that was current before is so again afterwards, however it ends. It
is held meanwhile. -/
@[inline] def inFrame (id : FrameId) (m : Eval α) : Eval α := fun s ↦
  let outer := s.frame
  (holding (.frame outer) m { s with frame := id }).mapState fun t ↦ { t with frame := outer }

/-- Runs with a further entry on the call trace; the trace is as before afterwards. -/
@[inline] def withCallFrame (entry : CallFrame) (m : Eval α) : Eval α := fun s ↦
  let outer := s.calls
  (m { s with calls := entry :: outer }).mapState fun t ↦ { t with calls := outer }

/-- Runs as one more active call; afterwards as many are active as before. -/
@[inline] def deeper (m : Eval α) : Eval α := fun s ↦
  let outer := s.depth
  (m { s with depth := outer + 1 }).mapState fun t ↦ { t with depth := outer }

/-- Runs in a new frame below the current one. -/
@[inline] def inChild (m : Eval α) : Eval α := fun s ↦
  let (id, h) := s.heap.newChild s.frame
  inFrame id m { s with heap := h }

/-- Adds a binding to the current frame. -/
def define (name : Text) (value : Value) (kind : BindingKind) : Eval Unit :=
  modify fun s ↦ { s with heap := s.heap.define s.frame name value kind }

/-- Keeps in the current frame how a statement ended. -/
def setSignal (c : Completion) : Eval Unit :=
  modify fun s ↦ { s with heap := s.heap.setSignal s.frame c }

/-- The binding that a name means in the current frame. -/
def lookup (name : Text) : Eval (Option Binding) := read fun s ↦ s.heap.lookup s.frame name

end Eval

/-- The entry that a call gets on the call trace. -/
def Config.callFrame (c : Config) (name : Text) (site : Span) : CallFrame :=
  let place := c.source.locate site.start
  ⟨if name.isEmpty then CallFrame.anonymous else name, c.source.file, place.line, place.column,
    site.start⟩

/-- What evaluating a node may use: the evaluation of the nodes inside it, with calls of functions
among them, and a bound on the rounds of a loop. -/
structure Evaluator where
  config : Config
  rounds : Nat
  expr : Expr → Eval Value
  stmt : Stmt → Eval Completion
  /-- Calls a value with arguments and a receiver. -/
  call : Value → List Value → Value → Eval Value

/-- Lets a moment pass, while something is held. -/
def Evaluator.passMoment (r : Evaluator) (m : Moment) (vs : List Value) : Eval Unit :=
  Eval.holding (.values vs) <| Eval.modify (State.passMoment r.config m)

end EcmaTree
