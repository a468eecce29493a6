import EcmaTree.Estree.Loader
import EcmaTree.Heap.Accounting
import EcmaTree.Session.Answer
import EcmaTree.Session.Interpreter
import EcmaTree.Session.ValueSpec

/-!
# Sessions

A session is an interpreter in the hands of a host, which keeps values under names and takes one
step at a time. Between the steps nothing is running, so that what the current frame, the remembered
error and the kept values reach is all that anything can still reach.
-/

namespace EcmaTree

/-- What a host does with an interpreter. -/
inductive Step where
  /-- Runs a program, and may keep its value. -/
  | run (program : Text) (keep : Option Text)
  /-- Evaluates the statements of a program in the current frame. -/
  | exec (program : Text)
  /-- Calls a function, and may keep its value. -/
  | call (function : ValueSpec) (arguments : List ValueSpec) (receiver : ValueSpec)
      (keep : Option Text)
  | keep (name : Text) (value : ValueSpec)
  | drop (name : Text)
  | show (value : ValueSpec)
  /-- Asks for what the last program threw. -/
  | error
  /-- Forgets what the last program threw. -/
  | clear
  /-- Asks for the current frame. -/
  | frame
  /-- Makes a new frame below the current one current. -/
  | push
  /-- Makes the parent of the current frame current. -/
  | pop
  | define (name : Text) (value : ValueSpec) (kind : BindingKind)
  | assign (name : Text) (value : ValueSpec)
  /-- Collects, and counts what is left. -/
  | collect

/-- An interpreter, and the values that the host keeps. -/
structure Session where
  interpreter : Interpreter
  kept : OrderedMap Text Value

namespace Session

/-- The heap of the interpreter. -/
def heap (s : Session) : Heap := s.interpreter.state.heap

/-- The session after its interpreter did something. -/
def withInterpreter (s : Session) (i : Interpreter) : Session := { s with interpreter := i }

/-- The session after the state of its interpreter changed. -/
def withState (s : Session) (t : State) : Session := s.withInterpreter (s.interpreter.withState t)

/-- The session after the heap of its interpreter changed. -/
def withHeap (s : Session) (h : Heap) : Session := s.withInterpreter (s.interpreter.withHeap h)

/-- A session in a global frame with the given bindings. -/
def start (config : Config) (accounting : Accounting) (bindings : List (Text × ValueSpec)) :
    Session :=
  let (values, h, accounting) :=
    ValueSpec.make .empty accounting (ValueSpec.buildBindings .empty [] bindings)
  ⟨.start config h accounting values, .empty⟩

/-- What names mean in the specifications of a step. Nothing goes away before a collection. -/
def scope (s : Session) : ValueSpec.Scope :=
  ⟨s.kept.get?, fun name ↦ (s.heap.lookup s.interpreter.state.frame name).map Binding.value,
    fun _ h ↦ h⟩

/-- Makes values. -/
def make {α : Type} (s : Session) (m : ValueSpec.Scope → ValueSpec.Build α) : α × Session :=
  let (a, h, accounting) := ValueSpec.make s.heap s.interpreter.state.accounting (m s.scope)
  (a, s.withState { s.interpreter.state with heap := h, accounting := accounting })

/-- Keeps a value under a name, if there is one. -/
def keepAs (s : Session) (name : Option Text) (v : Value) : Session :=
  match name with
  | some n => { s with kept := s.kept.insert n v }
  | none => s

/-- The values that the session holds besides the current frame, once for every place that holds
them. -/
def holder (s : Session) : Holder := .values (s.interpreter.error :: s.kept.values)

/-- Collects. -/
def collect (s : Session) : Session :=
  s.withState (Eval.holding s.holder (Eval.modify State.collect) s.interpreter.state).state

/-- Evaluates where no program is running. -/
def evaluate {α : Type} (s : Session) (level : Nat) (m : Evaluator → Eval α) :
    Except Failure α × Session :=
  match Eval.holding s.holder (m (s.interpreter.config.level level)) s.interpreter.state with
  | .done a t => (.ok a, s.withState t)
  | .thrown e t => (.error (.thrown e (t.heap.snapshot e.value)), s.withState t)
  | .faulted e t => (.error (.fault e), s.withState t)
  | .exhausted t => (.error .exhausted, s.withState t)

/-- Runs a program. -/
def run (s : Session) (level : Nat) (program : Text) (keep : Option Text) : Answer × Session :=
  match Program.load program with
  | .error e => (.failed (.load e), s)
  | .ok p =>
    let (result, i) := s.interpreter.run level p s.kept.values
    let s := s.withInterpreter i
    match result with
    | .value v => (.value (s.heap.snapshot v), s.keepAs keep v)
    | .uncaught t => (.uncaught (s.heap.snapshot t.value) (s.heap.isError t.value) i.errorReport, s)
    | .faulted e => (.failed (.fault e), s)
    | .exhausted => (.failed .exhausted, s)

/-- Evaluates statements one by one in the current frame, up to the first that fails. -/
def execStatements (level : Nat) :
    List Stmt → Session → List (Except Failure CompletionSnapshot) × Session
  | [], s => ([], s)
  | statement :: rest, s =>
    match s.evaluate level fun r ↦ r.stmt statement with
    | (.ok c, s) =>
      let ending := s.heap.completionSnapshot c
      let (endings, s) := execStatements level rest s
      (.ok ending :: endings, s)
    | (.error e, s) => ([.error e], s)

/-- Evaluates the statements of a program in the current frame. -/
def exec (s : Session) (level : Nat) (program : Text) : Answer × Session :=
  match Program.load program with
  | .error e => (.failed (.load e), s)
  | .ok p =>
    let (endings, s) := execStatements level p.body s
    (.statements endings, s)

/-- Calls a function. -/
def call (s : Session) (level : Nat) (function : ValueSpec) (arguments : List ValueSpec)
    (receiver : ValueSpec) (keep : Option Text) : Answer × Session :=
  let ((callee, args, this), s) := s.make (ValueSpec.buildCall · function arguments receiver)
  match s.evaluate level fun r ↦ r.callValue callee args this with
  | (.ok v, s) => (.value (s.heap.snapshot v), s.keepAs keep v)
  | (.error e, s) => (.failed e, s)

/-- Makes another frame current. -/
def enter (s : Session) (frame : FrameId) : Session :=
  s.withState { s.interpreter.state with frame := frame }

/-- The depth of the current frame. -/
def depth (s : Session) : Nat := s.heap.depth s.interpreter.state.frame

/-- Defines a variable in the current frame. -/
def define (s : Session) (name : Text) (value : ValueSpec) (kind : BindingKind) :
    Answer × Session :=
  let (v, s) := s.make (value.build · [])
  let s := s.withHeap (s.heap.define s.interpreter.state.frame name v kind)
  (.binding (s.heap.bindingSnapshot ⟨name, kind, v⟩), s)

/-- Assigns to a variable. -/
def assign (s : Session) (name : Text) (value : ValueSpec) : Answer × Session :=
  let (v, s) := s.make (value.build · [])
  let (result, h) := s.heap.assign s.interpreter.state.frame name v
  (.assigned result, s.withHeap h)

/-- What a step does, without what follows every step. -/
def perform (s : Session) (level : Nat) : Step → Answer × Session
  | .run program keep => s.run level program keep
  | .exec program => s.exec level program
  | .call function arguments receiver keep => s.call level function arguments receiver keep
  | .keep name value =>
    let (v, s) := s.make (value.build · [])
    (.done, s.keepAs (some name) v)
  | .drop name => (.done, { s with kept := s.kept.erase name })
  | .show value =>
    let (v, s) := s.make (value.build · [])
    (.value (s.heap.snapshot v), s)
  | .error =>
    let i := s.interpreter
    (.error i.uncaught.isSome (s.heap.snapshot i.error) i.errorReport, s)
  | .clear =>
    let i := s.interpreter.clearError
    (.cleared i.uncaught.isSome, { s with interpreter := i })
  | .frame => (.frame s.depth (s.heap.bindingSnapshots s.interpreter.state.frame), s)
  | .push =>
    let (id, h) := s.heap.newChild s.interpreter.state.frame
    let s := (s.withHeap h).enter id
    (.depth s.depth, s)
  | .pop =>
    match (s.heap.frame? s.interpreter.state.frame).bind Frame.parent with
    | some parent =>
      let s := s.enter parent
      (.depth s.depth, s)
    | none => (.depth s.depth, s)
  | .define name value kind => s.define name value kind
  | .assign name value => s.assign name value
  | .collect =>
    let s := s.collect
    let census := s.heap.census
    (.live { census with functions := census.functions + Builtin.all.length }, s)

/-- Takes a step. What was recorded and noted is handed over with the answer. -/
def step (s : Session) (level : Nat) (step : Step) : Reply × Session :=
  let (answer, s) := s.perform level step
  let t := s.interpreter.state
  let s := s.withState { t with log := [], notices := [] }
  (⟨answer, t.log.reverse, t.notices.reverse⟩, s)

/-- Takes steps in order. -/
def steps (level : Nat) : List Step → Session → List Reply × Session
  | [], s => ([], s)
  | x :: rest, s =>
    let (reply, s) := s.step level x
    let (replies, s) := steps level rest s
    (reply :: replies, s)

end Session

end EcmaTree
