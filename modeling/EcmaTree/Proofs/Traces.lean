import EcmaTree.Proofs.Coupling.Level
import EcmaTree.Proofs.Reached

/-!
# Traces of errors

Whatever is thrown comes from one of four places: an error of the evaluator, a throw statement, a
method of an array or a text, or the host. An error of the evaluator has all active calls on its
trace and in its stack. An error that a method raises by itself, or the host, has none.

The evaluator is looked at step by step first, whatever the nodes inside of a node may throw and
whatever runs the functions that are called: what a step throws besides that is an error with its
trace, or the value of a throw statement. From this follows where everything comes from that a whole
evaluation throws.
-/

namespace EcmaTree

namespace Report

/-- The lines of a stack: the headline, and one for each call. -/
def lines (kind message : Text) (calls : CallTrace) : List Text :=
  headline kind message :: calls.map CallFrame.toText

end Report

namespace Thrown

variable {c : Config} {active : List Activation} {s : State} {x : Thrown}

/-- Where an object is made, none was before. -/
theorem get?_newObject (h : Heap) (ps : Properties) :
    h.objects.get? (h.newObject ps).1.index = none ∧
      (h.newObject ps).2.objects.get? (h.newObject ps).1.index = some ps := by
  constructor
  · rw [Option.eq_none_iff_forall_ne_some]
    exact fun old hold ↦ (Store.lt_size_of_get?_eq_some hold).false
  · rw [Heap.newObject, Store.get?_push, if_pos rfl]

end Thrown

/-- An evaluation that leaves what is active and what is held as it was, and throws nothing but what
has a property. -/
structure Eval.Throwing {α : Type} (P : Thrown → Prop) (m : Eval α) : Prop where
  calls_eq (s : State) : (m s).state.calls = s.calls
  depth_eq (s : State) : (m s).state.depth = s.depth
  held_eq (s : State) : (m s).state.held = s.held
  of_thrown {s u : State} {x : Thrown} (h : m s = .thrown x u) : P x

theorem Eval.Throwing.mono {α : Type} {P Q : Thrown → Prop} (h : ∀ x, P x → Q x) {m : Eval α}
    (hm : m.Throwing P) : m.Throwing Q :=
  ⟨hm.calls_eq, hm.depth_eq, hm.held_eq, fun hx ↦ h _ (hm.of_thrown hx)⟩

/-- Everything inside of a node, and every way in which something is called, throws nothing but what
has a property. -/
structure Evaluator.Throwing (P : Thrown → Prop) (r : Evaluator) (run : Running) : Prop where
  expr (e : Expr) : (r.expr e).Throwing P
  stmt (y : Stmt) : (r.stmt y).Throwing P
  call (f : Value) (args : List Value) (this : Value) : (r.call f args this).Throwing P
  run (entry : CallFrame) (f : FunctionRef) (args : List Value) (this : Value) :
    (run entry f args this).Throwing P

theorem Evaluator.Throwing.mono {P Q : Thrown → Prop} (h : ∀ x, P x → Q x) {r : Evaluator}
    {run : Running} (hr : r.Throwing P run) : r.Throwing Q run where
  expr e := (hr.expr e).mono h
  stmt y := (hr.stmt y).mono h
  call f args this := (hr.call f args this).mono h
  run entry f args this := (hr.run entry f args this).mono h

namespace Coupling

variable {c : Config} {P : List Activation → Thrown → Prop}
  (hP : ∀ {a active x}, P (a :: active) x → P active x) {active : List Activation} {α : Type}
  {m : Eval α} {s u : State} {x : Thrown}

/-- What is thrown by an evaluation that is coupled with itself may be thrown. -/
theorem Couples.throws {Mode : Type} {k : Coupling c Mode} {mode : Mode} (hm : k.Couples mode m m)
    (hs : k.Rel mode s s) (hx : m s = .thrown x u) : k.Throws mode x := by
  have ho := hm s s hs
  rw [hx] at ho
  cases ho with
  | thrown he => exact he

section

variable {Q : Thrown → Prop} {r : Evaluator} {run : Running}

end

end Coupling

namespace Evaluator

variable {c : Config} {P : Thrown → Prop} {r : Evaluator} {run : Running}
  {active : List Activation} {s u : State} {x : Thrown}

end Evaluator

namespace Coupling

end Coupling

namespace Interpreter

variable {i : Interpreter} {level : Nat} {q : Program} {held : List Value} {x : Thrown}

/-- What is shown of the source with the report of something that was thrown, unless it never
ends. -/
def excerpt (i : Interpreter) (x : Thrown) : Option Text :=
  let source := i.config.source
  Report.excerpt (if source.isEmpty then none else some source) (source.locate x.origin.start)
    x.origin.width

end Interpreter

end EcmaTree
