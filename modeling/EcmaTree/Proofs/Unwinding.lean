import EcmaTree.Proofs.Course
import EcmaTree.Session.Session

/-!
# Unwinding

However an evaluation ends, the current frame, the number of active calls and the call trace are as
they were before, and so is what is held. What a program threw is remembered by the run of the
program and by nothing else.
-/

namespace EcmaTree

/-- The second state has the current frame, the active calls and the held values of the first. -/
structure State.Unwound (s t : State) : Prop where
  frame : t.frame = s.frame
  depth : t.depth = s.depth
  calls : t.calls = s.calls
  held : t.held = s.held

namespace State.Course

variable {c : Config} {moving : Bool} {s t : State}

/-- Only what is moving leaves another frame current. -/
theorem frame_eq (h : s.Course c moving t) (hm : moving = false) : t.frame = s.frame := by
  induction h with
  | refl | heap | record | note | inFrame => rfl
  | trans _ _ ih ih' => exact (ih' hm).trans (ih hm)
  | still | enter => cases hm
  | moment s m =>
    obtain ⟨_, _, h⟩ := s.exists_passMoment c m
    rw [h]
  | holding _ _ ih | withCallFrame _ _ ih | deeper _ _ ih => exact ih hm

/-- What is not moving unwinds. -/
theorem unwound (h : s.Course c false t) : s.Unwound t :=
  ⟨h.frame_eq rfl, h.scopes_eq.1, h.scopes_eq.2.1, h.scopes_eq.2.2⟩

end State.Course

/-- What an evaluation threw, if it ended so. -/
def Outcome.thrown? {α : Type} : Outcome α → Option Thrown
  | thrown t _ => some t
  | done .. | faulted .. | exhausted _ => none

namespace Session

/-- What a step leaves as uncaught: a program that can be loaded what it threw, and any other step
what there was before, unless it forgets it. -/
def uncaughtAfter (s : Session) (level : Nat) : Step → Option Thrown
  | .run program _ =>
    match Program.load program with
    | .ok p =>
      (Eval.holding (.values s.kept.values) ((s.interpreter.config.level level).program p)
        s.interpreter.state).thrown?
    | .error _ => s.interpreter.uncaught
  | .clear => none
  | _ => s.interpreter.uncaught

end Session

namespace Interpreter

theorem uncaught_run (i : Interpreter) (level : Nat) (p : Program) (held : List Value) :
    (i.run level p held).2.uncaught =
      (Eval.holding (.values held) ((i.config.level level).program p) i.state).thrown? := by
  rw [run]
  cases Eval.holding (.values held) ((i.config.level level).program p) i.state <;> rfl

theorem state_run (i : Interpreter) (level : Nat) (p : Program) (held : List Value) :
    (i.run level p held).2.state =
      (Eval.holding (.values held) ((i.config.level level).program p) i.state).state := by
  rw [run]
  cases Eval.holding (.values held) ((i.config.level level).program p) i.state <;> rfl

theorem error_eq (i : Interpreter) : i.error = (i.uncaught.map Thrown.value).getD .undefined := by
  rw [error]
  cases i.uncaught <;> rfl

end Interpreter

namespace Session

theorem uncaught_evaluate {α : Type} (s : Session) (level : Nat) (m : Evaluator → Eval α) :
    (s.evaluate level m).2.interpreter.uncaught = s.interpreter.uncaught := by
  rw [evaluate]
  cases Eval.holding s.holder (m (s.interpreter.config.level level)) s.interpreter.state <;> rfl

theorem uncaught_execStatements (level : Nat) (body : List Stmt) (s : Session) :
    (execStatements level body s).2.interpreter.uncaught = s.interpreter.uncaught := by
  induction body generalizing s with
  | nil => rfl
  | cons statement rest ih =>
    have h := s.uncaught_evaluate level fun r ↦ r.stmt statement
    rw [execStatements]
    generalize s.evaluate level (fun r ↦ r.stmt statement) = result at h ⊢
    obtain ⟨_ | c, t⟩ := result
    · exact h
    · exact (ih t).trans h

theorem uncaught_keepAs (s : Session) (name : Option Text) (v : Value) :
    (s.keepAs name v).interpreter.uncaught = s.interpreter.uncaught := by
  cases name <;> rfl

theorem uncaught_call (s : Session) (level : Nat) (function : ValueSpec) (args : List ValueSpec)
    (receiver : ValueSpec) (keep : Option Text) :
    (s.call level function args receiver keep).2.interpreter.uncaught =
      s.interpreter.uncaught := by
  rw [call]
  generalize hmade : s.make _ = made
  obtain ⟨⟨callee, vs, this⟩, t⟩ := made
  have hmake : t.interpreter.uncaught = s.interpreter.uncaught := by
    have := congrArg (fun m ↦ m.2.interpreter.uncaught) hmade
    exact this.symm
  have h := t.uncaught_evaluate level fun r ↦ r.callValue callee vs this
  dsimp only
  generalize t.evaluate level (fun r ↦ r.callValue callee vs this) = result at h ⊢
  obtain ⟨_ | v, u⟩ := result
  · exact h.trans hmake
  · exact (uncaught_keepAs u keep _).trans (h.trans hmake)

/-- Steps leave as uncaught what they are to leave. -/
theorem uncaught_perform (s : Session) (level : Nat) (x : Step) :
    (s.perform level x).2.interpreter.uncaught = s.uncaughtAfter level x := by
  cases x with
  | run program keep =>
    rw [perform, run, uncaughtAfter]
    cases Program.load program with
    | error => rfl
    | ok p =>
      have h := s.interpreter.uncaught_run level p s.kept.values
      dsimp only
      generalize s.interpreter.run level p s.kept.values = result at h ⊢
      obtain ⟨result, i⟩ := result
      cases result with
      | value v => exact (uncaught_keepAs _ keep v).trans h
      | uncaught | faulted | exhausted => exact h
  | exec program =>
    rw [perform, exec]
    split
    · rfl
    · exact uncaught_execStatements ..
  | call => exact s.uncaught_call ..
  | pop =>
    rw [perform]
    split <;> rfl
  | _ => rfl

/-- Whatever is evaluated in whatever state, and however it ends, the current frame, the number of
active calls and the call trace are as before. A run of a program remembers what it threw, if it
threw something, and nothing otherwise; other steps of a session remember what was remembered
before, but for the one that is to forget it. -/
theorem unwinds (s : Session) (level : Nat) :
    let r := s.interpreter.config.level level
    (∀ e (t : State), t.Unwound (r.expr e t).state) ∧
    (∀ x (t : State), t.Unwound (r.stmt x t).state) ∧
    (∀ p (t : State), t.Unwound (r.program p t).state) ∧
    (∀ f args receiver (t : State), t.Unwound (r.call f args receiver t).state) ∧
    (∀ f args receiver site (t : State),
      t.Unwound (r.callFunction f args receiver site t).state) ∧
    (∀ (i : Interpreter) p held,
      i.state.Unwound (i.run level p held).2.state ∧
      (i.run level p held).2.uncaught =
        (Eval.holding (.values held) ((i.config.level level).program p) i.state).thrown? ∧
      (i.run level p held).2.error =
        ((i.run level p held).2.uncaught.map Thrown.value).getD .undefined) ∧
    ∀ x, (s.perform level x).2.interpreter.uncaught = s.uncaughtAfter level x := by
  intro r
  have hr : r.Courses s.interpreter.config := s.interpreter.config.level_courses level
  refine ⟨fun e t ↦ (hr.expr e t).unwound, fun x t ↦ (hr.stmt x t).unwound,
    fun p t ↦ (hr.program p t).unwound, fun f args receiver t ↦ (hr.call f args receiver t).unwound,
    fun f args receiver site t ↦ (hr.callFunction f args receiver site t).unwound,
    fun i p held ↦ ⟨?_, i.uncaught_run level p held, Interpreter.error_eq _⟩,
    s.uncaught_perform level⟩
  have hp : Eval.Courses i.config false ((i.config.level level).program p) :=
    (i.config.level_courses level).program p
  rw [i.state_run, Eval.holding, Outcome.state_mapState]
  exact (State.Course.holding (.values held) (hp _)).unwound

end Session

end EcmaTree
