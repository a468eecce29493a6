import EcmaTree.Evaluation.Level
import EcmaTree.Proofs.Coupling.Statements

/-!
# Couplings on all levels

Every level keeps a coupling that leads into the frames of calls.
-/

namespace EcmaTree.Coupling

variable {c : Config} {Mode : Type} {k : Coupling c Mode}

/-- Below the first level nothing is evaluated. -/
theorem level_zero (k : Coupling c Mode) : k.Evaluators (fun _ ↦ c.level 0) (c.level 0) where
  left _ := rfl
  right := rfl
  rounds _ := rfl
  inner _ := rfl
  expr mode e := by
    change k.Couples mode (c.expr 0 e) (c.expr 0 e)
    rw [c.expr_zero]
    exact .exhaust
  stmt mode _ s := by
    change k.Couples mode (c.stmt 0 s) (c.stmt 0 s)
    rw [c.stmt_zero]
    exact .exhaust
  call mode f args this := by
    change k.Couples mode (c.call 0 f args this) (c.call 0 f args this)
    rw [c.call_zero]
    exact .exhaust

/-- What a node or a call comes to on the level above is coupled, if what is inside of it is
evaluated by a given evaluator and the code of functions is entered in a given way. -/
structure Steps (k : Coupling c Mode) (n : Nat) (mode : Mode) (r : Evaluator) (enter : Entering) :
    Prop where
  expr (e : Expr) :
    k.Couples mode (r.exprStepBy (fun _ ↦ r.applyBy enter) e) ((c.level (n + 1)).expr e)
  stmt (hm : k.Marks mode) (s : Stmt) :
    k.Couples mode (r.stmtStep s) ((c.level (n + 1)).stmt s)
  call (f : Value) (args : List Value) (this : Value) :
    k.Couples mode (r.callValueBy (fun _ ↦ r.applyBy enter) f args this)
      ((c.level (n + 1)).call f args this)

/-- A level is coupled if the one below it is, and if the code of functions is entered in a coupled
way. -/
theorem Evaluators.steps {n : Nat} {r : Mode → Evaluator} (h : k.Evaluators r (c.level n))
    (ht : k.Throwable) (hr : ∀ entry mode, r (k.calling entry mode) = r mode)
    {enter : Mode → Entering}
    (henter : ∀ entry mode, k.Enters (k.calling entry mode) (enter mode) (c.level n).closure)
    (mode : Mode) : k.Steps n mode (r mode) (enter mode) := by
  have hruns : k.Runs (fun mode _ ↦ (r mode).applyBy (enter mode)) (c.level n).running := by
    intro mode entry f args this
    have hcalls : k.Calls (k.calling entry mode) (r mode) (c.level n) :=
      hr entry mode ▸ h.call (k.calling entry mode)
    have happly :=
      Couples.applyBy ht.toNatives (h.left mode) h.right hcalls (henter entry mode) f args this
    rwa [Evaluator.applyBy_closure] at happly
  exact {
    expr := fun e ↦ by
      change k.Couples mode _ (c.expr (n + 1) e)
      rw [c.expr_succ, ← Evaluator.exprStepBy_running]
      exact h.exprStepBy hruns e
    stmt := fun hm s ↦ by
      change k.Couples mode _ (c.stmt (n + 1) s)
      rw [c.stmt_succ]
      exact h.stmtStep hm s fun _ span _ v _ _ hrel ↦ ht.value hrel v span
    call := fun f args this ↦ by
      change k.Couples mode _ (c.call (n + 1) f args this)
      rw [c.call_succ, ← Evaluator.callValueBy_running]
      exact .callValueBy (h.left mode) h.right (hruns mode) f args this }

/-- A mode in which the code of a function can begin, and out of which there is a way back. -/
structure Begins (k : Coupling c Mode) (mode inside : Mode) (s t : State) (f f' : Frame) :
    Prop where
  encloses : Encloses k.Rel k.Throws mode inside
  marks : k.Marks inside
  opened : k.Rel inside (s.opened f) (t.opened f')

/-- Every level keeps a coupling of the configuration with itself, if the code of functions always
begins in some mode. -/
theorem level (ht : k.Throwable)
    (hbegins : ∀ {mode s t f code scope scope'} (args : List Value) (this : Value),
      k.Rel mode s t → Closures s t f code scope scope' →
      ∃ inside, k.Begins mode inside s t (Evaluator.callFrame f code scope args this)
        (Evaluator.callFrame f code scope' args this))
    (n : Nat) : k.Evaluators (fun _ ↦ c.level n) (c.level n) := by
  induction n with
  | zero => exact k.level_zero
  | succ n ih =>
    have henters (mode : Mode) : k.Enters mode (c.level n).closure (c.level n).closure := by
      intro s t f code scope scope' args this h hf
      obtain ⟨inside, hb⟩ := hbegins args this h hf
      exact Couples.closure hb.encloses h hb.opened (ih.body hb.marks code)
    have hsteps (mode : Mode) := ih.steps ht (fun _ _ ↦ rfl) (fun entry mode ↦ henters _) mode
    have hrunning : (fun _ ↦ (c.level n).applyBy (c.level n).closure) = (c.level n).running := by
      funext _ f args this
      exact (c.level n).applyBy_closure f args this
    exact {
      left := fun _ ↦ rfl
      right := rfl
      rounds := fun _ ↦ rfl
      inner := fun _ ↦ rfl
      expr := fun mode e ↦ by
        have hexpr := (hsteps mode).expr e
        rwa [hrunning, Evaluator.exprStepBy_running, ← c.expr_succ] at hexpr
      stmt := fun mode hm s ↦ by
        have hstmt := (hsteps mode).stmt hm s
        rwa [← c.stmt_succ] at hstmt
      call := fun mode f args this ↦ by
        have hcall := (hsteps mode).call f args this
        rwa [hrunning, Evaluator.callValueBy_running, ← c.call_succ] at hcall }

end EcmaTree.Coupling
