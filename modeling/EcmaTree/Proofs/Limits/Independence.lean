import EcmaTree.Proofs.Limits.Statements
import EcmaTree.Session.Interpreter

/-!
# Limits and policies

The limit on active calls, what a name without a binding means, and whether such names are noted
make no difference to a program that never comes to where one of them is asked for.
-/

namespace EcmaTree

namespace Config

variable {c c' : Config}

@[simp] theorem strict_config (c : Config) (e : Fault) (n : Nat) : (c.strict e n).config = c := by
  cases n <;> rfl

/-- Strict evaluation agrees with evaluation in any wider configuration. -/
theorem strict_agrees (h : c.Widens c') (e : Fault) (n : Nat) :
    (c.strict e n).Agrees e (c'.level n) := by
  induction n with
  | zero =>
    have hzero {α : Type} {m m' : Eval α} (hm : m = Eval.exhaust) (hm' : m' = Eval.exhaust) :
        Eval.Agrees e m m' := by
      rw [hm, hm']
      exact .same _
    exact {
      config := h
      rounds_eq := rfl
      expr := fun x ↦ hzero (c.expr_zero x) (c'.expr_zero x)
      stmt := fun x ↦ hzero (c.stmt_zero x) (c'.stmt_zero x)
      call := fun f args this ↦ hzero (c.call_zero f args this) (c'.call_zero f args this) }
  | succ n ih =>
    exact {
      config := h
      rounds_eq := rfl
      expr := fun x ↦ by
        change Eval.Agrees e ((c.strict e n).strictExpr e x) (c'.expr (n + 1) x)
        rw [expr_succ]
        exact ih.strictExpr x
      stmt := fun x ↦ by
        change Eval.Agrees e ((c.strict e n).stmtStep x) (c'.stmt (n + 1) x)
        rw [stmt_succ]
        exact ih.stmtStep x
      call := fun f args this ↦ by
        change Eval.Agrees e ((c.strict e n).strictCall e f args this) (c'.call (n + 1) f args this)
        rw [call_succ]
        exact ih.strictCall f args this }

end Config

/-- The evaluation ended with a result. -/
def Outcome.isDone {α : Type} : Outcome α → Bool
  | done .. => true
  | thrown .. | faulted .. | exhausted _ => false

namespace Interpreter

variable {i : Interpreter} {level : Nat} {p : Program} {held : List Value}

/-- The interpreter with another limit and other policies. -/
def withPolicies (i : Interpreter) (maxDepth : Nat) (unbound : UnboundPolicy)
    (noteUnbound : Bool) : Interpreter :=
  { i with config := { i.config with maxDepth, unbound, noteUnbound } }

/-- How the program ends on a level when it is evaluated strictly. -/
def strictOutcome (i : Interpreter) (e : Fault) (level : Nat) (p : Program) (held : List Value) :
    Outcome Value :=
  Eval.holding (.values held) ((i.config.strict e level).program p) i.state

/-- On a level the program runs without coming to a name that has no binding, or to a call for which
there is no room. Strict evaluation would end with its fault there, whichever that is. -/
def StaysWithin (i : Interpreter) (level : Nat) (p : Program) (held : List Value) : Prop :=
  ∃ e, ∀ t, i.strictOutcome e level p held ≠ .faulted e t

theorem staysWithin_of_isDone {e : Fault} (h : (i.strictOutcome e level p held).isDone = true) :
    i.StaysWithin level p held := by
  refine ⟨e, fun t ht ↦ ?_⟩
  rw [ht] at h
  cases h

/-- A program that stays within its limits ends alike in every wider configuration. -/
theorem holding_program_eq (h : i.StaysWithin level p held) {c : Config} (hc : i.config.Widens c) :
    Eval.holding (.values held) ((c.level level).program p) i.state =
      Eval.holding (.values held) ((i.config.level level).program p) i.state := by
  obtain ⟨e, he⟩ := h
  have hstrict (c : Config) (hc : i.config.Widens c) :
      Eval.holding (.values held) ((c.level level).program p) i.state =
        i.strictOutcome e level p held := by
    have hagrees := ((Config.strict_agrees hc e level).program p).holding (x := .values held)
    exact (hagrees i.state).resolve_left fun ⟨t, ht⟩ ↦ he t ht
  exact (hstrict c hc).trans (hstrict i.config ⟨Nat.le_refl _, rfl, rfl, rfl⟩).symm

/-- A program that stays within its limits has the same result, leaves the same state and is
reported in the same way under every higher limit and under every policy. -/
theorem run_independent (h : i.StaysWithin level p held) {maxDepth : Nat}
    (hdepth : i.config.maxDepth ≤ maxDepth) (unbound : UnboundPolicy) (noteUnbound : Bool) :
    ((i.withPolicies maxDepth unbound noteUnbound).run level p held).1 = (i.run level p held).1 ∧
      ((i.withPolicies maxDepth unbound noteUnbound).run level p held).2.state =
        (i.run level p held).2.state ∧
      ((i.withPolicies maxDepth unbound noteUnbound).run level p held).2.uncaught =
        (i.run level p held).2.uncaught ∧
      ((i.withPolicies maxDepth unbound noteUnbound).run level p held).2.errorReport =
        (i.run level p held).2.errorReport := by
  have hconfig : i.config.Widens (i.withPolicies maxDepth unbound noteUnbound).config :=
    ⟨hdepth, rfl, rfl, rfl⟩
  have hstate : (i.withPolicies maxDepth unbound noteUnbound).state = i.state := rfl
  rw [run, run, hstate, holding_program_eq h hconfig]
  generalize Eval.holding _ _ _ = o
  cases o <;> exact ⟨rfl, rfl, rfl, rfl⟩

/-- A function that has its argument as value, called with a name that has a binding. -/
def identity : Program where
  body := [.function ⟨.declaration, "f", ["x"], .statements
      [.returned (some (.identifier "x" .nowhere)) .nowhere], .nowhere⟩ .nowhere,
    .expression (.call (.identifier "f" .nowhere) [some (.identifier "NaN" .nowhere)] .nowhere)
      .nowhere]
  span := .nowhere

theorem run_independent_identity :
    let i := start .standard .empty .start []
    i.StaysWithin 5 identity [] ∧ i.config.maxDepth ≤ 5000 ∧
      ((i.withPolicies 5000 .throwError true).run 5 identity []).1 = (i.run 5 identity []).1 ∧
      ((i.withPolicies 5000 .throwError true).run 5 identity []).2.state =
        (i.run 5 identity []).2.state ∧
      ((i.withPolicies 5000 .throwError true).run 5 identity []).2.uncaught =
        (i.run 5 identity []).2.uncaught ∧
      ((i.withPolicies 5000 .throwError true).run 5 identity []).2.errorReport =
        (i.run 5 identity []).2.errorReport := by
  intro i
  have h : i.StaysWithin 5 identity [] := staysWithin_of_isDone (e := .absent) (by decide +kernel)
  have hdepth : i.config.maxDepth ≤ 5000 := by decide
  exact ⟨h, hdepth, run_independent h hdepth .throwError true⟩

end Interpreter

end EcmaTree
