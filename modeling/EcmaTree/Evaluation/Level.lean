import EcmaTree.Evaluation.Statements

/-!
# Evaluation

Evaluation proper, by levels: a level evaluates one node, and what is inside it on the level below.
Below level 0 nothing can be evaluated. Only evaluations that are nested too deep, or loop too
often, are cut short by this, and any finite one is complete on every level that is high enough.
-/

namespace EcmaTree

mutual

/-- Evaluates an expression on a level. -/
def Config.expr (c : Config) : Nat → Expr → Eval Value
  | 0, _ => Eval.exhaust
  | n + 1, e => Evaluator.exprStep ⟨c, n, c.expr n, c.stmt n, c.call n⟩ e

/-- Evaluates a statement on a level. -/
def Config.stmt (c : Config) : Nat → Stmt → Eval Completion
  | 0, _ => Eval.exhaust
  | n + 1, s => Evaluator.stmtStep ⟨c, n, c.expr n, c.stmt n, c.call n⟩ s

/-- Calls a value on a level. -/
def Config.call (c : Config) : Nat → Value → List Value → Value → Eval Value
  | 0, _, _, _ => Eval.exhaust
  | n + 1, callee, args, receiver =>
    Evaluator.callValue ⟨c, n, c.expr n, c.stmt n, c.call n⟩ callee args receiver

end

/-- Evaluation on a level. -/
def Config.level (c : Config) (n : Nat) : Evaluator := ⟨c, n, c.expr n, c.stmt n, c.call n⟩

namespace Config

theorem expr_zero (c : Config) (e : Expr) : c.expr 0 e = Eval.exhaust := by
  rw [expr]

theorem stmt_zero (c : Config) (s : Stmt) : c.stmt 0 s = Eval.exhaust := by
  rw [stmt]

theorem call_zero (c : Config) (callee : Value) (args : List Value) (receiver : Value) :
    c.call 0 callee args receiver = Eval.exhaust := by
  rw [call]

/-- Each level evaluates expressions by the one below it. -/
theorem expr_succ (c : Config) (n : Nat) (e : Expr) :
    c.expr (n + 1) e = (c.level n).exprStep e := by
  rw [expr]
  rfl

/-- Each level evaluates statements by the one below it. -/
theorem stmt_succ (c : Config) (n : Nat) (s : Stmt) :
    c.stmt (n + 1) s = (c.level n).stmtStep s := by
  rw [stmt]
  rfl

/-- Each level calls values by the one below it. -/
theorem call_succ (c : Config) (n : Nat) (callee : Value) (args : List Value)
    (receiver : Value) :
    c.call (n + 1) callee args receiver = (c.level n).callValue callee args receiver := by
  rw [call]
  rfl

end Config

end EcmaTree
