import EcmaTree.Evaluation.Programs
import EcmaTree.Proofs.Limits.Expressions

/-!
# Agreement of statements

Statements, and with them whole programs, agree if the nodes inside them do.
-/

namespace EcmaTree.Evaluator.Agrees

open Eval.Agrees

variable {e : Fault} {r r' : Evaluator}

/-! ### Loops -/

theorem scopedStatements (h : r.Agrees e r') (body : List Stmt) :
    Eval.Agrees e (r.scopedStatements body) (r'.scopedStatements body) :=
  (h.statements body none).inChild

theorem loopBody (h : r.Agrees e r') (body : Stmt) :
    Eval.Agrees e (r.loopBody body) (r'.loopBody body) := by
  unfold Evaluator.loopBody
  split
  · exact h.scopedStatements _
  · exact ((h.stmt _).bind fun _ ↦ same _).inChild

theorem loopRound (h : r.Agrees e r') (body : Stmt) (labels : List Text) (last : Option Value)
    {next next' : Option Value → Eval (Round (Option Value) Completion)}
    (hnext : ∀ v, Eval.Agrees e (next v) (next' v)) :
    Eval.Agrees e (r.loopRound body labels last next) (r'.loopRound body labels last next') := by
  refine (h.loopBody body).holding.bind fun c ↦ ?_
  dsimp only
  split
  · exact hnext _
  · exact same _
  · exact same _

theorem whileLoop (h : r.Agrees e r') (test : Expr) (body : Stmt) (labels : List Text) :
    Eval.Agrees e (r.whileLoop test body labels) (r'.whileLoop test body labels) := by
  rw [Evaluator.whileLoop, Evaluator.whileLoop, h.rounds_eq]
  refine iterate (fun last ↦ (h.expr test).holding.bind fun v ↦ ?_) _ _
  split
  · exact h.loopRound body labels last fun _ ↦ same _
  · exact same _

theorem doWhileLoop (h : r.Agrees e r') (body : Stmt) (test : Expr) (labels : List Text) :
    Eval.Agrees e (r.doWhileLoop body test labels) (r'.doWhileLoop body test labels) := by
  rw [Evaluator.doWhileLoop, Evaluator.doWhileLoop, h.rounds_eq]
  exact iterate (fun last ↦ h.loopRound body labels last fun _ ↦
    (h.expr test).holding.bind fun _ ↦ same _) _ _

theorem forTest (h : r.Agrees e r') (test : Option Expr) (last : Option Value) :
    Eval.Agrees e (r.forTest test last) (r'.forTest test last) := by
  cases test with
  | none => exact same _
  | some x => exact (h.expr x).holding.map _

theorem forStep (h : r.Agrees e r') (own : Bool) (update : Option Expr) (value : Option Value) :
    Eval.Agrees e (r.forStep own update value) (r'.forStep own update value) := by
  cases update with
  | none => exact same _
  | some x =>
    have hupdate := ((h.expr x).holding (x := .values value.toList)).bind fun _ ↦
      same (pure (Round.again (β := Completion) value))
    cases own with
    | true => exact (same Evaluator.enterSibling).bind fun _ ↦ hupdate
    | false => exact hupdate

theorem forRounds (h : r.Agrees e r') (own : Bool) (test update : Option Expr) (body : Stmt)
    (labels : List Text) :
    Eval.Agrees e (r.forRounds own test update body labels)
      (r'.forRounds own test update body labels) := by
  rw [Evaluator.forRounds, Evaluator.forRounds, h.rounds_eq]
  refine iterate (fun last ↦ (h.forTest test last).bind fun goesOn ↦ ?_) _ _
  split
  · exact h.loopRound body labels last (h.forStep own update)
  · exact same _

theorem forLoop (h : r.Agrees e r') (init : Option Stmt) (test update : Option Expr) (body : Stmt)
    (labels : List Text) :
    Eval.Agrees e (r.forLoop init test update body labels)
      (r'.forLoop init test update body labels) := by
  have hrounds := h.forRounds (hasOwnVariables init) test update body labels
  refine inChild ?_
  cases init with
  | none => exact hrounds
  | some s =>
    refine (h.stmt s).bind fun _ ↦ ?_
    dsimp only
    split
    · exact (same _).bind fun _ ↦ hrounds
    · exact hrounds

/-! ### Declarations and switches -/

theorem initial (h : r.Agrees e r') (d : Declarator) :
    Eval.Agrees e (r.initial d) (r'.initial d) := by
  obtain ⟨name, init⟩ := d
  cases init with
  | none => exact same _
  | some x => exact (h.expr x).bind fun _ ↦ same _

theorem declare (h : r.Agrees e r') (kind : BindingKind) (ds : List Declarator) :
    Eval.Agrees e (r.declare kind ds) (r'.declare kind ds) := by
  induction ds with
  | nil => exact same _
  | cons d rest ih => exact (h.initial d).bind fun _ ↦ (same _).bind fun _ ↦ ih

theorem selectCase (h : r.Agrees e r') (v : Value) (cases fallback : List SwitchCase) :
    Eval.Agrees e (r.selectCase v cases fallback) (r'.selectCase v cases fallback) := by
  induction cases generalizing fallback with
  | nil => exact same _
  | cons c rest ih =>
    obtain ⟨test, body⟩ := c
    cases test with
    | none => exact ih _
    | some x =>
      refine (h.expr x).holding.bind fun w ↦ ?_
      split
      · exact same _
      · exact ih _

theorem runCases (h : r.Agrees e r') (labels : List Text) (cases : List SwitchCase)
    (last : Option Value) :
    Eval.Agrees e (r.runCases labels cases last) (r'.runCases labels cases last) := by
  induction cases generalizing last with
  | nil => exact same _
  | cons c rest ih =>
    refine (h.statements c.body none).holding.bind fun completion ↦ ?_
    cases completion with
    | normal => exact ih _
    | broke | returned | continued => exact same _

theorem switch (h : r.Agrees e r') (discriminant : Expr) (cases : List SwitchCase)
    (labels : List Text) :
    Eval.Agrees e (r.switch discriminant cases labels) (r'.switch discriminant cases labels) :=
  (h.expr discriminant).bind fun v ↦
    ((h.selectCase v cases []).bind fun _ ↦ h.runCases labels _ none).inChild

/-! ### Labels and guarded blocks -/

theorem labeled (h : r.Agrees e r') (s : Stmt) (labels : List Text) :
    Eval.Agrees e (r.labeled s labels) (r'.labeled s labels) := by
  cases s with
  | labeled label body span => exact h.labeled body _
  | whileLoop test body span => exact h.whileLoop test body labels
  | doWhileLoop body test span => exact h.doWhileLoop body test labels
  | forLoop init test update body span => exact h.forLoop init test update body labels
  | switch discriminant cases span => exact h.switch discriminant cases labels
  | _ => exact (h.stmt _).bind fun _ ↦ same _

theorem handle (h : r.Agrees e r') (handler : Handler) (t : Thrown) :
    Eval.Agrees e (r.handle handler t) (r'.handle handler t) := by
  refine inChild ?_
  cases handler.param with
  | none => exact h.statements handler.body none
  | some name => exact (same _).bind fun _ ↦ h.statements handler.body none

theorem guardedOutcome (h : r.Agrees e r') (block : List Stmt) (handler : Option Handler) :
    Eval.Agrees e (r.guardedOutcome block handler) (r'.guardedOutcome block handler) := by
  refine (h.scopedStatements block).catching.bind fun result ↦ ?_
  cases result with
  | ok c => exact same _
  | error t =>
    cases handler with
    | none => exact same _
    | some handler => exact (h.handle handler t).catching

theorem cleanup (h : r.Agrees e r') (finalizer : Option (List Stmt))
    (outcome : Except Thrown Completion) :
    Eval.Agrees e (r.cleanup finalizer outcome) (r'.cleanup finalizer outcome) := by
  cases finalizer with
  | none => exact same _
  | some body => exact (h.scopedStatements body).holding

theorem guarded (h : r.Agrees e r') (block : List Stmt) (handler : Option Handler)
    (finalizer : Option (List Stmt)) :
    Eval.Agrees e (r.guarded block handler finalizer) (r'.guarded block handler finalizer) :=
  (h.guardedOutcome block handler).bind fun outcome ↦
    (h.cleanup finalizer outcome).bind fun _ ↦ same _

/-! ### Statements -/

theorem stmtStep (h : r.Agrees e r') (s : Stmt) :
    Eval.Agrees e (r.stmtStep s) (r'.stmtStep s) := by
  cases s with
  | declare kind declarators span => exact h.declare _ declarators
  | returned argument span =>
    cases argument with
    | none => exact same _
    | some x => exact (h.expr x).bind fun _ ↦ same _
  | expression value span => exact (h.expr value).bind fun _ ↦ same _
  | block body span => exact h.scopedStatements body
  | conditional test consequent alternate span =>
    refine (h.expr test).bind fun v ↦ ?_
    split
    · exact h.stmt consequent
    · cases alternate with
      | none => exact same _
      | some s => exact h.stmt s
  | whileLoop test body span => exact h.whileLoop test body []
  | doWhileLoop body test span => exact h.doWhileLoop body test []
  | forLoop init test update body span => exact h.forLoop init test update body []
  | switch discriminant cases span => exact h.switch discriminant cases []
  | labeled label body span => exact h.labeled body [label]
  | throwing argument span => exact (h.expr argument).bind fun _ ↦ same _
  | guarded block handler finalizer span => exact h.guarded block handler finalizer
  | function | empty | breaking | continuing | unsupported => exact same _

/-! ### Programs -/

theorem programStatements (h : r.Agrees e r') (body : List Stmt) (last : Value) :
    Eval.Agrees e (r.programStatements body last) (r'.programStatements body last) := by
  induction body generalizing last with
  | nil => exact same _
  | cons s rest ih =>
    refine (h.stmt s).holding.bind fun c ↦ ?_
    cases c with
    | normal => exact ih _
    | returned | broke | continued => exact same _

theorem program (h : r.Agrees e r') (p : Program) :
    Eval.Agrees e (r.program p) (r'.program p) := by
  rw [Evaluator.program, Evaluator.program, h.callFrame_eq]
  exact ((h.programStatements p.body .undefined).withCallFrame _).inChild

end EcmaTree.Evaluator.Agrees
