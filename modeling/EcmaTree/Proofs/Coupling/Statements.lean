import EcmaTree.Evaluation.Programs
import EcmaTree.Proofs.Coupling.Expressions
import EcmaTree.Proofs.Loops.Rounds

/-!
# Couplings of statements and programs

Statements keep every coupling, if the nodes inside them do.
-/

namespace EcmaTree.Coupling

variable {c : Config} {Mode : Type} {k : Coupling c Mode} {mode : Mode}

namespace Evaluators

open Couples

variable {r : Mode → Evaluator} {r' : Evaluator}

theorem inner_stmt (h : k.Evaluators r r') (s : Stmt) :
    k.Couples (k.inner mode) ((r mode).stmt s) (r'.stmt s) :=
  h.inner mode ▸ h.stmt (k.inner mode) (k.marks_inner mode) s

/-! ### Lists of statements -/

theorem statements (h : k.Evaluators r r') (hm : k.Marks mode) (body : List Stmt)
    (last : Option Value) :
    k.Couples mode ((r mode).statements body last) (r'.statements body last) := by
  induction body generalizing last with
  | nil => exact pure _
  | cons s rest ih =>
    refine bind (holding rfl (h.stmt mode hm s)) fun completion ↦ ?_
    split
    · exact bind (setSignal hm _) fun _ ↦ pure _
    · exact ih _

theorem inner_statements (h : k.Evaluators r r') (body : List Stmt) (last : Option Value) :
    k.Couples (k.inner mode) ((r mode).statements body last) (r'.statements body last) :=
  h.inner mode ▸ h.statements (k.marks_inner mode) body last

theorem scopedStatements (h : k.Evaluators r r') (body : List Stmt) :
    k.Couples mode ((r mode).scopedStatements body) (r'.scopedStatements body) :=
  inChild (h.inner_statements body none)

theorem body (h : k.Evaluators r r') (hm : k.Marks mode) (code : FunctionNode) :
    k.Couples mode ((r mode).body code) (r'.body code) := by
  rw [Evaluator.body, Evaluator.body]
  cases code.body with
  | concise result => exact h.expr mode result
  | statements body =>
    refine bind (h.statements hm body none) fun completion ↦ ?_
    cases completion with
    | returned | normal => exact pure _
    | broke | continued => exact structural _ _

theorem programStatements (h : k.Evaluators r r') (hm : k.Marks mode) (body : List Stmt)
    (last : Value) :
    k.Couples mode ((r mode).programStatements body last) (r'.programStatements body last) := by
  induction body generalizing last with
  | nil => exact pure _
  | cons s rest ih =>
    refine bind (holding rfl (h.stmt mode hm s)) fun completion ↦ ?_
    cases completion with
    | normal => exact ih _
    | returned => exact pure _
    | broke | continued => exact structural _ _

/-! ### Loops -/

theorem loopBody (h : k.Evaluators r r') (s : Stmt) :
    k.Couples mode ((r mode).loopBody s) (r'.loopBody s) := by
  unfold Evaluator.loopBody
  split
  · exact h.scopedStatements _
  · refine inChild (bind (h.inner_stmt s) fun completion ↦ ?_)
    dsimp only
    split
    · exact bind (setSignal (k.marks_inner mode) _) fun _ ↦ pure _
    · exact bind (pure _) fun _ ↦ pure _

theorem loopRound (h : k.Evaluators r r') (s : Stmt) (labels : List Text) (last : Option Value)
    {next next' : Option Value → Eval (Round (Option Value) Completion)}
    (hnext : ∀ value, k.Couples mode (next value) (next' value)) :
    k.Couples mode ((r mode).loopRound s labels last next)
      (r'.loopRound s labels last next') := by
  refine bind (holding rfl (h.loopBody s)) fun completion ↦ ?_
  dsimp only
  split
  · exact hnext _
  · exact pure _
  · exact pure _

theorem whileLoop (h : k.Evaluators r r') (test : Expr) (s : Stmt) (labels : List Text) :
    k.Couples mode ((r mode).whileLoop test s labels) (r'.whileLoop test s labels) := by
  unfold Evaluator.whileLoop
  rw [h.rounds]
  refine iterate (fun last ↦ bind (holding rfl (h.expr mode test)) fun goesOn ↦ ?_) _ _
  split
  · exact h.loopRound s labels last fun _ ↦ pure _
  · exact pure _

theorem doWhileLoop (h : k.Evaluators r r') (s : Stmt) (test : Expr) (labels : List Text) :
    k.Couples mode ((r mode).doWhileLoop s test labels) (r'.doWhileLoop s test labels) := by
  unfold Evaluator.doWhileLoop
  rw [h.rounds]
  refine iterate (fun last ↦ h.loopRound s labels last fun value ↦
    bind (holding rfl (h.expr mode test)) fun goesOn ↦ ?_) _ _
  split
  · exact pure _
  · exact pure _

theorem forTest (h : k.Evaluators r r') (test : Option Expr) (last : Option Value) :
    k.Couples mode ((r mode).forTest test last) (r'.forTest test last) := by
  cases test with
  | none => exact pure _
  | some e => exact map _ (holding rfl (h.expr mode e))

/-- A step that makes no sibling. -/
theorem forUpdate (h : k.Evaluators r r') (update : Option Expr) (value : Option Value) :
    k.Couples mode ((r mode).forStep false update value) (r'.forStep false update value) := by
  cases update with
  | none => exact pure _
  | some e => exact bind (holding rfl (h.expr mode e)) fun _ ↦ pure _

theorem forStep (h : k.Evaluators r r') (own : Bool) (update : Option Expr) (value : Option Value) :
    k.Couples (k.inner mode) ((r mode).forStep own update value) (r'.forStep own update value) := by
  have hupdate : k.Couples (k.inner mode) ((r mode).forStep false update value)
      (r'.forStep false update value) :=
    h.inner mode ▸ h.forUpdate update value
  cases own with
  | false => exact hupdate
  | true => exact bind enterSibling fun _ ↦ hupdate

theorem forRound (h : k.Evaluators r r') (s : Stmt) (labels : List Text) (own : Bool)
    (test update : Option Expr) (last : Option Value) :
    k.Couples (k.inner mode) ((r mode).forRound s labels own test update last)
      (r'.forRound s labels own test update last) := by
  refine bind (h.inner mode ▸ h.forTest test last) fun goesOn ↦ ?_
  split
  · exact h.inner mode ▸ h.loopRound s labels last fun value ↦
      h.inner mode ▸ h.forStep own update value
  · exact pure _

/-- The loop runs in a frame of its own, so whatever its rounds leave current is left again. -/
theorem forLoop (h : k.Evaluators r r') (init : Option Stmt) (test update : Option Expr) (s : Stmt)
    (labels : List Text) :
    k.Couples mode ((r mode).forLoop init test update s labels)
      (r'.forLoop init test update s labels) := by
  have hrounds (own : Bool) :
      k.Couples (k.inner mode) ((r mode).forRounds own test update s labels)
        (r'.forRounds own test update s labels) := by
    rw [Evaluator.forRounds_eq, Evaluator.forRounds_eq, h.rounds]
    exact iterate (h.forRound s labels own test update) _ _
  have hloop (own : Bool) : k.Couples (k.inner mode)
      (do
        if own then Evaluator.enterSibling
        (r mode).forRounds own test update s labels)
      (do
        if own then Evaluator.enterSibling
        r'.forRounds own test update s labels) := by
    cases own with
    | false => exact hrounds _
    | true => exact bind enterSibling fun _ ↦ hrounds _
  refine inChild ?_
  cases init with
  | none => exact hloop _
  | some i => exact bind (h.inner_stmt i) fun _ ↦ hloop _

/-! ### Other statements -/

theorem initial (h : k.Evaluators r r') (d : Declarator) :
    k.Couples mode ((r mode).initial d) (r'.initial d) := by
  unfold Evaluator.initial
  split
  · exact bind (h.expr mode _) fun _ ↦ bind (nameLiteral _ _ _) fun _ ↦ pure _
  · exact pure _

/-- A declaration keeps the coupling wherever what it does to the current frame does. -/
theorem declareBy (h : k.Evaluators r r') {kind : BindingKind}
    (hdefine : ∀ name v, k.Couples mode (Eval.define name v kind) (Eval.define name v kind))
    (declarators : List Declarator) :
    k.Couples mode ((r mode).declare kind declarators) (r'.declare kind declarators) := by
  induction declarators with
  | nil => exact pure _
  | cons d rest ih => exact bind (h.initial d) fun _ ↦ bind (hdefine _ _) fun _ ↦ ih

theorem declare (h : k.Evaluators r r') (hm : k.Marks mode) (kind : BindingKind)
    (declarators : List Declarator) :
    k.Couples mode ((r mode).declare kind declarators) (r'.declare kind declarators) :=
  h.declareBy (fun _ _ ↦ define hm _ _ _) declarators

theorem selectCase (h : k.Evaluators r r') (v : Value) (cases fallback : List SwitchCase) :
    k.Couples mode ((r mode).selectCase v cases fallback) (r'.selectCase v cases fallback) := by
  induction cases generalizing fallback with
  | nil => exact pure _
  | cons clause rest ih =>
    unfold Evaluator.selectCase
    split
    · exact ih _
    · refine bind (holding rfl (h.expr mode _)) fun w ↦ ?_
      split
      · exact pure _
      · exact ih _

theorem runCases (h : k.Evaluators r r') (hm : k.Marks mode) (labels : List Text)
    (clauses : List SwitchCase) (last : Option Value) :
    k.Couples mode ((r mode).runCases labels clauses last) (r'.runCases labels clauses last) := by
  induction clauses generalizing last with
  | nil => exact pure _
  | cons clause rest ih =>
    refine bind (holding rfl (h.statements hm clause.body none)) fun completion ↦ ?_
    cases completion with
    | normal => exact ih _
    | broke =>
      dsimp only
      split
      · exact pure _
      · exact pure _
    | returned | continued => exact pure _

theorem switch (h : k.Evaluators r r') (discriminant : Expr) (clauses : List SwitchCase)
    (labels : List Text) :
    k.Couples mode ((r mode).switch discriminant clauses labels)
      (r'.switch discriminant clauses labels) := by
  refine bind (h.expr mode discriminant) fun v ↦ inChild (bind ?_ fun chosen ↦ ?_)
  · exact h.inner mode ▸ h.selectCase v clauses []
  · exact h.inner mode ▸ h.runCases (k.marks_inner mode) labels chosen none

theorem labeled (h : k.Evaluators r r') (hm : k.Marks mode) : ∀ (s : Stmt) (labels : List Text),
    k.Couples mode ((r mode).labeled s labels) (r'.labeled s labels)
  | .labeled _ body _, _ => labeled h hm body _
  | .whileLoop .., _ => h.whileLoop _ _ _
  | .doWhileLoop .., _ => h.doWhileLoop _ _ _
  | .forLoop .., _ => h.forLoop _ _ _ _ _
  | .switch .., _ => h.switch _ _ _
  | .declare .., _ | .function .., _ | .returned .., _ | .expression .., _ | .block .., _
  | .empty _, _ | .conditional .., _ | .breaking .., _ | .continuing .., _ | .throwing .., _
  | .guarded .., _ | .unsupported .., _ => by
    refine bind (h.stmt mode hm _) fun completion ↦ ?_
    split
    · split
      · exact pure _
      · exact pure _
    · exact pure _

theorem handle (h : k.Evaluators r r') (clause : Handler) (e : Thrown) :
    k.Couples mode ((r mode).handle clause e) (r'.handle clause e) := by
  have hbody : k.Couples (k.inner mode) ((r mode).statements clause.body none)
      (r'.statements clause.body none) :=
    h.inner_statements clause.body none
  refine inChild ?_
  dsimp only
  split
  · exact bind (define (k.marks_inner mode) _ _ _) fun _ ↦ hbody
  · exact hbody

/-- What remains thrown after the finalizer was thrown by the block or the handler. -/
theorem guarded (h : k.Evaluators r r') (block : List Stmt) (handler : Option Handler)
    (finalizer : Option (List Stmt)) :
    k.Couples mode ((r mode).guarded block handler finalizer)
      (r'.guarded block handler finalizer) := by
  have hend (outcome : Except Thrown Completion) {last : Eval Completion}
      (hlast : k.Couples mode last last) : k.Couples mode
      (do
        let cleanup ← (r mode).cleanup finalizer outcome
        if cleanup.isAbrupt then return cleanup else last)
      (do
        let cleanup ← r'.cleanup finalizer outcome
        if cleanup.isAbrupt then return cleanup else last) := by
    refine bind ?_ fun cleanup ↦ ?_
    · cases finalizer with
      | none => exact pure _
      | some body => exact holding (by cases outcome <;> rfl) (h.scopedStatements body)
    · split
      · exact pure _
      · exact hlast
  unfold Evaluator.guarded Evaluator.guardedOutcome
  rw [bind_assoc, bind_assoc]
  refine catching_bind (h.scopedStatements block) (fun completion ↦ ?_) fun e he ↦ ?_
  · exact hend (.ok completion) (pure completion)
  · cases handler with
    | none => exact hend (.error e) (rethrow he)
    | some clause =>
      exact catching_bind (h.handle clause e)
        (fun completion ↦ hend (.ok completion) (pure completion))
        fun e' he' ↦ hend (.error e') (rethrow he')

/-- A statement keeps the coupling, if everything inside of it does, and if a throw statement may
throw its value. -/
theorem stmtStep (h : k.Evaluators r r') (hm : k.Marks mode) (s : Stmt)
    (hthrow : ∀ argument span, s = .throwing argument span → ∀ v {u w}, k.Rel mode u w →
      k.Throws mode (u.heap.thrown v u.calls span)) :
    k.Couples mode ((r mode).stmtStep s) (r'.stmtStep s) := by
  cases s with
  | declare kind declarators => exact h.declare hm _ _
  | function code =>
    exact bind (makeFunction _) fun _ ↦ bind (define hm _ _ _) fun _ ↦ pure _
  | returned argument =>
    cases argument with
    | none => exact pure _
    | some e => exact bind (h.expr mode e) fun _ ↦ pure _
  | expression => exact bind (h.expr mode _) fun _ ↦ pure _
  | block body => exact h.scopedStatements body
  | empty | breaking | continuing => exact pure _
  | conditional test consequent alternate =>
    refine bind (h.expr mode test) fun v ↦ ?_
    split
    · exact h.stmt mode hm consequent
    · cases alternate with
      | none => exact pure _
      | some s => exact h.stmt mode hm s
  | whileLoop => exact h.whileLoop _ _ _
  | doWhileLoop => exact h.doWhileLoop _ _ _
  | forLoop => exact h.forLoop _ _ _ _ _
  | switch => exact h.switch _ _ _
  | labeled => exact h.labeled hm _ _
  | throwing argument span =>
    exact bind (h.expr mode argument) fun v ↦ throwValue v span (hthrow argument span rfl v)
  | guarded => exact h.guarded _ _ _
  | unsupported => exact structural _ _

/-- Programs keep the coupling, if it does not depend on the call trace. -/
theorem program (h : k.Evaluators r r')
    (hcalls : ∀ {m s t} calls, k.Rel m s t →
      k.Rel m { s with calls := calls } { t with calls := calls }) (q : Program) :
    k.Couples mode ((r mode).program q) (r'.program q) := by
  refine inChild ?_
  rw [h.left, h.right]
  refine withCallFrame _ (fun {s t} hst ↦ ?_) (fun {s t u v} hst huv ↦ ?_) id
    (h.inner mode ▸ h.programStatements (k.marks_inner mode) q.body .undefined)
  · rw [(k.resembles hst).calls_eq]
    exact hcalls _ hst
  · rw [(k.resembles hst).calls_eq]
    exact hcalls _ huv

end Evaluators

end EcmaTree.Coupling
