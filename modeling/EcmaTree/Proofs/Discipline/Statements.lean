import EcmaTree.Evaluation.Programs
import EcmaTree.Proofs.Discipline.Expressions

/-!
# Disciplines, statements and programs

Statements observe every discipline, if the nodes inside them do.
-/

namespace EcmaTree.Discipline

variable {c : Config} {d : Discipline c} {depth : Nat} {k : Conduct} {r : Evaluator}

namespace Allows

theorem of_declares {α : Type} {m : Eval α} {s t : Stmt} (hm : d.Allows depth s.conduct m)
    (h : s.declares = true → t.declares = true) : d.Allows depth t.conduct m := by
  unfold Stmt.conduct at *
  split at hm
  · next hs =>
    rwa [if_pos (h hs)]
  · exact hm.of_still

/-- No statement does more to its frame than to declare. -/
theorem declaring {α : Type} {m : Eval α} {s : Stmt} (hm : d.Allows depth s.conduct m) :
    d.Allows depth .declaring m := by
  unfold Stmt.conduct at hm
  split at hm
  · exact hm
  · exact hm.of_still

/-! ### Lists of statements -/

theorem statements {body : List Stmt} (h : ∀ s ∈ body, d.Allows depth s.conduct (r.stmt s))
    (last : Option Value) : d.Allows depth .declaring (r.statements body last) := by
  induction body generalizing last with
  | nil => exact pure _
  | cons s rest ih =>
    refine bind (holding _ (h s (.head _)).declaring) fun completion ↦ ?_
    split
    · exact bind (setSignal _) fun _ ↦ pure _
    · exact ih (fun t ht ↦ h t (.tail _ ht)) _

theorem scopedStatements {body : List Stmt}
    (h : ∀ s ∈ body, d.Allows depth s.conduct (r.stmt s)) :
    d.Allows depth k (r.scopedStatements body) :=
  inChild (statements h none).moving

end Allows

/-- A break or continue with which an evaluation may end is none, or a fault that may arise. -/
structure Contains (d : Discipline c) (m : Eval Completion) (span : Span) : Prop where
  broke {label : Option Text} (h : m.Yields (.broke label)) :
    d.Faults (.structural ⟨.strayBreak label, span⟩)
  continued {label : Option Text} (h : m.Yields (.continued label)) :
    d.Faults (.structural ⟨.strayContinue label, span⟩)

namespace Allows

/-- The body of a function in its frame. -/
theorem body {code : FunctionNode} (h : ∀ y ∈ (Part.function code).parts, d.Serves depth r y)
    (hstray : ∀ body, code.body = .statements body →
      d.Contains (r.statements body none) code.span) :
    d.Allows depth .declaring (r.body code) := by
  unfold Evaluator.body
  split
  · next result heq =>
    exact of_still (h (.expr result) (by simp [Part.parts, heq, Part.ofBody]))
  · next body heq =>
    have hbody : ∀ s ∈ body, d.Serves depth r (.stmt s) := fun s hs ↦
      h (.stmt s) (by simpa [Part.parts, heq, Part.ofBody] using hs)
    refine bind_of (statements hbody none) fun completion hc ↦ ?_
    cases completion with
    | returned | normal => exact pure _
    | broke => exact fault ((hstray body heq).broke hc)
    | continued => exact fault ((hstray body heq).continued hc)

theorem programStatements {body : List Stmt}
    (h : ∀ s ∈ body, d.Allows depth s.conduct (r.stmt s))
    (hstray : ∀ s ∈ body, d.Contains (r.stmt s) s.span) (last : Value) :
    d.Allows depth .declaring (r.programStatements body last) := by
  induction body generalizing last with
  | nil => exact pure _
  | cons s rest ih =>
    refine bind_of (holding _ (h s (.head _)).declaring) fun completion hc ↦ ?_
    have hs := hstray s (.head _)
    cases completion with
    | normal =>
      exact ih (fun t ht ↦ h t (.tail _ ht)) (fun t ht ↦ hstray t (.tail _ ht)) _
    | returned => exact pure _
    | broke => exact fault (hs.broke hc.of_holding)
    | continued => exact fault (hs.continued hc.of_holding)

theorem program {p : Program} (h : ∀ s ∈ p.body, d.Allows depth s.conduct (r.stmt s))
    (hstray : ∀ s ∈ p.body, d.Contains (r.stmt s) s.span) : d.Allows depth k (r.program p) :=
  inChild (withCallFrame _ (programStatements h hstray _).moving)

end Allows

namespace Within

open Allows

variable {x : Part} {s : Stmt} {labels : List Text}

theorem stmt (h : d.Within depth r x) (hs : .stmt s ∈ x.parts) :
    d.Allows depth s.conduct (r.stmt s) :=
  h.serves (.stmt s) (.single hs)

/-! ### Loops -/

theorem loopBody (h : d.Within depth r (.stmt s)) (hs : d.Allows depth s.conduct (r.stmt s)) :
    d.Allows depth k (r.loopBody s) := by
  unfold Evaluator.loopBody
  split
  · exact scopedStatements fun s hs ↦ h.stmt (by simpa [Part.parts, Part.ofStmt] using hs)
  · refine inChild (bind hs.declaring.moving fun completion ↦ ?_)
    dsimp only
    split
    · exact bind (setSignal _) fun _ ↦ pure _
    · exact bind (pure _) fun _ ↦ pure _

theorem loopRound (hbody : d.Allows depth k (r.loopBody s)) (last : Option Value)
    {next : Option Value → Eval (Round (Option Value) Completion)}
    (hnext : ∀ value, d.Allows depth k (next value)) :
    d.Allows depth k (r.loopRound s labels last next) := by
  refine bind (holding _ hbody) fun completion ↦ ?_
  dsimp only
  split
  · exact hnext _
  · exact pure _
  · exact pure _

theorem whileLoop {test : Expr} {span : Span}
    (h : d.Within depth r (.stmt (.whileLoop test s span))) :
    d.Allows depth k (r.whileLoop test s labels) := by
  have hs : .stmt s ∈ (Part.stmt (.whileLoop test s span)).parts := .tail _ (.head _)
  have hbody : d.Allows depth k (r.loopBody s) := (h.part hs).loopBody (h.stmt hs)
  refine iterate (d.exhausts h.accepts rfl) (fun last ↦ ?_) _ _
  refine bind (holding _ (h.expr (.head _))) fun goesOn ↦ ?_
  split
  · exact loopRound hbody last fun _ ↦ pure _
  · exact pure _

theorem doWhileLoop {test : Expr} {span : Span}
    (h : d.Within depth r (.stmt (.doWhileLoop s test span))) :
    d.Allows depth k (r.doWhileLoop s test labels) := by
  have hs : .stmt s ∈ (Part.stmt (.doWhileLoop s test span)).parts := .tail _ (.head _)
  have hbody : d.Allows depth k (r.loopBody s) := (h.part hs).loopBody (h.stmt hs)
  refine iterate (d.exhausts h.accepts rfl) (fun last ↦ loopRound hbody last fun value ↦ ?_) _ _
  refine bind (holding _ (h.expr (.head _))) fun goesOn ↦ ?_
  split
  · exact pure _
  · exact pure _

/-- The loop runs in a frame of its own, so whatever its rounds leave current is left again. -/
theorem forLoop {init : Option Stmt} {test update : Option Expr} {span : Span}
    (h : d.Within depth r (.stmt (.forLoop init test update s span))) :
    d.Allows depth k (r.forLoop init test update s labels) := by
  have hs : .stmt s ∈ (Part.stmt (.forLoop init test update s span)).parts := by
    simp [Part.parts, Part.ofStmt]
  have hbody : d.Allows depth .moving (r.loopBody s) := (h.part hs).loopBody (h.stmt hs)
  have htest (last : Option Value) : d.Allows depth .moving (r.forTest test last) := by
    cases test with
    | none => exact pure _
    | some e => exact map _ (holding _ (h.expr (by simp [Part.parts, Part.ofStmt])))
  have hstep (own : Bool) (value : Option Value) :
      d.Allows depth .moving (r.forStep own update value) := by
    have hupdate : d.Allows depth .moving (r.forStep false update value) := by
      cases update with
      | none => exact pure _
      | some e =>
        exact bind (holding _ (h.expr (by simp [Part.parts, Part.ofStmt]))) fun _ ↦ pure _
    cases own with
    | false => exact hupdate
    | true => exact bind enterSibling fun _ ↦ hupdate
  have hrounds (own : Bool) : d.Allows depth .moving (r.forRounds own test update s labels) := by
    refine iterate (d.exhausts h.accepts rfl) (fun last ↦ bind (htest last) fun goesOn ↦ ?_) _ _
    split
    · exact loopRound hbody last fun value ↦ hstep own value
    · exact pure _
  have hloop (own : Bool) : d.Allows depth .moving (do
      if own then Evaluator.enterSibling
      r.forRounds own test update s labels) := by
    cases own with
    | false => exact hrounds _
    | true => exact bind enterSibling fun _ ↦ hrounds _
  refine inChild ?_
  cases init with
  | none => exact hloop _
  | some i =>
    exact bind (h.stmt (.head _)).declaring.moving fun _ ↦ hloop _

/-! ### Other statements -/

theorem declare {declarators : List Declarator}
    (h : ∀ v ∈ declarators, ∀ e, v.init = some e → d.Allows depth .declaring (r.expr e))
    (kind : BindingKind) : d.Allows depth .declaring (r.declare kind declarators) := by
  induction declarators with
  | nil => exact pure _
  | cons v rest ih =>
    have hinitial : d.Allows depth .declaring (r.initial v) := by
      unfold Evaluator.initial
      split
      · next e he =>
        exact bind (h v (.head _) e he) fun _ ↦ bind (nameLiteral _ _ _) fun _ ↦ pure _
      · exact pure _
    exact bind hinitial fun _ ↦ bind (define _ _ _) fun _ ↦ ih fun w hw ↦ h w (.tail _ hw)

theorem selectCase {cases : List SwitchCase}
    (h : ∀ case ∈ cases, ∀ e, case.test = some e → d.Allows depth k (r.expr e)) (v : Value)
    (fallback : List SwitchCase) : d.Allows depth k (r.selectCase v cases fallback) := by
  induction cases generalizing fallback with
  | nil => exact pure _
  | cons case rest ih =>
    have hrest := ih fun other ho ↦ h other (.tail _ ho)
    unfold Evaluator.selectCase
    split
    · exact hrest _
    · next test htest =>
      refine bind (holding _ (h case (.head _) test htest)) fun w ↦ ?_
      split
      · exact pure _
      · exact hrest _

theorem runCases {cases : List SwitchCase}
    (h : ∀ case ∈ cases, ∀ s ∈ case.body, d.Allows depth s.conduct (r.stmt s))
    (last : Option Value) : d.Allows depth .declaring (r.runCases labels cases last) := by
  induction cases generalizing last with
  | nil => exact pure _
  | cons case rest ih =>
    refine bind (holding _ (statements (h case (.head _)) _)) fun completion ↦ ?_
    cases completion with
    | normal => exact ih (fun other ho ↦ h other (.tail _ ho)) _
    | broke =>
      dsimp only
      split
      · exact pure _
      · exact pure _
    | returned | continued => exact pure _

theorem switch {discriminant : Expr} {cases : List SwitchCase} {span : Span}
    (h : d.Within depth r (.stmt (.switch discriminant cases span))) :
    d.Allows depth k (r.switch discriminant cases labels) := by
  refine bind (h.expr (.head _)) fun v ↦
    inChild (bind_of (selectCase ?_ _ _) fun chosen hchosen ↦ ?_)
  · refine fun case hcase e he ↦ h.expr ?_
    simpa [Part.parts, Part.ofStmt] using .inr ⟨case, hcase, he⟩
  · refine (runCases (fun case hcase s hs ↦ h.stmt ?_) _).moving
    have hcase : case ∈ cases :=
      (r.mem_of_selectCase hchosen hcase).resolve_right List.not_mem_nil
    simpa [Part.parts, Part.ofStmt] using ⟨case, hcase, hs⟩

theorem labeled : ∀ {s : Stmt} {labels : List Text}, d.Within depth r (.stmt s) →
    d.Allows depth s.conduct (r.stmt s) → d.Allows depth s.conduct (r.labeled s labels)
  | .labeled _ body _, _, h, _ => labeled (s := body) (h.part (.head _)) (h.stmt (.head _))
  | .whileLoop .., _, h, _ => h.whileLoop
  | .doWhileLoop .., _, h, _ => h.doWhileLoop
  | .forLoop .., _, h, _ => h.forLoop
  | .switch .., _, h, _ => h.switch
  | .declare .., _, _, hs | .function .., _, _, hs | .returned .., _, _, hs
  | .expression .., _, _, hs | .block .., _, _, hs | .empty _, _, _, hs
  | .conditional .., _, _, hs | .breaking .., _, _, hs | .continuing .., _, _, hs
  | .throwing .., _, _, hs | .guarded .., _, _, hs | .unsupported .., _, _, hs => by
    refine bind hs fun completion ↦ ?_
    split
    · split
      · exact pure _
      · exact pure _
    · exact pure _

theorem guarded {block : List Stmt} {handler : Option Handler} {finalizer : Option (List Stmt)}
    {span : Span} (h : d.Within depth r (.stmt (.guarded block handler finalizer span))) :
    d.Allows depth k (r.guarded block handler finalizer) := by
  have hhandle (clause : Handler) (hc : handler = some clause) (t : Thrown) :
      d.Allows depth k (r.handle clause t) := by
    have hbody : d.Allows depth .moving (r.statements clause.body none) :=
      (statements (fun s hs ↦ h.stmt (by simp [Part.parts, Part.ofStmt, hc, hs])) _).moving
    refine inChild ?_
    dsimp only
    split
    · exact bind (define _ _ _).moving fun _ ↦ hbody
    · exact hbody
  have houtcome : d.Allows depth k (r.guardedOutcome block handler) := by
    refine bind (catching (scopedStatements fun s hs ↦ h.stmt ?_)) fun outcome ↦ ?_
    · simp [Part.parts, Part.ofStmt, hs]
    · cases outcome with
      | ok => exact pure _
      | error t =>
        cases handler with
        | none => exact pure _
        | some clause => exact catching (hhandle clause rfl t)
  refine bind houtcome fun outcome ↦ bind ?_ fun cleanup ↦ ?_
  · cases finalizer with
    | none => exact pure _
    | some body =>
      refine holding _ (scopedStatements fun s hs ↦ h.stmt ?_)
      simp [Part.parts, Part.ofStmt, hs]
  · split
    · exact pure _
    · cases outcome with
      | ok => exact pure _
      | error => exact rethrow _

/-- A statement observes the discipline, if everything inside of it does. -/
theorem stmtStep (h : d.Within depth r (.stmt s)) : d.Allows depth s.conduct (r.stmtStep s) := by
  cases s with
  | declare kind declarators =>
    refine declare (fun v hv e he ↦ h.expr ?_) _
    simpa [Part.parts, Part.ofStmt] using ⟨v, hv, he⟩
  | function code =>
    exact bind (makeFunction (d.accepts_part h.accepts (.head _))) fun _ ↦
      bind (define _ _ _) fun _ ↦ pure _
  | returned argument =>
    cases argument with
    | none => exact pure _
    | some e => exact bind (h.expr (.head _)) fun _ ↦ pure _
  | expression => exact bind (h.expr (.head _)) fun _ ↦ pure _
  | block body => exact scopedStatements fun s hs ↦ h.stmt (by simpa [Part.parts, Part.ofStmt])
  | empty | breaking | continuing => exact pure _
  | conditional test consequent alternate =>
    refine bind (h.expr (.head _)) fun v ↦ ?_
    split
    · refine (h.stmt (.tail _ (.head _))).of_declares fun hs ↦ ?_
      cases alternate with
      | none => exact hs
      | some s => simp [Stmt.declares, hs]
    · cases alternate with
      | none => exact pure _
      | some s =>
        refine (h.stmt (.tail _ (.tail _ (.head _)))).of_declares fun hs ↦ ?_
        simp [Stmt.declares, hs]
  | whileLoop => exact h.whileLoop
  | doWhileLoop => exact h.doWhileLoop
  | forLoop => exact h.forLoop
  | switch => exact h.switch
  | labeled _ body => exact labeled (s := body) (h.part (.head _)) (h.stmt (.head _))
  | throwing => exact bind (h.expr (.head _)) fun _ ↦ bind (read _) fun _ ↦ throwValue _ _ _
  | guarded => exact h.guarded
  | unsupported => exact unsupportedNode _ _

end Within

end EcmaTree.Discipline
