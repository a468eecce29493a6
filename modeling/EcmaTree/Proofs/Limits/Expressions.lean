import EcmaTree.Proofs.Limits.Calls

/-!
# Agreement of expressions

Expressions agree if the nodes inside them do. Names and calls agree where the first evaluation is
strict.
-/

namespace EcmaTree.Evaluator.Agrees

open Eval.Agrees

variable {e : Fault} {r r' : Evaluator}

theorem lookup_apply {name : Text} {s : State} {o : Option Binding}
    (h : s.heap.lookup s.frame name = o) : Eval.lookup name s = .done o s :=
  congrArg (Outcome.done · s) h

theorem identifier_apply (r : Evaluator) {name : Text} {b : Binding} {s : State} (span : Span)
    (h : s.heap.lookup s.frame name = some b) : r.identifier name span s = .done b.value s := by
  rw [Evaluator.identifier, Eval.bind_apply, lookup_apply h]
  rfl

/-- A name with a binding means the same whatever one without a binding means. -/
theorem strictIdentifier (r r' : Evaluator) (name : Text) (span : Span) :
    Eval.Agrees e (r.strictIdentifier e name span) (r'.identifier name span) := by
  intro s
  cases h : s.heap.lookup s.frame name with
  | some b =>
    rw [Evaluator.strictIdentifier, Eval.bind_apply, lookup_apply h, identifier_apply r' span h]
    exact .inr (identifier_apply r span h).symm
  | none =>
    rw [Evaluator.strictIdentifier, Eval.bind_apply, lookup_apply h]
    exact .inl ⟨s, rfl⟩

theorem logical (h : r.Agrees e r') (op : LogicalOp) (left right : Expr) (span : Span) :
    Eval.Agrees e (r.logical op left right span) (r'.logical op left right span) := by
  cases op with
  | coalesce => exact same _
  | and =>
    refine (h.expr left).bind fun a ↦ ?_
    split
    · exact h.expr right
    · exact same _
  | or =>
    refine (h.expr left).bind fun a ↦ ?_
    split
    · exact same _
    · exact h.expr right

theorem typeOf (h : r.Agrees e r') (operand : Expr) :
    Eval.Agrees e (r.typeOf operand) (r'.typeOf operand) := by
  refine (same _).bind fun unbound ↦ ?_
  split
  · exact same _
  · exact (h.expr operand).bind fun _ ↦ same _

theorem unary (h : r.Agrees e r') (op : UnaryOp) (operand : Expr) (span : Span) :
    Eval.Agrees e (r.unary op operand span) (r'.unary op operand span) := by
  cases op with
  | not | minus | plus | void => exact (h.expr operand).bind fun _ ↦ same _
  | typeOf => exact h.typeOf operand
  | bitNot | delete => exact same _

/-! ### Targets -/

theorem target (h : r.Agrees e r') (x : Expr) : Eval.Agrees e (r.target x) (r'.target x) := by
  cases x with
  | member object property computed span =>
    unfold Evaluator.target
    split
    · exact ((h.target object).map _).bind fun _ ↦ (h.expr property).holding.bind fun _ ↦ same _
    · exact ((h.expr object).map _).bind fun _ ↦ (h.expr property).holding.bind fun _ ↦ same _
  | _ => exact same _

theorem store (h : r.Agrees e r') (t : Target) (value : Expr) (span : Span) :
    Eval.Agrees e (r.store t value span) (r'.store t value span) :=
  (h.expr value).holding.bind fun _ ↦ same _

theorem assignPlain (h : r.Agrees e r') (t : Target) (value : Expr) (span : Span) :
    Eval.Agrees e (r.assignPlain t value span) (r'.assignPlain t value span) := by
  unfold Evaluator.assignPlain
  split
  · refine (same _).bind fun found ↦ ?_
    split
    · exact same _
    · exact h.store t value span
  · exact h.store t value span

theorem assign (h : r.Agrees e r') (op : AssignOp) (left right : Expr) (span : Span) :
    Eval.Agrees e (r.assign op left right span) (r'.assign op left right span) := by
  unfold Evaluator.assign
  split
  · exact (h.target left).bind fun t ↦ h.assignPlain t right span
  · exact (h.target left).bind fun t ↦ (same _).bind fun _ ↦
      (h.expr right).holding.holding.bind fun _ ↦ same _
  · exact same _

theorem update (h : r.Agrees e r') (op : UpdateOp) (leading : Bool) (operand : Expr)
    (span : Span) :
    Eval.Agrees e (r.update op leading operand span) (r'.update op leading operand span) :=
  (h.target operand).bind fun _ ↦ same _

/-! ### Calls and literals -/

theorem operands (h : r.Agrees e r') (es : List (Option Expr)) :
    Eval.Agrees e (r.operands es) (r'.operands es) := by
  induction es with
  | nil => exact same _
  | cons o rest ih =>
    cases o with
    | none => exact same _
    | some x => exact (h.expr x).bind fun _ ↦ ih.holding.bind fun _ ↦ same _

theorem callee (h : r.Agrees e r') (x : Expr) : Eval.Agrees e (r.callee x) (r'.callee x) := by
  unfold Evaluator.callee
  split
  · exact (h.expr _).bind fun _ ↦ (h.expr _).holding.bind fun _ ↦ same _
  · exact (h.expr _).bind fun _ ↦ same _

theorem strictCallExpr (h : r.Agrees e r') (callee : Expr) (arguments : List (Option Expr))
    (span : Span) :
    Eval.Agrees e (r.strictCallExpr e callee arguments span)
      (r'.callExpr callee arguments span) := by
  refine (h.callee callee).bind fun (receiver, f) ↦
    (h.operands arguments).holding.bind fun args ↦ ?_
  cases f with
  | function f => exact h.strictFunction _ _ _ _
  | _ => exact same _

theorem arrayElements (h : r.Agrees e r') (elements : List (Option Expr)) (es : Array Value) :
    Eval.Agrees e (r.arrayElements elements es) (r'.arrayElements elements es) := by
  induction elements generalizing es with
  | nil => exact same _
  | cons o rest ih =>
    cases o with
    | none => exact ih _
    | some x => exact (h.expr x).holding.bind fun _ ↦ ih _

theorem objectProperties (h : r.Agrees e r') (properties : List Property) (ps : Properties) :
    Eval.Agrees e (r.objectProperties properties ps) (r'.objectProperties properties ps) := by
  induction properties generalizing ps with
  | nil => exact same _
  | cons p rest ih =>
    obtain ⟨key, value, computed⟩ := p
    cases key with
    | none => exact (h.expr _).holding.bind fun _ ↦ ih _
    | some k =>
      exact (h.expr k).holding.bind fun _ ↦ (same _).bind fun _ ↦
        (h.expr value).holding.bind fun _ ↦ (same _).bind fun _ ↦ ih _

theorem sequence (h : r.Agrees e r') (items : List (Option Expr)) (last : Value) :
    Eval.Agrees e (r.sequence items last) (r'.sequence items last) := by
  induction items generalizing last with
  | nil => exact same _
  | cons o rest ih =>
    cases o with
    | none => exact same _
    | some x => exact (h.expr x).bind ih

/-! ### Expressions -/

theorem strictExpr (h : r.Agrees e r') (x : Expr) :
    Eval.Agrees e (r.strictExpr e x) (r'.exprStep x) := by
  cases x with
  | identifier name span => exact strictIdentifier r r' name span
  | binary op left right span =>
    exact (h.expr left).bind fun _ ↦ (h.expr right).holding.bind fun _ ↦ same _
  | logical op left right span => exact h.logical op left right span
  | unary op operand span => exact h.unary op operand span
  | assign op left right span => exact h.assign op left right span
  | update op leading operand span => exact h.update op leading operand span
  | call callee arguments span => exact h.strictCallExpr callee arguments span
  | member object property computed span =>
    exact (h.expr object).bind fun _ ↦ (h.expr property).holding.bind fun _ ↦ same _
  | conditional test consequent alternate span =>
    refine (h.expr test).bind fun v ↦ ?_
    split
    · exact h.expr consequent
    · exact h.expr alternate
  | array elements span => exact (h.arrayElements elements #[]).bind fun _ ↦ same _
  | object properties span => exact (h.objectProperties properties .empty).bind fun _ ↦ same _
  | sequence items span => exact h.sequence items .undefined
  | number | text | bool | null | receiver | function | unsupported => exact same _

end EcmaTree.Evaluator.Agrees
