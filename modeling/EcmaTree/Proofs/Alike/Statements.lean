import EcmaTree.Evaluation.Statements
import EcmaTree.Proofs.Alike.Expressions
import EcmaTree.Proofs.Alike.Loops

/-!
# Alike statements

Alike statements have alike evaluations on one level, if they have on the level below. No handler
and no finalizer sees a structural error, so nothing an unsupported statement stands in can go on
after it.
-/

namespace EcmaTree.Evaluator.Alike

open Carries Eval.Alike

variable {p : Pairing} {r r' : Evaluator} {kept : List HeapRef} {e e' : Expr} {s s' : Stmt}

/-! ### Declarations -/

theorem initial (hr : r.Alike p r') {d d' : Declarator} (hd : d.Alike p.free d') :
    Eval.Alike p kept [] (r.initial d) (r'.initial d') := by
  obtain ⟨name, he⟩ := hd
  cases he with
  | none => exact finish (List.nil_subset _)
  | some he =>
    refine bind (hr.expr he) fun v hv ↦ ?_
    have hsame := he.isFunction_eq (hr.resolved hv)
    exact bind (nameLiteral name hsame (by grind)) fun _ _ ↦ finish (by grind)

theorem declare (hr : r.Alike p r') (kind : BindingKind) {ds ds' : List Declarator}
    (hds : List.Forall₂ (Declarator.Alike p.free) ds ds') :
    Eval.Alike p kept [] (r.declare kind ds) (r'.declare kind ds') := by
  induction hds generalizing kept with
  | nil => exact finish (List.nil_subset _)
  | cons hd _ ih =>
    refine bind (hr.initial hd) fun v _ ↦ ?_
    obtain ⟨name, _⟩ := hd
    exact bind (define kind (by grind)) fun _ _ ↦ ih

/-! ### Switches -/

theorem runCases (hr : r.Alike p r') (labels : List Text) {cs cs' : List SwitchCase}
    (hcs : List.Forall₂ (SwitchCase.Alike p.free) cs cs') (last : Option Value)
    (hlast : refs last ⊆ kept) :
    Eval.Alike p kept [] (r.runCases labels cs last) (r'.runCases labels cs' last) := by
  induction hcs generalizing last kept with
  | nil => exact finish hlast
  | cons hc _ ih =>
    obtain ⟨_, hbody⟩ := hc
    refine bind (holding (hr.statements hbody none (List.nil_subset _)) (by grind)) fun c _ ↦ ?_
    cases c with
    | normal value =>
      have := refs_orElse value last
      exact ih _ (by grind)
    | broke label =>
      dsimp only
      split <;> exact finish (by grind)
    | returned | continued => exact finish (by grind)

/-- The cases that are selected are alike, but not the same, so selecting them and running them is
one step here. -/
theorem switchCases (hr : r.Alike p r') (v : Value) (labels : List Text)
    {cs cs' fallback fallback' : List SwitchCase}
    (hcs : List.Forall₂ (SwitchCase.Alike p.free) cs cs')
    (hfallback : List.Forall₂ (SwitchCase.Alike p.free) fallback fallback') (hv : refs v ⊆ kept) :
    Eval.Alike p kept [] (do r.runCases labels (← r.selectCase v cs fallback) none)
      (do r'.runCases labels (← r'.selectCase v cs' fallback') none) := by
  induction hcs generalizing fallback fallback' kept with
  | nil => exact afterPure (hr.runCases labels hfallback none (List.nil_subset _))
  | cons hc hrest ih =>
    have hall := List.Forall₂.cons hc hrest
    obtain ⟨htest, hbody⟩ := hc
    cases htest with
    | none => exact ih hall hv
    | some he =>
      simp only [selectCase, bind_assoc]
      refine bind (holding (hr.expr he) (by grind)) fun w _ ↦ ?_
      split
      · exact afterPure (hr.runCases labels hall none (List.nil_subset _))
      · exact ih hfallback (by grind)

theorem switch (hr : r.Alike p r') (he : e.Alike p.free e') {cs cs' : List SwitchCase}
    (hcs : List.Forall₂ (SwitchCase.Alike p.free) cs cs') (labels : List Text) :
    Eval.Alike p kept [] (r.switch e cs labels) (r'.switch e' cs' labels) :=
  bind (hr.expr he) fun v _ ↦ inChild (hr.switchCases v labels hcs .nil (by grind))

/-! ### Labels -/

/-- What carries labels and is neither a loop nor a switch. -/
theorem labeledStmt (hr : r.Alike p r') (hs : s.Alike p.free s') (labels : List Text) :
    Eval.Alike p kept []
      (do
        match ← r.stmt s with
        | .broke (some label) =>
          if labels.contains label then return .normal none else return .broke (some label)
        | c => return c)
      (do
        match ← r'.stmt s' with
        | .broke (some label) =>
          if labels.contains label then return .normal none else return .broke (some label)
        | c => return c) := by
  refine bind (hr.stmt hs) fun c _ ↦ ?_
  rcases c with v | v | (_ | label) | label
  · exact finish (by grind)
  · exact finish (by grind)
  · exact finish (by grind)
  · dsimp only
    split <;> exact finish (by grind)
  · exact finish (by grind)

theorem labeled (hr : r.Alike p r') : ∀ {s s'}, s.Alike p.free s' → ∀ labels {kept},
    Eval.Alike p kept [] (r.labeled s labels) (r'.labeled s' labels)
  | .labeled .., _, .labeled label _ hb, labels, _ => labeled hr hb (labels ++ [label])
  | .whileLoop .., _, .whileLoop _ he hs, labels, _ => hr.whileLoop he hs labels
  | .doWhileLoop .., _, .doWhileLoop _ hs he, labels, _ => hr.doWhileLoop hs he labels
  | .forLoop .., _, .forLoop _ hi ht hu hs, labels, _ => hr.forLoop hi ht hu hs labels
  | .switch .., _, .switch _ he hcs, labels, _ => hr.switch he hcs labels
  | .unsupported type span, _, .unsupported hs, labels, _ => by
    rcases hs with hp | rfl
    · exact of_stops hp ((hr.stmt_stops type span).bind _) _
    · exact hr.labeledStmt (.unsupported (.inr rfl)) labels
  | .declare .., _, .declare _ _ h, labels, _ => hr.labeledStmt (.declare _ _ h) labels
  | .function .., _, .function _ h, labels, _ => hr.labeledStmt (.function _ h) labels
  | .returned .., _, .returned _ h, labels, _ => hr.labeledStmt (.returned _ h) labels
  | .expression .., _, .expression _ h, labels, _ => hr.labeledStmt (.expression _ h) labels
  | .block .., _, .block _ h, labels, _ => hr.labeledStmt (.block _ h) labels
  | .empty .., _, .empty _, labels, _ => hr.labeledStmt (.empty _) labels
  | .conditional .., _, .conditional _ h₁ h₂ h₃, labels, _ =>
    hr.labeledStmt (.conditional _ h₁ h₂ h₃) labels
  | .breaking .., _, .breaking .., labels, _ => hr.labeledStmt (.breaking ..) labels
  | .continuing .., _, .continuing .., labels, _ => hr.labeledStmt (.continuing ..) labels
  | .throwing .., _, .throwing _ h, labels, _ => hr.labeledStmt (.throwing _ h) labels
  | .guarded .., _, .guarded _ h₁ h₂ h₃, labels, _ => hr.labeledStmt (.guarded _ h₁ h₂ h₃) labels

/-! ### Handlers -/

theorem handle (hr : r.Alike p r') {handler handler' : Handler} (hh : handler.Alike p.free handler')
    (t : Thrown) (ht : refs t ⊆ kept) :
    Eval.Alike p kept [] (r.handle handler t) (r'.handle handler' t) := by
  obtain ⟨param, hbody⟩ := hh
  refine inChild ?_
  cases param with
  | some name =>
    exact bind (define .let ht) fun _ _ ↦ hr.statements hbody none (List.nil_subset _)
  | none => exact hr.statements hbody none (List.nil_subset _)

theorem guardedOutcome (hr : r.Alike p r') {block block' : List Stmt}
    {handler handler' : Option Handler} (hblock : List.Forall₂ (Stmt.Alike p.free) block block')
    (hhandler : Option.Rel (Handler.Alike p.free) handler handler') :
    Eval.Alike p kept [] (r.guardedOutcome block handler) (r'.guardedOutcome block' handler') := by
  refine bind (catching (hr.scopedStatements hblock)) fun outcome _ ↦ ?_
  cases outcome with
  | ok c => exact finish (by grind)
  | error t =>
    cases hhandler with
    | none => exact finish (by grind)
    | some hh => exact catching (hr.handle hh t (by grind))

@[simp, grind =] theorem refs_pendingHolder (outcome : Except Thrown Completion) :
    refs (pendingHolder outcome) = refs outcome := by
  cases outcome with
  | ok c => exact refs_toList c.value?
  | error t => exact (refs_cons t.value []).trans (List.append_nil _)

theorem cleanup (hr : r.Alike p r') {finalizer finalizer' : Option (List Stmt)}
    (hf : Option.Rel (List.Forall₂ (Stmt.Alike p.free)) finalizer finalizer')
    (outcome : Except Thrown Completion) (ho : refs outcome ⊆ kept) :
    Eval.Alike p kept (refs outcome) (r.cleanup finalizer outcome)
      (r'.cleanup finalizer' outcome) := by
  cases hf with
  | none => exact pure (List.nil_subset _) ho
  | some hbody => exact mono_right (holding (hr.scopedStatements hbody) (by grind)) (by grind)

theorem guarded (hr : r.Alike p r') {block block' : List Stmt}
    {handler handler' : Option Handler} {finalizer finalizer' : Option (List Stmt)}
    (hblock : List.Forall₂ (Stmt.Alike p.free) block block')
    (hhandler : Option.Rel (Handler.Alike p.free) handler handler')
    (hfinalizer : Option.Rel (List.Forall₂ (Stmt.Alike p.free)) finalizer finalizer') :
    Eval.Alike p kept [] (r.guarded block handler finalizer)
      (r'.guarded block' handler' finalizer') := by
  refine bind (hr.guardedOutcome hblock hhandler) fun outcome _ ↦ ?_
  refine bind (hr.cleanup hfinalizer outcome (by grind)) fun c _ ↦ ?_
  split
  · exact finish (by grind)
  · cases outcome with
    | ok c => exact finish (by grind)
    | error t => exact rethrow (by grind)

/-! ### Statements -/

/-- One level evaluates alike statements alike, if the level below does. -/
theorem stmtStep (hr : r.Alike p r') (hs : s.Alike p.free s') :
    Eval.Alike p kept [] (r.stmtStep s) (r'.stmtStep s') := by
  cases hs with
  | unsupported hs =>
    rcases hs with hp | rfl
    · exact of_stops hp (Eval.stops_structural _ _) _
    · exact structural _ _
  | declare kind span hds => exact hr.declare _ hds
  | function span hf =>
    refine bind (makeFunction hf) fun f _ ↦ ?_
    obtain ⟨kind, name, params, fspan, hbody⟩ := hf
    exact bind (define .function (by grind)) fun _ _ ↦ finish (List.nil_subset _)
  | returned span he =>
    cases he with
    | none => exact finish (List.nil_subset _)
    | some he => exact bind (hr.expr he) fun _ _ ↦ finish (by grind)
  | expression span he => exact bind (hr.expr he) fun _ _ ↦ finish (by grind)
  | block span hss => exact hr.scopedStatements hss
  | empty => exact finish (List.nil_subset _)
  | conditional span ht hc ha =>
    refine bind (hr.expr ht) fun v _ ↦ ?_
    split
    · exact hr.stmt hc
    · cases ha with
      | none => exact finish (List.nil_subset _)
      | some ha => exact hr.stmt ha
  | whileLoop span he hs => exact hr.whileLoop he hs []
  | doWhileLoop span hs he => exact hr.doWhileLoop hs he []
  | forLoop span hi ht hu hs => exact hr.forLoop hi ht hu hs []
  | switch span he hcs => exact hr.switch he hcs []
  | breaking | continuing => exact finish (List.nil_subset _)
  | labeled label span hb => exact hr.labeled hb [label]
  | throwing span he =>
    exact bind (hr.expr he) fun v _ ↦ bind calls fun _ _ ↦ throwValue _ _ (by grind)
  | guarded span hblock hhandler hfinalizer => exact hr.guarded hblock hhandler hfinalizer

end EcmaTree.Evaluator.Alike
