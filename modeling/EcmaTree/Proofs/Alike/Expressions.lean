import EcmaTree.Evaluation.Expressions
import EcmaTree.Proofs.Alike.Calls

/-!
# Alike expressions

Alike expressions have alike evaluations on one level, if they have on the level below. What the
evaluation looks up in a node without evaluating it is looked up after the node had a value, and a
node with a value is not unsupported.
-/

namespace EcmaTree.Evaluator.Alike

open Carries Eval.Alike

variable {p : Pairing} {r r' : Evaluator} {kept : List HeapRef} {v : Value}
  {e e' e₁ e₁' e₂ e₂' e₃ e₃' : Expr}

/-- What comes before an unsupported node is not alike in general, but nothing comes after it. -/
theorem unsupported {α : Type} [Carries α] {kept' : List HeapRef} {type : Text} {span : Span}
    {m m' : Eval α} (he : p.free ∨ e = .unsupported type span) (hm : m.Stops)
    (heq : e = .unsupported type span → Eval.Alike p kept kept' m m') :
    Eval.Alike p kept kept' m m' :=
  he.elim (fun hp ↦ of_stops hp hm m') heq

/-! ### Names and operators -/

theorem note (name : Text) (span : Span) :
    Eval.Alike p kept kept
      (Eval.modify fun s ↦ { s with notices := ⟨name, span⟩ :: s.notices })
      (Eval.modify fun s ↦ { s with notices := ⟨name, span⟩ :: s.notices }) :=
  modify (fun _ _ h ↦ { h with notices := congrArg (⟨name, span⟩ :: ·) h.notices }) fun _ ↦ rfl

theorem identifier (hr : r.Alike p r') (name : Text) (span : Span) :
    Eval.Alike p kept [] (r.identifier name span) (r'.identifier name span) := by
  refine bind (lookup name) fun b _ ↦ ?_
  cases b with
  | some b => exact finish (by grind)
  | none =>
    simp only [hr.left, hr.right, ← p.unbound_eq, ← p.noteUnbound_eq]
    split
    · exact raise _ _
    · split
      · exact bind (note name span) fun _ _ ↦ finish (List.nil_subset _)
      · exact bind skip fun _ _ ↦ finish (List.nil_subset _)

theorem binary (hr : r.Alike p r') (op : BinaryOp) (h₁ : e₁.Alike p.free e₁')
    (h₂ : e₂.Alike p.free e₂') (span : Span) :
    Eval.Alike p kept [] (r.binary op e₁ e₂ span) (r'.binary op e₁' e₂' span) := by
  refine bind (hr.expr h₁) fun a _ ↦ bind (holding (hr.expr h₂) (by grind)) fun b _ ↦ ?_
  refine bind (result? op (by grind) (by grind)) fun v _ ↦ ?_
  cases v with
  | some v => exact finish (by grind)
  | none => exact structural _ _

theorem logical (hr : r.Alike p r') (op : LogicalOp) (h₁ : e₁.Alike p.free e₁')
    (h₂ : e₂.Alike p.free e₂') (span : Span) :
    Eval.Alike p kept [] (r.logical op e₁ e₂ span) (r'.logical op e₁' e₂' span) := by
  cases op with
  | coalesce => exact structural _ _
  | and =>
    refine bind (hr.expr h₁) fun a _ ↦ ?_
    split
    · exact hr.expr h₂
    · exact finish (by grind)
  | or =>
    refine bind (hr.expr h₁) fun a _ ↦ ?_
    split
    · exact finish (by grind)
    · exact hr.expr h₂

theorem typeOf (hr : r.Alike p r') (he : e.Alike p.free e') :
    Eval.Alike p kept [] (r.typeOf e) (r'.typeOf e') := by
  have hvalue : Eval.Alike p kept [] (do return Value.text (← r.expr e).typeOf)
      (do return Value.text (← r'.expr e').typeOf) :=
    bind (hr.expr he) fun _ _ ↦ finish (List.nil_subset _)
  cases he with
  | unsupported he =>
    refine unsupported he ((hr.expr_stops _ _).bind _) ?_
    rintro rfl
    exact afterPure hvalue
  | identifier name span =>
    refine bind (map (lookup name) fun _ ↦ List.nil_subset _) fun unbound _ ↦ ?_
    cases unbound with
    | true => exact finish (List.nil_subset _)
    | false => exact hvalue.mono_left (by grind)
  | _ => exact afterPure hvalue

theorem unary (hr : r.Alike p r') (op : UnaryOp) (he : e.Alike p.free e') (span : Span) :
    Eval.Alike p kept [] (r.unary op e span) (r'.unary op e' span) := by
  cases op with
  | not | void => exact bind (hr.expr he) fun _ _ ↦ finish (List.nil_subset _)
  | minus | plus =>
    exact bind (hr.expr he) fun _ _ ↦ bind (numberOf (by grind)) fun _ _ ↦
      finish (List.nil_subset _)
  | typeOf => exact hr.typeOf he
  | bitNot | delete => exact structural _ _

/-! ### Targets and assignments -/

theorem nameLiteral (name : Text) (he : e.isFunction = e'.isFunction) (hv : refs v ⊆ kept) :
    Eval.Alike p kept kept (nameLiteral e v name) (nameLiteral e' v name) := by
  unfold Evaluator.nameLiteral
  split
  · next id =>
    rw [← he]
    split
    · exact modifyHeap fun h h' roots ha hk ↦
        ha.nameFunction id name (hk _ (hv (List.mem_singleton.mpr rfl)))
    · exact skip
  · exact skip

/-- Alike expressions look the same from outside, unless the second is free to differ. -/
theorem outside_eq (he : e.Alike p.free e') (hp : ¬ p.free) :
    e.isTarget = e'.isTarget ∧ e.nodeType = e'.nodeType ∧ e.span = e'.span := by
  cases he with
  | unsupported he =>
    obtain rfl := he.resolve_left hp
    exact ⟨rfl, rfl, rfl⟩
  | function _ hf =>
    cases hf
    exact ⟨rfl, rfl, rfl⟩
  | _ => exact ⟨rfl, rfl, rfl⟩

theorem target_of_not (r : Evaluator) (he : e.isTarget = false) :
    r.target e = Eval.structural (.unsupportedNode e.nodeType) e.span := by
  cases e <;> first
    | rfl
    | cases he

theorem target_other (r r' : Evaluator) (he : e.Alike p.free e') (ht : e.isTarget = false) :
    Eval.Alike p kept [] (r.target e) (r'.target e') := by
  rw [target_of_not r ht]
  by_cases hp : p.free
  · exact of_stops hp (Eval.stops_structural _ _) _
  · obtain ⟨htarget, htype, hspan⟩ := outside_eq he hp
    rw [target_of_not r' (htarget ▸ ht), htype, hspan]
    exact structural _ _

theorem target_member (hr : r.Alike p r') (ho : e₁.Alike p.free e₁') (hq : e₂.Alike p.free e₂')
    {computed : Bool} {span : Span}
    (htarget : Eval.Alike p kept [] (r.target e₁) (r'.target e₁')) :
    Eval.Alike p kept [] (r.target (.member e₁ e₂ computed span))
      (r'.target (.member e₁' e₂' computed span)) := by
  have hkey (stem : Stem) : Eval.Alike p (refs stem ++ []) []
      (do
        let key ← Eval.holding stem.holder (r.expr e₂)
        return stem.child (← Eval.textOf key))
      (do
        let key ← Eval.holding stem.holder (r'.expr e₂')
        return stem.child (← Eval.textOf key)) :=
    bind (holding (hr.expr hq) (by grind)) fun _ _ ↦ bind (textOf (by grind)) fun _ _ ↦
      finish (by grind)
  have hstop {type : Text} {span' : Span} (he : e₁ = .unsupported type span') :
      (r.target (.member e₁ e₂ computed span)).Stops := by
    rw [he]
    exact ((hr.expr_stops type span').map _).bind _
  have hsame (ht : e₁.isTarget = e₁'.isTarget) :
      Eval.Alike p kept [] (r.target (.member e₁ e₂ computed span))
        (r'.target (.member e₁' e₂' computed span)) := by
    unfold Evaluator.target
    dsimp only
    rw [← ht]
    split
    · exact bind (map htarget fun _ ↦ by simp) fun stem _ ↦ hkey stem
    · exact bind (map (hr.expr ho) fun _ ↦ by simp) fun stem _ ↦ hkey stem
  cases ho with
  | unsupported he =>
    refine unsupported he (hstop rfl) ?_
    rintro rfl
    exact hsame rfl
  | _ => exact hsame rfl

theorem target (hr : r.Alike p r') : ∀ {e e'}, e.Alike p.free e' →
    ∀ {kept}, Eval.Alike p kept [] (r.target e) (r'.target e')
  | .identifier .., _, .identifier .., _ => finish (List.nil_subset _)
  | .member .., _, .member _ _ ho hq, _ => hr.target_member ho hq (target hr ho)
  | .unsupported .., _, he, _ | .number .., _, he, _ | .text .., _, he, _ | .bool .., _, he, _
  | .null .., _, he, _ | .receiver .., _, he, _ | .binary .., _, he, _ | .logical .., _, he, _
  | .unary .., _, he, _ | .assign .., _, he, _ | .update .., _, he, _ | .call .., _, he, _
  | .conditional .., _, he, _ | .array .., _, he, _ | .object .., _, he, _
  | .sequence .., _, he, _ | .function .., _, he, _ => target_other r r' he rfl

theorem store (hr : r.Alike p r') {t : Target} (he : e.Alike p.free e') (span : Span)
    (ht : refs t ⊆ kept) :
    Eval.Alike p kept [] (r.store t e span) (r'.store t e' span) := by
  refine bind (holding (hr.expr he) (by grind)) fun v hv ↦ ?_
  have hwrite : Eval.Alike p (refs v ++ (refs t.holder ++ [])) [] (do t.write v span; return v)
      (do t.write v span; return v) :=
    bind (writeTarget span (by grind) (by grind)) fun _ _ ↦ finish (by grind)
  cases t with
  | named name =>
    have hsame := he.isFunction_eq (hr.resolved hv.of_holding)
    exact bind (nameLiteral name hsame (by grind)) fun _ _ ↦ hwrite
  | member root path key => exact hwrite

theorem assignPlain (hr : r.Alike p r') {t : Target} (he : e.Alike p.free e') (span : Span)
    (ht : refs t ⊆ kept) :
    Eval.Alike p kept [] (r.assignPlain t e span) (r'.assignPlain t e' span) := by
  unfold Evaluator.assignPlain
  split
  · refine bind (lookup _) fun b _ ↦ ?_
    split
    · exact raise _ _
    · exact hr.store he span (by grind)
  · exact hr.store he span (by grind)

theorem assignCompound (hr : r.Alike p r') (op : ArithmeticOp) {t : Target} (he : e.Alike p.free e')
    (span : Span) (ht : refs t ⊆ kept) :
    Eval.Alike p kept [] (r.assignCompound op t e span) (r'.assignCompound op t e' span) := by
  refine bind (readTarget span ht) fun old _ ↦ ?_
  refine bind (holding (holding (hr.expr he) (by grind)) (by grind)) fun operand _ ↦ ?_
  exact bind (arithmetic op (by grind) (by grind)) fun v _ ↦
    bind (writeTarget span (by grind) (by grind)) fun _ _ ↦ finish (by grind)

theorem assign (hr : r.Alike p r') (op : AssignOp) (h₁ : e₁.Alike p.free e₁')
    (h₂ : e₂.Alike p.free e₂') (span : Span) :
    Eval.Alike p kept [] (r.assign op e₁ e₂ span) (r'.assign op e₁' e₂' span) := by
  unfold Evaluator.assign
  split
  · exact bind (hr.target h₁) fun t _ ↦ hr.assignPlain h₂ span (by grind)
  · exact bind (hr.target h₁) fun t _ ↦ hr.assignCompound _ h₂ span (by grind)
  · exact structural _ _

theorem update (hr : r.Alike p r') (op : UpdateOp) (leading : Bool) (he : e.Alike p.free e')
    (span : Span) :
    Eval.Alike p kept [] (r.update op leading e span) (r'.update op leading e' span) := by
  refine bind (hr.target he) fun t _ ↦ bind (readTarget span (by grind)) fun _ _ ↦ ?_
  refine bind (numberOf (by grind)) fun old _ ↦ ?_
  exact bind (writeTarget span (by grind) (by grind)) fun _ _ ↦ finish (by grind)

/-! ### Members and calls -/

theorem member (hr : r.Alike p r') (h₁ : e₁.Alike p.free e₁') (h₂ : e₂.Alike p.free e₂')
    (span : Span) :
    Eval.Alike p kept [] (r.member e₁ e₂ span) (r'.member e₁' e₂' span) := by
  refine bind (hr.expr h₁) fun holder _ ↦
    bind (holding (hr.expr h₂) (by grind)) fun key _ ↦ ?_
  exact bind (textOf (by grind)) fun _ _ ↦
    mono_right (getMember _ _ (by grind)) (List.nil_subset _)

theorem operands (hr : r.Alike p r') {es es' : List (Option Expr)}
    (hes : List.Forall₂ (Option.Rel (Expr.Alike p.free)) es es') :
    Eval.Alike p kept [] (r.operands es) (r'.operands es') := by
  induction hes generalizing kept with
  | nil => exact finish (List.nil_subset _)
  | cons he _ ih =>
    cases he with
    | none => exact fault _
    | some he =>
      exact bind (hr.expr he) fun v _ ↦ bind (holding ih (by grind)) fun vs _ ↦ finish (by grind)

/-- The receivers and the callees are the same, and a callee with a value is not unsupported. -/
theorem callee (hr : r.Alike p r') (he : e.Alike p.free e') :
    Eval.Alike p kept [] (r.callee e) (r'.callee e') := by
  have hplain : Eval.Alike p kept [] (do return (Value.undefined, ← r.expr e))
      (do return (Value.undefined, ← r'.expr e')) :=
    bind (hr.expr he) fun _ _ ↦ finish (by grind)
  cases he with
  | unsupported he =>
    refine unsupported he ((hr.expr_stops _ _).bind _) ?_
    rintro rfl
    exact hplain
  | member computed span ho hq =>
    refine bind (hr.expr ho) fun holder _ ↦
      bind (holding (hr.expr hq) (by grind)) fun key hkey ↦ ?_
    rw [hq.span_eq (hr.resolved hkey.of_holding)]
    exact bind (textOf (by grind)) fun _ _ ↦ bind (getMember _ _ (by grind)) fun f _ ↦
      finish (by grind)
  | _ => exact hplain

theorem resolved_callee (hr : r.Alike p r') {v : Value × Value} (hv : (r.callee e).Yields v) :
    e.Resolved := by
  have hplain (h : (do return (Value.undefined, ← r.expr e) : Eval (Value × Value)).Yields v) :
      e.Resolved :=
    let ⟨_, h, _⟩ := h.of_bind
    hr.resolved h
  cases e with
  | member o q computed span =>
    obtain ⟨_, ho, hv⟩ := hv.of_bind
    obtain ⟨_, hq, _⟩ := hv.of_bind
    exact ⟨hr.resolved ho, hr.resolved hq.of_holding⟩
  | _ => exact hplain hv

theorem callExprBy (hr : r.Alike p r') {run run' : Running} (hrun : Running.Alike p run run')
    {args args' : List (Option Expr)} (he : e.Alike p.free e')
    (hargs : List.Forall₂ (Option.Rel (Expr.Alike p.free)) args args') (span : Span) :
    Eval.Alike p kept [] (r.callExprBy run e args span) (r'.callExprBy run' e' args' span) := by
  refine bind (hr.callee he) fun ⟨receiver, f⟩ hf ↦ ?_
  refine bind (holding (hr.operands hargs) (by grind)) fun vs _ ↦ ?_
  cases f with
  | function f => exact hr.callFunctionBy hrun f span (by grind) (by grind) (by grind)
  | _ =>
    rw [he.describe_eq (hr.resolved_callee hf)]
    exact raise _ _

/-! ### Literals -/

theorem arrayElements (hr : r.Alike p r') {items items' : List (Option Expr)}
    (hitems : List.Forall₂ (Option.Rel (Expr.Alike p.free)) items items') (es : Array Value)
    (hes : refs es ⊆ kept) :
    Eval.Alike p kept [] (r.arrayElements items es) (r'.arrayElements items' es) := by
  induction hitems generalizing es kept with
  | nil => exact finish hes
  | cons he _ ih =>
    cases he with
    | none => exact ih _ (by simpa using hes)
    | some he =>
      refine bind (holding (hr.expr he) (by grind)) fun v _ ↦ ih _ ?_
      simp only [refs_array, Array.toList_push, refs_append]
      grind

theorem objectProperties (hr : r.Alike p r') {items items' : List Property}
    (hitems : List.Forall₂ (Property.Alike p.free) items items') (ps : Properties)
    (hps : refs ps ⊆ kept) :
    Eval.Alike p kept [] (r.objectProperties items ps) (r'.objectProperties items' ps) := by
  induction hitems generalizing ps kept with
  | nil => exact finish hps
  | cons hitem _ ih =>
    obtain ⟨computed, hk, hv⟩ := hitem
    cases hk with
    | none => exact bind (holding (hr.expr hv) (by grind)) fun _ _ ↦ ih _ (by grind)
    | some hk =>
      refine bind (holding (hr.expr hk) (by grind)) fun _ _ ↦ ?_
      refine bind (textOf (by grind)) fun key _ ↦ ?_
      refine bind (holding (hr.expr hv) (by grind)) fun v hyields ↦ ?_
      have hsame := hv.isFunction_eq (hr.resolved hyields.of_holding)
      refine bind (nameLiteral key hsame (by grind)) fun _ _ ↦ ?_
      exact ih _ (List.Subset.trans (refs_insert ps key v) (by grind))

theorem sequence (hr : r.Alike p r') {es es' : List (Option Expr)}
    (hes : List.Forall₂ (Option.Rel (Expr.Alike p.free)) es es') (last : Value)
    (hlast : refs last ⊆ kept) :
    Eval.Alike p kept [] (r.sequence es last) (r'.sequence es' last) := by
  induction hes generalizing last kept with
  | nil => exact finish hlast
  | cons he _ ih =>
    cases he with
    | none => exact fault _
    | some he => exact bind (hr.expr he) fun v _ ↦ ih v (by grind)

theorem makeFunction {code code' : FunctionNode} (hcode : code.Alike p.free code') :
    Eval.Alike p kept kept (makeFunction code) (makeFunction code') := by
  intro s t h
  have hf : (⟨code'.name, .closure code' t.frame⟩ : Function) =
      ⟨code.name, .closure code' s.frame⟩ := by
    rw [h.frame]
    cases hcode
    rfl
  obtain ⟨hid, hh⟩ := h.heap.newFunction (.closure code.name s.frame hcode) fun x hx ↦ by
    obtain rfl := List.mem_singleton.mp hx
    exact State.reachable_frame
  rw [Evaluator.makeFunction, Evaluator.makeFunction, hf]
  simp only [← hid]
  exact .done _ (h.withHeap hh) rfl

/-- One level evaluates alike expressions alike, if the level below does and what is called runs
alike. -/
theorem exprStepBy (hr : r.Alike p r') {run run' : Running} (hrun : Running.Alike p run run')
    (he : e.Alike p.free e') :
    Eval.Alike p kept [] (r.exprStepBy run e) (r'.exprStepBy run' e') := by
  cases he with
  | unsupported he =>
    refine unsupported he (Eval.stops_structural _ _) ?_
    rintro rfl
    exact structural _ _
  | identifier name span => exact hr.identifier name span
  | number | text | bool | null => exact finish (List.nil_subset _)
  | receiver span =>
    refine mono_right (read fun s t h ↦ ?_) (List.nil_subset _)
    have hcurrent : s.heap.Reachable (s.roots kept) (.frame s.frame) := State.reachable_frame
    rw [← h.frame]
    exact ⟨h.heap.receiver_eq hcurrent, Heap.reachable_of_reaches (Heap.reaches_receiver hcurrent)⟩
  | binary op span h₁ h₂ => exact hr.binary op h₁ h₂ span
  | logical op span h₁ h₂ => exact hr.logical op h₁ h₂ span
  | unary op span h => exact hr.unary op h span
  | assign op span h₁ h₂ => exact hr.assign op h₁ h₂ span
  | update op leading span h => exact hr.update op leading h span
  | call span h hargs => exact hr.callExprBy hrun h hargs span
  | member computed span h₁ h₂ => exact hr.member h₁ h₂ span
  | conditional span h₁ h₂ h₃ =>
    refine bind (hr.expr h₁) fun v _ ↦ ?_
    split
    · exact hr.expr h₂
    · exact hr.expr h₃
  | array span hes =>
    exact bind (hr.arrayElements hes #[] (List.nil_subset _)) fun es _ ↦
      mono_right (newArray (by grind)) (List.nil_subset _)
  | object span hps =>
    exact bind (hr.objectProperties hps .empty (List.nil_subset _)) fun ps _ ↦
      mono_right (newObject (by grind)) (List.nil_subset _)
  | sequence span hes => exact hr.sequence hes .undefined (List.nil_subset _)
  | function span hf => exact mono_right (makeFunction hf) (List.nil_subset _)

theorem exprStep (hr : r.Alike p r') (hin : ∀ a, r.Alike (p.entered a) r')
    (he : e.Alike p.free e') :
    Eval.Alike p kept [] (r.exprStep e) (r'.exprStep e') := by
  rw [← exprStepBy_running, ← exprStepBy_running]
  exact hr.exprStepBy (running hin) he

end EcmaTree.Evaluator.Alike
