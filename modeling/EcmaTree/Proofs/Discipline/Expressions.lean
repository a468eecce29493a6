import EcmaTree.Proofs.Discipline.Methods

/-!
# Disciplines, calls and expressions

Calls and expressions observe every discipline, if the nodes inside them and the code they call do.
-/

namespace EcmaTree.Discipline

variable {c : Config} {d : Discipline c} {depth : Nat} {k : Conduct} {r : Evaluator}

/-- Evaluating a node observes the discipline. A function is evaluated only where it is called. -/
def Serves (d : Discipline c) (depth : Nat) (r : Evaluator) : Part → Prop
  | .expr e => d.Allows depth .still (r.expr e)
  | .stmt s => d.Allows depth s.conduct (r.stmt s)
  | .function _ => True

/-- An evaluator that observes the discipline for everything inside a node, and for calls. -/
structure Within (d : Discipline c) (depth : Nat) (r : Evaluator) (x : Part) : Prop where
  config : r.config = c
  accepts : d.Accepts x
  serves (y : Part) (hy : y.Inside x) : d.Serves depth r y
  call (f : FunctionRef) (args : List Value) (receiver : Value) (site : Span) :
    d.Allows depth .still (r.callFunction f args receiver site)

namespace Within

variable {x y : Part}

theorem part (h : d.Within depth r x) (hy : y ∈ x.parts) : d.Within depth r y :=
  ⟨h.config, d.accepts_part h.accepts hy, fun z hz ↦ h.serves z (hz.tail hy), h.call⟩

theorem expr (h : d.Within depth r x) {e : Expr} (he : .expr e ∈ x.parts) :
    d.Allows depth k (r.expr e) :=
  Allows.of_still (h.serves (.expr e) (.single he))

end Within

namespace Allows

/-! ### Calls -/

theorem hostCall (hr : r.config = c) (hcall : d.Calls depth r) (f : HostFunction)
    (args : List Value) (receiver : Value) : d.Allows depth k (r.hostCall f args receiver) :=
  bind (passMoment hr _ _) fun _ ↦ bind (runHost hr hcall f _ _) fun _ ↦
    bind (passMoment hr _ _) fun _ ↦ pure _

theorem closure {code : FunctionNode} (hbody : d.Allows depth .declaring (r.body code))
    (self : FunctionRef) (scope : FrameId) (args : List Value) (receiver : Value) :
    d.Allows depth k (r.closure self code scope args receiver) :=
  fun _ hd hs ↦ hbody.moving.inFresh (.call self code scope args receiver) hd hs

/-- What is called is a method, a function of the host, or code that fits. -/
theorem apply (hr : r.config = c) (hcall : d.Calls depth r)
    (hbody : ∀ code, d.Accepts (.function code) → d.Allows depth .declaring (r.body code))
    (f : FunctionRef) (args : List Value) (receiver : Value) :
    d.Allows depth k (r.apply f args receiver) := by
  rcases f with id | m | m
  · refine readHeap_bind _ fun s hs ↦ ?_
    split
    · exact hostCall hr hcall _ _ _
    · next code scope hf =>
      obtain ⟨⟨name, behaviour⟩, hf, rfl⟩ := Option.map_eq_some_iff.mp hf
      have hcode := hbody code (d.accepts_code hs hf)
      exact bind (closure hcode _ _ _ _) fun _ ↦ bind (passMoment hr _ _) fun _ ↦ pure _
    · exact codeless
    · exact codeless
  · exact runArrayMethod hcall m _ _
  · exact runTextMethod m _ _

/-- A call observes the discipline if what runs one call deeper does. -/
theorem callFunction (hr : r.config = c)
    (happly : ∀ f args receiver, depth < c.maxDepth →
      d.Allows (depth + 1) .still (r.apply f args receiver))
    (f : FunctionRef) (args : List Value) (receiver : Value) (site : Span) :
    d.Allows depth .still (r.callFunction f args receiver site) := by
  refine bind (readHeap _) fun name ↦ holding _ ?_
  rw [hr]
  exact inCall _ _ (happly f args receiver)

theorem callValue (hcall : ∀ f args receiver site,
      d.Allows depth .still (r.callFunction f args receiver site))
    (callee : Value) (args : List Value) (receiver : Value) :
    d.Allows depth .still (r.callValue callee args receiver) := by
  cases callee with
  | function f => exact hcall f _ _ _
  | _ => exact bind (textOf _) fun _ ↦ raise _ _

/-! ### Members and targets -/

theorem getMember (v : Value) (key : Text) (span : Span) :
    d.Allows depth k (Eval.getMember v key span) := by
  unfold Eval.getMember
  split
  · exact bind (textOf _) fun _ ↦ raise _ _
  · exact readHeap _

theorem setArrayMember (id : ArrayId) (key : Text) (v : Value) (span : Span) :
    d.Allows depth k (Eval.setArrayMember id key v span) := by
  unfold Eval.setArrayMember
  split
  · refine bind (numberOf _) fun n ↦ ?_
    split
    · exact modifyHeap fun _ ↦ .modifyArray ..
    · exact raise _ _
  · split
    · split
      · exact modifyHeap fun _ ↦ .modifyArray ..
      · exact raise _ _
    · exact pure _

theorem setMember (holder : Value) (key : Text) (v : Value) (span : Span) :
    d.Allows depth k (Eval.setMember holder key v span) := by
  cases holder with
  | undefined | null => exact bind (textOf _) fun _ ↦ raise _ _
  | object id => exact modifyHeap fun _ ↦ .modifyObject ..
  | array id => exact setArrayMember id key v span
  | text | function | bool | number => exact pure _

theorem readRoot (root : Root) (span : Span) : d.Allows depth k (Target.readRoot root span) := by
  cases root with
  | value v => exact pure _
  | named name =>
    refine bind (lookup _) fun b ↦ ?_
    cases b with
    | none => exact raise _ _
    | some b => exact pure _

theorem follow (span : Span) (path : List Text) (v : Value) :
    d.Allows depth k (Target.follow span path v) := by
  induction path generalizing v with
  | nil => exact pure _
  | cons key rest ih => exact bind (getMember _ _ _) ih

theorem container (root : Root) (path : List Text) (span : Span) :
    d.Allows depth k (Target.container root path span) :=
  bind (readRoot _ _) fun _ ↦ follow _ _ _

theorem readTarget (t : Target) (span : Span) : d.Allows depth k (t.read span) := by
  cases t with
  | named name => exact readRoot (.named name) span
  | member root path key => exact bind (container _ _ _) fun _ ↦ getMember _ _ _

theorem assignVariable (name : Text) (v : Value) :
    d.Allows depth k (Target.assignVariable name v) :=
  fun _ _ _ ↦ ⟨d.of_still (d.way_quiet (.heap (.assign ..))), trivial⟩

theorem writeVariable (name : Text) (v : Value) (span : Span) :
    d.Allows depth k (Target.writeVariable name v span) := by
  refine bind (assignVariable _ _) fun result ↦ ?_
  cases result with
  | ok => exact pure _
  | constViolation | notFound => exact raise _ _

theorem writeTarget (t : Target) (v : Value) (span : Span) : d.Allows depth k (t.write v span) := by
  cases t with
  | named name => exact writeVariable _ _ _
  | member root path key => exact bind (container _ _ _) fun _ ↦ setMember _ _ _ _

theorem nameLiteral (literal : Expr) (v : Value) (name : Text) :
    d.Allows depth k (Evaluator.nameLiteral literal v name) := by
  unfold Evaluator.nameLiteral
  split
  · split
    · exact modifyHeap fun _ ↦ .nameFunction ..
    · exact pure _
  · exact pure _

end Allows

/-! ### Expressions -/

namespace Within

open Allows

variable {x : Part}

theorem identifier (r : Evaluator) (name : Text) (span : Span) :
    d.Allows depth k (r.identifier name span) := by
  refine bind (lookup _) fun b ↦ ?_
  split
  · exact pure _
  · split
    · exact raise _ _
    · split
      · exact bind (fun s _ _ ↦ ⟨d.of_still (d.way_quiet (.note _)), trivial⟩) fun _ ↦ pure _
      · exact bind (pure _) fun _ ↦ pure _

theorem binary {op : BinaryOp} {left right : Expr} {span : Span}
    (h : d.Within depth r (.expr (.binary op left right span))) :
    d.Allows depth k (r.binary op left right span) := by
  refine bind (h.expr (.head _)) fun a ↦ bind (holding _ (h.expr (.tail _ (.head _)))) fun b ↦
    bind (readHeap _) fun v ↦ ?_
  split
  · exact pure _
  · exact unsupportedOperator _ _ _

theorem logical {op : LogicalOp} {left right : Expr} {span : Span}
    (h : d.Within depth r (.expr (.logical op left right span))) :
    d.Allows depth k (r.logical op left right span) := by
  cases op with
  | coalesce => exact unsupportedOperator _ _ _
  | and =>
    refine bind (h.expr (.head _)) fun a ↦ ?_
    split
    · exact h.expr (.tail _ (.head _))
    · exact pure _
  | or =>
    refine bind (h.expr (.head _)) fun a ↦ ?_
    split
    · exact pure _
    · exact h.expr (.tail _ (.head _))

theorem unary {op : UnaryOp} {operand : Expr} {span : Span}
    (h : d.Within depth r (.expr (.unary op operand span))) :
    d.Allows depth k (r.unary op operand span) := by
  cases op with
  | not | void => exact bind (h.expr (.head _)) fun _ ↦ pure _
  | minus | plus => exact bind (h.expr (.head _)) fun _ ↦ bind (numberOf _) fun _ ↦ pure _
  | typeOf =>
    have hunbound : d.Allows depth k (Evaluator.isUnbound operand) := by
      cases operand with
      | identifier => exact map _ (lookup _)
      | _ => exact pure _
    refine bind hunbound fun b ↦ ?_
    split
    · exact pure _
    · exact bind (h.expr (.head _)) fun _ ↦ pure _
  | bitNot | delete => exact unsupportedOperator _ _ _

/-- A target is resolved from what is inside of it. -/
theorem target : ∀ {e : Expr}, d.Within depth r (.expr e) → d.Allows depth k (r.target e)
  | .member object property _ _, h => by
    have hrest (stem : Stem) : d.Allows depth k do
        let key ← Eval.holding stem.holder (r.expr property)
        return stem.child (← Eval.textOf key) :=
      bind (holding _ (h.expr (.tail _ (.head _)))) fun _ ↦ bind (textOf _) fun _ ↦ pure _
    rw [Evaluator.target]
    dsimp only
    split
    · exact bind (map _ (target (e := object) (h.part (.head _)))) hrest
    · exact bind (map _ (h.expr (.head _))) hrest
  | .identifier .., _ => pure _
  | .number .., _ | .text .., _ | .bool .., _ | .null .., _ | .receiver .., _ | .binary .., _
  | .logical .., _ | .unary .., _ | .assign .., _ | .update .., _ | .call .., _
  | .conditional .., _ | .array .., _ | .object .., _ | .sequence .., _ | .function .., _
  | .unsupported .., _ => unsupportedNode _ _

theorem store {value : Expr} (hvalue : d.Allows depth k (r.expr value)) (t : Target)
    (span : Span) : d.Allows depth k (r.store t value span) := by
  refine bind (holding _ hvalue) fun v ↦ ?_
  cases t with
  | named name =>
    exact bind (nameLiteral _ _ _) fun _ ↦ bind (writeTarget _ _ _) fun _ ↦ pure _
  | member => exact bind (writeTarget _ _ _) fun _ ↦ pure _

theorem assignPlain {value : Expr} (hvalue : d.Allows depth k (r.expr value)) (t : Target)
    (span : Span) : d.Allows depth k (r.assignPlain t value span) := by
  unfold Evaluator.assignPlain
  split
  · refine bind (lookup _) fun b ↦ ?_
    split
    · exact raise _ _
    · exact store hvalue _ _
  · exact store hvalue _ _

theorem assignCompound {value : Expr} (hvalue : d.Allows depth k (r.expr value))
    (op : ArithmeticOp) (t : Target) (span : Span) :
    d.Allows depth k (r.assignCompound op t value span) :=
  bind (readTarget _ _) fun _ ↦ bind (holding _ (holding _ hvalue)) fun _ ↦
    bind (readHeap _) fun _ ↦ bind (writeTarget _ _ _) fun _ ↦ pure _

theorem assign {op : AssignOp} {left right : Expr} {span : Span}
    (h : d.Within depth r (.expr (.assign op left right span))) :
    d.Allows depth k (r.assign op left right span) := by
  have htarget : d.Allows depth k (r.target left) := (h.part (.head _)).target
  unfold Evaluator.assign
  split
  · exact bind htarget fun _ ↦ assignPlain (h.expr (.tail _ (.head _))) _ _
  · exact bind htarget fun _ ↦ assignCompound (h.expr (.tail _ (.head _))) _ _ _
  · exact unsupportedOperator _ _ _

theorem update {op : UpdateOp} {leading : Bool} {operand : Expr} {span : Span}
    (h : d.Within depth r (.expr (.update op leading operand span))) :
    d.Allows depth k (r.update op leading operand span) :=
  bind (target (e := operand) (h.part (.head _))) fun _ ↦ bind (readTarget _ _) fun _ ↦
    bind (numberOf _) fun _ ↦ bind (writeTarget _ _ _) fun _ ↦ pure _

theorem member {object property : Expr} {computed : Bool} {span : Span}
    (h : d.Within depth r (.expr (.member object property computed span))) :
    d.Allows depth k (r.member object property span) :=
  bind (h.expr (.head _)) fun _ ↦ bind (holding _ (h.expr (.tail _ (.head _)))) fun _ ↦
    bind (textOf _) fun _ ↦ getMember _ _ _

theorem operands : ∀ {es : List (Option Expr)}, (none ∈ es → d.Faults .absent) →
    (∀ e, some e ∈ es → d.Allows depth k (r.expr e)) → d.Allows depth k (r.operands es)
  | [], _, _ => pure _
  | none :: _, habsent, _ => fault (habsent (.head _))
  | some e :: _, habsent, h =>
    bind (h e (.head _)) fun _ ↦
      bind (holding _ (operands (habsent ∘ .tail _) fun e he ↦ h e (.tail _ he))) fun _ ↦ pure _

theorem callExpr {callee : Expr} {args : List (Option Expr)} {span : Span}
    (h : d.Within depth r (.expr (.call callee args span))) :
    d.Allows depth k (r.callExpr callee args span) := by
  have hcallee : d.Allows depth k (r.callee callee) := by
    unfold Evaluator.callee
    split
    · next object property computed place =>
      have hm : d.Within depth r (.expr (.member object property computed place)) :=
        h.part (.head _)
      exact bind (hm.expr (.head _)) fun _ ↦
        bind (holding _ (hm.expr (.tail _ (.head _)))) fun _ ↦ bind (textOf _) fun _ ↦
          bind (getMember _ _ _) fun _ ↦ pure _
    · exact bind (h.expr (.head _)) fun _ ↦ pure _
  have hargs : d.Allows depth k (r.operands args) := by
    refine operands (fun habsent ↦ d.absent h.accepts (not_not_intro habsent)) fun e he ↦ h.expr ?_
    simpa [Part.parts, Part.ofExpr] using .inr he
  refine bind hcallee fun v ↦ bind (holding _ hargs) fun vs ↦ ?_
  obtain ⟨receiver, f⟩ := v
  cases f with
  | function f => exact (h.call _ _ _ _).of_still
  | _ => exact raise _ _

theorem arrayElements {items : List (Option Expr)}
    (h : ∀ e, some e ∈ items → d.Allows depth k (r.expr e)) (es : Array Value) :
    d.Allows depth k (r.arrayElements items es) := by
  induction items generalizing es with
  | nil => exact pure _
  | cons item rest ih =>
    have hrest := ih fun e he ↦ h e (.tail _ he)
    cases item with
    | none => exact hrest _
    | some e => exact bind (holding _ (h e (.head _))) fun _ ↦ hrest _

theorem objectProperties {items : List Property}
    (h : ∀ p ∈ items, ∀ e, p.key = some e ∨ e = p.value → d.Allows depth k (r.expr e))
    (ps : Properties) : d.Allows depth k (r.objectProperties items ps) := by
  induction items generalizing ps with
  | nil => exact pure _
  | cons p rest ih =>
    have hrest := ih fun q hq ↦ h q (.tail _ hq)
    have hvalue := h p (.head _) p.value (.inr rfl)
    unfold Evaluator.objectProperties
    split
    · exact bind (holding _ hvalue) fun _ ↦ hrest _
    · next key hkey =>
      exact bind (holding _ (h p (.head _) key (.inl hkey))) fun _ ↦ bind (textOf _) fun _ ↦
        bind (holding _ hvalue) fun _ ↦ bind (nameLiteral _ _ _) fun _ ↦ hrest _

theorem sequence {items : List (Option Expr)} (habsent : none ∈ items → d.Faults .absent)
    (h : ∀ e, some e ∈ items → d.Allows depth k (r.expr e)) (last : Value) :
    d.Allows depth k (r.sequence items last) := by
  induction items generalizing last with
  | nil => exact pure _
  | cons item rest ih =>
    cases item with
    | none => exact fault (habsent (.head _))
    | some e =>
      exact bind (h e (.head _)) fun v ↦ ih (habsent ∘ .tail _) (fun e he ↦ h e (.tail _ he)) v

/-- An expression observes the discipline, if everything inside of it does. -/
theorem exprStep {e : Expr} (h : d.Within depth r (.expr e)) :
    d.Allows depth k (r.exprStep e) := by
  cases e with
  | identifier => exact identifier r _ _
  | number | text | bool | null => exact pure _
  | receiver => exact read _
  | binary => exact h.binary
  | logical => exact h.logical
  | unary => exact h.unary
  | assign => exact h.assign
  | update => exact h.update
  | call => exact h.callExpr
  | member => exact h.member
  | conditional =>
    refine bind (h.expr (.head _)) fun v ↦ ?_
    split
    · exact h.expr (.tail _ (.head _))
    · exact h.expr (.tail _ (.tail _ (.head _)))
  | array items =>
    refine bind (arrayElements (fun e he ↦ h.expr ?_) _) fun _ ↦ newArray _
    simpa [Part.parts, Part.ofExpr] using he
  | object properties =>
    refine bind (objectProperties (fun p hp e he ↦ h.expr ?_) _) fun _ ↦ newObject _
    simpa [Part.parts, Part.ofExpr] using ⟨p, hp, he⟩
  | sequence items =>
    refine sequence (fun habsent ↦ d.absent h.accepts (not_not_intro habsent))
      (fun e he ↦ h.expr ?_) _
    simpa [Part.parts, Part.ofExpr] using he
  | function => exact makeFunction (d.accepts_part h.accepts (.head _))
  | unsupported => exact unsupportedNode _ _

end Within

end EcmaTree.Discipline
