import EcmaTree.Proofs.Coupling.Methods

/-!
# Couplings of calls and expressions

Calls and expressions keep every coupling, if the nodes inside them and the code they call do.
-/

namespace EcmaTree.Coupling

variable {c : Config} {Mode : Type} {k : Coupling c Mode} {mode : Mode}

/-- Evaluators that are coupled in every mode, of which the first one may know the mode. What is
below a frame is evaluated as in the frame itself. -/
structure Evaluators (k : Coupling c Mode) (r : Mode → Evaluator) (r' : Evaluator) : Prop where
  left (mode : Mode) : (r mode).config = c
  right : r'.config = c
  rounds (mode : Mode) : (r mode).rounds = r'.rounds
  inner (mode : Mode) : r (k.inner mode) = r mode
  expr (mode : Mode) (e : Expr) : k.Couples mode ((r mode).expr e) (r'.expr e)
  stmt (mode : Mode) (hm : k.Marks mode) (s : Stmt) :
    k.Couples mode ((r mode).stmt s) (r'.stmt s)
  call (mode : Mode) : k.Calls mode (r mode) r'

/-- Ways to run functions that are coupled in every call. -/
def Runs (k : Coupling c Mode) (run : Mode → Running) (run' : Running) : Prop :=
  ∀ mode entry f args this,
    k.Couples (k.calling entry mode) (run mode entry f args this) (run' entry f args this)

/-- Two closures with the same code, in states of which each has one of them. -/
structure Closures (s t : State) (f : FunctionRef) (code : FunctionNode) (scope scope' : FrameId) :
    Prop where
  left : ∃ id name, f = .cell id ∧ s.heap.function? id = some ⟨name, .closure code scope⟩
  right : ∃ id name, f = .cell id ∧ t.heap.function? id = some ⟨name, .closure code scope'⟩

/-- Ways to run code that are coupled wherever the states have the same function. -/
def Enters (k : Coupling c Mode) (mode : Mode) (enter enter' : Entering) : Prop :=
  ∀ s t f code scope scope' args this, k.Rel mode s t → Closures s t f code scope scope' →
    k.Ends mode s t (enter f code scope args this s) (enter' f code scope' args this t)

namespace Couples

/-! ### Calls -/

/-- What is called is the same method or function of the host, or code in frames of its own. -/
theorem applyBy {r r' : Evaluator} (hn : k.Natives) (hr : r.config = c) (hr' : r'.config = c)
    (hcall : k.Calls mode r r') {enter enter' : Entering} (henter : k.Enters mode enter enter')
    (f : FunctionRef) (args : List Value) (this : Value) :
    k.Couples mode (r.applyBy enter f args this) (r'.applyBy enter' f args this) := by
  rcases f with id | m | m
  · intro s t h
    have hf := (k.resembles h).heap.function_rel id
    simp only [Evaluator.applyBy, Eval.bind_apply, Eval.readHeap]
    cases hs : s.heap.function? id with
    | none =>
      cases ht : t.heap.function? id with
      | none => exact fault _ _ _ h
      | some g' => simp [hs, ht] at hf
    | some g =>
      cases ht : t.heap.function? id with
      | none => simp [hs, ht] at hf
      | some g' =>
        rw [hs, ht] at hf
        obtain ⟨hg⟩ := hf
        cases hg with
        | closure name code =>
          have hcode := henter s t (.cell id) code _ _ args this h
            ⟨⟨id, name, rfl, hs⟩, ⟨id, name, rfl, ht⟩⟩
          exact hcode.bind fun v ↦ bind (passMoment hr hr' _ _) fun _ ↦ pure _
        | captured => exact fault _ _ _ h
        | host name g => exact hostCall hn hr hr' hcall g args this s t h
  · exact runArrayMethod hn hcall m _ _
  · exact runTextMethod hn m _ _

/-- Closures run in frames of their own, in a mode that these lead to. -/
theorem closure {inside : Mode} {s t : State} {r r' : Evaluator} {code : FunctionNode}
    {self : FunctionRef} {scope scope' : FrameId} {args : List Value} {this : Value}
    (he : Encloses k.Rel k.Throws mode inside) (h : k.Rel mode s t)
    (hopen : k.Rel inside (s.opened (Evaluator.callFrame self code scope args this))
      (t.opened (Evaluator.callFrame self code scope' args this)))
    (hbody : k.Couples inside (r.body code) (r'.body code)) :
    k.Ends mode s t (r.closure self code scope args this s)
      (r'.closure self code scope' args this t) :=
  inFresh he h hopen hbody

theorem callFunctionBy {r r' : Evaluator} (hr : r.config = c) (hr' : r'.config = c)
    {run run' : Running} {f : FunctionRef} {args : List Value} {this : Value}
    (hrun : ∀ entry, k.Couples (k.calling entry mode) (run entry f args this)
      (run' entry f args this)) (site : Span) :
    k.Couples mode (r.callFunctionBy run f args this site)
      (r'.callFunctionBy run' f args this site) := by
  unfold Evaluator.callFunctionBy
  rw [hr, hr']
  exact bind (readHeap fun h ↦ h.functionName_eq f) fun name ↦ holding rfl (inCall _ _ (hrun _))

theorem callValueBy {r r' : Evaluator} (hr : r.config = c) (hr' : r'.config = c)
    {run run' : Running} (hrun : ∀ entry f args this,
      k.Couples (k.calling entry mode) (run entry f args this) (run' entry f args this))
    (callee : Value) (args : List Value) (this : Value) :
    k.Couples mode (r.callValueBy run callee args this) (r'.callValueBy run' callee args this) := by
  cases callee with
  | function f => exact callFunctionBy hr hr' (fun _ ↦ hrun _ _ _ _) _
  | _ => exact bind (textOf _) fun _ ↦ raise _ _

/-! ### Members and targets -/

theorem getMember (v : Value) (key : Text) (span : Span) :
    k.Couples mode (Eval.getMember v key span) (Eval.getMember v key span) := by
  unfold Eval.getMember
  split
  · exact bind (textOf _) fun _ ↦ raise _ _
  · exact readHeap fun h ↦ h.member_eq v key

theorem setArrayMember (id : ArrayId) (key : Text) (v : Value) (span : Span) :
    k.Couples mode (Eval.setArrayMember id key v span) (Eval.setArrayMember id key v span) := by
  unfold Eval.setArrayMember
  split
  · refine bind (numberOf _) fun n ↦ ?_
    split
    · exact modifyArray _ _
    · exact raise _ _
  · split
    · split
      · exact modifyArray _ _
      · exact raise _ _
    · exact pure _

theorem setMember (holder : Value) (key : Text) (v : Value) (span : Span) :
    k.Couples mode (Eval.setMember holder key v span) (Eval.setMember holder key v span) := by
  cases holder with
  | undefined | null => exact bind (textOf _) fun _ ↦ raise _ _
  | object id => exact modifyObject _ _
  | array id => exact setArrayMember id key v span
  | text | function | bool | number => exact pure _

theorem readRoot (root : Root) (span : Span) :
    k.Couples mode (Target.readRoot root span) (Target.readRoot root span) := by
  cases root with
  | value v => exact pure _
  | named name =>
    refine bind (lookup _) fun b ↦ ?_
    cases b with
    | none => exact raise _ _
    | some b => exact pure _

theorem follow (span : Span) (path : List Text) (v : Value) :
    k.Couples mode (Target.follow span path v) (Target.follow span path v) := by
  induction path generalizing v with
  | nil => exact pure _
  | cons key rest ih => exact bind (getMember _ _ _) ih

theorem container (root : Root) (path : List Text) (span : Span) :
    k.Couples mode (Target.container root path span) (Target.container root path span) :=
  bind (readRoot _ _) fun _ ↦ follow _ _ _

theorem readTarget (t : Target) (span : Span) : k.Couples mode (t.read span) (t.read span) := by
  cases t with
  | named name => exact readRoot (.named name) span
  | member root path key => exact bind (container _ _ _) fun _ ↦ getMember _ _ _

theorem writeVariable (name : Text) (v : Value) (span : Span) :
    k.Couples mode (Target.writeVariable name v span) (Target.writeVariable name v span) := by
  refine bind (assignVariable _ _) fun result ↦ ?_
  cases result with
  | ok => exact pure _
  | constViolation | notFound => exact raise _ _

theorem writeTarget (t : Target) (v : Value) (span : Span) :
    k.Couples mode (t.write v span) (t.write v span) := by
  cases t with
  | named name => exact writeVariable _ _ _
  | member root path key => exact bind (container _ _ _) fun _ ↦ setMember _ _ _ _

theorem nameLiteral (literal : Expr) (v : Value) (name : Text) :
    k.Couples mode (Evaluator.nameLiteral literal v name)
      (Evaluator.nameLiteral literal v name) := by
  unfold Evaluator.nameLiteral
  split
  · split
    · exact nameFunction _ _
    · exact pure _
  · exact pure _

end Couples

/-! ### Expressions -/

namespace Evaluators

open Couples

variable {r : Mode → Evaluator} {r' : Evaluator}

theorem identifier (h : k.Evaluators r r') (name : Text) (span : Span) :
    k.Couples mode ((r mode).identifier name span) (r'.identifier name span) := by
  unfold Evaluator.identifier
  rw [h.left, h.right]
  refine bind (lookup _) fun b ↦ ?_
  split
  · exact pure _
  · split
    · exact raise _ _
    · split
      · exact bind (note _) fun _ ↦ pure _
      · exact bind (pure _) fun _ ↦ pure _

theorem binary (h : k.Evaluators r r') (op : BinaryOp) (left right : Expr) (span : Span) :
    k.Couples mode ((r mode).binary op left right span) (r'.binary op left right span) := by
  refine bind (h.expr mode left) fun a ↦ bind (holding rfl (h.expr mode right)) fun b ↦
    bind (readHeap fun h ↦ h.result?_eq op a b) fun v ↦ ?_
  split
  · exact pure _
  · exact structural _ _

theorem logical (h : k.Evaluators r r') (op : LogicalOp) (left right : Expr) (span : Span) :
    k.Couples mode ((r mode).logical op left right span) (r'.logical op left right span) := by
  cases op with
  | coalesce => exact structural _ _
  | and =>
    refine bind (h.expr mode left) fun a ↦ ?_
    split
    · exact h.expr mode right
    · exact pure _
  | or =>
    refine bind (h.expr mode left) fun a ↦ ?_
    split
    · exact pure _
    · exact h.expr mode right

theorem unary (h : k.Evaluators r r') (op : UnaryOp) (operand : Expr) (span : Span) :
    k.Couples mode ((r mode).unary op operand span) (r'.unary op operand span) := by
  cases op with
  | not | void => exact bind (h.expr mode operand) fun _ ↦ pure _
  | minus | plus =>
    exact bind (h.expr mode operand) fun _ ↦ bind (numberOf _) fun _ ↦ pure _
  | typeOf =>
    have hunbound : k.Couples mode (Evaluator.isUnbound operand) (Evaluator.isUnbound operand) := by
      cases operand with
      | identifier => exact map _ (lookup _)
      | _ => exact pure _
    refine bind hunbound fun b ↦ ?_
    split
    · exact pure _
    · exact bind (h.expr mode operand) fun _ ↦ pure _
  | bitNot | delete => exact structural _ _

theorem target (h : k.Evaluators r r') : ∀ e : Expr,
    k.Couples mode ((r mode).target e) (r'.target e)
  | .member object property _ _ => by
    have hrest (stem : Stem) : k.Couples mode
        (do
          let key ← Eval.holding stem.holder ((r mode).expr property)
          return stem.child (← Eval.textOf key))
        (do
          let key ← Eval.holding stem.holder (r'.expr property)
          return stem.child (← Eval.textOf key)) := by
      refine bind (holding ?_ (h.expr mode property)) fun _ ↦ bind (textOf _) fun _ ↦ pure _
      rcases stem with (_ | ⟨_ | _, _, _⟩) | _ <;> rfl
    rw [Evaluator.target, Evaluator.target]
    dsimp only
    split
    · exact bind (map _ (target h object)) hrest
    · exact bind (map _ (h.expr mode object)) hrest
  | .identifier .. => pure _
  | .number .. | .text .. | .bool .. | .null .. | .receiver .. | .binary .. | .logical ..
  | .unary .. | .assign .. | .update .. | .call .. | .conditional .. | .array .. | .object ..
  | .sequence .. | .function .. | .unsupported .. => structural _ _

theorem store (h : k.Evaluators r r') (t : Target) (value : Expr) (span : Span) :
    k.Couples mode ((r mode).store t value span) (r'.store t value span) := by
  have hholder : t.holder.frame? = none := by
    rcases t with _ | ⟨_ | _, _, _⟩ <;> rfl
  refine bind (holding hholder (h.expr mode value)) fun v ↦ ?_
  cases t with
  | named name =>
    exact bind (nameLiteral _ _ _) fun _ ↦ bind (writeTarget _ _ _) fun _ ↦ pure _
  | member => exact bind (writeTarget _ _ _) fun _ ↦ pure _

theorem assignPlain (h : k.Evaluators r r') (t : Target) (value : Expr) (span : Span) :
    k.Couples mode ((r mode).assignPlain t value span) (r'.assignPlain t value span) := by
  unfold Evaluator.assignPlain
  split
  · refine bind (lookup _) fun b ↦ ?_
    split
    · exact raise _ _
    · exact h.store t value span
  · exact h.store t value span

theorem assignCompound (h : k.Evaluators r r') (op : ArithmeticOp) (t : Target) (value : Expr)
    (span : Span) :
    k.Couples mode ((r mode).assignCompound op t value span)
      (r'.assignCompound op t value span) := by
  have hholder : t.holder.frame? = none := by
    rcases t with _ | ⟨_ | _, _, _⟩ <;> rfl
  exact bind (readTarget _ _) fun old ↦
    bind (holding hholder (holding rfl (h.expr mode value))) fun operand ↦
      bind (readHeap fun h ↦ h.arithmetic_eq op old operand) fun _ ↦
        bind (writeTarget _ _ _) fun _ ↦ pure _

theorem assign (h : k.Evaluators r r') (op : AssignOp) (left right : Expr) (span : Span) :
    k.Couples mode ((r mode).assign op left right span) (r'.assign op left right span) := by
  unfold Evaluator.assign
  split
  · exact bind (h.target left) fun t ↦ h.assignPlain t right span
  · exact bind (h.target left) fun t ↦ h.assignCompound _ t right span
  · exact structural _ _

theorem update (h : k.Evaluators r r') (op : UpdateOp) (leading : Bool) (operand : Expr)
    (span : Span) :
    k.Couples mode ((r mode).update op leading operand span)
      (r'.update op leading operand span) :=
  bind (h.target operand) fun _ ↦ bind (readTarget _ _) fun _ ↦ bind (numberOf _) fun _ ↦
    bind (writeTarget _ _ _) fun _ ↦ pure _

theorem member (h : k.Evaluators r r') (object property : Expr) (span : Span) :
    k.Couples mode ((r mode).member object property span) (r'.member object property span) :=
  bind (h.expr mode object) fun _ ↦ bind (holding rfl (h.expr mode property)) fun _ ↦
    bind (textOf _) fun _ ↦ getMember _ _ _

theorem operands (h : k.Evaluators r r') : ∀ es : List (Option Expr),
    k.Couples mode ((r mode).operands es) (r'.operands es)
  | [] => pure _
  | none :: _ => fault _
  | some e :: rest =>
    bind (h.expr mode e) fun _ ↦ bind (holding rfl (operands h rest)) fun _ ↦ pure _

theorem callee (h : k.Evaluators r r') (e : Expr) :
    k.Couples mode ((r mode).callee e) (r'.callee e) := by
  unfold Evaluator.callee
  split
  · exact bind (h.expr mode _) fun _ ↦ bind (holding rfl (h.expr mode _)) fun _ ↦
      bind (textOf _) fun _ ↦ bind (getMember _ _ _) fun _ ↦ pure _
  · exact bind (h.expr mode _) fun _ ↦ pure _

theorem callExprBy (h : k.Evaluators r r') {run : Mode → Running} {run' : Running}
    (hrun : k.Runs run run') (callee : Expr) (args : List (Option Expr)) (span : Span) :
    k.Couples mode ((r mode).callExprBy (run mode) callee args span)
      (r'.callExprBy run' callee args span) := by
  refine bind (h.callee callee) fun v ↦ bind (holding rfl (h.operands args)) fun vs ↦ ?_
  obtain ⟨receiver, f⟩ := v
  cases f with
  | function f =>
    exact callFunctionBy (h.left mode) h.right (fun entry ↦ hrun mode entry f vs receiver) span
  | _ => exact raise _ _

theorem arrayElements (h : k.Evaluators r r') (items : List (Option Expr)) (es : Array Value) :
    k.Couples mode ((r mode).arrayElements items es) (r'.arrayElements items es) := by
  induction items generalizing es with
  | nil => exact pure _
  | cons item rest ih =>
    cases item with
    | none => exact ih _
    | some e => exact bind (holding rfl (h.expr mode e)) fun _ ↦ ih _

theorem objectProperties (h : k.Evaluators r r') (items : List Property) (ps : Properties) :
    k.Couples mode ((r mode).objectProperties items ps) (r'.objectProperties items ps) := by
  induction items generalizing ps with
  | nil => exact pure _
  | cons p rest ih =>
    unfold Evaluator.objectProperties
    split
    · exact bind (holding rfl (h.expr mode _)) fun _ ↦ ih _
    · exact bind (holding rfl (h.expr mode _)) fun _ ↦ bind (textOf _) fun _ ↦
        bind (holding rfl (h.expr mode _)) fun _ ↦ bind (nameLiteral _ _ _) fun _ ↦ ih _

theorem sequence (h : k.Evaluators r r') (items : List (Option Expr)) (last : Value) :
    k.Couples mode ((r mode).sequence items last) (r'.sequence items last) := by
  induction items generalizing last with
  | nil => exact pure _
  | cons item rest ih =>
    cases item with
    | none => exact fault _
    | some e => exact bind (h.expr mode e) ih

/-- An expression keeps the coupling, if everything inside of it does. -/
theorem exprStepBy (h : k.Evaluators r r') {run : Mode → Running} {run' : Running}
    (hrun : k.Runs run run') (e : Expr) :
    k.Couples mode ((r mode).exprStepBy (run mode) e) (r'.exprStepBy run' e) := by
  cases e with
  | identifier => exact h.identifier _ _
  | number | text | bool | null => exact pure _
  | receiver => exact read fun h ↦ h.receiver_eq
  | binary => exact h.binary _ _ _ _
  | logical => exact h.logical _ _ _ _
  | unary => exact h.unary _ _ _
  | assign => exact h.assign _ _ _ _
  | update => exact h.update _ _ _ _
  | call => exact h.callExprBy hrun _ _ _
  | member => exact h.member _ _ _
  | conditional =>
    refine bind (h.expr mode _) fun v ↦ ?_
    split
    · exact h.expr mode _
    · exact h.expr mode _
  | array items => exact bind (h.arrayElements _ _) fun _ ↦ newArray _
  | object properties => exact bind (h.objectProperties _ _) fun _ ↦ newObject _
  | sequence items => exact h.sequence _ _
  | function => exact makeFunction _
  | unsupported => exact structural _ _

end Evaluators

end EcmaTree.Coupling
