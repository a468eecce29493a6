import EcmaTree.Evaluation.Operators
import EcmaTree.Evaluation.Targets

/-!
# Expressions

One level of the evaluation of expressions: what a node does, given the evaluation of the nodes
inside it.
-/

namespace EcmaTree.Evaluator

open Eval

/-- Reads a name. Without a binding it is an error or a text, as the configuration says. -/
def identifier (r : Evaluator) (name : Text) (span : Span) : Eval Value := do
  match ← lookup name with
  | some b => return b.value
  | none =>
    match r.config.unbound with
    | .throwError => raise (.notDefined name) span
    | .nameAsText =>
      if r.config.noteUnbound then
        modify fun s ↦ { s with notices := ⟨name, span⟩ :: s.notices }
      return .text name

/-- Evaluates both operands and applies the operator. -/
def binary (r : Evaluator) (op : BinaryOp) (left right : Expr) (span : Span) : Eval Value := do
  let a ← r.expr left
  let b ← holding (.values [a]) (r.expr right)
  match ← readHeap fun h ↦ op.result? h a b with
  | some v => return v
  | none => structural (.unsupportedOperator op.spelling "BinaryExpression") span

/-- Evaluates the left operand, and the right one only if it decides. -/
def logical (r : Evaluator) (op : LogicalOp) (left right : Expr) (span : Span) : Eval Value := do
  match op with
  | .coalesce => structural (.unsupportedOperator op.spelling "LogicalExpression") span
  | .and =>
    let a ← r.expr left
    if a.truthy then r.expr right else return a
  | .or =>
    let a ← r.expr left
    if a.truthy then return a else r.expr right

/-- A name without a binding. -/
def isUnbound : Expr → Eval Bool
  | .identifier name _ => Option.isNone <$> lookup name
  | _ => pure false

/-- The type of an operand. A name without a binding has the type of undefined. -/
def typeOf (r : Evaluator) (operand : Expr) : Eval Value := do
  if ← isUnbound operand then return .text "undefined"
  else return .text (← r.expr operand).typeOf

/-- Applies an operator to one operand. -/
def unary (r : Evaluator) (op : UnaryOp) (operand : Expr) (span : Span) : Eval Value := do
  match op with
  | .not => return .bool (!(← r.expr operand).truthy)
  | .minus => return .number (← numberOf (← r.expr operand)).neg
  | .plus => return .number (← numberOf (← r.expr operand))
  | .void =>
    let _ ← r.expr operand
    return .undefined
  | .typeOf => r.typeOf operand
  | .bitNot | .delete => structural (.unsupportedOperator op.spelling "UnaryExpression") span

/-- Names the function that a function literal evaluated to, if it has no name yet. -/
def nameLiteral (literal : Expr) (v : Value) (name : Text) : Eval Unit := do
  match v with
  | .function (.cell id) => if literal.isFunction then modifyHeap (·.nameFunction id name)
  | _ => return

/-- Evaluates the right side and stores its value. -/
def store (r : Evaluator) (t : Target) (value : Expr) (span : Span) : Eval Value := do
  let v ← holding t.holder (r.expr value)
  match t with
  | .named name => nameLiteral value v name
  | .member .. => pure ()
  t.write v span
  return v

/-- Stores the value of the right side. A root without a binding is an error before the right side
is evaluated. -/
def assignPlain (r : Evaluator) (t : Target) (value : Expr) (span : Span) : Eval Value := do
  match t.rootName? with
  | some name =>
    if (← lookup name).isNone then raise (.notDefined name) span else r.store t value span
  | none => r.store t value span

/-- Stores what an operator makes of the old value and the right side. -/
def assignCompound (r : Evaluator) (op : ArithmeticOp) (t : Target) (value : Expr) (span : Span) :
    Eval Value := do
  let old ← t.read span
  let operand ← holding t.holder (holding (.values [old]) (r.expr value))
  let v ← readHeap fun h ↦ op.apply h old operand
  t.write v span
  return v

/-- Stores into the target on the left side. -/
def assign (r : Evaluator) (op : AssignOp) (left right : Expr) (span : Span) : Eval Value := do
  match op, op.compound? with
  | .assign, _ => r.assignPlain (← r.target left) right span
  | _, some arithmetic => r.assignCompound arithmetic (← r.target left) right span
  | _, none => structural (.unsupportedOperator op.spelling "AssignmentExpression") span

/-- Steps the number that a target holds, and has the new or the old number as value. -/
def update (r : Evaluator) (op : UpdateOp) (leading : Bool) (operand : Expr) (span : Span) :
    Eval Value := do
  let t ← r.target operand
  let old ← numberOf (← t.read span)
  let new := match op with
    | .increment => old.add 1
    | .decrement => old.sub 1
  t.write (.number new) span
  return .number (if leading then new else old)

/-- Reads a member. -/
def member (r : Evaluator) (object property : Expr) (span : Span) : Eval Value := do
  let holder ← r.expr object
  let key ← holding (.values [holder]) (r.expr property)
  getMember holder (← textOf key) span

/-- Evaluates expressions in order. No evaluation can go past an absent one. -/
def operands (r : Evaluator) : List (Option Expr) → Eval (List Value)
  | [] => pure []
  | none :: _ => fault .absent
  | some e :: rest => do
    let v ← r.expr e
    return v :: (← holding (.values [v]) (r.operands rest))

/-- The receiver of a call and what is called. A member is called with its object as receiver. -/
def callee (r : Evaluator) : Expr → Eval (Value × Value)
  | .member object property _ _ => do
    let holder ← r.expr object
    let key ← holding (.values [holder]) (r.expr property)
    return (holder, ← getMember holder (← textOf key) property.span)
  | e => do return (.undefined, ← r.expr e)

/-- Calls what the callee evaluates to. -/
def callExpr (r : Evaluator) (callee : Expr) (arguments : List (Option Expr)) (span : Span) :
    Eval Value := do
  let (receiver, f) ← r.callee callee
  let args ← holding (.values [receiver, f]) (r.operands arguments)
  match f with
  | .function f => r.callFunction f args receiver span
  | _ => raise (.notCallable callee.describe) span

/-- The elements of an array literal; a hole is undefined. -/
def arrayElements (r : Evaluator) : List (Option Expr) → Array Value → Eval (Array Value)
  | [], es => pure es
  | none :: rest, es => r.arrayElements rest (es.push .undefined)
  | some e :: rest, es => do
    let v ← holding (.elements es) (r.expr e)
    r.arrayElements rest (es.push v)

/-- The properties of an object literal. A property without a key is evaluated for the error that
it is. -/
def objectProperties (r : Evaluator) : List Property → Properties → Eval Properties
  | [], ps => pure ps
  | p :: rest, ps => do
    match p.key with
    | none =>
      let _ ← holding (.properties ps) (r.expr p.value)
      r.objectProperties rest ps
    | some keyExpr =>
      let key ← textOf (← holding (.properties ps) (r.expr keyExpr))
      let v ← holding (.properties ps) (r.expr p.value)
      nameLiteral p.value v key
      r.objectProperties rest (ps.insert key v)

/-- Evaluates expressions in order and has the value of the last one. -/
def sequence (r : Evaluator) : List (Option Expr) → Value → Eval Value
  | [], last => pure last
  | none :: _, _ => fault .absent
  | some e :: rest, _ => do
    let v ← r.expr e
    r.sequence rest v

/-- Makes the function of a function node, which captures the current frame. -/
def makeFunction (code : FunctionNode) : Eval Value := fun s ↦
  let (id, h) := s.heap.newFunction ⟨code.name, .closure code s.frame⟩
  .done (.function (.cell id)) { s with heap := h }

/-- Evaluates an expression. -/
def exprStep (r : Evaluator) : Expr → Eval Value
  | .identifier name span => r.identifier name span
  | .number value _ => pure (.number value)
  | .text value _ => pure (.text value)
  | .bool value _ => pure (.bool value)
  | .null _ => pure .null
  | .receiver _ => read fun s ↦ s.heap.receiver s.frame
  | .binary op left right span => r.binary op left right span
  | .logical op left right span => r.logical op left right span
  | .unary op operand span => r.unary op operand span
  | .assign op left right span => r.assign op left right span
  | .update op leading operand span => r.update op leading operand span
  | .call callee arguments span => r.callExpr callee arguments span
  | .member object property _ span => r.member object property span
  | .conditional test consequent alternate _ => do
    if (← r.expr test).truthy then r.expr consequent else r.expr alternate
  | .array elements _ => do newArray (← r.arrayElements elements #[])
  | .object properties _ => do newObject (← r.objectProperties properties .empty)
  | .sequence items _ => r.sequence items .undefined
  | .function code _ => makeFunction code
  | .unsupported type span => structural (.unsupportedNode type) span

end EcmaTree.Evaluator
