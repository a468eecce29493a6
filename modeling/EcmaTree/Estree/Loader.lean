import EcmaTree.Estree.Node
import EcmaTree.Estree.NodeType
import EcmaTree.Heap.Frame
import EcmaTree.Syntax.Tree

/-!
# Loading programs

What a node loads as, given how the nodes inside it load. Nodes of other types load as
`unsupported`, and so does a node in whose place of a name there is a pattern. `Program.load` reads
an ESTree document as a program.
-/

namespace EcmaTree.Estree

/-- How the nodes below a height load. -/
structure Loader (n : Nat) where
  expression : Node n → Loaded Expr
  statement : Node n → Loaded Stmt

/-- Something that is no identifier where a name is bound. -/
structure Pattern where
  type : Text
  span : Span

/-- The pattern that a node is, unless it is an identifier. -/
def Node.pattern? {n : Nat} (node : Node n) : Loaded (Option Pattern) := do
  let type ← node.type
  if ExpressionType.ofText? type = some .identifier then return none
  else return some ⟨type, ← node.span⟩

/-- The first pattern among the parameters of a function at `span`. -/
def parameterPattern? {n : Nat} (span : Span) : List (Fragment n) → Loaded (Option Pattern)
  | [] => pure none
  | fragment :: rest => do
    match ← (← fragment.asNode "params" span).pattern? with
    | some p => return some p
    | none => parameterPattern? span rest

/-- The names of the parameters of a function at `span`. -/
def parameterNames {n : Nat} (span : Span) (params : List (Fragment n)) : Loaded (List Text) :=
  params.mapM fun fragment ↦ do (← fragment.asNode "params" span).text "name"

/-- The name of the node that a field may hold; empty without one. -/
def Node.nameIn {n : Nat} (node : Node n) (field : Text) : Loaded Text :=
  match node.child? field with
  | some c => c.text "name"
  | none => .ok .empty

/-- A literal. Regular expressions, big integers and values that are no scalars are unsupported. -/
def Node.literal {n : Nat} (node : Node n) : Loaded Expr := do
  let span ← node.span
  let unsupported := Expr.unsupported ExpressionType.literal.name span
  if node.has "regex" || node.has "bigint" then return unsupported
  else
    match (← node.required "value").json with
    | .number x => return .number x span
    | .text t => return .text t span
    | .bool b => return .bool b span
    | .null => return .null span
    | .array _ | .object _ => return unsupported

/-- The operator that a node of an operator family names. -/
def Node.operator {n : Nat} {α : Type} (node : Node n) (family : String)
    (ofText? : Text → Option α) : Loaded α := do
  let spelling ← node.text "operator"
  match ofText? spelling with
  | some op => return op
  | none => throw ⟨.operator family spelling, ← node.span⟩

namespace Loader

variable {n : Nat}

/-- How the nodes below a lower height load. -/
def lower (r : Loader n) : Loader (n - 1) :=
  ⟨fun node ↦ r.expression node.up, fun node ↦ r.statement node.up⟩

/-- The expression that a field must hold. -/
def expressionIn (r : Loader (n - 1)) (node : Node n) (field : Text) : Loaded Expr := do
  r.expression (← node.child field)

/-- The statement that a field must hold. -/
def statementIn (r : Loader (n - 1)) (node : Node n) (field : Text) : Loaded Stmt := do
  r.statement (← node.child field)

/-- The expression that a field may hold. -/
def expressionIn? (r : Loader (n - 1)) (node : Node n) (field : Text) : Loaded (Option Expr) :=
  match node.child? field with
  | some c => some <$> r.expression c
  | none => .ok none

/-- The expressions in the list that a field must hold. An item that is null is absent. -/
def expressionsIn (r : Loader (n - 1)) (node : Node n) (field : Text) :
    Loaded (List (Option Expr)) := do
  (← node.list field).mapM fun fragment ↦ do
    match fragment.json with
    | .null => return none
    | _ => return some (← r.expression (← fragment.asNode field (← node.span)))

/-- The statements in the list that a field must hold. -/
def statementsIn (r : Loader (n - 1)) (node : Node n) (field : Text) : Loaded (List Stmt) := do
  (← node.list field).mapM fun fragment ↦ do
    r.statement (← fragment.asNode field (← node.span))

/-- The statements of the block that a field must hold. -/
def blockIn (r : Loader (n - 1)) (node : Node n) (field : Text) : Loaded (List Stmt) := do
  let block ← node.child field
  if StatementType.ofText? (← block.type) = some .block then r.lower.statementsIn block "body"
  else node.fail (.shape field · .block)

/-- The body of a function: the statements of a block, or one expression. -/
def functionBody (r : Loader (n - 1)) (node : Node n) : Loaded FunctionBody := do
  let body ← node.child "body"
  if StatementType.ofText? (← body.type) = some .block then
    return .statements (← r.lower.statementsIn body "body")
  else return .concise (← r.expression body)

/-- A function whose parameters are all names. -/
def function (r : Loader (n - 1)) (node : Node n) (kind : FunctionKind) : Loaded FunctionNode := do
  let span ← node.span
  let name ← node.nameIn "id"
  let params ← parameterNames span (← node.list "params")
  return ⟨kind, name, params, ← r.functionBody node, span⟩

/-- A function, or where it is unsupported its type or the pattern among its parameters. -/
def supportedFunction (r : Loader (n - 1)) (node : Node n) (kind : FunctionKind) :
    Loaded (Pattern ⊕ FunctionNode) := do
  let span ← node.span
  if node.flag "async" || node.flag "generator" then return .inl ⟨← node.type, span⟩
  else
    match ← parameterPattern? span (← node.list "params") with
    | some p => return .inl p
    | none => return .inr (← r.function node kind)

/-- A function literal. -/
def functionLiteral (r : Loader (n - 1)) (node : Node n) (kind : FunctionKind) : Loaded Expr := do
  match ← r.supportedFunction node kind with
  | .inl p => return .unsupported p.type p.span
  | .inr code => return .function code code.span

/-- A key, of an object's property or after a dot. A plain name stands for the text that it is. -/
def key (r : Loader n) (node : Node n) (computed : Bool) : Loaded Expr := do
  let isName ←
    if computed then pure false
    else (fun type ↦ ExpressionType.ofText? type = some .identifier) <$> node.type
  if isName then return .text (← node.text "name") (← node.span)
  else r.expression node

/-- A property of an object. Accessors, methods and spreads have no key and are unsupported. -/
def property (r : Loader (n - 1)) (node : Node n) : Loaded Property := do
  let type ← node.type
  let isInit :=
    match node.field? "kind" with
    | some ⟨.text kind, _⟩ => kind == "init"
    | _ => true
  if type == propertyType && isInit && !node.flag "method" then
    let computed := node.flag "computed"
    let key ← r.key (← node.child "key") computed
    return ⟨some key, ← r.expressionIn node "value", computed⟩
  else return ⟨none, .unsupported type (← node.span), false⟩

/-- An object literal. -/
def object (r : Loader (n - 1)) (node : Node n) (span : Span) : Loaded Expr := do
  let properties ← (← node.list "properties").mapM fun fragment ↦ do
    r.lower.property (← fragment.asNode "properties" span)
  return .object properties span

/-- A member. Its key is loaded before its object. -/
def member (r : Loader (n - 1)) (node : Node n) (span : Span) : Loaded Expr := do
  let computed := node.flag "computed"
  let key ← r.key (← node.child "property") computed
  return .member (← r.expressionIn node "object") key computed span

/-- A node that is loaded as an expression. -/
def expressionStep (r : Loader (n - 1)) (node : Node n) : Loaded Expr := do
  let type ← node.type
  let span ← node.span
  let unsupported := Expr.unsupported type span
  match ExpressionType.ofText? type with
  | some .identifier => return .identifier (← node.text "name") span
  | some .literal => node.literal
  | some .receiver => return .receiver span
  | some .parenthesized => r.expressionIn node "expression"
  | some .binary => do
    let op ← node.operator "binary" BinaryOp.ofText?
    let left ← r.expressionIn node "left"
    return .binary op left (← r.expressionIn node "right") span
  | some .logical => do
    let op ← node.operator "logical" LogicalOp.ofText?
    let left ← r.expressionIn node "left"
    return .logical op left (← r.expressionIn node "right") span
  | some .unary => do
    let op ← node.operator "unary" UnaryOp.ofText?
    return .unary op (← r.expressionIn node "argument") span
  | some .assignment => do
    let op ← node.operator "assignment" AssignOp.ofText?
    let left ← r.expressionIn node "left"
    return .assign op left (← r.expressionIn node "right") span
  | some .update => do
    let op ← node.operator "update" UpdateOp.ofText?
    return .update op (node.flag "prefix") (← r.expressionIn node "argument") span
  | some .call =>
    if node.flag "optional" then return unsupported
    else
      let callee ← r.expressionIn node "callee"
      return .call callee (← r.expressionsIn node "arguments") span
  | some .member => if node.flag "optional" then return unsupported else r.member node span
  | some .conditional => do
    let test ← r.expressionIn node "test"
    let consequent ← r.expressionIn node "consequent"
    return .conditional test consequent (← r.expressionIn node "alternate") span
  | some .array => return .array (← r.expressionsIn node "elements") span
  | some .object => r.object node span
  | some .sequence => return .sequence (← r.expressionsIn node "expressions") span
  | some .arrow => r.functionLiteral node .arrow
  | some .function => r.functionLiteral node .expression
  | none => return unsupported

/-- The keyword of a variable declaration, if it can be evaluated. -/
def declarationKind? (keyword : Text) : Option DeclarationKind :=
  if keyword == "var" then some .var
  else if keyword == "let" then some .let
  else if keyword == "const" then some .const
  else none

/-- The declarators of a declaration at `span`, or the first pattern among them. -/
def declarators (r : Loader n) (span : Span) :
    List (Fragment n) → Loaded (Pattern ⊕ List Declarator)
  | [] => pure (.inr [])
  | fragment :: rest => do
    let declarator ← fragment.asNode "declarations" span
    match ← (← declarator.child "id").pattern? with
    | some p => return .inl p
    | none =>
      let name ← declarator.childName "id"
      let init ← r.lower.expressionIn? declarator "init"
      return (← r.declarators span rest).map id (⟨name, init⟩ :: ·)

/-- A variable declaration. -/
def declaration (r : Loader (n - 1)) (node : Node n) (span : Span) : Loaded Stmt := do
  match declarationKind? (← node.text "kind") with
  | none => return .unsupported (← node.type) span
  | some kind =>
    match ← r.declarators span (← node.list "declarations") with
    | .inl p => return .unsupported p.type p.span
    | .inr ds => return .declare kind ds span

/-- A function declaration. -/
def functionDeclaration (r : Loader (n - 1)) (node : Node n) : Loaded Stmt := do
  match ← r.supportedFunction node .declaration with
  | .inl p => return .unsupported p.type p.span
  | .inr code => return .function code code.span

/-- The statement that a field may hold. -/
def statementIn? (r : Loader (n - 1)) (node : Node n) (field : Text) : Loaded (Option Stmt) :=
  match node.child? field with
  | some c => some <$> r.statement c
  | none => .ok none

/-- The initialiser of a loop: a declaration, or an expression as a statement. -/
def initializer (r : Loader (n - 1)) (node : Node n) : Loaded (Option Stmt) :=
  match node.child? "init" with
  | none => .ok none
  | some init => do
    if StatementType.ofText? (← init.type) = some .declaration then
      return some (← r.statement init)
    else
      let value ← r.expression init
      return some (.expression value (← init.span))

/-- A case of a switch. -/
def switchCase (r : Loader (n - 1)) (node : Node n) : Loaded SwitchCase := do
  let test ← r.expressionIn? node "test"
  return ⟨test, ← r.statementsIn node "consequent"⟩

/-- A handler, or the pattern that stands in the place of its name. -/
def handler (r : Loader (n - 1)) (node : Node n) : Loaded (Pattern ⊕ Handler) := do
  match node.child? "param" with
  | none => return .inr ⟨none, ← r.blockIn node "body"⟩
  | some param =>
    match ← param.pattern? with
    | some p => return .inl p
    | none =>
      let name ← param.text "name"
      return .inr ⟨some name, ← r.blockIn node "body"⟩

/-- The statements of the block that a field may hold. -/
def blockIn? (r : Loader (n - 1)) (node : Node n) (field : Text) :
    Loaded (Option (List Stmt)) :=
  match node.child? field with
  | some _ => some <$> r.blockIn node field
  | none => .ok none

/-- A guarded block with its handler and finalizer. -/
def guarded (r : Loader (n - 1)) (node : Node n) (span : Span) : Loaded Stmt := do
  let block ← r.blockIn node "block"
  match node.child? "handler" with
  | none => return .guarded block none (← r.blockIn? node "finalizer") span
  | some handlerNode =>
    match ← r.lower.handler handlerNode with
    | .inl p => return .unsupported p.type p.span
    | .inr h => return .guarded block (some h) (← r.blockIn? node "finalizer") span

/-- A node that is loaded as a statement. -/
def statementStep (r : Loader (n - 1)) (node : Node n) : Loaded Stmt := do
  let type ← node.type
  let span ← node.span
  match StatementType.ofText? type with
  | some .expression => return .expression (← r.expressionIn node "expression") span
  | some .block => return .block (← r.statementsIn node "body") span
  | some .empty => return .empty span
  | some .declaration => r.declaration node span
  | some .function => r.functionDeclaration node
  | some .returned => return .returned (← r.expressionIn? node "argument") span
  | some .conditional => do
    let alternate ← r.statementIn? node "alternate"
    let test ← r.expressionIn node "test"
    return .conditional test (← r.statementIn node "consequent") alternate span
  | some .whileLoop => do
    let test ← r.expressionIn node "test"
    return .whileLoop test (← r.statementIn node "body") span
  | some .doWhileLoop => do
    let body ← r.statementIn node "body"
    return .doWhileLoop body (← r.expressionIn node "test") span
  | some .forLoop => do
    let init ← r.initializer node
    let test ← r.expressionIn? node "test"
    let update ← r.expressionIn? node "update"
    return .forLoop init test update (← r.statementIn node "body") span
  | some .switch => do
    let discriminant ← r.expressionIn node "discriminant"
    let cases ← (← node.list "cases").mapM fun fragment ↦ do
      r.lower.switchCase (← fragment.asNode "cases" span)
    return .switch discriminant cases span
  | some .breaking => return .breaking (labelOfText (← node.nameIn "label")) span
  | some .continuing => return .continuing (labelOfText (← node.nameIn "label")) span
  | some .labeled => do
    let label ← node.nameIn "label"
    return .labeled label (← r.statementIn node "body") span
  | some .throwing => return .throwing (← r.expressionIn node "argument") span
  | some .guarded => r.guarded node span
  | none => return .unsupported type span

end Loader

/-- How the nodes below any height load. -/
def loader : (n : Nat) → Loader n
  | 0 => ⟨fun node ↦ absurd node.height_lt (Nat.not_lt_zero _),
      fun node ↦ absurd node.height_lt (Nat.not_lt_zero _)⟩
  | n + 1 =>
    let inner : Loader (n + 1 - 1) := loader n
    ⟨fun node ↦ inner.expressionStep node, fun node ↦ inner.statementStep node⟩

end EcmaTree.Estree

namespace EcmaTree

open Estree

/-- A document as a program. -/
def Program.ofJson (document : Json) : Loaded Program := do
  let whole : Fragment document.height := ⟨document, Nat.le_refl _⟩
  let root ← whole.asNode "program" .nowhere
  let type ← root.type
  let span ← root.span
  if type == programType then
    return ⟨← (loader (document.height - 1)).statementsIn root "body", span⟩
  else throw ⟨.notProgram type, span⟩

/-- Reads a text as a program. -/
def Program.load (t : Text) : Loaded Program :=
  match Json.parse t with
  | .ok document => Program.ofJson document
  | .error e =>
    let offset := UInt32.ofNat e.position
    .error ⟨.notJson e, ⟨offset, offset⟩⟩

end EcmaTree
