import EcmaTree.Text.Basic

/-!
# Types of nodes

The node types that can be evaluated, by the names they have in documents.
-/

namespace EcmaTree.Estree

/-- The types of expressions. -/
inductive ExpressionType where
  | identifier | literal | receiver | parenthesized | binary | logical | unary | assignment
  | update | call | member | conditional | array | object | sequence | arrow | function
deriving DecidableEq, Repr

namespace ExpressionType

/-- Every type of an expression. -/
def all : List ExpressionType :=
  [.identifier, .literal, .receiver, .parenthesized, .binary, .logical, .unary, .assignment,
    .update, .call, .member, .conditional, .array, .object, .sequence, .arrow, .function]

/-- The name of the type. -/
def name : ExpressionType → String
  | identifier => "Identifier"
  | literal => "Literal"
  | receiver => "ThisExpression"
  | parenthesized => "ParenthesizedExpression"
  | binary => "BinaryExpression"
  | logical => "LogicalExpression"
  | unary => "UnaryExpression"
  | assignment => "AssignmentExpression"
  | update => "UpdateExpression"
  | call => "CallExpression"
  | member => "MemberExpression"
  | conditional => "ConditionalExpression"
  | array => "ArrayExpression"
  | object => "ObjectExpression"
  | sequence => "SequenceExpression"
  | arrow => "ArrowFunctionExpression"
  | function => "FunctionExpression"

/-- The type with a name. -/
def ofText? (t : Text) : Option ExpressionType := all.find? fun e ↦ Text.ofString e.name == t

end ExpressionType

/-- The types of statements. -/
inductive StatementType where
  | expression | block | empty | declaration | function | returned | conditional | whileLoop
  | doWhileLoop | forLoop | switch | breaking | continuing | labeled | throwing | guarded
deriving DecidableEq, Repr

namespace StatementType

/-- Every type of a statement. -/
def all : List StatementType :=
  [.expression, .block, .empty, .declaration, .function, .returned, .conditional, .whileLoop,
    .doWhileLoop, .forLoop, .switch, .breaking, .continuing, .labeled, .throwing, .guarded]

/-- The name of the type. -/
def name : StatementType → String
  | expression => "ExpressionStatement"
  | block => "BlockStatement"
  | empty => "EmptyStatement"
  | declaration => "VariableDeclaration"
  | function => "FunctionDeclaration"
  | returned => "ReturnStatement"
  | conditional => "IfStatement"
  | whileLoop => "WhileStatement"
  | doWhileLoop => "DoWhileStatement"
  | forLoop => "ForStatement"
  | switch => "SwitchStatement"
  | breaking => "BreakStatement"
  | continuing => "ContinueStatement"
  | labeled => "LabeledStatement"
  | throwing => "ThrowStatement"
  | guarded => "TryStatement"

/-- The type with a name. -/
def ofText? (t : Text) : Option StatementType := all.find? fun e ↦ Text.ofString e.name == t

end StatementType

/-- The type of the node that a whole program is. -/
def programType : Text := "Program"

/-- The type of a property of an object. -/
def propertyType : Text := "Property"

end EcmaTree.Estree
