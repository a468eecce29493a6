import EcmaTree.Number.Basic
import EcmaTree.Source.Lines
import EcmaTree.Syntax.Operator

/-!
# Syntax trees

Programs as trees of expressions and statements. Every node carries the span it comes from. A node
whose type has no meaning here is kept as `unsupported`, so that only reaching it is an error.
-/

namespace EcmaTree

/-- The three forms a function is written in. -/
inductive FunctionKind where
  | declaration | expression | arrow
deriving DecidableEq, Repr

/-- The three keywords of a variable declaration. -/
inductive DeclarationKind where
  | var | let | const
deriving DecidableEq, Repr

mutual

/-- An expression. -/
inductive Expr where
  | identifier (name : Text) (span : Span)
  | number (value : Number) (span : Span)
  | text (value : Text) (span : Span)
  | bool (value : Bool) (span : Span)
  | null (span : Span)
  | receiver (span : Span)
  | binary (op : BinaryOp) (left right : Expr) (span : Span)
  | logical (op : LogicalOp) (left right : Expr) (span : Span)
  | unary (op : UnaryOp) (operand : Expr) (span : Span)
  | assign (op : AssignOp) (target value : Expr) (span : Span)
  /-- `leading` says that the operator stands before its target. -/
  | update (op : UpdateOp) (leading : Bool) (target : Expr) (span : Span)
  /-- An argument may be absent from the tree; no evaluation can go past it. -/
  | call (callee : Expr) (arguments : List (Option Expr)) (span : Span)
  /-- The key of a property after a dot is a text literal. -/
  | member (object property : Expr) (computed : Bool) (span : Span)
  | conditional (test consequent alternate : Expr) (span : Span)
  /-- An absent element is a hole. -/
  | array (elements : List (Option Expr)) (span : Span)
  | object (properties : List Property) (span : Span)
  /-- An item may be absent from the tree; no evaluation can go past it. -/
  | sequence (items : List (Option Expr)) (span : Span)
  | function (code : FunctionNode) (span : Span)
  | unsupported (type : Text) (span : Span)

/-- A property of an object literal. A property of an unsupported kind has no key. -/
structure Property where
  key : Option Expr
  value : Expr
  computed : Bool

/-- A function, in whichever form it is written. -/
structure FunctionNode where
  kind : FunctionKind
  name : Text
  params : List Text
  body : FunctionBody
  span : Span

/-- The body of a function: statements, or the one expression of a concise arrow. -/
inductive FunctionBody where
  | statements (body : List Stmt)
  | concise (result : Expr)

/-- A statement. -/
inductive Stmt where
  | declare (kind : DeclarationKind) (declarators : List Declarator) (span : Span)
  | function (code : FunctionNode) (span : Span)
  | returned (argument : Option Expr) (span : Span)
  | expression (value : Expr) (span : Span)
  | block (body : List Stmt) (span : Span)
  | empty (span : Span)
  | conditional (test : Expr) (consequent : Stmt) (alternate : Option Stmt) (span : Span)
  | whileLoop (test : Expr) (body : Stmt) (span : Span)
  | doWhileLoop (body : Stmt) (test : Expr) (span : Span)
  | forLoop (init : Option Stmt) (test update : Option Expr) (body : Stmt) (span : Span)
  | switch (discriminant : Expr) (cases : List SwitchCase) (span : Span)
  | breaking (label : Option Text) (span : Span)
  | continuing (label : Option Text) (span : Span)
  | labeled (label : Text) (body : Stmt) (span : Span)
  | throwing (argument : Expr) (span : Span)
  | guarded (block : List Stmt) (handler : Option Handler) (finalizer : Option (List Stmt))
      (span : Span)
  | unsupported (type : Text) (span : Span)

/-- One name of a variable declaration with its initial value. -/
structure Declarator where
  name : Text
  init : Option Expr

/-- A case of a switch; the default clause has no test. -/
structure SwitchCase where
  test : Option Expr
  body : List Stmt

/-- The clause of a guarded block that handles what is thrown, under a name or without one. -/
structure Handler where
  param : Option Text
  body : List Stmt

end

/-- A whole program. -/
structure Program where
  body : List Stmt
  span : Span

namespace Expr

/-- Where the expression comes from. -/
def span : Expr → Span
  | identifier _ s | number _ s | text _ s | bool _ s | null s | receiver s | binary _ _ _ s
  | logical _ _ _ s | unary _ _ s | assign _ _ _ s | update _ _ _ s | call _ _ s | member _ _ _ s
  | conditional _ _ _ s | array _ s | object _ s | sequence _ s | function _ s
  | unsupported _ s => s

/-- The name of the expression's node type. -/
def nodeType : Expr → Text
  | identifier .. => "Identifier"
  | number .. | text .. | bool .. | null .. => "Literal"
  | receiver .. => "ThisExpression"
  | binary .. => "BinaryExpression"
  | logical .. => "LogicalExpression"
  | unary .. => "UnaryExpression"
  | assign .. => "AssignmentExpression"
  | update .. => "UpdateExpression"
  | call .. => "CallExpression"
  | member .. => "MemberExpression"
  | conditional .. => "ConditionalExpression"
  | array .. => "ArrayExpression"
  | object .. => "ObjectExpression"
  | sequence .. => "SequenceExpression"
  | function code _ => match code.kind with
    | .arrow => "ArrowFunctionExpression"
    | _ => "FunctionExpression"
  | unsupported type _ => type

/-- A function literal. -/
def isFunction : Expr → Bool
  | function .. => true
  | _ => false

/-- How an error names a callee: by its path of names, with a mark for each computed key. -/
def describe : Expr → Text
  | identifier name _ => name
  | receiver _ => "this"
  | member base (text key _) false _ => base.describe ++ "." ++ key
  | member base _ _ _ => base.describe ++ "[...]"
  | _ => "expression"

end Expr

namespace Stmt

/-- Where the statement comes from. -/
def span : Stmt → Span
  | declare _ _ s | function _ s | returned _ s | expression _ s | block _ s | empty s
  | conditional _ _ _ s | whileLoop _ _ s | doWhileLoop _ _ s | forLoop _ _ _ _ s | switch _ _ s
  | breaking _ s | continuing _ s | labeled _ _ s | throwing _ s | guarded _ _ _ s
  | unsupported _ s => s

/-- The name of the statement's node type. -/
def nodeType : Stmt → Text
  | declare .. => "VariableDeclaration"
  | function .. => "FunctionDeclaration"
  | returned .. => "ReturnStatement"
  | expression .. => "ExpressionStatement"
  | block .. => "BlockStatement"
  | empty .. => "EmptyStatement"
  | conditional .. => "IfStatement"
  | whileLoop .. => "WhileStatement"
  | doWhileLoop .. => "DoWhileStatement"
  | forLoop .. => "ForStatement"
  | switch .. => "SwitchStatement"
  | breaking .. => "BreakStatement"
  | continuing .. => "ContinueStatement"
  | labeled .. => "LabeledStatement"
  | throwing .. => "ThrowStatement"
  | guarded .. => "TryStatement"
  | unsupported type _ => type

end Stmt

end EcmaTree
