import EcmaTree.Text.Basic

/-!
# Operators

All operators that a tree can name, in the order of their families. Not every one of them can be
evaluated: a tree may hold the others, and evaluation refuses them where it meets them.
-/

namespace EcmaTree

/-- Operators between two evaluated operands. -/
inductive BinaryOp where
  | add | sub | mul | div | rem | exp
  | equal | notEqual | strictEqual | strictNotEqual
  | less | greater | lessEqual | greaterEqual
  | bitAnd | bitOr | bitXor | shiftLeft | shiftRight | shiftRightUnsigned
  | memberOf | instanceOf
deriving DecidableEq, Repr

/-- Operators that may leave their right operand alone. -/
inductive LogicalOp where
  | and | or | coalesce
deriving DecidableEq, Repr

/-- Operators before one operand. -/
inductive UnaryOp where
  | not | minus | plus | typeOf | void | bitNot | delete
deriving DecidableEq, Repr

/-- Operators that store into their left side. -/
inductive AssignOp where
  | assign | add | sub | mul | div | rem
  | exp | shiftLeft | shiftRight | shiftRightUnsigned
  | bitAnd | bitOr | bitXor
  | and | or | coalesce
deriving DecidableEq, Repr

/-- Operators that step a stored number by one. -/
inductive UpdateOp where
  | increment | decrement
deriving DecidableEq, Repr

namespace BinaryOp

/-- Every binary operator. -/
def all : List BinaryOp :=
  [.add, .sub, .mul, .div, .rem, .exp, .equal, .notEqual, .strictEqual, .strictNotEqual, .less,
    .greater, .lessEqual, .greaterEqual, .bitAnd, .bitOr, .bitXor, .shiftLeft, .shiftRight,
    .shiftRightUnsigned, .memberOf, .instanceOf]

/-- How the operator is written. -/
def spelling : BinaryOp → String
  | add => "+" | sub => "-" | mul => "*" | div => "/" | rem => "%" | exp => "**"
  | equal => "==" | notEqual => "!=" | strictEqual => "===" | strictNotEqual => "!=="
  | less => "<" | greater => ">" | lessEqual => "<=" | greaterEqual => ">="
  | bitAnd => "&" | bitOr => "|" | bitXor => "^"
  | shiftLeft => "<<" | shiftRight => ">>" | shiftRightUnsigned => ">>>"
  | memberOf => "in" | instanceOf => "instanceof"

/-- The operator with a spelling. -/
def ofText? (t : Text) : Option BinaryOp := all.find? fun op ↦ Text.ofString op.spelling == t

end BinaryOp

namespace LogicalOp

/-- Every logical operator. -/
def all : List LogicalOp := [.and, .or, .coalesce]

/-- How the operator is written. -/
def spelling : LogicalOp → String
  | and => "&&" | or => "||" | coalesce => "??"

/-- The operator with a spelling. -/
def ofText? (t : Text) : Option LogicalOp := all.find? fun op ↦ Text.ofString op.spelling == t

end LogicalOp

namespace UnaryOp

/-- Every unary operator. -/
def all : List UnaryOp := [.not, .minus, .plus, .typeOf, .void, .bitNot, .delete]

/-- How the operator is written. -/
def spelling : UnaryOp → String
  | not => "!" | minus => "-" | plus => "+" | typeOf => "typeof" | void => "void"
  | bitNot => "~" | delete => "delete"

/-- The operator with a spelling. -/
def ofText? (t : Text) : Option UnaryOp := all.find? fun op ↦ Text.ofString op.spelling == t

end UnaryOp

namespace AssignOp

/-- Every assignment operator. -/
def all : List AssignOp :=
  [.assign, .add, .sub, .mul, .div, .rem, .exp, .shiftLeft, .shiftRight, .shiftRightUnsigned,
    .bitAnd, .bitOr, .bitXor, .and, .or, .coalesce]

/-- How the operator is written. -/
def spelling : AssignOp → String
  | assign => "=" | add => "+=" | sub => "-=" | mul => "*=" | div => "/=" | rem => "%="
  | exp => "**=" | shiftLeft => "<<=" | shiftRight => ">>=" | shiftRightUnsigned => ">>>="
  | bitAnd => "&=" | bitOr => "|=" | bitXor => "^="
  | and => "&&=" | or => "||=" | coalesce => "??="

/-- The operator with a spelling. -/
def ofText? (t : Text) : Option AssignOp := all.find? fun op ↦ Text.ofString op.spelling == t

end AssignOp

namespace UpdateOp

/-- Every update operator. -/
def all : List UpdateOp := [.increment, .decrement]

/-- How the operator is written. -/
def spelling : UpdateOp → String
  | increment => "++" | decrement => "--"

/-- The operator with a spelling. -/
def ofText? (t : Text) : Option UpdateOp := all.find? fun op ↦ Text.ofString op.spelling == t

end UpdateOp

end EcmaTree
