import EcmaTree.Evaluation.State
import EcmaTree.Number.Arithmetic

/-!
# Operators on values

What the operators that need no control flow do to evaluated operands.
-/

namespace EcmaTree

/-- The operators that compute a number, or join two texts. -/
inductive ArithmeticOp where
  | add | sub | mul | div | rem
deriving DecidableEq, Repr

/-- The operators that compare by order. -/
inductive OrderOp where
  | less | greater | lessEqual | greaterEqual
deriving DecidableEq, Repr

namespace ArithmeticOp

/-- The operation on numbers. -/
def onNumbers : ArithmeticOp → Number → Number → Number
  | add => .add | sub => .sub | mul => .mul | div => .div | rem => .rem

/-- Sums join texts as soon as one operand is a text or a reference. -/
def joinsTexts (op : ArithmeticOp) (a b : Value) : Bool :=
  op = .add && (a.isText || b.isText || a.isReference || b.isReference)

/-- The operation on values. -/
def apply (h : Heap) (op : ArithmeticOp) (a b : Value) : Value :=
  if op.joinsTexts a b then .text (h.toText a ++ h.toText b)
  else .number (op.onNumbers (h.toNumber a) (h.toNumber b))

end ArithmeticOp

namespace OrderOp

/-- The order of two numbers, in which `nan` has no place. -/
def onNumbers : OrderOp → Number → Number → Bool
  | less, a, b => a.lt b
  | greater, a, b => b.lt a
  | lessEqual, a, b => a.le b
  | greaterEqual, a, b => b.le a

/-- The dictionary order of two texts. -/
def onTexts : OrderOp → Text → Text → Bool
  | less, a, b => a.lt b
  | greater, a, b => b.lt a
  | lessEqual, a, b => !b.lt a
  | greaterEqual, a, b => !a.lt b

/-- The order of two values: of texts if both are, and of numbers otherwise. -/
def apply (h : Heap) (op : OrderOp) (a b : Value) : Value :=
  match a, b with
  | .text x, .text y => .bool (op.onTexts x y)
  | a, b => .bool (op.onNumbers (h.toNumber a) (h.toNumber b))

end OrderOp

namespace AssignOp

/-- The operator that a compound assignment applies before it stores. -/
def compound? : AssignOp → Option ArithmeticOp
  | add => some .add | sub => some .sub | mul => some .mul | div => some .div | rem => some .rem
  | _ => none

end AssignOp

namespace BinaryOp

/-- What a binary operator makes of two values; nothing if it is not supported. -/
def result? (h : Heap) (op : BinaryOp) (a b : Value) : Option Value :=
  match op with
  | add => some (ArithmeticOp.add.apply h a b)
  | sub => some (ArithmeticOp.sub.apply h a b)
  | mul => some (ArithmeticOp.mul.apply h a b)
  | div => some (ArithmeticOp.div.apply h a b)
  | rem => some (ArithmeticOp.rem.apply h a b)
  | strictEqual => some (.bool (a.strictEquals b))
  | strictNotEqual => some (.bool (!a.strictEquals b))
  | equal => some (.bool (h.looseEquals a b))
  | notEqual => some (.bool (!h.looseEquals a b))
  | less => some (OrderOp.less.apply h a b)
  | greater => some (OrderOp.greater.apply h a b)
  | lessEqual => some (OrderOp.lessEqual.apply h a b)
  | greaterEqual => some (OrderOp.greaterEqual.apply h a b)
  | exp | bitAnd | bitOr | bitXor | shiftLeft | shiftRight | shiftRightUnsigned | memberOf
  | instanceOf => none

end BinaryOp

end EcmaTree
