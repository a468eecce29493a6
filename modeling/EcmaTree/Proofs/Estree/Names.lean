import EcmaTree.Estree.NodeType
import EcmaTree.Syntax.Operator

/-!
# Names of operators and node types

Every operator and every node type that a document can name is found again by its name: no two
have the same.
-/

namespace EcmaTree

/-- Different strings have different bytes. -/
@[simp] theorem Text.ofString_inj {a b : String} : Text.ofString a = Text.ofString b ↔ a = b := by
  constructor
  · intro h
    exact String.toByteArray_inj.mp (Text.mk.inj h)
  · rintro rfl
    rfl

namespace Estree

theorem ExpressionType.ofText?_name (t : ExpressionType) : ofText? t.name = some t := by
  cases t <;> simp [ofText?, all, name]

theorem StatementType.ofText?_name (t : StatementType) : ofText? t.name = some t := by
  cases t <;> simp [ofText?, all, name]

end Estree

theorem BinaryOp.ofText?_spelling (op : BinaryOp) : ofText? op.spelling = some op := by
  cases op <;> simp [ofText?, all, spelling]

theorem LogicalOp.ofText?_spelling (op : LogicalOp) : ofText? op.spelling = some op := by
  cases op <;> simp [ofText?, all, spelling]

theorem UnaryOp.ofText?_spelling (op : UnaryOp) : ofText? op.spelling = some op := by
  cases op <;> simp [ofText?, all, spelling]

theorem AssignOp.ofText?_spelling (op : AssignOp) : ofText? op.spelling = some op := by
  cases op <;> simp [ofText?, all, spelling]

theorem UpdateOp.ofText?_spelling (op : UpdateOp) : ofText? op.spelling = some op := by
  cases op <;> simp [ofText?, all, spelling]

end EcmaTree
