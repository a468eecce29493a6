import EcmaTree.Evaluation.Calls

/-!
# Properties of values

Reading and writing one property of any value. Objects have the properties they were given. Arrays
have elements and a length that can be written, and the methods of arrays; texts have bytes, a
length and the methods of texts; functions have a name.
-/

namespace EcmaTree

/-- The key of the property that counts elements or bytes. -/
def lengthKey : Text := "length"

/-- Arrays do not grow past this length by writes to their elements or their length. -/
def maxArrayLength : Nat := 0x1000000

/-- The length that a number gives to an array. -/
def Number.arrayLength? (n : Number) : Option Nat :=
  match n.integer? with
  | some i => if 0 ≤ i && i ≤ maxArrayLength then some i.toNat else none
  | none => none

/-- The elements cut or filled up with undefined to a length. -/
def resized (es : Array Value) (length : Nat) : Array Value :=
  if length ≤ es.size then es.take length
  else es ++ Array.replicate (length - es.size) .undefined

/-- The elements after a write at an index, filled up with undefined before it. -/
def written (es : Array Value) (i : Nat) (v : Value) : Array Value :=
  if i < es.size then es.setIfInBounds i v
  else (es ++ Array.replicate (i - es.size) Value.undefined).push v

namespace Heap

/-- A property of an array. -/
def arrayMember (h : Heap) (id : ArrayId) (key : Text) : Value :=
  let es := h.elements id
  if key = lengthKey then .ofNat es.size
  else
    match key.index? with
    | some i => es.getD i .undefined
    | none =>
      match ArrayMethod.ofText? key with
      | some m => .function (.builtin (.array m))
      | none => .undefined

/-- A property of a text. -/
def textMember (t : Text) (key : Text) : Value :=
  if key = lengthKey then .ofNat t.length
  else
    match key.index? with
    | some i =>
      match t.byte? i with
      | some b => .text (.single b)
      | none => .undefined
    | none =>
      match TextMethod.ofText? key with
      | some m => .function (.builtin (.text m))
      | none => .undefined

/-- A property of a value that has properties. -/
def member (h : Heap) (v : Value) (key : Text) : Value :=
  match v with
  | .object id => h.property id key
  | .array id => h.arrayMember id key
  | .text t => textMember t key
  | .function f => if key = nameKey then .text (h.functionName f) else .undefined
  | .undefined | .null | .bool _ | .number _ => .undefined

end Heap

namespace Eval

/-- Reads a property of a value. Undefined and null have none to read. -/
def getMember (v : Value) (key : Text) (span : Span) : Eval Value := do
  if v.isNullish then raise (.unreadable (← textOf v) key) span
  else readHeap (·.member v key)

/-- Writes a property of an array: its length or an element. Other keys are dropped. -/
def setArrayMember (id : ArrayId) (key : Text) (v : Value) (span : Span) : Eval Unit := do
  if key = lengthKey then
    match (← numberOf v).arrayLength? with
    | some length => modifyHeap (·.modifyArray id (resized · length))
    | none => raise .arrayLength span
  else
    match key.index? with
    | some i =>
      if i < maxArrayLength then modifyHeap (·.modifyArray id (written · i v))
      else raise .arrayLength span
    | none => return

/-- Writes a property of a value. Undefined and null have none to write, and a write to any other
value that is no object or array is dropped. -/
def setMember (holder : Value) (key : Text) (v : Value) (span : Span) : Eval Unit := do
  match holder with
  | .undefined | .null => raise (.unwritable (← textOf holder) key) span
  | .object id => modifyHeap (·.modifyObject id (·.insert key v))
  | .array id => setArrayMember id key v span
  | .text _ | .function _ | .bool _ | .number _ => return

end Eval

end EcmaTree
