import EcmaTree.Heap.Basic
import EcmaTree.Number.Numeral
import EcmaTree.Number.Reading

/-!
# Conversions

The text and the number that a value stands for, and equality with conversions. An array is rendered
as its elements with commas; inside itself it is rendered as nothing, so rendering always ends.
-/

namespace EcmaTree.Heap

/-- The text of a function. -/
def functionText (h : Heap) (f : FunctionRef) : Text :=
  let name := h.functionName f
  if name.isEmpty then "[Function (anonymous)]" else "[Function: " ++ name ++ "]"

/-- The text of a value that is not an array. -/
def plainText (h : Heap) : Value → Text
  | .undefined => "undefined"
  | .null => "null"
  | .bool b => if b then "true" else "false"
  | .number n => n.toText
  | .text t => t
  | .object _ => "[object Object]"
  | .array _ => .empty
  | .function f => h.functionText f

/-- The elements of an array with a separator between them. Undefined and null give nothing, and so
does an array that is being rendered already; `active` lists those. -/
def joinActive (h : Heap) (active : List Nat) (id : ArrayId) (separator : Text) : Text :=
  if _ha : id.index ∈ active then .empty
  else
    match _hc : h.arrays.get? id.index with
    | none => .empty
    | some elements =>
      .join separator <| elements.toList.map fun element ↦
        match element with
        | .array inner => h.joinActive (id.index :: active) inner ","
        | .undefined | .null => .empty
        | v => h.plainText v
termination_by h.arrays.unvisited active
decreasing_by exact Store.unvisited_cons_lt (Store.lt_size_of_get?_eq_some _hc) _ha

/-- The elements of an array with a separator between them. -/
def join (h : Heap) (id : ArrayId) (separator : Text) : Text := h.joinActive [] id separator

/-- The text of a value. -/
def toText (h : Heap) : Value → Text
  | .array id => h.join id ","
  | v => h.plainText v

/-- The number of a value. -/
def toNumber (h : Heap) : Value → Number
  | .undefined => .nan
  | .null => 0
  | .bool b => if b then 1 else 0
  | .number n => n
  | .text t => .ofText t
  | .array id => .ofText (h.join id ",")
  | .object _ | .function _ => .nan

/-- The text that a value has as the key of a property. -/
def propertyKey (h : Heap) (v : Value) : Text := h.toText v

/-- The number or the text that a value is compared as: a truth value is compared as a number, and a
reference as its text. -/
def primitive (h : Heap) : Value → Value
  | .bool b => .number (if b then 1 else 0)
  | .object id => .text (h.toText (.object id))
  | .array id => .text (h.toText (.array id))
  | .function f => .text (h.toText (.function f))
  | v => v

/-- Equality of numbers and texts; a number and a text are compared as numbers. -/
def primitiveEquals : Value → Value → Bool
  | .number x, .text y => x.equal (.ofText y)
  | .text x, .number y => (Number.ofText x).equal y
  | a, b => a.strictEquals b

/-- Equality with conversions. Undefined and null equal each other and nothing else, two references
are equal when they are the same, and everything else is compared as numbers or texts. -/
def looseEquals (h : Heap) (a b : Value) : Bool :=
  if a.isNullish || b.isNullish then a.isNullish && b.isNullish
  else if a.isReference && b.isReference then a.strictEquals b
  else primitiveEquals (h.primitive a) (h.primitive b)

end EcmaTree.Heap
