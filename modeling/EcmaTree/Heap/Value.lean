import EcmaTree.Heap.Builtin
import EcmaTree.Number.Basic

/-!
# Values

What expressions evaluate to. Objects, arrays and functions live in the heap, and a value refers to
them by an identifier: two references are the same value exactly when they refer to the same thing.
-/

namespace EcmaTree

/-- Identifies a frame of variables. -/
structure FrameId where
  index : Nat
deriving DecidableEq, Repr

/-- Identifies an object. -/
structure ObjectId where
  index : Nat
deriving DecidableEq, Repr

/-- Identifies an array. -/
structure ArrayId where
  index : Nat
deriving DecidableEq, Repr

/-- Identifies a function of the heap. -/
structure FunctionId where
  index : Nat
deriving DecidableEq, Repr

/-- A function: one of the heap, or a method that needs none. -/
inductive FunctionRef where
  | cell (id : FunctionId)
  | builtin (method : Builtin)
deriving DecidableEq, Repr

/-- A value. -/
inductive Value where
  | undefined
  | null
  | bool (value : Bool)
  | number (value : Number)
  | text (value : Text)
  | object (id : ObjectId)
  | array (id : ArrayId)
  | function (ref : FunctionRef)
deriving DecidableEq

namespace Value

instance : Inhabited Value := ⟨undefined⟩

/-- The value of a natural number. -/
def ofNat (n : Nat) : Value := number (.ofNat n)

/-- Undefined or null. -/
def isNullish : Value → Bool
  | undefined | null => true
  | _ => false

/-- An object, an array or a function. -/
def isReference : Value → Bool
  | object _ | array _ | function _ => true
  | _ => false

/-- A text. -/
def isText : Value → Bool
  | text _ => true
  | _ => false

/-- A function. -/
def isFunction : Value → Bool
  | function _ => true
  | _ => false

/-- Everything holds but undefined, null, false, the zeros, `nan` and the empty text. -/
def truthy : Value → Bool
  | undefined | null => false
  | bool b => b
  | number n => !n.isZero && !n.isNaN
  | text t => !t.isEmpty
  | object _ | array _ | function _ => true

/-- The name of a value's type. Null and arrays count as objects. -/
def typeOf : Value → Text
  | undefined => "undefined"
  | bool _ => "boolean"
  | number _ => "number"
  | text _ => "string"
  | function _ => "function"
  | null | object _ | array _ => "object"

/-- Equality without conversions: numbers by their numeric value, references by what they refer
to. -/
def strictEquals : Value → Value → Bool
  | undefined, undefined => true
  | null, null => true
  | bool a, bool b => a == b
  | number a, number b => a.equal b
  | text a, text b => a == b
  | object a, object b => a == b
  | array a, array b => a == b
  | function a, function b => a == b
  | _, _ => false

end Value

end EcmaTree
