import EcmaTree.Heap.Conversion

/-!
# Equality with conversions

The rules by which the language compares values of different types. They convert one side at a time:
a truth value to a number, a text to a number, and a reference to its text. Every pair of values has
one answer by the rules, which is the one that comparing primitive values gives. So the order of the
two sides does not matter, and neither does the one in which they are converted.
-/

namespace EcmaTree

/-- The types that the language tells apart. Objects, arrays and functions are of one type. -/
inductive ValueType where
  | undefined | null | bool | number | text | reference
deriving DecidableEq

namespace Value

/-- The type of a value. -/
def type : Value → ValueType
  | undefined => .undefined
  | null => .null
  | bool _ => .bool
  | number _ => .number
  | text _ => .text
  | object _ | array _ | function _ => .reference

/-! ## Equality without conversions -/

variable {a b : Value}

theorem strictEquals_comm (a b : Value) : a.strictEquals b = b.strictEquals a := by
  cases a <;> cases b <;> simp [strictEquals, Number.equal_comm, Bool.beq_comm]

/-- Only values of one type are equal without conversions. -/
theorem type_eq_of_strictEquals (h : a.strictEquals b = true) : a.type = b.type := by
  cases a <;> cases b <;> first | rfl | cases h

/-- A value equals itself unless it is `nan`. -/
theorem strictEquals_self (a : Value) : a.strictEquals a = false ↔ a = .number .nan := by
  cases a with
  | number n => cases n <;> simp [strictEquals, Number.equal_self, Number.isNaN]
  | _ => simp [strictEquals]

/-- References are equal when they refer to the same thing. -/
theorem strictEquals_reference (ha : a.isReference = true) :
    a.strictEquals b = true ↔ a = b := by
  cases a <;> cases b <;> simp_all [strictEquals, isReference]

end Value

namespace Heap

variable {h : Heap} {a b : Value} {r : Bool}

/-! ## The rules -/

/-- The answer of the comparison of two values with conversions. -/
inductive LooselyEqual (h : Heap) : Value → Value → Bool → Prop where
  | sameType {a b : Value} (htype : a.type = b.type) : LooselyEqual h a b (a.strictEquals b)
  | nullUndefined : LooselyEqual h .null .undefined true
  | undefinedNull : LooselyEqual h .undefined .null true
  /-- Of a number and a text, the text is converted to a number. -/
  | numberText {x : Number} {t : Text} {r : Bool}
      (hr : LooselyEqual h (.number x) (.number (h.toNumber (.text t))) r) :
      LooselyEqual h (.number x) (.text t) r
  | textNumber {t : Text} {y : Number} {r : Bool}
      (hr : LooselyEqual h (.number (h.toNumber (.text t))) (.number y) r) :
      LooselyEqual h (.text t) (.number y) r
  /-- A truth value is converted to a number before anything else is. -/
  | boolLeft {p : Bool} {b : Value} {r : Bool} (hb : b.type ≠ .bool)
      (hr : LooselyEqual h (.number (h.toNumber (.bool p))) b r) : LooselyEqual h (.bool p) b r
  | boolRight {a : Value} {q : Bool} {r : Bool} (ha : a.type ≠ .bool)
      (hr : LooselyEqual h a (.number (h.toNumber (.bool q))) r) : LooselyEqual h a (.bool q) r
  /-- A reference is converted to its text when the other side is a number or a text. -/
  | referenceRight {a b : Value} {r : Bool} (ha : a.type = .number ∨ a.type = .text)
      (hb : b.isReference = true) (hr : LooselyEqual h a (.text (h.toText b)) r) :
      LooselyEqual h a b r
  | referenceLeft {a b : Value} {r : Bool} (ha : a.isReference = true)
      (hb : b.type = .number ∨ b.type = .text) (hr : LooselyEqual h (.text (h.toText a)) b r) :
      LooselyEqual h a b r
  /-- Undefined and null are not equal to anything else. -/
  | nullish {a b : Value} (hone : a.isNullish ≠ b.isNullish) (ha : a.type ≠ .bool)
      (hb : b.type ≠ .bool) : LooselyEqual h a b false

/-! ## One answer -/

/-- Values of one type are compared without conversions. -/
theorem looseEquals_of_type_eq (h : Heap) (htype : a.type = b.type) :
    h.looseEquals a b = a.strictEquals b := by
  cases a with
  | bool p =>
    cases b with
    | bool q =>
      -- Truth values are compared as numbers.
      change Number.equal (if p then 1 else 0) (if q then 1 else 0) = (p == q)
      revert p q
      decide +kernel
    | _ => cases htype
  | _ => cases b <;> first | rfl | cases htype

theorem looseEquals_bool_left (h : Heap) (p : Bool) (hb : b.type ≠ .bool) :
    h.looseEquals (.bool p) b = h.looseEquals (.number (h.toNumber (.bool p))) b := by
  cases b with
  | bool => exact absurd rfl hb
  | _ => rfl

theorem primitiveEquals_comm (a b : Value) : primitiveEquals a b = primitiveEquals b a := by
  cases a <;> cases b <;>
    simp [primitiveEquals, Value.strictEquals, Number.equal_comm, Bool.beq_comm]

/-- It does not matter on which side a value stands. -/
theorem looseEquals_comm (h : Heap) (a b : Value) : h.looseEquals a b = h.looseEquals b a := by
  rw [looseEquals, looseEquals, Bool.or_comm, Bool.and_comm, Bool.and_comm a.isReference,
    Value.strictEquals_comm, primitiveEquals_comm]

theorem looseEquals_reference_right (h : Heap) (ha : a.type = .number ∨ a.type = .text)
    (hb : b.isReference = true) : h.looseEquals a b = h.looseEquals a (.text (h.toText b)) := by
  cases a with
  | number | text =>
    cases b with
    | object | array | function => rfl
    | _ => cases hb
  | _ => simp [Value.type] at ha

/-- What the rules answer is the comparison of primitive values. -/
theorem LooselyEqual.eq_looseEquals (hr : h.LooselyEqual a b r) : r = h.looseEquals a b := by
  induction hr with
  | sameType htype => exact (looseEquals_of_type_eq h htype).symm
  | nullUndefined | undefinedNull => rfl
  | numberText _ ih | textNumber _ ih => exact ih
  | boolLeft hb _ ih => rw [ih, looseEquals_bool_left h _ hb]
  | boolRight ha _ ih =>
    rw [ih, looseEquals_comm h _ (.bool _), looseEquals_bool_left h _ ha, looseEquals_comm]
  | referenceRight ha hb _ ih => rw [ih, looseEquals_reference_right h ha hb]
  | @referenceLeft a b _ ha hb _ ih =>
    rw [ih, looseEquals_comm h a b, looseEquals_reference_right h hb ha, looseEquals_comm]
  | @nullish a b hone _ _ =>
    rw [looseEquals]
    cases ha : a.isNullish <;> cases hb : b.isNullish <;> simp_all

/-! ## An answer for every pair -/

theorem looselyEqual_number (h : Heap) (x : Number) (b : Value) :
    h.LooselyEqual (.number x) b (h.looseEquals (.number x) b) := by
  cases b with
  | undefined | null => exact .nullish Bool.false_ne_true nofun nofun
  | bool => exact .boolRight nofun (.sameType rfl)
  | number => exact .sameType rfl
  | text => exact .numberText (.sameType rfl)
  | object | array | function => exact .referenceRight (.inl rfl) rfl (.numberText (.sameType rfl))

theorem looselyEqual_text (h : Heap) (t : Text) (b : Value) :
    h.LooselyEqual (.text t) b (h.looseEquals (.text t) b) := by
  cases b with
  | undefined | null => exact .nullish Bool.false_ne_true nofun nofun
  | bool => exact .boolRight nofun (.textNumber (.sameType rfl))
  | number => exact .textNumber (.sameType rfl)
  | text => exact .sameType rfl
  | object | array | function => exact .referenceRight (.inr rfl) rfl (.sameType rfl)

theorem looselyEqual_bool (h : Heap) (p : Bool) (b : Value) :
    h.LooselyEqual (.bool p) b (h.looseEquals (.bool p) b) := by
  by_cases hb : b.type = .bool
  · have htype : (Value.bool p).type = b.type := hb.symm
    rw [looseEquals_of_type_eq h htype]
    exact .sameType htype
  · rw [looseEquals_bool_left h p hb]
    exact .boolLeft hb (looselyEqual_number h _ b)

/-- Each rule for the left side has its mirror image for the right one. -/
theorem LooselyEqual.symm (hr : h.LooselyEqual a b r) : h.LooselyEqual b a r := by
  induction hr with
  | @sameType a b htype =>
    rw [Value.strictEquals_comm]
    exact .sameType htype.symm
  | nullUndefined => exact .undefinedNull
  | undefinedNull => exact .nullUndefined
  | numberText _ ih => exact .textNumber ih
  | textNumber _ ih => exact .numberText ih
  | boolLeft hb _ ih => exact .boolRight hb ih
  | boolRight ha _ ih => exact .boolLeft ha ih
  | referenceRight ha hb _ ih => exact .referenceLeft hb ha ih
  | referenceLeft ha hb _ ih => exact .referenceRight hb ha ih
  | nullish hone ha hb => exact .nullish hone.symm hb ha

/-- Every pair of values has an answer. -/
theorem looselyEqual_looseEquals (h : Heap) (a b : Value) :
    h.LooselyEqual a b (h.looseEquals a b) := by
  have hmirror (hr : h.LooselyEqual b a (h.looseEquals b a)) :
      h.LooselyEqual a b (h.looseEquals a b) := by
    rw [looseEquals_comm]
    exact hr.symm
  cases a with
  | bool p => exact looselyEqual_bool h p b
  | number x => exact looselyEqual_number h x b
  | text t => exact looselyEqual_text h t b
  | undefined =>
    cases b with
    | undefined => exact .sameType rfl
    | null => exact .undefinedNull
    | bool q => exact hmirror (looselyEqual_bool h q _)
    | number | text | object | array | function =>
      exact .nullish Bool.false_ne_true.symm nofun nofun
  | null =>
    cases b with
    | undefined => exact .nullUndefined
    | null => exact .sameType rfl
    | bool q => exact hmirror (looselyEqual_bool h q _)
    | number | text | object | array | function =>
      exact .nullish Bool.false_ne_true.symm nofun nofun
  | object | array | function =>
    cases b with
    | undefined | null => exact .nullish Bool.false_ne_true nofun nofun
    | bool q => exact hmirror (looselyEqual_bool h q _)
    | number y => exact hmirror (looselyEqual_number h y _)
    | text t => exact hmirror (looselyEqual_text h t _)
    | object | array | function => exact .sameType rfl

/-- The rules answer what the comparison of primitive values does, and nothing else. -/
theorem looselyEqual_iff : h.LooselyEqual a b r ↔ r = h.looseEquals a b := by
  constructor
  · intro hr
    exact hr.eq_looseEquals
  · rintro rfl
    exact looselyEqual_looseEquals h a b

/-! ## Laws -/

theorem looseEquals_of_strictEquals (h : Heap) (hab : a.strictEquals b = true) :
    h.looseEquals a b = true := by
  rw [looseEquals_of_type_eq h (Value.type_eq_of_strictEquals hab), hab]

theorem looseEquals_of_isNullish (h : Heap) (ha : a.isNullish = true) :
    h.looseEquals a b = b.isNullish := by
  rw [looseEquals, ha, Bool.true_or, if_pos rfl, Bool.true_and]

theorem looseEquals_reference_iff (h : Heap) (ha : a.isReference = true)
    (hb : b.isReference = true) : h.looseEquals a b = true ↔ a = b := by
  have htype {v : Value} (hv : v.isReference = true) : v.type = .reference := by
    cases v with
    | object | array | function => rfl
    | _ => cases hv
  rw [looseEquals_of_type_eq h ((htype ha).trans (htype hb).symm)]
  exact Value.strictEquals_reference ha

theorem looseEquals_self (h : Heap) (a : Value) :
    h.looseEquals a a = false ↔ a = .number .nan := by
  rw [looseEquals_of_type_eq h rfl]
  exact Value.strictEquals_self a

/-- In every heap, whatever its references form, the comparison of two values with conversions has
the one answer that the rules of the language give it. It is symmetric, holds where the comparison
without conversions does, keeps undefined and null apart from everything else and references apart
from each other, and of all values only `nan` differs from itself. -/
theorem looseEquals_conservative (h : Heap) (a b : Value) :
    (∀ r, h.LooselyEqual a b r ↔ r = h.looseEquals a b) ∧
    h.looseEquals a b = h.looseEquals b a ∧
    (a.strictEquals b = true → h.looseEquals a b = true) ∧
    (a.isNullish = true → h.looseEquals a b = b.isNullish) ∧
    (a.isReference = true → b.isReference = true → (h.looseEquals a b = true ↔ a = b)) ∧
    (h.looseEquals a a = false ↔ a = .number .nan) := by
  refine ⟨fun _ ↦ looselyEqual_iff, looseEquals_comm h a b, ?_, ?_, ?_, looseEquals_self h a⟩
  · exact looseEquals_of_strictEquals h
  · exact looseEquals_of_isNullish h
  · exact looseEquals_reference_iff h

/-- An array that holds nothing but itself has the empty text, and is equal to false but not to
another such array. -/
theorem looseEquals_conservative_cyclic :
    let h := ((Heap.empty.newArray #[.array ⟨0⟩]).2.newArray #[.array ⟨1⟩]).2
    let ring : Value := .array ⟨0⟩
    let other : Value := .array ⟨1⟩
    h.LooselyEqual ring (.bool false) true ∧ h.looseEquals (.bool false) ring = true ∧
      ring.strictEquals ring = true ∧ h.looseEquals ring ring = true ∧
      ring.isReference = true ∧ other.isReference = true ∧ h.looseEquals ring other = false ∧
      Value.null.isNullish = true ∧ h.looseEquals .null ring = false := by
  intro h ring other
  have hfalse : true = h.looseEquals ring (.bool false) := by decide +kernel
  obtain ⟨hanswer, hsymm, -, -, -, -⟩ := looseEquals_conservative h ring (.bool false)
  obtain ⟨-, -, hstrict, -, -, -⟩ := looseEquals_conservative h ring ring
  obtain ⟨-, -, -, -, hsame, -⟩ := looseEquals_conservative h ring other
  obtain ⟨-, -, -, hnullish, -, -⟩ := looseEquals_conservative h .null ring
  refine ⟨(hanswer true).mpr hfalse, hsymm ▸ hfalse.symm, rfl, hstrict rfl, rfl, rfl, ?_, rfl,
    hnullish rfl⟩
  rw [Bool.eq_false_iff]
  exact fun hequal ↦ absurd ((hsame rfl rfl).mp hequal) (by decide)

end Heap

end EcmaTree
