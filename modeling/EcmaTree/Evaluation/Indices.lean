import EcmaTree.Heap.Conversion

/-!
# Indices from arguments

How an argument of a method becomes an index between zero and a length.
-/

namespace EcmaTree

namespace Number

/-- The index that a number denotes in a sequence of the given length: fractions are cut off, a
negative number counts from the end, and what lies outside is moved to the nearer end. -/
def relativeIndex (n : Number) (length : Nat) : Nat :=
  match n with
  | nan => 0
  | infinity negative => if negative then 0 else length
  | finite .. =>
    let whole := n.truncate?.getD 0
    if whole < 0 then (length + whole).toNat else min whole.toNat length

/-- The index that a number denotes in a sequence of the given length: fractions are cut off, and
what lies outside is moved to the nearer end. -/
def clampedIndex (n : Number) (length : Nat) : Nat :=
  match n with
  | nan => 0
  | infinity negative => if negative then 0 else length
  | finite .. => min (n.truncate?.getD 0).toNat length

/-- The index that a number denotes when nothing is moved: none if it is negative or infinite. -/
def exactIndex? (n : Number) : Option Nat :=
  match n with
  | nan => some 0
  | infinity _ => none
  | finite .. =>
    let whole := n.truncate?.getD 0
    if whole < 0 then none else some whole.toNat

end Number

namespace Heap

/-- The relative index that an argument denotes; the fallback stands for undefined. -/
def relativeIndex (h : Heap) (arg : Value) (length fallback : Nat) : Nat :=
  match arg with
  | .undefined => fallback
  | v => (h.toNumber v).relativeIndex length

/-- The clamped index that an argument denotes; the fallback stands for undefined. -/
def clampedIndex (h : Heap) (arg : Value) (length fallback : Nat) : Nat :=
  match arg with
  | .undefined => fallback
  | v => (h.toNumber v).clampedIndex length

end Heap

end EcmaTree
