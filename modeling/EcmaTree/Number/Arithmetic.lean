import EcmaTree.Number.Basic

/-!
# Arithmetic

Each operation computes its exact result in units of 2^-1074 and rounds it once.
-/

namespace EcmaTree.Number

/-- The magnitude of a rank with a sign, in units. -/
def signedUnits (negative : Bool) (rank : Nat) : Int :=
  if negative then -(units rank : Int) else units rank

/-- The number of the opposite sign. -/
def neg : Number → Number
  | nan => nan
  | infinity negative => infinity (!negative)
  | finite negative rank bounded => finite (!negative) rank bounded

/-- The rounded sum. A sum of zero is positive unless both operands are negative. -/
def add : Number → Number → Number
  | nan, _ => nan
  | _, nan => nan
  | infinity s, infinity t => if s == t then infinity s else nan
  | infinity s, finite .. => infinity s
  | finite .., infinity t => infinity t
  | finite s a _, finite t b _ =>
    let total := signedUnits s a + signedUnits t b
    if total = 0 then zero (s && t) else ofUnits (decide (total < 0)) total.natAbs 1

/-- The rounded difference. -/
def sub (a b : Number) : Number := add a (neg b)

/-- The rounded product. -/
def mul : Number → Number → Number
  | nan, _ => nan
  | _, nan => nan
  | infinity s, infinity t => infinity (s != t)
  | infinity s, finite t b _ => if b = 0 then nan else infinity (s != t)
  | finite s a _, infinity t => if a = 0 then nan else infinity (s != t)
  | finite s a _, finite t b _ => ofUnits (s != t) (units a * units b) unit

/-- The rounded quotient. A quotient by zero is infinite, unless it is that of two zeros. -/
def div : Number → Number → Number
  | nan, _ => nan
  | _, nan => nan
  | infinity _, infinity _ => nan
  | infinity s, finite t _ _ => infinity (s != t)
  | finite s _ _, infinity t => zero (s != t)
  | finite s a _, finite t b _ =>
    if b = 0 then if a = 0 then nan else infinity (s != t)
    else ofUnits (s != t) (units a <<< 1074) (units b)

/-- The remainder of the division that truncates its quotient; it has the sign of the dividend. -/
def rem : Number → Number → Number
  | nan, _ => nan
  | _, nan => nan
  | infinity _, _ => nan
  | finite s a bounded, infinity _ => finite s a bounded
  | finite s a _, finite _ b _ =>
    if b = 0 then nan else ofUnits s (units a % units b) 1

end EcmaTree.Number
