/-!
# Numbers

A number is an IEEE 754 binary64 datum. Every finite magnitude is a whole number of *units* of
2^-1074, the least positive magnitude, and the finite magnitudes are counted upwards from zero by
their *rank*. Rounding takes an exact quotient of units to the nearest rank, a tie going to the even
one; all arithmetic and all reading of numerals is this one rounding of an exact result.
-/

namespace EcmaTree

/-- How many finite magnitudes there are. -/
abbrev Number.rankCount : Nat := 0x7FF0000000000000

/-- A binary64 number. All data that are not numbers are one value, and zero has two signs. -/
inductive Number where
  /-- Not a number. -/
  | nan
  /-- An infinity of either sign. -/
  | infinity (negative : Bool)
  /-- A finite number, by its sign and the rank of its magnitude. -/
  | finite (negative : Bool) (rank : Nat) (bounded : rank < Number.rankCount)
deriving DecidableEq

namespace Number

/-- Number of fraction bits of a binade. -/
abbrev binade : Nat := 0x10000000000000

/-- How often the spacing of magnitudes has doubled at a rank. -/
def scale (rank : Nat) : Nat := rank / binade - 1

/-- The magnitude of a rank, in units of 2^-1074. -/
def units (rank : Nat) : Nat := (rank - scale rank * binade) <<< scale rank

/-- The units of the number one. -/
def unit : Nat := 1 <<< 1074

/-- The natural number nearest to a quotient; a tie goes to the even one. -/
def roundQuotient (num den : Nat) : Nat :=
  let quotient := num / den
  let rest := num % den
  if 2 * rest < den then quotient
  else if den < 2 * rest then quotient + 1
  else quotient + quotient % 2

/-- The rank nearest to the quotient `num / den` of units; a tie goes to the even one. The result
may be past the last finite rank. -/
def nearestRank (num den : Nat) : Nat :=
  let shift := (num / den).log2 - 52
  shift * binade + roundQuotient num (den <<< shift)

/-- The number of a sign and a rank; the ranks past the last finite one are infinite. -/
def ofRank (negative : Bool) (rank : Nat) : Number :=
  if h : rank < rankCount then .finite negative rank h else .infinity negative

/-- The number nearest to a quotient of units with a sign. -/
def ofUnits (negative : Bool) (num den : Nat) : Number := ofRank negative (nearestRank num den)

/-- The zero of a sign. -/
def zero (negative : Bool) : Number := .finite negative 0 (by decide)

/-- The number nearest to a natural number. -/
def ofNat (n : Nat) : Number := ofUnits false (n <<< 1074) 1

/-- The number nearest to an integer. -/
def ofInt (n : Int) : Number := ofUnits (decide (n < 0)) (n.natAbs <<< 1074) 1

instance (n : Nat) : OfNat Number n := ⟨ofNat n⟩

instance : Inhabited Number := ⟨.nan⟩

/-- The number with a binary64 encoding. -/
def ofBits (bits : UInt64) : Number :=
  let negative := bits.toNat / 0x8000000000000000 % 2 == 1
  let rank := bits.toNat % 0x8000000000000000
  if h : rank < rankCount then .finite negative rank h
  else if rank = rankCount then .infinity negative
  else .nan

/-- Not a number. -/
def isNaN : Number → Bool
  | nan => true
  | _ => false

/-- Neither infinite nor `nan`. -/
def isFinite : Number → Bool
  | finite .. => true
  | _ => false

/-- One of the two zeros. -/
def isZero : Number → Bool
  | finite _ rank _ => rank == 0
  | _ => false

/-- Zero of the negative sign. -/
def isNegativeZero : Number → Bool
  | finite true rank _ => rank == 0
  | _ => false

/-- The place of a number on the number line, both zeros being at 0. -/
def position : Number → Option Int
  | nan => none
  | infinity negative => some (if negative then -rankCount else rankCount)
  | finite negative rank _ => some (if negative then -rank else rank)

/-- Numeric equality: zeros are equal whatever their signs, and `nan` equals nothing. -/
def equal (a b : Number) : Bool :=
  match a.position, b.position with
  | some x, some y => x == y
  | _, _ => false

/-- Numeric order; `nan` is not below or above anything. -/
def lt (a b : Number) : Bool :=
  match a.position, b.position with
  | some x, some y => decide (x < y)
  | _, _ => false

/-- Numeric order or equality. -/
def le (a b : Number) : Bool :=
  match a.position, b.position with
  | some x, some y => decide (x ≤ y)
  | _, _ => false

/-- The integer part of a finite number: what stands before the point. -/
def truncate? : Number → Option Int
  | finite negative rank _ =>
    let whole : Int := units rank >>> 1074
    some (if negative then -whole else whole)
  | _ => none

/-- A finite number without a fraction, as an integer. -/
def integer? : Number → Option Int
  | finite negative rank _ =>
    if units rank % unit = 0 then
      let whole : Int := units rank >>> 1074
      some (if negative then -whole else whole)
    else none
  | _ => none

/-- Numeric equality is symmetric. -/
theorem equal_comm (a b : Number) : a.equal b = b.equal a := by
  unfold equal
  cases a.position <;> cases b.position <;> simp [Bool.beq_comm]

/-- A number equals itself unless it is `nan`. -/
theorem equal_self (a : Number) : a.equal a = !a.isNaN := by
  cases a <;> simp [equal, position, isNaN]

end Number

end EcmaTree
