import EcmaTree.Number.Numeral
import Mathlib.Data.List.Induction
import Mathlib.Data.Nat.Log
import Mathlib.Tactic.Ring

/-!
# Decimal digits

The digits that a natural number is written with are read back as that number, and there are as many
as its logarithm says.
-/

namespace EcmaTree

theorem Byte.toNat_ofDigit (d : Nat) : (Byte.ofDigit d).toNat = 0x30 + d % 10 := by
  rw [Byte.ofDigit, UInt8.toNat_ofNat']
  omega

theorem Byte.isDigit_ofDigit (d : Nat) : Byte.isDigit (Byte.ofDigit d) = true := by
  rw [Byte.isDigit, Bool.and_eq_true, decide_eq_true_iff, decide_eq_true_iff, UInt8.le_iff_toNat_le,
    UInt8.le_iff_toNat_le, Byte.toNat_ofDigit]
  change 0x30 ≤ 0x30 + d % 10 ∧ 0x30 + d % 10 ≤ 0x39
  omega

theorem Byte.digit_ofDigit (d : Nat) : Byte.digit (Byte.ofDigit d) = d % 10 := by
  rw [Byte.digit, Byte.toNat_ofDigit, Nat.add_sub_cancel_left]

theorem decimalLog_eq_log (n : Nat) : decimalLog n = Nat.log 10 n := by
  fun_induction decimalLog n with
  | case1 n h => exact (Nat.log_of_lt h).symm
  | case2 n h ih => rw [ih, Nat.log_of_one_lt_of_le (by decide) (Nat.not_lt.mp h)]

theorem length_decimalDigits (n : Nat) : (decimalDigits n).length = Nat.log 10 n + 1 := by
  fun_induction decimalDigits n with
  | case1 n h => rw [Nat.log_of_lt h, List.length_singleton]
  | case2 n h ih =>
    rw [List.length_append, ih, Nat.log_of_one_lt_of_le (by decide) (Nat.not_lt.mp h),
      List.length_singleton]

/-- There are as many digits as the nearest powers of ten say. -/
theorem length_decimalDigits_eq {n p : Nat} (hp : 1 ≤ p) (hlow : 10 ^ (p - 1) ≤ n)
    (hhigh : n < 10 ^ p) : (decimalDigits n).length = p := by
  have hlog := Nat.log_eq_of_pow_le_of_lt_pow hlow (by rwa [Nat.sub_add_cancel hp])
  rw [length_decimalDigits, hlog]
  exact Nat.sub_add_cancel hp

theorem decimalDigits_ne_nil (n : Nat) : decimalDigits n ≠ [] := by
  rw [← List.length_pos_iff, length_decimalDigits]
  exact Nat.succ_pos _

theorem isDigit_of_mem_decimalDigits {n : Nat} {b : UInt8} (h : b ∈ decimalDigits n) :
    Byte.isDigit b = true := by
  fun_induction decimalDigits n with
  | case1 n _ =>
    rw [List.mem_singleton.mp h]
    exact Byte.isDigit_ofDigit n
  | case2 n _ ih =>
    rcases List.mem_append.mp h with h | h
    · exact ih h
    · rw [List.mem_singleton.mp h]
      exact Byte.isDigit_ofDigit n

theorem isDigit_of_mem_replicate_append {ds : List UInt8} (n : Nat)
    (h : ∀ b ∈ ds, Byte.isDigit b = true) :
    ∀ b ∈ List.replicate n Byte.zero ++ ds, Byte.isDigit b = true := by
  intro b hb
  rcases List.mem_append.mp hb with hb | hb
  · rw [List.eq_of_mem_replicate hb]
    rfl
  · exact h b hb

/-- Only the number nought begins with a nought. -/
theorem head?_decimalDigits_ne {n : Nat} (hn : n ≠ 0) :
    (decimalDigits n).head? ≠ some Byte.zero := by
  fun_induction decimalDigits n with
  | case1 n h =>
    intro hzero
    have := congrArg UInt8.toNat (Option.some.inj hzero)
    rw [Byte.toNat_ofDigit] at this
    change 0x30 + n % 10 = 0x30 at this
    omega
  | case2 n h ih =>
    rw [List.head?_append, Option.or_of_isSome (by simp [decimalDigits_ne_nil])]
    exact ih (by omega)

namespace Decimal

theorem natOfDigits_append (a b : List UInt8) :
    natOfDigits (a ++ b) = natOfDigits a * 10 ^ b.length + natOfDigits b := by
  induction b using List.reverseRecOn with
  | nil => simp [natOfDigits]
  | append_singleton b d ih =>
    have hstep (ds : List UInt8) :
        natOfDigits (ds ++ [d]) = 10 * natOfDigits ds + Byte.digit d := by
      rw [natOfDigits, List.foldl_append]
      rfl
    rw [← List.append_assoc, hstep, hstep, ih, List.length_append, List.length_singleton]
    ring

theorem natOfDigits_replicate_zero (n : Nat) : natOfDigits (List.replicate n Byte.zero) = 0 := by
  induction n with
  | zero => rfl
  | succ n ih =>
    rw [List.replicate_succ', natOfDigits_append, ih, Nat.zero_mul]
    rfl

/-- Noughts in front of digits change nothing. -/
theorem natOfDigits_replicate_append (n : Nat) (ds : List UInt8) :
    natOfDigits (List.replicate n Byte.zero ++ ds) = natOfDigits ds := by
  rw [natOfDigits_append, natOfDigits_replicate_zero, Nat.zero_mul, Nat.zero_add]

theorem natOfDigits_decimalDigits (n : Nat) : natOfDigits (decimalDigits n) = n := by
  fun_induction decimalDigits n with
  | case1 n h =>
    change 10 * 0 + Byte.digit (Byte.ofDigit n) = n
    rw [Byte.digit_ofDigit]
    omega
  | case2 n h ih =>
    rw [natOfDigits_append, ih]
    change n / 10 * 10 ^ 1 + (10 * 0 + Byte.digit (Byte.ofDigit n)) = n
    rw [Byte.digit_ofDigit]
    omega

end Decimal

end EcmaTree
