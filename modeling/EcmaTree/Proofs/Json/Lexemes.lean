import EcmaTree.Json.Printer
import EcmaTree.Proofs.Json.Recognition

/-!
# Lexemes of JSON

What is written for a string or a number is in the grammar. A string is written for just its bytes,
whatever they are: no escape that is written is one half of a surrogate pair. A finite number is
written for itself, save that the negative zero loses its sign.
-/

namespace EcmaTree.Json

open Grammar

/-! ## Strings -/

theorem hexDigit_ofHexDigit (d : Nat) : HexDigit (Byte.ofHexDigit d) (d % 16) := by
  have hdigits : ∀ e < 16, Byte.hexDigit? (Byte.ofHexDigit e) = some e := by decide
  have hmod : Byte.ofHexDigit d = Byte.ofHexDigit (d % 16) := by
    rw [Byte.ofHexDigit, Byte.ofHexDigit, Nat.mod_mod]
  rw [← Parser.hexDigit?_eq_some_iff, hmod, hdigits _ (Nat.mod_lt _ (by decide))]

/-- The digits of a control character are its code. -/
theorem code_control {b : UInt8} (hb : b < 0x20) :
    Code [0x30, 0x30, Byte.ofHexDigit (b.toNat / 16), Byte.ofHexDigit b.toNat] b.toNat := by
  have hlt : b.toNat < 0x20 := UInt8.lt_iff_toNat_lt.mp hb
  have hnought : HexDigit 0x30 0 := Parser.hexDigit?_eq_some_iff.mp rfl
  have hcode := Code.mk hnought hnought (hexDigit_ofHexDigit (b.toNat / 16))
    (hexDigit_ofHexDigit b.toNat)
  have hvalue : 0x1000 * 0 + 0x100 * 0 + 0x10 * (b.toNat / 16 % 16) + b.toNat % 16 = b.toNat := by
    omega
  rwa [hvalue] at hcode

/-- A control character is its code in one byte, and no half of a surrogate pair. -/
theorem encode_control {b : UInt8} (hb : b < 0x20) :
    Unicode.isHighSurrogate b.toNat = false ∧ Unicode.encode b.toNat = [b] := by
  have hlt : b.toNat < 0x20 := UInt8.lt_iff_toNat_lt.mp hb
  constructor
  · rw [Unicode.isHighSurrogate, Bool.and_eq_false_iff, decide_eq_false_iff_not]
    exact .inl (by omega)
  · rw [Unicode.encode, if_pos (by omega), UInt8.ofNat_toNat]

/-- The writing of a byte stands for that byte. -/
theorem characters_escapeByte (b : UInt8) {s value : List UInt8} (hs : Characters s value) :
    Characters (escapeByte b ++ s) (b :: value) := by
  rw [escapeByte]
  split_ifs with hquote hbackslash hbackspace hfeed hnewline hreturn htab hcontrol
  iterate 7
    · subst b
      exact .escape (by decide) hs
  · obtain ⟨hhigh, hencode⟩ := encode_control hcontrol
    have hcode := Characters.code (code_control hcontrol)
      (fun h ↦ absurd (hhigh.symm.trans h) Bool.false_ne_true) hs
    rwa [hencode] at hcode
  · exact .plain hquote hbackslash hs

/-- The writing of a string stands for that string. -/
theorem quoted_quoted (t : Text) : Quoted (quoted t) t := by
  have hcharacters (bytes : List UInt8) : Characters (bytes.flatMap escapeByte) bytes := by
    induction bytes with
    | nil => exact .nil
    | cons b bytes ih => exact characters_escapeByte b ih
  have hquoted := Quoted.mk (hcharacters t.toList)
  rwa [Text.ofList_toList] at hquoted

/-! ## Numbers -/

theorem digits_decimalDigits (n : Nat) : Digits (decimalDigits n) :=
  ⟨decimalDigits_ne_nil n, fun _ ↦ isDigit_of_mem_decimalDigits⟩

/-- A sign and the digits of its magnitude write an exponent. -/
theorem exponent_signed {ds : List UInt8} {e : Int} (hds : Digits ds)
    (hvalue : Decimal.natOfDigits ds = e.natAbs) :
    Exponent (0x65 :: (if e < 0 then Byte.minus else Byte.plus) :: ds) e := by
  split
  · next h =>
    have hexponent := Exponent.digits (.inl rfl) .minus hds
    rwa [if_pos rfl, hvalue, ← Int.eq_neg_natAbs_of_nonpos h.le] at hexponent
  · next h =>
    have hexponent := Exponent.digits (.inl rfl) .plus hds
    rwa [if_neg Bool.false_ne_true, hvalue, Int.natAbs_of_nonneg (by omega)] at hexponent

theorem exponent_exponentBytes (exponent : Option Int) :
    Exponent (Numeral.exponentBytes exponent) (exponent.getD 0) := by
  cases exponent with
  | none => exact .none
  | some e => exact exponent_signed (digits_decimalDigits _) (Decimal.natOfDigits_decimalDigits _)

/-- A numeral writes its decimal, in whichever way its exponent is written. -/
theorem magnitude_append (n : Numeral) {power : List UInt8}
    (hpower : Exponent power (n.exponent.getD 0)) (negative : Bool) :
    Magnitude (n.whole ++ (Numeral.fractionBytes n.fraction ++ power))
      (n.decimal negative).digits (n.decimal negative).exponent := by
  have hwhole : Whole n.whole := by
    rcases n.leading with h | ⟨hne, hhead⟩
    · exact h ▸ .nought
    · exact .digits ⟨hne, n.isDigit_whole⟩ hhead
  have hfraction : Fraction (Numeral.fractionBytes n.fraction) n.fraction := by
    rw [Numeral.fractionBytes]
    split
    · next h => exact h ▸ .none
    · next h => exact .point ⟨h, n.isDigit_fraction⟩
  exact .mk hwhole hfraction hpower

/-- A numeral writes its decimal. -/
theorem magnitude_bytes (n : Numeral) (negative : Bool) :
    Magnitude n.bytes (n.decimal negative).digits (n.decimal negative).exponent :=
  magnitude_append n (exponent_exponentBytes n.exponent) negative

/-- The writing of a finite number stands for that number. -/
theorem signed_toText {n : Number} (hfinite : n.isFinite = true)
    (hzero : n.isNegativeZero = false) : Signed n.toText.toList n := by
  obtain ⟨negative, numeral, htext, hnumber⟩ := Number.exists_numeral_toText hfinite hzero
  rw [Decimal.toNumber_eq_nearest] at hnumber
  cases negative with
  | true => exact htext ▸ hnumber ▸ .negative (magnitude_bytes numeral true)
  | false => exact htext ▸ hnumber ▸ .positive (magnitude_bytes numeral false)

end EcmaTree.Json
