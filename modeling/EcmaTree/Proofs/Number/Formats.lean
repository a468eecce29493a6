import EcmaTree.Proofs.Json.Lexemes
import EcmaTree.Proofs.Number.Literals

/-!
# Numbers without loss

What a finite number is written as is a numeral of JSON, and both readers give the number back, so
different numbers have different texts. A number that is not written in full is written in the
general layout, with the fewest digits that do not change it: with fewer digits this layout is read
as another number.
-/

namespace EcmaTree

open Json.Grammar

variable {rank precision : Nat} {whole fraction power ds : List UInt8} {e : Int}

/-! ## The general layout -/

namespace Number

/-- An exponent behind its mark: a sign and at least two digits. -/
def paddedExponent (e : Int) : List UInt8 :=
  (if e < 0 then Byte.minus else Byte.plus) ::
    (List.replicate (2 - (decimalDigits e.natAbs).length) Byte.zero ++ decimalDigits e.natAbs)

/-- So many significant digits, the leading one of which has the given exponent: with an exponent
when that is below -4 or no less than the number of digits, and positionally otherwise. Zeros at the
end of a fraction are dropped. -/
def generalLayout (precision digits : Nat) (leading : Int) : List UInt8 :=
  if leading < -4 || precision ≤ leading then
    withFraction ((decimalDigits digits).take 1) ((decimalDigits digits).drop 1) ++
      0x65 :: paddedExponent leading
  else positional (decimalDigits digits) leading

/-- The bytes of a sign. Only a negative one is written. -/
def signBytes (negative : Bool) : List UInt8 := if negative then [Byte.minus] else []

/-- The sign, and the magnitude of a rank above zero rounded to so many significant digits. -/
def general (negative : Bool) (rank precision : Nat) : List UInt8 :=
  signBytes negative ++
    generalLayout precision (roundedDigits rank precision).1 (roundedDigits rank precision).2

/-- Digits without the zeros in front, the last digit kept. -/
def dropLeadingZeros : List UInt8 → List UInt8
  | b :: c :: rest => if b = Byte.zero then dropLeadingZeros (c :: rest) else b :: c :: rest
  | short => short

/-- Drops the leading zeros of an exponent, which stand behind its mark and its sign. -/
def shortenExponent : List UInt8 → List UInt8
  | [] => []
  | b :: rest =>
    if b = 0x65 then b :: (rest.take 1 ++ dropLeadingZeros (rest.drop 1))
    else b :: shortenExponent rest

end Number

/-! ## Values of layouts -/

/-- Noughts behind the digits are as good as a power of ten. -/
theorem Decimal.nearest_mul_pow (negative : Bool) (digits zeros : Nat) (e : Int) :
    Decimal.nearest ⟨negative, digits * 10 ^ zeros, e⟩ =
      Decimal.nearest ⟨negative, digits, e + zeros⟩ := by
  have hpow (n : Nat) : 0 < 10 ^ n := Nat.pow_pos (by decide)
  have hexponents : zeros + e.toNat + (-(e + zeros)).toNat = (e + zeros).toNat + (-e).toNat := by
    omega
  have hcross : digits * 10 ^ zeros * 10 ^ e.toNat * Number.unit * 10 ^ (-(e + zeros)).toNat =
      digits * 10 ^ (e + zeros).toNat * Number.unit * 10 ^ (-e).toNat := by
    calc _ = digits * 10 ^ (zeros + e.toNat + (-(e + zeros)).toNat) * Number.unit := by ring
      _ = digits * 10 ^ ((e + zeros).toNat + (-e).toNat) * Number.unit := by rw [hexponents]
      _ = _ := by ring
  rw [nearest, nearest, Number.ofUnits, Number.ofUnits,
    ← Number.nearestRank_mul_mul_right (hpow (-(e + zeros)).toNat), hcross,
    Nat.mul_comm (10 ^ (-e).toNat), Number.nearestRank_mul_mul_right (hpow _)]

/-! ## Layouts are numerals -/

namespace Number

/-- A numeral stands for what it denotes, in whichever way its exponent is written. -/
theorem signed_of_denotes {n : Numeral} {digits : Nat} (hdenotes : n.Denotes digits e)
    (hpower : Exponent power (n.exponent.getD 0)) (negative : Bool) :
    Signed (signBytes negative ++ (n.whole ++ Numeral.fractionBytes n.fraction ++ power))
      (Decimal.nearest ⟨negative, digits, e⟩) := by
  obtain ⟨zeros, rfl, hexponent⟩ := hdenotes
  rw [Decimal.nearest_mul_pow, ← hexponent, List.append_assoc]
  cases negative with
  | false => exact .positive (Json.magnitude_append n hpower false)
  | true => exact .negative (Json.magnitude_append n hpower true)

theorem exponent_padded (e : Int) : Exponent (0x65 :: paddedExponent e) e := by
  have hdigits := Json.digits_decimalDigits e.natAbs
  refine Json.exponent_signed ⟨List.append_ne_nil_of_right_ne_nil _ hdigits.1,
    isDigit_of_mem_replicate_append _ hdigits.2⟩ ?_
  rw [Decimal.natOfDigits_replicate_append, Decimal.natOfDigits_decimalDigits]

/-- The general layout is a numeral of its digits. -/
theorem signed_generalLayout {digits : Nat} (hpos : 1 ≤ precision)
    (hlow : 10 ^ (precision - 1) ≤ digits) (hhigh : digits < 10 ^ precision) (leading : Int)
    (negative : Bool) :
    Signed (signBytes negative ++ generalLayout precision digits leading)
      (Decimal.nearest ⟨negative, digits, leading - (precision - 1 : Nat)⟩) := by
  have hlength := length_decimalDigits_eq hpos hlow hhigh
  have hds := Json.digits_decimalDigits digits
  have hhead := head?_decimalDigits_ne (Nat.lt_of_lt_of_le (Nat.pow_pos (by decide)) hlow).ne'
  rw [generalLayout]
  split
  · obtain ⟨n, hmantissa, hexponent, hdenotes⟩ :=
      Numeral.exists_scientific hds.2 hds.1 hhead leading
    have hpower : Exponent (0x65 :: paddedExponent leading) (n.exponent.getD 0) :=
      hexponent ▸ exponent_padded leading
    rw [hlength, Decimal.natOfDigits_decimalDigits] at hdenotes
    exact hmantissa ▸ signed_of_denotes hdenotes hpower negative
  · next hlayout =>
    simp only [Bool.or_eq_true, decide_eq_true_iff, not_or, not_le] at hlayout
    obtain ⟨n, hbytes, hdenotes⟩ :=
      Numeral.exists_positional hds.2 hds.1 hhead (hlength.symm ▸ hlayout.2)
    rw [hlength, Decimal.natOfDigits_decimalDigits] at hdenotes
    rw [← hbytes, n.bytes_eq]
    exact signed_of_denotes hdenotes (Json.exponent_exponentBytes _) negative

/-! ## The general layout with a short exponent -/

theorem shortenExponent_append (h : ∀ b ∈ ds, b ≠ 0x65) (rest : List UInt8) :
    shortenExponent (ds ++ rest) = ds ++ shortenExponent rest := by
  induction ds with
  | nil => rfl
  | cons b ds ih =>
    obtain ⟨hb, hds⟩ := List.forall_mem_cons.mp h
    rw [List.cons_append, shortenExponent, if_neg hb, ih hds, List.cons_append]

theorem dropLeadingZeros_replicate_append (n : Nat) (hne : ds ≠ []) :
    dropLeadingZeros (List.replicate n Byte.zero ++ ds) = dropLeadingZeros ds := by
  obtain ⟨b, tail, rfl⟩ := List.exists_cons_of_ne_nil hne
  induction n with
  | zero => rfl
  | succ n ih =>
    cases n with
    | zero => exact if_pos rfl
    | succ n => exact (if_pos rfl).trans ih

theorem dropLeadingZeros_decimalDigits (n : Nat) :
    dropLeadingZeros (decimalDigits n) = decimalDigits n := by
  rcases Nat.eq_zero_or_pos n with rfl | hn
  · rw [decimalDigits]
    rfl
  · have hhead := head?_decimalDigits_ne hn.ne'
    generalize decimalDigits n = ds at hhead
    cases ds with
    | nil => rfl
    | cons b tail =>
      cases tail with
      | nil => rfl
      | cons c tail => exact if_neg fun h ↦ hhead (congrArg some h)

/-- Digits and a point hold no mark of an exponent. -/
theorem ne_mark_of_mem_withFraction (hwhole : ∀ b ∈ whole, Byte.isDigit b = true)
    (hfraction : ∀ b ∈ fraction, Byte.isDigit b = true) :
    ∀ b ∈ withFraction whole fraction, b ≠ 0x65 := by
  have hdigit {b : UInt8} (hb : Byte.isDigit b = true) : b ≠ 0x65 := by
    rintro rfl
    exact absurd hb (by decide)
  obtain ⟨zeros, hzeros⟩ := Numeral.exists_eq_dropTrailingZeros_append fraction
  have hkept : ∀ b ∈ dropTrailingZeros fraction, b ≠ 0x65 :=
    fun b hb ↦ hdigit (hfraction b (hzeros ▸ List.mem_append_left _ hb))
  rw [Numeral.withFraction_eq, Numeral.fractionBytes, List.forall_mem_append]
  refine ⟨fun b hb ↦ hdigit (hwhole b hb), ?_⟩
  split
  · exact List.forall_mem_nil _
  · exact List.forall_mem_cons.mpr ⟨by decide, hkept⟩

theorem ne_mark_of_mem_signBytes (negative : Bool) : ∀ b ∈ signBytes negative, b ≠ 0x65 := by
  cases negative with
  | false => exact List.forall_mem_nil _
  | true => exact List.forall_mem_singleton.mpr (by decide)

theorem shortenExponent_scientific (hds : Digits ds) (leading : Int) :
    shortenExponent (withFraction (ds.take 1) (ds.drop 1) ++ 0x65 :: paddedExponent leading) =
      scientific ds leading := by
  rw [shortenExponent_append, shortenExponent, if_pos rfl, scientific, paddedExponent]
  · rw [List.take_succ_cons, List.take_zero, List.drop_succ_cons, List.drop_zero,
      dropLeadingZeros_replicate_append _ (decimalDigits_ne_nil _),
      dropLeadingZeros_decimalDigits, List.singleton_append]
  · exact ne_mark_of_mem_withFraction (fun b hb ↦ hds.2 b (List.mem_of_mem_take hb))
      fun b hb ↦ hds.2 b (List.mem_of_mem_drop hb)

theorem shortenExponent_positional (hds : Digits ds) (leading : Int) :
    shortenExponent (positional ds leading) = positional ds leading := by
  rw [← List.append_nil (positional ds leading), shortenExponent_append]
  · rfl
  · rw [positional]
    split
    · exact ne_mark_of_mem_withFraction (List.forall_mem_singleton.mpr rfl)
        (isDigit_of_mem_replicate_append _ hds.2)
    · exact ne_mark_of_mem_withFraction (fun b hb ↦ hds.2 b (List.mem_of_mem_take hb))
        fun b hb ↦ hds.2 b (List.mem_of_mem_drop hb)

/-- What is written with the fewest digits is the general layout with a short exponent. -/
theorem signBytes_append_shortest (negative : Bool) (rank : Nat) :
    signBytes negative ++ shortest rank =
      shortenExponent (general negative rank (Number.precision rank)) := by
  obtain ⟨⟨digits, leading⟩, hrounded⟩ : ∃ d, roundedDigits rank (Number.precision rank) = d :=
    ⟨_, rfl⟩
  have hds := Json.digits_decimalDigits digits
  rw [general, hrounded, shortenExponent_append (ne_mark_of_mem_signBytes negative),
    shortest_eq hrounded, generalLayout]
  split
  · rw [shortenExponent_scientific hds]
  · rw [shortenExponent_positional hds]

example : general false 0x3E7AD7F29ABCAF48 1 = (Text.ofString "1e-07").toList ∧
    shortest 0x3E7AD7F29ABCAF48 = (Text.ofString "1e-7").toList := by
  decide +kernel

/-! ## The fewest digits -/

/-- With fewer digits a rank does not read back. -/
theorem readsBack_of_lt_precision {q : Nat} (hpos : 1 ≤ q) (hq : q < Number.precision rank) :
    readsBack rank q = false := by
  rw [Number.precision] at hq
  cases hfind : (List.range' 1 16).find? (readsBack rank) with
  | none =>
    rw [hfind, Option.getD_none] at hq
    exact Bool.eq_false_iff.mpr
      (List.find?_eq_none.mp hfind q (List.mem_range'_1.mpr ⟨hpos, by omega⟩))
  | some p =>
    rw [hfind, Option.getD_some] at hq
    exact (Bool.not_eq_true' _).mp ((List.find?_range'_eq_some.mp hfind).2.2 q hpos hq)

theorem readsBack_of_toNumber {digits : Nat} {leading : Int} {negative : Bool}
    {hfinite : rank < rankCount} (hrounded : roundedDigits rank precision = (digits, leading))
    (h : Decimal.toNumber ⟨false, digits, leading - (precision - 1 : Nat)⟩ =
      .finite negative rank hfinite) : readsBack rank precision = true := by
  -- The test is opened as a function, so that no check of the proof evaluates powers of ten.
  obtain ⟨test, htest⟩ : ∃ test, readsBack = test := ⟨_, rfl⟩
  rw [htest]
  delta readsBack at htest
  subst htest
  beta_reduce
  rw [hrounded]
  generalize Decimal.toNumber = toNumber at h ⊢
  dsimp only
  rw [h]
  exact beq_self_eq_true rank

/-- The general layout with up to seventeen digits is a numeral, and with fewer digits than are
needed it is one of another number. -/
theorem signed_general (hrank : rank ≠ 0) (hfinite : rank < rankCount) {q : Nat} (hpos : 1 ≤ q)
    (hq : q < Number.precision rank) (negative : Bool) :
    ∃ n, n ≠ .finite negative rank hfinite ∧ Signed (general negative rank q) n := by
  obtain ⟨⟨digits, leading⟩, hrounded⟩ : ∃ d, roundedDigits rank q = d := ⟨_, rfl⟩
  have hle : q ≤ 17 := hq.le.trans (precision_spec hrank hfinite).2.1
  obtain ⟨hlow, hhigh, -⟩ := roundedDigits_spec hrank hpos hle hrounded
  have hsigned := signed_generalLayout hpos hlow hhigh leading negative
  rw [general, hrounded]
  refine ⟨_, fun hback ↦ ?_, hsigned⟩
  -- the sign is no part of what decides whether a rank reads back
  have hnearest := nearestRank_eq_of_ofUnits hback
  have hnumber : Decimal.toNumber ⟨false, digits, leading - (q - 1 : Nat)⟩ =
      .finite false rank hfinite := by
    rw [Decimal.toNumber_eq_nearest, Decimal.nearest, ofUnits, hnearest]
    exact dif_pos hfinite
  have hreads := readsBack_of_toNumber hrounded hnumber
  rw [readsBack_of_lt_precision hpos hq] at hreads
  cases hreads

/-! ## Different numbers have different texts -/

theorem eq_of_toText_eq {x y : Number} (hx : x.isFinite = true ∧ x.isNegativeZero = false)
    (hy : y.isFinite = true ∧ y.isNegativeZero = false) (h : x.toText = y.toText) : x = y := by
  have hback {x : Number} (hx : x.isFinite = true ∧ x.isNegativeZero = false) :
      ofText x.toText = x := by
    have := ofText_of_signed (Json.signed_toText hx.1 hx.2)
    rwa [Text.ofList_toList] at this
  rw [← hback hx, h, hback hy]

theorem equal_finite_iff {s t : Bool} {i j : Nat} {hi : i < rankCount} {hj : j < rankCount} :
    (finite s i hi).equal (finite t j hj) = true ↔ i = j ∧ (s = t ∨ i = 0) := by
  rw [equal, position, position, beq_iff_eq]
  cases s <;> cases t <;> simp <;> omega

theorem toText_zero (negative : Bool) (h : 0 < rankCount) :
    (finite negative 0 h).toText = (zero false).toText :=
  rfl

/-- Finite numbers have the same text exactly if they are equal. -/
theorem toText_eq_iff {x y : Number} (hx : x.isFinite = true) (hy : y.isFinite = true) :
    x.toText = y.toText ↔ x.equal y = true := by
  cases x with
  | nan | infinity => cases hx
  | finite s i hi =>
    cases y with
    | nan | infinity => cases hy
    | finite t j hj =>
      have hzero : (zero false).isFinite = true ∧ (zero false).isNegativeZero = false := ⟨rfl, rfl⟩
      have hnonzero {s : Bool} {i : Nat} (hi : i < rankCount) (hne : i ≠ 0) :
          (finite s i hi).isFinite = true ∧ (finite s i hi).isNegativeZero = false := by
        refine ⟨rfl, ?_⟩
        cases s
        · rfl
        · exact beq_false_of_ne hne
      rw [equal_finite_iff]
      constructor
      · intro h
        by_cases hi0 : i = 0 <;> by_cases hj0 : j = 0
        · exact ⟨hi0.trans hj0.symm, .inr hi0⟩
        · subst hi0
          have := eq_of_toText_eq hzero (hnonzero hj hj0) h
          exact absurd (finite.inj this).2.symm hj0
        · subst hj0
          have := eq_of_toText_eq (hnonzero hi hi0) hzero h
          exact absurd (finite.inj this).2 hi0
        · have := eq_of_toText_eq (hnonzero hi hi0) (hnonzero hj hj0) h
          exact ⟨(finite.inj this).2, .inl (finite.inj this).1⟩
      · rintro ⟨rfl, rfl | rfl⟩
        · rfl
        · rw [toText_zero, toText_zero]

/-- A number that is no integer below 10^21 is written with the fewest digits. -/
theorem toText_of_not_short {negative : Bool} {hfinite : rank < rankCount}
    (h : ∀ k, (finite negative rank hfinite).integer? = some k → 10 ^ 21 ≤ k.natAbs) :
    rank ≠ 0 ∧
      (finite negative rank hfinite).toText.toList = signBytes negative ++ shortest rank := by
  have hrank : rank ≠ 0 := by
    rintro rfl
    have hzero : (finite negative 0 hfinite).integer? = some 0 := by cases negative <;> rfl
    exact absurd (h 0 hzero) (by decide)
  have hshort :
      ¬ (units rank % unit = 0 && decide (units rank >>> 1074 < Nat.pow 10 21)) = true := by
    rw [Bool.and_eq_true, decide_eq_true_iff, decide_eq_true_iff]
    rintro ⟨hinteger, hsmall⟩
    rw [integer?, if_pos hinteger] at h
    have hlarge := h _ rfl
    cases negative with
    | false =>
      rw [if_neg Bool.false_ne_true, Int.natAbs_natCast] at hlarge
      exact Nat.not_le.mpr hsmall hlarge
    | true =>
      rw [if_pos rfl, Int.natAbs_neg, Int.natAbs_natCast] at hlarge
      exact Nat.not_le.mpr hsmall hlarge
  refine ⟨hrank, ?_⟩
  rw [toText, if_neg hrank, magnitudeDigits, if_neg hshort]
  cases negative with
  | false => rw [if_neg Bool.false_ne_true, Text.toList_ofList, signBytes,
      if_neg Bool.false_ne_true, List.nil_append]
  | true => rw [if_pos rfl, Text.toList_ofList, signBytes, if_pos rfl, List.singleton_append]

end Number

/-- Finite numbers are written as numerals of JSON that both readings take back to them, the
negative zero apart, so as keys they are the same only if they are equal. A number that is no
integer below 10^21 is written in the general layout, the leading zeros of its exponent dropped, and
with fewer digits this layout is read as another number. -/
theorem Number.toText_lossless (h : Heap) :
    (∀ x : Number, x.isFinite = true → x.isNegativeZero = false →
      Signed x.toText.toList x ∧ Json.parse x.toText = .ok (.number x) ∧
        h.toNumber (.text x.toText) = x) ∧
    (∀ x y : Number, x.isFinite = true → y.isFinite = true →
      (h.propertyKey (.number x) = h.propertyKey (.number y) ↔ x.equal y = true)) ∧
    ∀ (negative : Bool) (rank : Nat) (hfinite : rank < rankCount),
      (∀ k, (finite negative rank hfinite).integer? = some k → 10 ^ 21 ≤ k.natAbs) →
        ∃ p, 1 ≤ p ∧ p ≤ 17 ∧
          (finite negative rank hfinite).toText.toList = shortenExponent (general negative rank p) ∧
          ∀ q, 1 ≤ q → q < p → ∃ y, y ≠ finite negative rank hfinite ∧
            Json.parse (.ofList (general negative rank q)) = .ok (.number y) ∧
              h.toNumber (.text (.ofList (general negative rank q))) = y := by
  refine ⟨fun x hx hzero ↦ ?_, fun x y ↦ toText_eq_iff, fun negative rank hfinite hlarge ↦ ?_⟩
  · have hsigned := Json.signed_toText hx hzero
    have hparse := parse_of_signed hsigned
    have hback := ofText_of_signed hsigned
    rw [Text.ofList_toList] at hparse hback
    exact ⟨hsigned, hparse, hback⟩
  · obtain ⟨hrank, htext⟩ := toText_of_not_short hlarge
    obtain ⟨hpos, hprecision, -⟩ := precision_spec hrank hfinite
    refine ⟨precision rank, hpos, hprecision, htext.trans (signBytes_append_shortest negative rank),
      fun q hq hlt ↦ ?_⟩
    obtain ⟨y, hne, hsigned⟩ := signed_general hrank hfinite hq hlt negative
    exact ⟨y, hne, parse_of_signed hsigned, ofText_of_signed hsigned⟩

/-- The sum of a tenth and two tenths, and the number below it. -/
theorem Number.toText_lossless_threeTenths :
    let x : Number := .finite false 0x3FD3333333333334 (by decide)
    let y : Number := .finite false 0x3FD3333333333333 (by decide)
    x.isFinite = true ∧ x.isNegativeZero = false ∧ y.isFinite = true ∧ x.integer? = none ∧
      Json.parse x.toText = .ok (.number x) ∧ Heap.empty.toNumber (.text x.toText) = x ∧
      Heap.empty.propertyKey (.number x) ≠ Heap.empty.propertyKey (.number y) ∧
      ∃ p, x.toText.toList = shortenExponent (general false 0x3FD3333333333334 p) ∧
        ∀ q, 1 ≤ q → q < p →
          Heap.empty.toNumber (.text (.ofList (general false 0x3FD3333333333334 q))) ≠ x := by
  intro x y
  obtain ⟨hback, hkeys, hfewest⟩ := Number.toText_lossless Heap.empty
  have hx : x.isFinite = true ∧ x.isNegativeZero = false := ⟨rfl, rfl⟩
  have hinteger : x.integer? = none := by decide +kernel
  obtain ⟨-, hparse, hnumber⟩ := hback x hx.1 hx.2
  have hkey : Heap.empty.propertyKey (.number x) ≠ Heap.empty.propertyKey (.number y) :=
    fun h ↦ absurd ((hkeys x y rfl rfl).mp h) (by decide +kernel)
  obtain ⟨p, -, -, htext, hfewer⟩ := hfewest false 0x3FD3333333333334 (by decide) fun k hk ↦
    nomatch hinteger.symm.trans hk
  refine ⟨hx.1, hx.2, rfl, hinteger, hparse, hnumber, hkey, p, htext, fun q hq hlt ↦ ?_⟩
  obtain ⟨z, hne, -, hz⟩ := hfewer q hq hlt
  exact hz ▸ hne

end EcmaTree
