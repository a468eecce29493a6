import EcmaTree.Proofs.Number.Formats
import EcmaTree.Proofs.Storing

/-!
# Numbers as keys

A number is the key of an element exactly if it is a natural number with at most 15 digits, and then
of the element that it counts to. As the key of anything else it finds nothing in an array or a text
and stores nothing there: what numbers are written as is never the name of a property.
-/

namespace EcmaTree

/-! ## Digits in words -/

/-- What the first bytes of a short text count to, up to the last one that is a digit, fits into a
word of 64 bits. -/
theorem Decimal.natOfDigits_lt_two_pow {t : Text} {ds rest : List UInt8} {b : UInt8}
    (ht : t.toList = ds ++ b :: rest) (hlength : t.length ≤ 15)
    (hds : ∀ d ∈ ds, Byte.isDigit d = true) (hb : Byte.isDigit b = true) :
    10 * natOfDigits ds + Byte.digit b < 2 ^ 64 := by
  have hshort : ds.length ≤ 14 := by
    rw [Text.length_eq, ht, List.length_append, List.length_cons] at hlength
    omega
  have hvalue : natOfDigits ds < 10 ^ 14 :=
    (natOfDigits_lt hds).trans_le (Nat.pow_le_pow_right (by decide) hshort)
  have hdigit := Byte.digit_lt hb
  omega

namespace Number

/-! ## The text of a natural number -/

/-- A natural number is written as its digits. -/
theorem toText_ofNat {n : Nat} (hn : n < 2 ^ 53) : (ofNat n).toText = Text.ofNat n := by
  obtain ⟨rank, hrank, hexact, hunits⟩ := exists_ofNat_eq hn
  rw [hexact, toText]
  by_cases hzero : rank = 0
  · have hn0 : n = 0 := by
      subst hzero
      have hnone : n * unit = 0 := hunits.symm
      exact (Nat.mul_eq_zero.mp hnone).resolve_right unit_pos.ne'
    rw [if_pos hzero, hn0]
    decide +kernel
  · have hwhole : units rank >>> 1074 = n := by
      rw [hunits, Decimal.shiftRight_eq_div_unit, Nat.mul_div_cancel n unit_pos]
    have hinteger : units rank % unit = 0 := by rw [hunits, Nat.mul_mod_left]
    have hsmall : n < Nat.pow 10 21 := hn.trans (by decide)
    rw [if_neg hzero, if_neg Bool.false_ne_true, magnitudeDigits, hwhole, if_pos, Text.ofNat]
    simp [hinteger, hsmall]

/-- The numbers that are written as indices are the natural numbers with at most 15 digits. -/
theorem index?_toText_eq_some_iff {x : Number} {i : Nat} :
    x.toText.index? = some i ↔ x.integer? = some ↑i ∧ i < 10 ^ 15 := by
  by_cases hx : x.isFinite = true
  · rw [Text.index?_eq_some_iff]
    apply and_congr_left
    intro hi
    have hsmall : i < 2 ^ 53 := hi.trans (by decide)
    rw [integer?_eq_some_iff hsmall, ← toText_ofNat hsmall]
    exact toText_eq_iff hx (ofNat_spec hsmall).1
  · have hnone : x.toText.index? = none ∧ x.integer? = none := by
      cases x with
      | nan => decide +kernel
      | infinity negative => cases negative <;> decide +kernel
      | finite => exact absurd rfl hx
    simp [hnone]

/-! ## Numbers name no property -/

/-- What a number is written as is read back as that number. -/
theorem ofText_toText {x : Number} (hx : x.isNegativeZero = false) : ofText x.toText = x := by
  cases x with
  | nan => decide +kernel
  | infinity negative => cases negative <;> decide +kernel
  | finite =>
    have hback := ofText_of_signed (Json.signed_toText rfl hx)
    rwa [Text.ofList_toList] at hback

/-- A text that is read as no number is not what a number is written as. -/
theorem toText_ne {t : Text} (hnan : ofText t = nan) (hne : t ≠ nan.toText) (x : Number) :
    x.toText ≠ t := by
  intro htext
  by_cases hx : x.isNegativeZero = true
  · have hzero : x.toText = (zero false).toText := by
      cases x with
      | nan | infinity => cases hx
      | finite negative rank hrank =>
        cases negative with
        | false => cases hx
        | true =>
          obtain rfl : rank = 0 := eq_of_beq hx
          rfl
    rw [← htext, hzero, ofText_toText rfl] at hnan
    cases hnan
  · have hback := ofText_toText (Bool.eq_false_iff.mpr hx)
    rw [htext, hnan] at hback
    rw [← htext, ← hback] at hne
    exact hne rfl

theorem toText_ne_lengthKey (x : Number) : x.toText ≠ lengthKey :=
  toText_ne (by decide +kernel) (by decide +kernel) x

theorem arrayMethod_ofText?_toText (x : Number) : ArrayMethod.ofText? x.toText = none := by
  rw [ArrayMethod.ofText?, List.find?_eq_none]
  intro m _
  rw [beq_iff_eq]
  apply (toText_ne _ _ x).symm <;> cases m <;> decide +kernel

theorem textMethod_ofText?_toText (x : Number) : TextMethod.ofText? x.toText = none := by
  rw [TextMethod.ofText?, List.find?_eq_none]
  intro m _
  rw [beq_iff_eq]
  apply (toText_ne _ _ x).symm <;> cases m <;> decide +kernel

end Number

/-! ## What a number finds in an array or a text -/

namespace State

/-- Under the key, arrays and texts are read at an index, and arrays are written there up to the
greatest length. Texts are never written. -/
structure FindsElement (s : State) (key : Text) (i : Nat) : Prop where
  array (id : ArrayId) (span : Span) :
    Eval.getMember (.array id) key span s = .done ((s.heap.elements id).getD i .undefined) s
  text (t : Text) (span : Span) :
    Eval.getMember (.text t) key span s =
      .done (((t.byte? i).map fun b ↦ .text (.single b)).getD .undefined) s
  store (id : ArrayId) (v : Value) (span : Span) :
    Eval.setMember (.array id) key v span s =
      if i < maxArrayLength then .done () { s with heap := s.heap.modifyArray id (written · i v) }
      else Eval.raise .arrayLength span s
  dropped (t : Text) (v : Value) (span : Span) : Eval.setMember (.text t) key v span s = .done () s

/-- Under the key, arrays and texts have nothing, and what is stored there is dropped. -/
structure FindsNothing (s : State) (key : Text) : Prop where
  array (id : ArrayId) (span : Span) :
    Eval.getMember (.array id) key span s = .done .undefined s
  text (t : Text) (span : Span) : Eval.getMember (.text t) key span s = .done .undefined s
  store (id : ArrayId) (v : Value) (span : Span) :
    Eval.setMember (.array id) key v span s = .done () s
  dropped (t : Text) (v : Value) (span : Span) : Eval.setMember (.text t) key v span s = .done () s

variable {s : State} {x : Number} {i : Nat}

theorem findsElement (hi : x.toText.index? = some i) : s.FindsElement x.toText i where
  array id span := by
    change Outcome.done (s.heap.arrayMember id x.toText) s = _
    rw [Heap.arrayMember, if_neg x.toText_ne_lengthKey, hi]
  text t span := by
    change Outcome.done (Heap.textMember t x.toText) s = _
    rw [Heap.textMember, if_neg x.toText_ne_lengthKey, hi]
    dsimp only
    cases t.byte? i <;> rfl
  store id v span := by
    rw [Eval.setMember, Eval.setArrayMember_of_ne id x.toText_ne_lengthKey, hi]
  dropped _ _ _ := rfl

theorem findsNothing (hnone : x.toText.index? = none) : s.FindsNothing x.toText where
  array id span := by
    change Outcome.done (s.heap.arrayMember id x.toText) s = _
    rw [Heap.arrayMember, if_neg x.toText_ne_lengthKey, hnone, x.arrayMethod_ofText?_toText]
  text t span := by
    change Outcome.done (Heap.textMember t x.toText) s = _
    rw [Heap.textMember, if_neg x.toText_ne_lengthKey, hnone, x.textMethod_ofText?_toText]
  store id v span := by
    rw [Eval.setMember, Eval.setArrayMember_of_ne id x.toText_ne_lengthKey, hnone]
  dropped _ _ _ := rfl

end State

/-- The texts that denote indices are the numerals of the numbers with at most 15 digits, so an
index has one key, and reading it never leaves a word of 64 bits. A number is the key of an index
exactly if it is that natural number, the negative zero being zero, and of arrays and texts it
finds that element and nothing else. -/
theorem index_keys_canonical (s : State) (x : Number) (k : Text) :
    (∀ i, k.index? = some i ↔ k = Text.ofNat i ∧ i < 10 ^ 15) ∧
    (∀ k' i, k.index? = some i → k'.index? = some i → k = k') ∧
    (∀ ds b rest, k.toList = ds ++ b :: rest → k.length ≤ 15 →
      (∀ d ∈ ds, Byte.isDigit d = true) → Byte.isDigit b = true →
        10 * Decimal.natOfDigits ds + Byte.digit b < 2 ^ 64) ∧
    (∀ i, (s.heap.propertyKey (.number x)).index? = some i ↔
      x.integer? = some ↑i ∧ i < 10 ^ 15) ∧
    (∀ i : Nat, x.integer? = some ↑i → i < 10 ^ 15 →
      s.FindsElement (s.heap.propertyKey (.number x)) i) ∧
    ((∀ i : Nat, x.integer? = some ↑i → 10 ^ 15 ≤ i) →
      s.FindsNothing (s.heap.propertyKey (.number x))) := by
  have hindex (i : Nat) : x.toText.index? = some i ↔ x.integer? = some ↑i ∧ i < 10 ^ 15 :=
    Number.index?_toText_eq_some_iff
  refine ⟨fun _ ↦ Text.index?_eq_some_iff, ?_, ?_, hindex, ?_, ?_⟩
  · intro k' i hk hk'
    rw [(Text.index?_eq_some_iff.mp hk).1, (Text.index?_eq_some_iff.mp hk').1]
  · intro ds b rest hbytes hlength hds hb
    exact Decimal.natOfDigits_lt_two_pow hbytes hlength hds hb
  · intro i hinteger hi
    exact State.findsElement ((hindex i).mpr ⟨hinteger, hi⟩)
  · intro hlarge
    apply State.findsNothing
    apply Option.eq_none_iff_forall_ne_some.mpr
    intro i hi
    obtain ⟨hinteger, hlt⟩ := (hindex i).mp hi
    exact hlt.not_ge (hlarge i hinteger)

/-- The negative zero finds the first element. The greatest index has 15 nines, and the number after
it finds nothing. -/
theorem index_keys_canonical_negativeZero :
    let s := (Interpreter.start .standard (Heap.empty.newArray #[.null]).2 .start []).state
    let nines : Text := "999999999999999"
    let past : Number := 1000000000000000
    nines.index? = some (10 ^ 15 - 1) ∧ (∀ k, k.index? = some (10 ^ 15 - 1) → nines = k) ∧
      10 * Decimal.natOfDigits (nines.toList.take 14) + 9 < 2 ^ 64 ∧
      (Number.zero true).integer? = some 0 ∧
      s.FindsElement (s.heap.propertyKey (.number (.zero true))) 0 ∧
      past.integer? = some (10 ^ 15) ∧ s.FindsNothing (s.heap.propertyKey (.number past)) := by
  intro s nines past
  have hnines : nines.index? = some (10 ^ 15 - 1) := by decide +kernel
  have hzero : (Number.zero true).integer? = some 0 := by decide +kernel
  have hpast : past.integer? = some (10 ^ 15) := by decide +kernel
  have hbytes : nines.toList = nines.toList.take 14 ++ 0x39 :: [] := by decide +kernel
  have hdigits : ∀ d ∈ nines.toList.take 14, Byte.isDigit d = true := by decide +kernel
  obtain ⟨-, hunique, hword, -, hfound, -⟩ := index_keys_canonical s (.zero true) nines
  obtain ⟨-, -, -, -, -, hnothing⟩ := index_keys_canonical s past nines
  refine ⟨hnines, fun k ↦ hunique k _ hnines, ?_, hzero, hfound 0 hzero (by decide), hpast, ?_⟩
  · exact hword _ 0x39 [] hbytes (by decide +kernel) hdigits (by decide)
  · apply hnothing
    intro i hi
    rw [hpast, Option.some.injEq] at hi
    omega

end EcmaTree
