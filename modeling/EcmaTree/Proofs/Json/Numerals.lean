import EcmaTree.Json.Parser
import EcmaTree.Proofs.Json.Grammar

/-!
# Numerals of JSON

The reader of numbers passes over exactly the numerals of the grammar, and gives the number that the
grammar gives. It goes on as long as it can, so a numeral is read as a whole where nothing follows
that a number goes on with.
-/

namespace EcmaTree.Json

variable {s rest ds whole fraction places power lexeme : List UInt8} {b : UInt8}

namespace Grammar

/-- Digits begin with a digit. -/
theorem Digits.exists_eq_cons (h : Digits ds) :
    ∃ b tail, ds = b :: tail ∧ Byte.isDigit b = true := by
  obtain ⟨b, tail, rfl⟩ := List.exists_cons_of_ne_nil h.1
  exact ⟨b, tail, rfl, h.2 b List.mem_cons_self⟩

theorem Whole.isDigits (h : Whole whole) : Digits whole := by
  cases h with
  | nought => exact ⟨List.cons_ne_nil _ _, List.forall_mem_singleton.mpr rfl⟩
  | digits hds => exact hds

/-- An exponent does not go on with the digits in front of it. -/
theorem Exponent.head?_append {e : Int} (h : Exponent power e)
    (hrest : ∀ b ∈ rest.head?, Byte.isDigit b = false ∧ b ≠ 0x2E) :
    ∀ b ∈ (power ++ rest).head?, Byte.isDigit b = false ∧ b ≠ 0x2E := by
  cases h with
  | none => exact hrest
  | digits hmark =>
    intro b hb
    obtain rfl := Option.some.inj hb
    rcases hmark with rfl | rfl <;> decide

/-- A fraction does not go on with the digits in front of it. -/
theorem Fraction.head?_append (h : Fraction fraction places)
    (hrest : ∀ b ∈ rest.head?, Byte.isDigit b = false ∧ b ≠ 0x2E) :
    ∀ b ∈ (fraction ++ rest).head?, Byte.isDigit b = false := by
  cases h with
  | none => exact fun b hb ↦ (hrest b hb).1
  | point =>
    intro b hb
    obtain rfl := Option.some.inj hb
    decide

/-- A number without its sign begins with a digit. -/
theorem Magnitude.exists_eq_cons {digits : Nat} {e : Int} (h : Magnitude s digits e) :
    ∃ b tail, s = b :: tail ∧ Byte.isDigit b = true := by
  cases h with
  | mk hwhole =>
    obtain ⟨b, tail, rfl, hb⟩ := hwhole.isDigits.exists_eq_cons
    exact ⟨b, _, rfl, hb⟩

/-! ## The decimal of a lexeme -/

theorem Fraction.splitFraction (h : Fraction fraction places)
    (hrest : ∀ b ∈ rest.head?, Byte.isDigit b = false ∧ b ≠ 0x2E) :
    Decimal.splitFraction (fraction ++ rest) = (places, rest) := by
  cases h with
  | none =>
    cases rest with
    | nil => rfl
    | cons b tail =>
      rw [List.nil_append, Decimal.splitFraction, if_neg]
      rw [beq_iff_eq]
      exact (hrest b rfl).2
  | point hds => exact Decimal.splitDigits_append hds.2 fun b hb ↦ (hrest b hb).1

theorem Sign.splitSign {sign : List UInt8} {negative : Bool} (h : Sign sign negative)
    (hds : Digits ds) : Decimal.splitSign (sign ++ ds) = (negative, ds) := by
  cases h with
  | none =>
    obtain ⟨b, tail, rfl, hb⟩ := hds.exists_eq_cons
    rw [List.nil_append, Decimal.splitSign, if_neg, if_neg] <;>
    · rw [beq_iff_eq]
      rintro rfl
      exact absurd hb (by decide)
  | plus | minus => rfl

theorem Exponent.exponent? {e : Int} (h : Exponent power e) : Decimal.exponent? power = some e := by
  cases h with
  | none => rfl
  | @digits mark sign ds negative hmark hsign hds =>
    have hmark : (mark == 0x65 || mark == 0x45) = true := by
      rw [Bool.or_eq_true, beq_iff_eq, beq_iff_eq]
      exact hmark
    have hdigits : (ds.isEmpty || !ds.all Byte.isDigit) = false := by
      rw [Bool.or_eq_false_iff, List.isEmpty_eq_false_iff, Bool.not_eq_false', List.all_eq_true]
      exact hds
    rw [Decimal.exponent?, if_pos hmark, hsign.splitSign hds]
    simp only [hdigits, Bool.false_eq_true, if_false]

/-- What follows the sign of a literal is read as its digits and its power of ten. -/
theorem Magnitude.ofBytes? {digits : Nat} {e : Int} {lexeme : List UInt8} {negative : Bool}
    (h : Magnitude s digits e) (hsign : Decimal.splitSign lexeme = (negative, s)) :
    Decimal.ofBytes? lexeme = some ⟨negative, digits, e⟩ := by
  cases h with
  | @mk whole fraction places power e hwhole hfraction hpower =>
    have hhead : ∀ b ∈ power.head?, Byte.isDigit b = false ∧ b ≠ 0x2E :=
      List.append_nil power ▸ hpower.head?_append nofun
    have hdigits := Decimal.splitDigits_append hwhole.isDigits.2 (hfraction.head?_append hhead)
    have hne : (whole.isEmpty && places.isEmpty) = false := by
      rw [List.isEmpty_eq_false_iff.mpr hwhole.isDigits.1, Bool.false_and]
    simp only [Decimal.ofBytes?, hsign, hdigits, hfraction.splitFraction hhead, hne,
      Bool.false_eq_true, if_false, hpower.exponent?, Option.map_some]

/-- A numeral is read as the number it stands for. -/
theorem Signed.ofLexeme {n : Number} (h : Signed s n) : Parser.ofLexeme s = n := by
  have hnumber {negative : Bool} {t : List UInt8} {digits : Nat} {e : Int}
      (ht : Magnitude t digits e)
      (hsign : Decimal.splitSign s = (negative, t)) :
      Parser.ofLexeme s = Decimal.nearest ⟨negative, digits, e⟩ := by
    rw [Parser.ofLexeme, ht.ofBytes? hsign]
    exact Decimal.toNumber_eq_nearest _
  cases h with
  | positive h =>
    obtain ⟨b, tail, rfl, hb⟩ := h.exists_eq_cons
    apply hnumber h
    rw [Decimal.splitSign, if_neg, if_neg] <;>
    · rw [beq_iff_eq]
      rintro rfl
      exact absurd hb (by decide)
  | negative h => exact hnumber h rfl

end Grammar

namespace Parser

open Grammar

/-- No digit comes next. -/
def EndsDigits (rest : List UInt8) : Prop := ∀ b ∈ rest.head?, Byte.isDigit b = false

/-- What follows a number: nothing, or a byte that no number goes on with. -/
def EndsNumber (rest : List UInt8) : Prop :=
  ∀ b ∈ rest.head?, Byte.isDigit b = false ∧ b ≠ 0x2E ∧ b ≠ 0x65 ∧ b ≠ 0x45

theorem endsNumber_cons (hb : Byte.isDigit b = false ∧ b ≠ 0x2E ∧ b ≠ 0x65 ∧ b ≠ 0x45) :
    EndsNumber (b :: rest) := by
  intro c hc
  obtain rfl := Option.some.inj hc
  exact hb

/-- What a reader is mapped to was read. -/
theorem exists_of_map_eq_ok {α β : Type} {r : Reading α} {f : α × List UInt8 → β × List UInt8}
    {result : β × List UInt8} (h : r.map f = .ok result) : ∃ a, r = .ok a ∧ f a = result := by
  cases r with
  | error e => exact nomatch h
  | ok a => exact ⟨a, rfl, Except.ok.inj h⟩

/-! ## Digits -/

/-- Exactly the longest run of digits is passed over. -/
theorem digits_eq_ok_iff :
    digits s = .ok (ds, rest) ↔ Digits ds ∧ s = ds ++ rest ∧ EndsDigits rest := by
  constructor
  · intro h
    rw [digits] at h
    split at h
    · exact nomatch h
    · next ds' rest' hne hsplit =>
      obtain ⟨rfl, rfl⟩ := Prod.mk.inj (Except.ok.inj h)
      obtain ⟨rfl, rfl⟩ := Prod.mk.inj hsplit
      refine ⟨⟨hne, fun b ↦ List.mem_takeWhile_imp⟩, List.takeWhile_append_dropWhile.symm, ?_⟩
      intro b hb
      have := List.head?_dropWhile_not Byte.isDigit s
      rwa [Option.mem_def.mp hb] at this
  · rintro ⟨⟨hne, hds⟩, rfl, hrest⟩
    rw [digits, Decimal.splitDigits_append hds hrest]
    split
    · next h => exact absurd (Prod.mk.inj h).1 hne
    · next h => rw [h]

theorem wholePart_sound (h : wholePart s = .ok (whole, rest)) :
    Whole whole ∧ s = whole ++ rest := by
  fun_cases wholePart s with
  | case1 =>
    obtain ⟨rfl, rfl⟩ := Prod.mk.inj (Except.ok.inj h)
    exact ⟨.nought, rfl⟩
  | case2 _ hnought =>
    rw [wholePart] at h
    · obtain ⟨hds, rfl, -⟩ := digits_eq_ok_iff.mp h
      refine ⟨.digits hds fun hhead ↦ ?_, rfl⟩
      obtain ⟨tail, rfl⟩ := List.head?_eq_some_iff.mp hhead
      exact hnought _ rfl
    · exact hnought

theorem wholePart_complete (h : Whole whole) (hrest : EndsDigits rest) :
    wholePart (whole ++ rest) = .ok (whole, rest) := by
  cases h with
  | nought => rfl
  | digits hds hhead =>
    rw [wholePart]
    · exact digits_eq_ok_iff.mpr ⟨hds, rfl, hrest⟩
    · rintro tail h
      obtain ⟨b, ds, rfl, -⟩ := hds.exists_eq_cons
      exact hhead (congrArg some (List.cons.inj h).1)

/-! ## Fractions and exponents -/

theorem fractionPart_sound (h : fractionPart s = .ok (fraction, rest)) :
    ∃ places, Fraction fraction places ∧ s = fraction ++ rest := by
  fun_cases fractionPart s with
  | case1 tail =>
    obtain ⟨⟨ds, after⟩, hread, hresult⟩ := exists_of_map_eq_ok h
    obtain ⟨rfl, rfl⟩ := Prod.mk.inj hresult
    obtain ⟨hds, rfl, -⟩ := digits_eq_ok_iff.mp hread
    exact ⟨ds, .point hds, rfl⟩
  | case2 _ hpoint =>
    rw [fractionPart] at h
    · obtain ⟨rfl, rfl⟩ := Prod.mk.inj (Except.ok.inj h)
      exact ⟨[], .none, rfl⟩
    · exact hpoint

theorem fractionPart_complete (h : Fraction fraction places)
    (hrest : ∀ b ∈ rest.head?, Byte.isDigit b = false ∧ b ≠ 0x2E) :
    fractionPart (fraction ++ rest) = .ok (fraction, rest) := by
  cases h with
  | none =>
    rw [List.nil_append, fractionPart]
    rintro tail rfl
    exact (hrest _ rfl).2 rfl
  | point hds =>
    rw [List.cons_append, fractionPart,
      digits_eq_ok_iff.mpr ⟨hds, rfl, fun b hb ↦ (hrest b hb).1⟩]
    rfl

/-- The sign of an exponent stands between its mark and its digits. -/
theorem exponentPart_sound (h : exponentPart s = .ok (power, rest)) :
    ∃ e, Exponent power e ∧ s = power ++ rest := by
  have hdigits {mark : UInt8} {sign tail : List UInt8} {negative : Bool}
      (hmark : mark = 0x65 ∨ mark = 0x45) (hsign : Sign sign negative)
      (htail : (digits tail).map (fun read ↦ (mark :: (sign ++ read.1), read.2)) =
        .ok (power, rest)) :
      ∃ e, Exponent power e ∧ mark :: (sign ++ tail) = power ++ rest := by
    obtain ⟨⟨ds, after⟩, hread, hresult⟩ := exists_of_map_eq_ok htail
    obtain ⟨rfl, rfl⟩ := Prod.mk.inj hresult
    obtain ⟨hds, rfl, -⟩ := digits_eq_ok_iff.mp hread
    refine ⟨_, .digits hmark hsign hds, ?_⟩
    rw [List.cons_append, List.append_assoc]
  fun_cases exponentPart s with
  | case1 => exact hdigits (.inl rfl) .plus h
  | case2 => exact hdigits (.inl rfl) .minus h
  | case3 => exact hdigits (.inr rfl) .plus h
  | case4 => exact hdigits (.inr rfl) .minus h
  | case5 tail hplus hminus =>
    rw [exponentPart] at h
    · exact hdigits (.inl rfl) .none h
    · exact hplus
    · exact hminus
  | case6 tail hplus hminus =>
    rw [exponentPart] at h
    · exact hdigits (.inr rfl) .none h
    · exact hplus
    · exact hminus
  | case7 =>
    rw [exponentPart] at h
    · obtain ⟨rfl, rfl⟩ := Prod.mk.inj (Except.ok.inj h)
      exact ⟨0, .none, rfl⟩
    all_goals assumption

theorem exponentPart_complete {e : Int} (h : Exponent power e) (hrest : EndsNumber rest) :
    exponentPart (power ++ rest) = .ok (power, rest) := by
  cases h with
  | none =>
    have hhead {b : UInt8} {tail : List UInt8} (h : rest = b :: tail) : b ≠ 0x65 ∧ b ≠ 0x45 :=
      (hrest b (h ▸ rfl)).2.2
    rw [List.nil_append, exponentPart]
    exacts [fun _ h ↦ (hhead h).1 rfl, fun _ h ↦ (hhead h).1 rfl, fun _ h ↦ (hhead h).2 rfl,
      fun _ h ↦ (hhead h).2 rfl, fun _ h ↦ (hhead h).1 rfl, fun _ h ↦ (hhead h).2 rfl]
  | @digits mark sign ds negative hmark hsign hds =>
    have hread := digits_eq_ok_iff.mpr ⟨hds, rfl, fun b hb ↦ (hrest b hb).1⟩
    rw [List.cons_append, List.append_assoc]
    rcases hmark with rfl | rfl <;> cases hsign with
    | none =>
      obtain ⟨b, ds, rfl, hb⟩ := hds.exists_eq_cons
      rw [List.nil_append, exponentPart, hread]
      · rfl
      all_goals
        rintro _ ⟨⟩
        exact absurd hb (by decide)
    | plus | minus =>
      rw [List.singleton_append, exponentPart, hread]
      rfl

/-! ## Numbers -/

theorem unsignedLexeme_sound (h : unsignedLexeme s = .ok (lexeme, rest)) :
    ∃ digits e, Magnitude lexeme digits e ∧ s = lexeme ++ rest := by
  rw [unsignedLexeme] at h
  split at h
  · exact nomatch h
  next whole afterWhole hreadWhole =>
  split at h
  · exact nomatch h
  next fraction afterFraction hreadFraction =>
  obtain ⟨⟨power, after⟩, hreadPower, hresult⟩ := exists_of_map_eq_ok h
  obtain ⟨rfl, rfl⟩ := Prod.mk.inj hresult
  obtain ⟨hwhole, rfl⟩ := wholePart_sound hreadWhole
  obtain ⟨places, hfraction, rfl⟩ := fractionPart_sound hreadFraction
  obtain ⟨e, hpower, rfl⟩ := exponentPart_sound hreadPower
  rw [List.append_assoc whole]
  refine ⟨_, _, .mk hwhole hfraction hpower, ?_⟩
  rw [List.append_assoc, List.append_assoc]

theorem unsignedLexeme_complete {digits : Nat} {e : Int} (h : Magnitude lexeme digits e)
    (hrest : EndsNumber rest) : unsignedLexeme (lexeme ++ rest) = .ok (lexeme, rest) := by
  cases h with
  | mk hwhole hfraction hpower =>
    have hhead := hpower.head?_append fun b hb ↦ ⟨(hrest b hb).1, (hrest b hb).2.1⟩
    rw [unsignedLexeme, List.append_assoc, List.append_assoc,
      wholePart_complete hwhole (hfraction.head?_append hhead)]
    dsimp only
    rw [fractionPart_complete hfraction hhead]
    dsimp only
    rw [exponentPart_complete hpower hrest, ← List.append_assoc]
    rfl

/-- What is read as a number is a numeral of it. -/
theorem number_sound {j : Json} (h : number s = .ok (j, rest)) :
    ∃ lexeme n, Signed lexeme n ∧ j = .number n ∧ s = lexeme ++ rest := by
  obtain ⟨⟨lexeme, after⟩, hlexeme, hresult⟩ := exists_of_map_eq_ok h
  obtain ⟨rfl, rfl⟩ := Prod.mk.inj hresult
  suffices h : ∃ n, Signed lexeme n ∧ s = lexeme ++ after by
    obtain ⟨n, hn, hs⟩ := h
    exact ⟨lexeme, n, hn, by rw [hn.ofLexeme], hs⟩
  fun_cases numberLexeme s with
  | case1 tail =>
    obtain ⟨⟨magnitude, after⟩, hread, hresult⟩ := exists_of_map_eq_ok hlexeme
    obtain ⟨rfl, rfl⟩ := Prod.mk.inj hresult
    obtain ⟨digits, e, hmagnitude, rfl⟩ := unsignedLexeme_sound hread
    exact ⟨_, .negative hmagnitude, rfl⟩
  | case2 _ hminus =>
    rw [numberLexeme] at hlexeme
    · obtain ⟨digits, e, hmagnitude, rfl⟩ := unsignedLexeme_sound hlexeme
      exact ⟨_, .positive hmagnitude, rfl⟩
    · exact hminus

/-- A numeral is read as a whole where the number ends behind it. -/
theorem number_complete {n : Number} (h : Signed lexeme n) (hrest : EndsNumber rest) :
    number (lexeme ++ rest) = .ok (.number n, rest) := by
  have hlexeme : numberLexeme (lexeme ++ rest) = .ok (lexeme, rest) := by
    cases h with
    | positive h =>
      rw [← unsignedLexeme_complete h hrest, numberLexeme]
      obtain ⟨b, tail, rfl, hb⟩ := h.exists_eq_cons
      rintro _ ⟨⟩
      exact absurd hb (by decide)
    | negative h =>
      rw [List.cons_append, numberLexeme, unsignedLexeme_complete h hrest]
      rfl
  rw [number, hlexeme, ← h.ofLexeme]
  rfl

end Parser

end EcmaTree.Json
