import EcmaTree.Heap.Conversion
import EcmaTree.Proofs.Json.Recognition
import EcmaTree.Proofs.Number.Integers

/-!
# Texts that stand for numbers

The grammar of the texts that are converted to a number, and to which one: blanks may stand around
an infinity, a hexadecimal literal, a decimal literal, or nothing at all. Every other text is
converted to `nan`, and no text of the grammar is. The numerals of JSON are decimal literals, and
mean the same number in both readings.
-/

namespace EcmaTree

open Json.Grammar

variable {s rest core : List UInt8} {negative : Bool}

/-! ## The grammar -/

namespace Number

/-- The digits of a decimal literal with at most one point, and those of them that stand behind the
point. There is a digit before the point or behind it. -/
inductive Mantissa : List UInt8 → (digits places : List UInt8) → Prop where
  | whole {ds : List UInt8} (hds : Digits ds) : Mantissa ds ds []
  | point {ds places : List UInt8} (hds : Digits ds)
      (hplaces : ∀ b ∈ places, Byte.isDigit b = true) :
      Mantissa (ds ++ Byte.point :: places) (ds ++ places) places
  | fraction {places : List UInt8} (hplaces : Digits places) :
      Mantissa (Byte.point :: places) places places

/-- A decimal literal, and the decimal that it writes. -/
inductive Literal : List UInt8 → Decimal → Prop where
  | mk {sign mantissa digits places power : List UInt8} {negative : Bool} {e : Int}
      (hsign : Sign sign negative) (hmantissa : Mantissa mantissa digits places)
      (hpower : Exponent power e) :
      Literal (sign ++ (mantissa ++ power))
        ⟨negative, Decimal.natOfDigits digits, e - places.length⟩

/-- What stands for a number where no blanks are around it. -/
inductive Numeric : List UInt8 → Prop where
  | empty : Numeric []
  | infinity {sign : List UInt8} {negative : Bool} (hsign : Sign sign negative) :
      Numeric (sign ++ (Text.ofString "Infinity").toList)
  | hexadecimal {mark : UInt8} {ds : List UInt8} (hmark : mark = 0x78 ∨ mark = 0x58)
      (hne : ds ≠ []) (hds : ∀ b ∈ ds, ∃ d, HexDigit b d) : Numeric (Byte.zero :: mark :: ds)
  | decimal {s : List UInt8} {d : Decimal} (h : Literal s d) : Numeric s

/-- What is left when the blanks at both ends are taken away. -/
structure Stripped (s core : List UInt8) : Prop where
  exists_eq : ∃ before after, Blanks before ∧ Blanks after ∧ s = before ++ (core ++ after)
  head : ∀ b ∈ core.head?, Byte.isBlank b = false
  last : ∀ b ∈ core.getLast?, Byte.isBlank b = false

end Number

/-! ## Decimal literals are read -/

namespace Decimal

/-- A sign is split off where none follows it. -/
theorem splitSign_append {sign : List UInt8} (h : Sign sign negative)
    (hrest : ∀ b ∈ rest.head?, b ≠ Byte.plus ∧ b ≠ Byte.minus) :
    splitSign (sign ++ rest) = (negative, rest) := by
  cases h with
  | none =>
    cases rest with
    | nil => rfl
    | cons b tail =>
      obtain ⟨hplus, hminus⟩ := hrest b rfl
      rw [List.nil_append, splitSign, if_neg (by simpa using hminus),
        if_neg (by simpa using hplus)]
  | plus | minus => rfl

theorem sign_splitSign (s : List UInt8) :
    ∃ sign, Sign sign (splitSign s).1 ∧ s = sign ++ (splitSign s).2 := by
  cases s with
  | nil => exact ⟨[], .none, rfl⟩
  | cons b tail =>
    rw [splitSign]
    split_ifs with hminus hplus
    · exact ⟨[Byte.minus], .minus, by rw [beq_iff_eq.mp hminus, List.singleton_append]⟩
    · exact ⟨[Byte.plus], .plus, by rw [beq_iff_eq.mp hplus, List.singleton_append]⟩
    · exact ⟨[], .none, rfl⟩

theorem splitDigits_spec (s : List UInt8) :
    (∀ b ∈ (splitDigits s).1, Byte.isDigit b = true) ∧
      s = (splitDigits s).1 ++ (splitDigits s).2 :=
  ⟨fun _ ↦ List.mem_takeWhile_imp, List.takeWhile_append_dropWhile.symm⟩

theorem exponent?_eq_some_iff {e : Int} : exponent? s = some e ↔ Exponent s e := by
  refine ⟨fun h ↦ ?_, fun h ↦ h.exponent?⟩
  cases s with
  | nil => exact Option.some.inj h ▸ .none
  | cons b tail =>
    obtain ⟨sign, hsign, htail⟩ := sign_splitSign tail
    rw [exponent?] at h
    split at h
    · next hmark =>
      dsimp only at h
      split at h
      · cases h
      · next hdigits =>
        simp only [Bool.or_eq_true, not_or, List.isEmpty_iff, Bool.not_eq_true',
          Bool.not_eq_false, List.all_eq_true, beq_iff_eq] at hdigits hmark
        have hexponent := Exponent.digits hmark hsign hdigits
        rwa [← htail, Option.some.inj h] at hexponent
    · cases h

/-- A point is passed over together with the digits behind it. -/
theorem splitFraction_spec (s : List UInt8) :
    ((splitFraction s).1 = [] ∧ (splitFraction s).2 = s) ∨
      ((∀ b ∈ (splitFraction s).1, Byte.isDigit b = true) ∧
        s = Byte.point :: ((splitFraction s).1 ++ (splitFraction s).2)) := by
  cases s with
  | nil => exact .inl ⟨rfl, rfl⟩
  | cons b tail =>
    rw [splitFraction]
    split
    · next hpoint =>
      obtain ⟨hdigits, htail⟩ := splitDigits_spec tail
      exact .inr ⟨hdigits, by rw [beq_iff_eq.mp hpoint, ← htail]⟩
    · exact .inl ⟨rfl, rfl⟩

/-- What is split off before an exponent is a mantissa if there is a digit in it. -/
theorem exists_mantissa (s : List UInt8)
    (hne : ¬ ((splitDigits s).1 = [] ∧ (splitFraction (splitDigits s).2).1 = [])) :
    ∃ mantissa, Number.Mantissa mantissa
      ((splitDigits s).1 ++ (splitFraction (splitDigits s).2).1)
        (splitFraction (splitDigits s).2).1 ∧
      s = mantissa ++ (splitFraction (splitDigits s).2).2 := by
  obtain ⟨hwhole, hs⟩ := splitDigits_spec s
  rcases splitFraction_spec (splitDigits s).2 with ⟨hnone, hrest⟩ | ⟨hplaces, hpoint⟩
  · rw [hnone, List.append_nil, hrest]
    exact ⟨_, .whole ⟨fun h ↦ hne ⟨h, hnone⟩, hwhole⟩, hs⟩
  · by_cases hempty : (splitDigits s).1 = []
    · rw [hempty, List.nil_append] at hs ⊢
      exact ⟨_, .fraction ⟨fun h ↦ hne ⟨hempty, h⟩, hplaces⟩, hs.trans hpoint⟩
    · refine ⟨_, .point ⟨hempty, hwhole⟩ hplaces, ?_⟩
      rw [List.append_assoc, List.cons_append, ← hpoint, ← hs]

/-- A mantissa is split off where neither a digit nor a point follows. -/
theorem split_mantissa {mantissa digits places : List UInt8}
    (h : Number.Mantissa mantissa digits places)
    (hrest : ∀ b ∈ rest.head?, Byte.isDigit b = false ∧ b ≠ Byte.point) :
    ∃ whole after, splitDigits (mantissa ++ rest) = (whole, after) ∧
      splitFraction after = (places, rest) ∧ digits = whole ++ places ∧ digits ≠ [] := by
  have hpoint (places : List UInt8) (hplaces : ∀ b ∈ places, Byte.isDigit b = true) :
      splitFraction (Byte.point :: (places ++ rest)) = (places, rest) :=
    splitDigits_append hplaces fun b hb ↦ (hrest b hb).1
  cases h with
  | whole hds =>
    exact ⟨_, _, splitDigits_append hds.2 fun b hb ↦ (hrest b hb).1,
      Fraction.none.splitFraction hrest, (List.append_nil _).symm, hds.1⟩
  | @point ds _ hds hplaces =>
    refine ⟨_, _, ?_, hpoint _ hplaces, rfl, List.append_ne_nil_of_left_ne_nil hds.1 _⟩
    rw [List.append_assoc, List.cons_append]
    exact splitDigits_append hds.2 fun b hb ↦ Option.some.inj hb ▸ rfl
  | fraction hplaces => exact ⟨[], _, rfl, hpoint _ hplaces.2, rfl, hplaces.1⟩

/-- Neither a digit nor a point is a sign. -/
theorem head?_mantissa {mantissa digits places : List UInt8}
    (h : Number.Mantissa mantissa digits places) (rest : List UInt8) :
    ∀ b ∈ (mantissa ++ rest).head?, b ≠ Byte.plus ∧ b ≠ Byte.minus := by
  have hdigit {b : UInt8} (hb : Byte.isDigit b = true) : b ≠ Byte.plus ∧ b ≠ Byte.minus := by
    constructor <;>
    · rintro rfl
      exact absurd hb (by decide)
  intro b hb
  cases h with
  | whole hds | point hds =>
    obtain ⟨c, tail, rfl, hc⟩ := hds.exists_eq_cons
    exact Option.some.inj hb ▸ hdigit hc
  | fraction =>
    obtain rfl := Option.some.inj hb
    decide

/-- Reading a whole list as a decimal literal accepts the grammar and nothing else. -/
theorem ofBytes?_eq_some_iff {d : Decimal} : ofBytes? s = some d ↔ Number.Literal s d := by
  constructor
  · intro h
    obtain ⟨sign, hsign, hs⟩ := sign_splitSign s
    simp only [ofBytes?] at h
    split at h
    · cases h
    next hne =>
    obtain ⟨e, hpower, rfl⟩ := Option.map_eq_some_iff.mp h
    rw [exponent?_eq_some_iff] at hpower
    simp only [Bool.and_eq_true, List.isEmpty_iff] at hne
    obtain ⟨mantissa, hmantissa, hunsigned⟩ := exists_mantissa _ hne
    have hliteral := Number.Literal.mk hsign hmantissa hpower
    rwa [← hunsigned, ← hs] at hliteral
  · intro h
    cases h with
    | @mk sign mantissa digits places power negative e hsign hmantissa hpower =>
      have hhead : ∀ b ∈ power.head?, Byte.isDigit b = false ∧ b ≠ Byte.point :=
        List.append_nil power ▸ hpower.head?_append (by simp)
      obtain ⟨whole, after, hwhole, hfraction, rfl, hne⟩ := split_mantissa hmantissa hhead
      have hdigits : ¬ (whole.isEmpty && places.isEmpty) = true := by
        simpa using hne
      simp only [ofBytes?, splitSign_append hsign (head?_mantissa hmantissa _), hwhole, hfraction,
        if_neg hdigits, hpower.exponent?, Option.map_some]

end Decimal

/-! ## No text of the grammar is converted to `nan` -/

namespace Number

theorem isNaN_ofRank (negative : Bool) (rank : Nat) : (ofRank negative rank).isNaN = false := by
  rw [ofRank]
  split <;> rfl

theorem isNaN_nearest (d : Decimal) : d.nearest.isNaN = false := isNaN_ofRank _ _

/-- A number that is not below zero, and no negative zero: what digits from the left add up to. -/
def IsUnsigned : Number → Prop
  | nan => False
  | infinity negative | finite negative _ _ => negative = false

theorem isUnsigned_ofRank (rank : Nat) : (ofRank false rank).IsUnsigned := by
  rw [ofRank]
  split <;> rfl

theorem IsUnsigned.isNaN {n : Number} (h : n.IsUnsigned) : n.isNaN = false := by
  cases n with
  | nan => exact h.elim
  | infinity | finite => rfl

theorem IsUnsigned.add {a b : Number} (ha : a.IsUnsigned) (hb : b.IsUnsigned) :
    (a.add b).IsUnsigned := by
  cases a with
  | nan => exact ha.elim
  | infinity s =>
    cases b with
    | nan => exact hb.elim
    | infinity t =>
      obtain rfl : s = false := ha
      obtain rfl : t = false := hb
      rfl
    | finite => exact ha
  | finite s i _ =>
    cases b with
    | nan => exact hb.elim
    | infinity => exact hb
    | finite t j _ =>
      obtain rfl : s = false := ha
      obtain rfl : t = false := hb
      rw [Number.add]
      split
      · rfl
      · have hsum : ¬ signedUnits false i + signedUnits false j < 0 := by
          rw [signedUnits, signedUnits, if_neg Bool.false_ne_true, if_neg Bool.false_ne_true]
          omega
        rw [decide_eq_false hsum]
        exact isUnsigned_ofRank _

theorem IsUnsigned.mul_sixteen {a : Number} (ha : a.IsUnsigned) : (a.mul 16).IsUnsigned := by
  obtain ⟨rank, hrank, heq, hunits⟩ := exists_ofNat_eq (n := 16) (by decide)
  have hne : rank ≠ 0 := by
    rintro rfl
    exact absurd hunits (by decide +kernel)
  rw [show (16 : Number) = _ from heq]
  cases a with
  | nan => exact ha.elim
  | infinity s =>
    obtain rfl : s = false := ha
    rw [mul, if_neg hne]
    rfl
  | finite s i _ =>
    obtain rfl : s = false := ha
    exact isUnsigned_ofRank _

theorem isNaN_ofHexDigits_iff {ds : List UInt8} {value : Number} (hvalue : value.IsUnsigned) :
    (ofHexDigits ds value).isNaN = false ↔ ∀ b ∈ ds, ∃ d, HexDigit b d := by
  induction ds generalizing value with
  | nil => simpa [ofHexDigits] using hvalue.isNaN
  | cons b ds ih =>
    rw [ofHexDigits, List.forall_mem_cons]
    split
    · next d hd =>
      have hstep : ((value.mul 16).add (ofNat d)).IsUnsigned :=
        hvalue.mul_sixteen.add (isUnsigned_ofRank _)
      rw [ih hstep,
        and_iff_right ⟨d, Json.Parser.hexDigit?_eq_some_iff.mp hd⟩]
    · next hnone =>
      refine iff_of_false (by decide) fun h ↦ ?_
      obtain ⟨d, hd⟩ := h.1
      rw [Json.Parser.hexDigit?_eq_some_iff.mpr hd] at hnone
      cases hnone

/-- The bytes of the word that infinities are written with. -/
theorem toList_infinity : (Text.ofString "Infinity").toList =
    [0x49, 0x6E, 0x66, 0x69, 0x6E, 0x69, 0x74, 0x79] := by
  decide +kernel

theorem toList_plusInfinity : (Text.ofString "+Infinity").toList =
    Byte.plus :: (Text.ofString "Infinity").toList := by
  decide +kernel

theorem toList_minusInfinity : (Text.ofString "-Infinity").toList =
    Byte.minus :: (Text.ofString "Infinity").toList := by
  decide +kernel

theorem ofTrimmed_infinity {sign : List UInt8} (hsign : Sign sign negative) :
    ofTrimmed (sign ++ (Text.ofString "Infinity").toList) = infinity negative := by
  cases hsign with
  | none | plus | minus => decide +kernel

theorem ofTrimmed_hexadecimal {b mark : UInt8} (hmark : mark = 0x78 ∨ mark = 0x58) :
    ofTrimmed (Byte.zero :: mark :: b :: rest) = ofHexDigits (b :: rest) (zero false) := by
  rcases hmark with rfl | rfl <;>
  · rw [ofTrimmed, toList_plusInfinity, toList_minusInfinity, toList_infinity, if_neg (by simp),
      if_neg (by simp)]

/-- What begins like a hexadecimal literal is no decimal literal. -/
theorem ofBytes?_hexadecimal {mark : UInt8} (hmark : mark = 0x78 ∨ mark = 0x58) :
    Decimal.ofBytes? (Byte.zero :: mark :: rest) = none := by
  rcases hmark with rfl | rfl <;> rfl

/-- A decimal literal stands for the number nearest to its exact value. -/
theorem Literal.ofTrimmed {d : Decimal} (h : Literal s d) : ofTrimmed s = d.nearest := by
  have hread := Decimal.ofBytes?_eq_some_iff.mpr h
  have hinfinity : Decimal.ofBytes? (Text.ofString "Infinity").toList = none ∧
      Decimal.ofBytes? (Text.ofString "+Infinity").toList = none ∧
      Decimal.ofBytes? (Text.ofString "-Infinity").toList = none := by
    decide +kernel
  fun_cases Number.ofTrimmed s with
  | case1 _ h =>
    rw [Bool.or_eq_true, beq_iff_eq, beq_iff_eq] at h
    rcases h with rfl | rfl
    · cases hinfinity.1.symm.trans hread
    · cases hinfinity.2.1.symm.trans hread
  | case2 _ _ h =>
    obtain rfl := beq_iff_eq.mp h
    cases hinfinity.2.2.symm.trans hread
  | case3 => cases (ofBytes?_hexadecimal (.inl rfl)).symm.trans hread
  | case4 => cases (ofBytes?_hexadecimal (.inr rfl)).symm.trans hread
  | case5 | case6 =>
    rw [hread]
    exact d.toNumber_eq_nearest

theorem isNaN_ofTrimmed_iff (hne : s ≠ []) : (ofTrimmed s).isNaN = false ↔ Numeric s := by
  have hzero : (zero false).IsUnsigned := rfl
  constructor
  · fun_cases ofTrimmed s with
    | case1 _ h =>
      rw [Bool.or_eq_true, beq_iff_eq, beq_iff_eq] at h
      rcases h with rfl | rfl
      · exact fun _ ↦ .infinity .none
      · exact fun _ ↦ toList_plusInfinity ▸ .infinity .plus
    | case2 _ _ h => exact fun _ ↦ beq_iff_eq.mp h ▸ toList_minusInfinity ▸ .infinity .minus
    | case3 => exact fun h ↦
        .hexadecimal (.inl rfl) (List.cons_ne_nil _ _) ((isNaN_ofHexDigits_iff hzero).mp h)
    | case4 => exact fun h ↦
        .hexadecimal (.inr rfl) (List.cons_ne_nil _ _) ((isNaN_ofHexDigits_iff hzero).mp h)
    | case5 _ _ _ _ h => exact fun _ ↦ .decimal (Decimal.ofBytes?_eq_some_iff.mp h)
    | case6 _ _ _ h =>
      rw [h]
      exact nofun
  · intro h
    cases h with
    | empty => exact absurd rfl hne
    | infinity hsign =>
      rw [ofTrimmed_infinity hsign]
      rfl
    | hexadecimal hmark hds hdigits =>
      obtain ⟨b, rest, rfl⟩ := List.exists_cons_of_ne_nil hds
      rw [ofTrimmed_hexadecimal hmark]
      exact (isNaN_ofHexDigits_iff hzero).mpr hdigits
    | decimal h => rw [h.ofTrimmed, isNaN_nearest]

/-! ## Blanks around a literal -/

theorem blanks_reverse (h : Blanks s) : Blanks s.reverse :=
  fun b hb ↦ h b (List.mem_reverse.mp hb)

/-- Nothing is passed over in front of a byte that is no blank. -/
theorem skipBlanks_eq_self (h : ∀ b ∈ s.head?, Byte.isBlank b = false) :
    Json.Parser.skipBlanks s = s := by
  cases s with
  | nil => rfl
  | cons b tail => exact Json.Parser.skipBlanks_cons (h b rfl) tail

theorem head?_skipBlanks (s : List UInt8) :
    ∀ b ∈ (Json.Parser.skipBlanks s).head?, Byte.isBlank b = false := by
  intro b hb
  have := List.head?_dropWhile_not Byte.isBlank s
  rwa [← Json.Parser.skipBlanks, Option.mem_def.mp hb] at this

/-- The text without the blanks at its two ends, by passing over blanks from either end. -/
theorem toList_trim (t : Text) :
    t.trim.toList =
      (Json.Parser.skipBlanks (Json.Parser.skipBlanks t.toList).reverse).reverse :=
  Text.toList_ofList _

/-- Trimming takes away the blanks at both ends, and nothing else. -/
theorem stripped_iff {t : Text} : Stripped t.toList core ↔ t.trim.toList = core := by
  rw [toList_trim]
  generalize t.toList = s
  constructor
  · rintro ⟨⟨before, after, hbefore, hafter, rfl⟩, hhead, hlast⟩
    rw [Json.Parser.skipBlanks_append hbefore]
    cases core with
    | nil =>
      rw [List.nil_append, ← List.append_nil after, Json.Parser.skipBlanks_append hafter]
      rfl
    | cons b tail =>
      rw [skipBlanks_eq_self (s := b :: tail ++ after) hhead, List.reverse_append,
        Json.Parser.skipBlanks_append (blanks_reverse hafter), skipBlanks_eq_self,
        List.reverse_reverse]
      rwa [List.head?_reverse]
  · rintro rfl
    obtain ⟨before, hbefore, hs⟩ := Json.Parser.exists_blanks s
    obtain ⟨after, hafter, hmiddle⟩ := Json.Parser.exists_blanks (Json.Parser.skipBlanks s).reverse
    have hsplit := congrArg List.reverse hmiddle
    rw [List.reverse_reverse, List.reverse_append] at hsplit
    have hfront := head?_skipBlanks s
    refine ⟨⟨before, after.reverse, hbefore, blanks_reverse hafter, by rw [← hsplit, ← hs]⟩, ?_, ?_⟩
    · intro b hb
      rw [hsplit] at hfront
      exact hfront b (List.mem_head?_append_of_mem_head? hb)
    · rw [List.getLast?_reverse]
      exact head?_skipBlanks _

/-- A text is converted by what is left without the blanks around it. -/
theorem isNaN_ofText_iff (t : Text) :
    (ofText t).isNaN = false ↔ ∃ core, Stripped t.toList core ∧ Numeric core := by
  simp only [stripped_iff, exists_eq_left']
  rw [ofText]
  split
  · next h => exact iff_of_true rfl (List.isEmpty_iff.mp h ▸ .empty)
  · next h => exact isNaN_ofTrimmed_iff (by simpa using h)

/-! ## Literals without blanks around them -/

theorem isBlank_of_isDigit {b : UInt8} (hb : Byte.isDigit b = true) : Byte.isBlank b = false :=
  Json.Parser.isBlank_of_number (.inr hb)

theorem isBlank_of_mem_sign {sign : List UInt8} (h : Sign sign negative) :
    ∀ b ∈ sign, Byte.isBlank b = false := by
  cases h with
  | none => exact List.forall_mem_nil _
  | plus | minus => exact List.forall_mem_singleton.mpr (by decide)

/-- No blanks are inside a decimal literal. -/
theorem Literal.isBlank_of_mem {d : Decimal} (h : Literal s d) :
    ∀ b ∈ s, Byte.isBlank b = false := by
  have hdigits {ds : List UInt8} (hds : ∀ b ∈ ds, Byte.isDigit b = true) :
      ∀ b ∈ ds, Byte.isBlank b = false := fun b hb ↦ isBlank_of_isDigit (hds b hb)
  cases h with
  | mk hsign hmantissa hpower =>
    simp only [List.forall_mem_append]
    refine ⟨isBlank_of_mem_sign hsign, ?_, ?_⟩
    · cases hmantissa with
      | whole hds => exact hdigits hds.2
      | point hds hplaces =>
        rw [List.forall_mem_append, List.forall_mem_cons]
        exact ⟨hdigits hds.2, rfl, hdigits hplaces⟩
      | fraction hplaces => exact List.forall_mem_cons.mpr ⟨rfl, hdigits hplaces.2⟩
    · cases hpower with
      | none => exact List.forall_mem_nil _
      | digits hmark hsign hds =>
        rw [List.forall_mem_cons, List.forall_mem_append]
        refine ⟨?_, isBlank_of_mem_sign hsign, hdigits hds.2⟩
        rcases hmark with rfl | rfl <;> rfl

theorem Literal.ne_nil {d : Decimal} (h : Literal s d) : s ≠ [] := by
  rintro rfl
  cases Decimal.ofBytes?_eq_some_iff.mpr h

theorem Literal.stripped {d : Decimal} (h : Literal s d) : Stripped s s :=
  have hblank := h.isBlank_of_mem
  have hnil : Blanks [] := List.forall_mem_nil _
  ⟨⟨[], [], hnil, hnil, (List.append_nil s).symm⟩,
    fun b hb ↦ hblank b (List.mem_of_mem_head? hb),
    fun b hb ↦ hblank b (List.mem_of_mem_getLast? hb)⟩

theorem Literal.ofText {t : Text} {d : Decimal} (h : Literal core d)
    (ht : Stripped t.toList core) : ofText t = d.nearest := by
  rw [Number.ofText, stripped_iff.mp ht, if_neg (by simpa using h.ne_nil), h.ofTrimmed]

/-- The numerals of JSON are among the decimal literals. -/
theorem exists_literal_of_signed {n : Number} (h : Signed s n) :
    ∃ d, Literal s d ∧ n = d.nearest := by
  have hliteral {sign t : List UInt8} {negative : Bool} {digits : Nat} {e : Int}
      (hsign : Sign sign negative) (ht : Magnitude t digits e) :
      Literal (sign ++ t) ⟨negative, digits, e⟩ := by
    cases ht with
    | mk hwhole hfraction hpower =>
      cases hfraction with
      | none =>
        rw [List.append_nil]
        exact .mk hsign (.whole hwhole.isDigits) hpower
      | point hds =>
        rw [← List.append_assoc _ (_ :: _)]
        exact .mk hsign (.point hwhole.isDigits hds.2) hpower
  cases h with
  | positive h => exact ⟨_, hliteral .none h, rfl⟩
  | negative h => exact ⟨_, hliteral .minus h, rfl⟩

theorem ofText_of_signed {n : Number} (h : Signed s n) : ofText (.ofList s) = n := by
  obtain ⟨d, hliteral, rfl⟩ := exists_literal_of_signed h
  exact hliteral.ofText ((Text.toList_ofList s).symm ▸ hliteral.stripped)

theorem parse_of_signed {n : Number} (h : Signed s n) :
    Json.parse (.ofList s) = .ok (.number n) := by
  apply Json.parse_complete
  rw [Text.toList_ofList, ← List.append_nil s, ← List.nil_append (s ++ [])]
  have hnil : Blanks [] := List.forall_mem_nil _
  exact .mk hnil (.number h) hnil

end Number

/-- A text is converted to a number exactly if it is one of the grammar; a decimal literal is
converted to the number nearest to what it writes, and a numeral of JSON to the number that it is
read as in a document. -/
theorem Heap.toNumber_text_spec (h : Heap) :
    (∀ t : Text, (h.toNumber (.text t)).isNaN = false ↔
      ∃ core, Number.Stripped t.toList core ∧ Number.Numeric core) ∧
    (∀ (t : Text) (core : List UInt8) (d : Decimal), Number.Stripped t.toList core →
      Number.Literal core d → h.toNumber (.text t) = d.nearest) ∧
    ∀ (lexeme : List UInt8) (n : Number), Signed lexeme n →
      Json.parse (.ofList lexeme) = .ok (.number n) ∧ h.toNumber (.text (.ofList lexeme)) = n :=
  ⟨Number.isNaN_ofText_iff, fun _ _ _ ht hliteral ↦ hliteral.ofText ht,
    fun _ _ hn ↦ ⟨Number.parse_of_signed hn, Number.ofText_of_signed hn⟩⟩

theorem Heap.toNumber_text_spec_exponent :
    let lexeme : List UInt8 := [0x2D, 0x31, 0x2E, 0x32, 0x35, 0x65, 0x34]
    let padded : Text := .ofList (Byte.newline :: (lexeme ++ [Byte.space]))
    let n : Number := .ofInt (-12500)
    Signed lexeme n ∧ Json.parse (.ofList lexeme) = .ok (.number n) ∧
      Heap.empty.toNumber (.text (.ofList lexeme)) = n ∧
      Number.Literal lexeme ⟨true, 125, 2⟩ ∧ Number.Stripped padded.toList lexeme ∧
      Heap.empty.toNumber (.text padded) = n := by
  intro lexeme padded n
  have hdigits (ds : List UInt8) (hds : (!ds.isEmpty && ds.all Byte.isDigit) = true) :
      Digits ds := by
    rw [Bool.and_eq_true, Bool.not_eq_true', List.isEmpty_eq_false_iff, List.all_eq_true] at hds
    exact hds
  have hwhole : Whole [0x31] := .digits (hdigits _ rfl) (by decide)
  have hplaces : Digits [0x32, 0x35] := hdigits _ rfl
  have hpower : Exponent [0x65, 0x34] 4 := .digits (.inl rfl) .none (hdigits _ rfl)
  have hvalue : Decimal.nearest ⟨true, 125, 2⟩ = n := by decide +kernel
  have hlexeme : Signed lexeme n := hvalue ▸ .negative (.mk hwhole (.point hplaces) hpower)
  have hliteral : Number.Literal lexeme ⟨true, 125, 2⟩ :=
    .mk .minus (.point hwhole.isDigits hplaces.2) hpower
  have hpadded : Number.Stripped padded.toList lexeme :=
    Number.stripped_iff.mpr (by decide +kernel)
  obtain ⟨-, hliterals, hlexemes⟩ := Heap.empty.toNumber_text_spec
  exact ⟨hlexeme, (hlexemes lexeme n hlexeme).1, (hlexemes lexeme n hlexeme).2, hliteral, hpadded,
    hvalue ▸ hliterals padded lexeme _ hpadded hliteral⟩

end EcmaTree
