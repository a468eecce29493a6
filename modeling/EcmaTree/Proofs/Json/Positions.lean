import EcmaTree.Proofs.Json.Recognition

/-!
# Positions of JSON errors

Where reading fails, all that stands in front of the reported position can still be completed to a
document, so that no report lies behind the first byte that spoils a text. The reader of hexadecimal
codes is the one exception: it passes over a byte before it looks at it, and reports the place
behind the byte that is no digit.
-/

namespace EcmaTree.Json

/-- Bytes that a document begins with. -/
def Viable (s : List UInt8) : Prop := ∃ t j, parse t = .ok j ∧ s <+: t.toList

variable {s rest front : List UInt8} {n : Nat}

namespace Parser

open Grammar

/-- How many bytes are left from the one on that is to blame. -/
def Stop.blamed (e : Stop) : Nat := if e.fault = .unicodeDigit then e.unread + 1 else e.unread

/-- Reading stops in a list of bytes, and what stands in front of the byte that is to blame can be
completed to a form. -/
def StopsIn (form : List UInt8 → Prop) (s : List UInt8) (e : Stop) : Prop :=
  ∃ front back tail, s = front ++ back ∧ back.length = e.blamed ∧ form (front ++ tail)

variable {form form' : List UInt8 → Prop} {e : Stop}

/-- A reader that stops in front of the bytes that are left blames the first of them. -/
theorem stopsIn_stop {α : Type} {fault : Fault} (front tail : List UInt8)
    (h : (.error ⟨fault, rest.length⟩ : Except Stop α) = .error e) (hfault : fault ≠ .unicodeDigit)
    (hform : form (front ++ tail)) : StopsIn form (front ++ rest) e := by
  obtain rfl := Except.error.inj h
  exact ⟨front, rest, tail, rfl, (if_neg hfault).symm, hform⟩

/-- What stands in front of a form, and what completes it, becomes part of another form. -/
theorem StopsIn.within (h : StopsIn form s e) (before : List UInt8)
    (hform : ∀ w, form w → ∃ after, form' (before ++ (w ++ after))) :
    StopsIn form' (before ++ s) e := by
  obtain ⟨front, back, tail, rfl, hback, hfront⟩ := h
  obtain ⟨after, hwhole⟩ := hform _ hfront
  refine ⟨before ++ front, back, tail ++ after, by rw [List.append_assoc], hback, ?_⟩
  rwa [List.append_assoc, ← List.append_assoc front]

theorem StopsIn.behind (h : StopsIn form s e) (before : List UInt8)
    (hform : ∀ w, form w → form' (before ++ w)) : StopsIn form' (before ++ s) e :=
  h.within before fun w hw ↦ ⟨[], by rw [List.append_nil]; exact hform w hw⟩

/-- A reader whose result is only renamed stops where it stopped. -/
theorem error_of_map {α β : Type} {r : Reading α} {f : α × List UInt8 → β × List UInt8}
    (h : r.map f = .error e) : r = .error e := by
  cases r with
  | error => exact congrArg Except.error (Except.error.inj h)
  | ok => cases h

/-! ## Strings -/

theorem hexDigit_nought : HexDigit 0x30 0 := hexDigit?_eq_some_iff.mp rfl

/-- Four hexadecimal digits. -/
def IsCode (s : List UInt8) : Prop := ∃ code, Code s code

theorem isCode_noughts : IsCode [0x30, 0x30, 0x30, 0x30] :=
  ⟨_, .mk hexDigit_nought hexDigit_nought hexDigit_nought hexDigit_nought⟩

/-- The digits in front of the first byte that is none can be filled up with noughts. -/
theorem hexCode_stops {a b c d : UInt8} (h : hexCode a b c d rest = .error e) :
    StopsIn IsCode (a :: b :: c :: d :: rest) e := by
  rw [hexCode] at h
  split at h
  · obtain rfl := Except.error.inj h
    exact ⟨[], a :: b :: c :: d :: rest, [0x30, 0x30, 0x30, 0x30], rfl, rfl, isCode_noughts⟩
  · next ha _ =>
    obtain rfl := Except.error.inj h
    rw [hexDigit?_eq_some_iff] at ha
    exact ⟨[a], b :: c :: d :: rest, [0x30, 0x30, 0x30], rfl, rfl, _,
      .mk ha hexDigit_nought hexDigit_nought hexDigit_nought⟩
  · next ha hb _ =>
    obtain rfl := Except.error.inj h
    rw [hexDigit?_eq_some_iff] at ha hb
    exact ⟨[a, b], c :: d :: rest, [0x30, 0x30], rfl, rfl, _,
      .mk ha hb hexDigit_nought hexDigit_nought⟩
  · next ha hb hc _ =>
    obtain rfl := Except.error.inj h
    rw [hexDigit?_eq_some_iff] at ha hb hc
    exact ⟨[a, b, c], d :: rest, [0x30], rfl, rfl, _, .mk ha hb hc hexDigit_nought⟩
  · cases h

/-- Some characters of a string. -/
def IsCharacters (s : List UInt8) : Prop := ∃ value, Characters s value

/-- The escape of a code can stand in front of any characters. If it is the first half of a pair and
the second half comes next, the two are read as one. -/
theorem IsCharacters.code {a b c d : UInt8} (hds : IsCode [a, b, c, d]) (h : IsCharacters s) :
    IsCharacters (0x5C :: 0x75 :: a :: b :: c :: d :: s) := by
  obtain ⟨code, hcode⟩ := hds
  obtain ⟨value, hs⟩ := h
  by_cases halone : Unicode.isHighSurrogate code = true → ¬ BeginsLow s
  · exact ⟨_, .code hcode halone hs⟩
  rw [Classical.not_imp, not_not] at halone
  obtain ⟨hhigh, es, low, tail, rfl, hlow, hisLow⟩ := halone
  obtain ⟨e, f, g, i, rfl⟩ := hlow.exists_eq
  obtain ⟨char, hchar⟩ := exists_char_of_surrogates hhigh hisLow
  generalize htail : 0x5C :: 0x75 :: ([e, f, g, i] ++ tail) = s at hs
  cases hs with
  | nil => cases htail
  | plain _ hbackslash => exact absurd (List.cons.inj htail).1.symm hbackslash
  | escape hescape =>
    obtain ⟨rfl, -⟩ := List.cons.inj (List.cons.inj htail).2
    rw [← escaped?_eq_some_iff] at hescape
    cases hescape
  | pair hother hisHigh =>
    obtain ⟨_, _, _, _, rfl⟩ := hother.exists_eq
    cases htail
    rw [code_unique hother hlow] at hisHigh
    simp only [Unicode.isHighSurrogate, Unicode.isLowSurrogate, Bool.and_eq_true,
      decide_eq_true_iff] at hisHigh hisLow
    omega
  | code hother _ hrest =>
    obtain ⟨_, _, _, _, rfl⟩ := hother.exists_eq
    cases htail
    exact ⟨_, .pair hcode hhigh hlow hisLow hchar hrest⟩

theorem IsCode.characters {ds : List UInt8} (hds : IsCode ds) :
    IsCharacters (0x5C :: 0x75 :: ds) := by
  obtain ⟨code, hcode⟩ := hds
  obtain ⟨a, b, c, d, rfl⟩ := hcode.exists_eq
  exact .code ⟨code, hcode⟩ ⟨_, .nil⟩

theorem isCode_of_hexCode {a b c d : UInt8} {code : Nat} (h : hexCode a b c d rest = .ok code) :
    IsCode [a, b, c, d] :=
  ⟨code, hexCode_eq_ok_iff.mp h⟩

/-- The characters that were read, and those that complete the rest, are characters. -/
theorem stringBody_stops {seen : List UInt8} (h : stringBody s seen = .error e) :
    StopsIn IsCharacters s e := by
  have hnil : IsCharacters [] := ⟨_, .nil⟩
  have hescape : IsCharacters [0x5C, 0x6E] := ⟨_, .escape (c := 0x0A) (by decide) .nil⟩
  fun_induction stringBody s seen with
  | case1 => exact stopsIn_stop [] [] h (by decide) hnil
  | case2 => cases h
  | case3 => exact stopsIn_stop [0x5C] [0x6E] h (by decide) hescape
  | case4 a b c d tail seen error hread =>
    obtain rfl := Except.error.inj h
    exact (hexCode_stops hread).behind [0x5C, 0x75] fun w hw ↦ hw.characters
  | case5 a b c d seen high hhigh e f g i after error hreadLow hreadHigh =>
    obtain rfl := Except.error.inj h
    refine (hexCode_stops hreadLow).behind [0x5C, 0x75, a, b, c, d, 0x5C, 0x75] fun w hw ↦ ?_
    exact .code (isCode_of_hexCode hreadHigh) hw.characters
  | case6 a b c d seen high hhigh e f g i after low hreadLow hlow hreadHigh ih =>
    refine (ih h).behind [0x5C, 0x75, a, b, c, d, 0x5C, 0x75, e, f, g, i] fun w hw ↦ ?_
    exact .code (isCode_of_hexCode hreadHigh) (hw.code (isCode_of_hexCode hreadLow))
  | case7 a b c d seen high hhigh e f g i after low hreadLow hlow hread ih =>
    exact (ih h).behind [0x5C, 0x75, a, b, c, d] fun w hw ↦ hw.code (isCode_of_hexCode hread)
  | case8 a b c d seen high hhigh short hshort hread =>
    refine stopsIn_stop [0x5C, 0x75, a, b, c, d, 0x5C, 0x75] [0x30, 0x30, 0x30, 0x30] h
      (by decide) ?_
    exact .code (isCode_of_hexCode hread) isCode_noughts.characters
  | case9 a b c d seen high hhigh tail hlong hshort hread ih =>
    exact (ih h).behind [0x5C, 0x75, a, b, c, d] fun w hw ↦ hw.code (isCode_of_hexCode hread)
  | case10 a b c d tail seen code hread hhigh ih =>
    exact (ih h).behind [0x5C, 0x75, a, b, c, d] fun w hw ↦ hw.code (isCode_of_hexCode hread)
  | case11 seen short hshort =>
    exact stopsIn_stop [0x5C, 0x75] [0x30, 0x30, 0x30, 0x30] h (by decide) isCode_noughts.characters
  | case12 b tail seen hlong hshort c hread ih =>
    refine (ih h).behind [0x5C, b] ?_
    rintro w ⟨value, hw⟩
    exact ⟨c :: value, .escape (escaped?_eq_some_iff.mp hread) hw⟩
  | case13 => exact stopsIn_stop [0x5C] [0x6E] h (by decide) hescape
  | case14 b tail seen hquote hend hcode hshort hread ih =>
    have hbackslash : b ≠ 0x5C := by
      rintro rfl
      cases tail with
      | nil => exact hend rfl rfl
      | cons => exact hread _ _ rfl rfl
    refine (ih h).behind [b] ?_
    rintro w ⟨value, hw⟩
    exact ⟨b :: value, .plain hquote hbackslash hw⟩

/-- A string with its quotes. -/
def IsQuoted (s : List UInt8) : Prop := ∃ t, Quoted s t

theorem quoted_stops {seen : List UInt8} (h : stringBody s seen = .error e) :
    StopsIn IsQuoted (0x22 :: s) e :=
  (stringBody_stops h).within [0x22] fun _ ⟨_, hw⟩ ↦ ⟨[0x22], _, .mk hw⟩

theorem string_stops (h : string s = .error e) : StopsIn IsQuoted s e := by
  fun_cases string s with
  | case1 tail => exact quoted_stops h
  | case2 _ hquote =>
    rw [string] at h
    · exact stopsIn_stop [] [0x22, 0x22] h (by decide) ⟨_, .mk .nil⟩
    · exact hquote

/-! ## Numbers -/

/-- A number without its sign. -/
def IsMagnitude (s : List UInt8) : Prop := ∃ digits exponent, Magnitude s digits exponent

theorem isMagnitude {whole fraction places power : List UInt8} {exponent : Int}
    (hwhole : Whole whole) (hfraction : Fraction fraction places)
    (hpower : Exponent power exponent) : IsMagnitude (whole ++ fraction ++ power) := by
  rw [List.append_assoc]
  exact ⟨_, _, .mk hwhole hfraction hpower⟩

theorem digits_nought : Digits [0x30] := ⟨List.cons_ne_nil _ _, List.forall_mem_singleton.mpr rfl⟩

/-- Where a digit is missing, a nought can stand. -/
theorem digits_stops (hform : form [0x30]) (h : digits s = .error e) : StopsIn form s e := by
  rw [digits] at h
  split at h
  · next tail hsplit =>
    obtain ⟨hnone, htail⟩ := Prod.mk.inj hsplit
    have hs : s = tail := by
      rw [← List.takeWhile_append_dropWhile (p := Byte.isDigit) (l := s), hnone, htail,
        List.nil_append]
    rw [hs]
    exact stopsIn_stop [] [0x30] h (by decide) hform
  · cases h

theorem wholePart_stops (h : wholePart s = .error e) : StopsIn Whole s e := by
  fun_cases wholePart s with
  | case1 => cases h
  | case2 _ hnought =>
    rw [wholePart] at h
    · exact digits_stops .nought h
    · exact hnought

theorem fractionPart_stops (h : fractionPart s = .error e) :
    StopsIn (fun w ↦ ∃ places, Fraction w places) s e := by
  fun_cases fractionPart s with
  | case1 tail =>
    exact (digits_stops digits_nought (error_of_map h)).behind [0x2E] fun w hw ↦ ⟨w, .point hw⟩
  | case2 =>
    rw [fractionPart] at h
    · cases h
    · assumption

theorem exponentPart_stops (h : exponentPart s = .error e) :
    StopsIn (fun w ↦ ∃ exponent, Exponent w exponent) s e := by
  have hdigits {mark : UInt8} {sign tail : List UInt8} {negative : Bool}
      (hmark : mark = 0x65 ∨ mark = 0x45) (hsign : Sign sign negative)
      (htail : (digits tail).map (fun read ↦ (mark :: (sign ++ read.1), read.2)) = .error e) :
      StopsIn (fun w ↦ ∃ exponent, Exponent w exponent) (mark :: sign ++ tail) e :=
    (digits_stops digits_nought (error_of_map htail)).behind (mark :: sign) fun w hw ↦
      ⟨_, .digits hmark hsign hw⟩
  fun_cases exponentPart s with
  | case1 => exact hdigits (.inl rfl) .plus h
  | case2 => exact hdigits (.inl rfl) .minus h
  | case3 => exact hdigits (.inr rfl) .plus h
  | case4 => exact hdigits (.inr rfl) .minus h
  | case5 tail hplus hminus =>
    rw [exponentPart] at h
    · exact hdigits (.inl rfl) .none h
    · exact hplus
    · exact hminus
  | case6 tail hplus hminus =>
    rw [exponentPart] at h
    · exact hdigits (.inr rfl) .none h
    · exact hplus
    · exact hminus
  | case7 =>
    rw [exponentPart] at h
    · cases h
    all_goals assumption

theorem unsignedLexeme_stops (h : unsignedLexeme s = .error e) : StopsIn IsMagnitude s e := by
  rw [unsignedLexeme] at h
  split at h
  · next hread =>
    obtain rfl := Except.error.inj h
    refine (wholePart_stops hread).behind [] fun w hw ↦ ?_
    have hmagnitude := isMagnitude hw .none .none
    rwa [List.append_nil, List.append_nil] at hmagnitude
  next whole afterWhole hreadWhole =>
  obtain ⟨hwhole, rfl⟩ := wholePart_sound hreadWhole
  split at h
  · next hread =>
    obtain rfl := Except.error.inj h
    refine (fractionPart_stops hread).behind whole ?_
    rintro w ⟨places, hw⟩
    have hmagnitude := isMagnitude hwhole hw .none
    rwa [List.append_nil] at hmagnitude
  next fraction afterFraction hreadFraction =>
  obtain ⟨places, hfraction, rfl⟩ := fractionPart_sound hreadFraction
  rw [← List.append_assoc]
  refine (exponentPart_stops (error_of_map h)).behind _ ?_
  rintro w ⟨exponent, hw⟩
  exact isMagnitude hwhole hfraction hw

/-- A number. -/
def IsNumber (s : List UInt8) : Prop := ∃ n, Signed s n

theorem number_stops (h : number s = .error e) : StopsIn IsNumber s e := by
  have hread := error_of_map h
  fun_cases numberLexeme s with
  | case1 tail =>
    refine (unsignedLexeme_stops (error_of_map hread)).behind [0x2D] ?_
    rintro w ⟨magnitude, exponent, hw⟩
    exact ⟨_, .negative hw⟩
  | case2 _ hminus =>
    rw [numberLexeme] at hread
    · refine (unsignedLexeme_stops hread).behind [] ?_
      rintro w ⟨magnitude, exponent, hw⟩
      exact ⟨_, .positive hw⟩
    · exact hminus

/-! ## Values -/

/-- A value without blanks around it. -/
def IsValue (s : List UInt8) : Prop := ∃ j, Grammar.Value s j

/-- A value with blanks around it. -/
def IsElement (s : List UInt8) : Prop := ∃ j, Element s j

/-- One item or more with commas between them. -/
def IsElements (s : List UInt8) : Prop := ∃ l, Elements s l

/-- One pair or more with commas between them. -/
def IsMembers (s : List UInt8) : Prop := ∃ pairs, Members s pairs

/-- A nought is a value that can stand wherever one is missing. -/
theorem isValue_nought : IsValue [0x30] := by
  obtain ⟨_, _, hmagnitude⟩ : IsMagnitude [0x30] := isMagnitude .nought .none .none
  exact ⟨_, .number (.positive hmagnitude)⟩

section forms

variable {before quoted between : List UInt8} {key : Text} {j : Json}

theorem IsValue.element (hbefore : Blanks before) (h : IsValue s) : IsElement (before ++ s) := by
  obtain ⟨j, hs⟩ := h
  rw [← List.append_nil s]
  exact ⟨j, .mk hbefore hs (List.forall_mem_nil _)⟩

theorem isElement_nought : IsElement [0x30] :=
  (isValue_nought.element (List.forall_mem_nil _) : IsElement ([] ++ [0x30]))

theorem IsElement.last (h : IsElement s) : IsElements s := h.elim fun _ hs ↦ ⟨_, .last hs⟩

theorem IsElements.more (hs : Element s j) (h : IsElements rest) :
    IsElements (s ++ [0x2C] ++ rest) := by
  rw [List.append_assoc]
  exact h.elim fun _ hrest ↦ ⟨_, .more hs hrest⟩

theorem IsElement.member (hbefore : Blanks before) (hkey : Quoted quoted key)
    (hbetween : Blanks between) (h : IsElement s) :
    IsMembers (before ++ (quoted ++ (between ++ 0x3A :: s))) :=
  h.elim fun _ hs ↦ ⟨_, .last (.mk hbefore hkey hbetween hs)⟩

/-- A member with the empty key can stand wherever one is missing. -/
theorem isMembers_nought : IsMembers [0x22, 0x22, 0x3A, 0x30] :=
  (isElement_nought.member (List.forall_mem_nil _) (.mk .nil) (List.forall_mem_nil _) :
    IsMembers ([] ++ ([0x22, 0x22] ++ ([] ++ 0x3A :: [0x30]))))

theorem IsElements.array (hbefore : Blanks before) (h : IsElements s) :
    IsValue (0x5B :: before ++ (s ++ [0x5D])) := by
  rw [List.cons_append, ← List.append_assoc]
  exact h.elim fun _ hs ↦ ⟨_, .array (hs.prepend hbefore)⟩

theorem IsMembers.object (hbefore : Blanks before) (h : IsMembers s) :
    IsValue (0x7B :: before ++ (s ++ [0x7D])) := by
  rw [List.cons_append, ← List.append_assoc]
  exact h.elim fun pairs hs ↦ ⟨_, .object (hs.prepend hbefore) (collects_setMembers pairs)⟩

theorem IsMembers.more {pair : Text × Json} (hs : Member s pair) (h : IsMembers rest) :
    IsMembers (s ++ [0x2C] ++ rest) := by
  rw [List.append_assoc]
  exact h.elim fun _ hrest ↦ ⟨_, .more hs hrest⟩

end forms

theorem word_stops {spelling : String} {result : Json} (h : word spelling result s = .error e) :
    StopsIn IsValue s e := by
  rw [word] at h
  split at h
  · cases h
  · exact stopsIn_stop [] [0x30] h (by decide) isValue_nought

mutual

theorem value_stops : ∀ (n : Nat) {s : List UInt8} {e : Stop}, value n s = .error e →
    StopsIn IsElement s e
  | 0, _, _, h => stopsIn_stop [] [0x30] h (by decide) isElement_nought
  | n + 1, s, e, h => by
    obtain ⟨before, hbefore, hs⟩ := exists_blanks s
    suffices hbody : StopsIn IsValue (skipBlanks s) e by
      rw [hs]
      exact hbody.behind before fun w hw ↦ hw.element hbefore
    rw [value] at h
    split at h
    · next hskip =>
      rw [hskip]
      exact stopsIn_stop [] [0x30] h (by decide) isValue_nought
    next b tail hskip =>
    rw [hskip]
    split_ifs at h with hquote htrue hfalse hnull hobject harray hnumber
    · subst hquote
      exact (quoted_stops (error_of_map h)).behind [] fun w ⟨t, hw⟩ ↦ ⟨_, .text hw⟩
    · exact word_stops h
    · exact word_stops h
    · exact word_stops h
    · subst hobject
      obtain ⟨inner, hinner, htail⟩ := exists_blanks tail
      rw [htail]
      split at h
      · cases h
      · exact (members_stops n h).within (0x7B :: inner) fun w hw ↦ ⟨[0x7D], hw.object hinner⟩
    · subst harray
      obtain ⟨inner, hinner, htail⟩ := exists_blanks tail
      rw [htail]
      split at h
      · cases h
      · exact (items_stops n h).within (0x5B :: inner) fun w hw ↦ ⟨[0x5D], hw.array hinner⟩
    · exact (number_stops h).behind [] fun w ⟨m, hw⟩ ↦ ⟨_, .number hw⟩
    · exact stopsIn_stop [] [0x30] h Fault.noConfusion isValue_nought

theorem items_stops : ∀ (n : Nat) {s : List UInt8} {seen : List Json} {e : Stop},
    items n s seen = .error e → StopsIn IsElements s e
  | 0, _, _, _, h => stopsIn_stop [] [0x30] h (by decide) isElement_nought.last
  | n + 1, s, seen, e, h => by
    rw [items] at h
    split at h
    · next hitem =>
      obtain rfl := Except.error.inj h
      exact (value_stops n hitem).behind [] fun w hw ↦ hw.last
    next item afterItem hitem =>
    obtain ⟨before, body, hbefore, hbody, rfl⟩ := value_sound n hitem
    obtain ⟨after, hafter, hrest⟩ := exists_blanks afterItem
    have helement := Element.mk hbefore hbody hafter
    have hlast : IsElements (before ++ (body ++ after) ++ []) := by
      rw [List.append_nil]
      exact ⟨_, .last helement⟩
    rw [hrest, ← List.append_assoc body, ← List.append_assoc before]
    split at h
    · next hskip =>
      rw [hskip]
      exact stopsIn_stop _ [] h (by decide) hlast
    next b tail hskip =>
    rw [hskip]
    split_ifs at h with hclose hcomma
    · subst hcomma
      rw [List.append_cons]
      exact (items_stops n h).behind _ fun w hw ↦ hw.more helement
    · exact stopsIn_stop _ [] h (by decide) hlast

theorem members_stops : ∀ (n : Nat) {s : List UInt8} {seen : List (Text × Json)} {e : Stop},
    members n s seen = .error e → StopsIn IsMembers s e
  | 0, _, _, _, h => stopsIn_stop [] [0x22, 0x22, 0x3A, 0x30] h (by decide) isMembers_nought
  | n + 1, s, seen, e, h => by
    rw [members] at h
    obtain ⟨before, hbefore, hs⟩ := exists_blanks s
    rw [hs]
    split at h
    · next hkey =>
      obtain rfl := Except.error.inj h
      exact (string_stops hkey).within before fun w ⟨key, hw⟩ ↦
        ⟨[] ++ 0x3A :: [0x30], isElement_nought.member hbefore hw (List.forall_mem_nil _)⟩
    next key afterKey hkey =>
    obtain ⟨quoted, hquoted, hskip⟩ := string_eq_ok_iff.mp hkey
    obtain ⟨between, hbetween, hafterKey⟩ := exists_blanks afterKey
    rw [hskip, hafterKey, ← List.append_assoc quoted, ← List.append_assoc before]
    have hcolon {w : List UInt8} (hw : IsElement w) :
        IsMembers (before ++ (quoted ++ between) ++ 0x3A :: w) := by
      rw [List.append_assoc, List.append_assoc]
      exact hw.member hbefore hquoted hbetween
    split at h
    next afterColon hskipColon =>
      rw [hskipColon]
      split at h
      · next hitem =>
        obtain rfl := Except.error.inj h
        rw [List.append_cons]
        refine (value_stops n hitem).behind _ fun w hw ↦ ?_
        rw [← List.append_cons]
        exact hcolon hw
      next item afterItem hitem =>
      obtain ⟨front, body, hfront, hbody, rfl⟩ := value_sound n hitem
      obtain ⟨after, hafter, hrest⟩ := exists_blanks afterItem
      have hmember := Member.mk hbefore hquoted hbetween (.mk hfront hbody hafter)
      generalize hbytes : before ++ (quoted ++ (between ++ 0x3A :: (front ++ (body ++ after)))) =
        bytes at hmember
      have hread : before ++ (quoted ++ between) ++ 0x3A :: (front ++ (body ++ afterItem)) =
          bytes ++ skipBlanks afterItem := by
        conv_lhs => rw [hrest]
        simp [← hbytes]
      have hlast : IsMembers (bytes ++ []) := by
        rw [List.append_nil]
        exact ⟨_, .last hmember⟩
      rw [hread]
      split at h
      · next hskipItem =>
        rw [hskipItem]
        exact stopsIn_stop _ [] h (by decide) hlast
      next b tail hskipItem =>
      rw [hskipItem]
      split_ifs at h with hclose hcomma
      · subst hcomma
        rw [List.append_cons]
        exact (members_stops n h).behind _ fun w hw ↦ hw.more hmember
      · exact stopsIn_stop _ [] h (by decide) hlast
    · exact stopsIn_stop _ [0x3A, 0x30] h (by decide) (hcolon isElement_nought)

end

/-! ## Documents -/

theorem document_stops (h : document s = .error e) : StopsIn IsElement s e := by
  rw [document] at h
  split at h
  · next hvalue =>
    obtain rfl := Except.error.inj h
    exact value_stops _ hvalue
  next result afterValue hvalue =>
  obtain ⟨before, body, hbefore, hbody, rfl⟩ := value_sound _ hvalue
  obtain ⟨after, hafter, hrest⟩ := exists_blanks afterValue
  split at h
  · cases h
  · next hskip =>
    rw [hrest, ← List.append_assoc body, ← List.append_assoc before]
    refine stopsIn_stop _ [] h (by decide) ?_
    rw [List.append_nil]
    exact ⟨_, .mk hbefore hbody hafter⟩

end Parser

/-- The position that is reported for a text that is no document lies inside the text, and what
stands in front of it begins some document. Only for a byte that is no hexadecimal digit this holds
of the position before. -/
theorem parse_blames {t : Text} {e : ParseError} (h : parse t = .error e) :
    e.position ≤ t.length ∧
      (e.fault ≠ .unicodeDigit → Viable (t.toList.take e.position)) ∧
      (e.fault = .unicodeDigit →
        0 < e.position ∧ Viable (t.toList.take (e.position - 1))) := by
  rw [parse] at h
  split at h
  · cases h
  next stopped hstopped =>
  obtain rfl := Except.error.inj h
  obtain ⟨front, back, tail, hs, hback, j, hj⟩ := Parser.document_stops hstopped
  have hviable : Viable front :=
    ⟨.ofList (front ++ tail), j, parse_complete (by rwa [Text.toList_ofList]), by
      rw [Text.toList_ofList]
      exact List.prefix_append _ _⟩
  have hlength : t.length = front.length + stopped.blamed := by
    rw [Text.length_eq, hs, List.length_append, hback]
  rw [Parser.Stop.blamed] at hlength
  dsimp only
  refine ⟨Nat.sub_le _ _, fun hfault ↦ ?_, fun hfault ↦ ?_⟩
  · rw [if_neg hfault] at hlength
    rwa [hlength, Nat.add_sub_cancel, hs, List.take_left]
  · rw [if_pos hfault] at hlength
    have hposition : t.length - stopped.unread = front.length + 1 := by omega
    rw [hposition, Nat.add_sub_cancel, hs, List.take_left]
    exact ⟨Nat.succ_pos _, hviable⟩

/-- In the second half of a pair, what is not a digit is passed over as well. -/
theorem parse_blames_secondHalf :
    let t : Text := "[\"\\ud83d\\u00zz\"]"
    parse t = .error ⟨.unicodeDigit, 13⟩ ∧ Viable (t.toList.take 12) := by
  intro t
  have h : parse t = .error ⟨.unicodeDigit, 13⟩ := by rfl
  exact ⟨h, ((parse_blames h).2.2 rfl).2⟩

/-- A document that begins with a quote is a string. -/
theorem exists_characters_of_quote {j : Json} (h : Grammar.Element (0x22 :: s) j) :
    ∃ body value after, Grammar.Characters body value ∧ s = body ++ 0x22 :: after := by
  generalize hs : 0x22 :: s = u at h
  cases h with
  | @mk before v after _ hbefore hv =>
    cases before with
    | cons b tail =>
      have hblank := hbefore b List.mem_cons_self
      rw [← (List.cons.inj hs).1] at hblank
      exact absurd hblank (by decide)
    | nil =>
      cases hv with
      | number hn =>
        obtain ⟨b, tail, rfl, hb⟩ := Parser.exists_eq_cons_of_signed hn
        rw [← (List.cons.inj hs).1] at hb
        exact absurd hb (by decide)
      | text ht =>
        cases ht with
        | @mk body value hbody =>
          refine ⟨body, value, after, hbody, ?_⟩
          rw [(List.cons.inj hs).2, List.append_eq, List.append_assoc, List.singleton_append]
      | _ => exact absurd (List.cons.inj hs).1 (by decide)

/-- No document begins with the bytes in front of the position that is reported for a capital G
among the digits of a code. -/
theorem parse_blames_late :
    let t : Text := "\"\\u00G0\""
    parse t = .error ⟨.unicodeDigit, 6⟩ ∧ ¬ Viable (t.toList.take 6) := by
  refine ⟨by rfl, ?_⟩
  have hbytes : (Text.ofString "\"\\u00G0\"").toList.take 6 =
      [0x22, 0x5C, 0x75, 0x30, 0x30, 0x47] := by
    decide +kernel
  rw [hbytes]
  rintro ⟨t, j, h, tail, htail⟩
  have helement := parse_sound h
  rw [← htail] at helement
  obtain ⟨body, value, after, hbody, hs⟩ := exists_characters_of_quote helement
  obtain ⟨a, b, c, d, rest, code, hdigits, hcode, -⟩ := Parser.exists_code hbody hs.symm
  cases hdigits
  have hread : Parser.hexCode 0x30 0x30 0x47 d rest = .ok code :=
    Parser.hexCode_eq_ok_iff.mpr hcode
  cases hread

end EcmaTree.Json
