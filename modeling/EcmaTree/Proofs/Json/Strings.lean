import EcmaTree.Json.Parser
import EcmaTree.Proofs.Json.Grammar

/-!
# Strings of JSON

The reader of strings passes over exactly the strings of the grammar, and gives the bytes that the
grammar gives. An escape of the first half of a surrogate pair is joined with the escape behind it
only if that one writes the second half; else that one is read on its own.
-/

namespace EcmaTree

/-- The bytes of a character are those of its code point. -/
theorem Unicode.encode_toNat (c : Char) : encode c.toNat = String.utf8EncodeChar c := by
  have hvalid : c.val.toNat < 0x110000 := by
    have := c.valid
    unfold UInt32.isValidChar Nat.isValidChar at this
    omega
  have htoNat : c.toNat = c.val.toNat := rfl
  simp only [String.utf8EncodeChar, encode, continuation, htoNat]
  generalize c.val.toNat = v at hvalid
  have hone : v < 0x80 ↔ v ≤ 0x7F := Nat.lt_succ_iff
  have htwo : v < 0x800 ↔ v ≤ 0x7FF := Nat.lt_succ_iff
  have hthree : v < 0x10000 ↔ v ≤ 0xFFFF := Nat.lt_succ_iff
  simp only [hone, htwo, hthree]
  split_ifs
  · rfl
  -- The bits above those that the first byte holds are nought.
  · have hfirst : v / 64 % 32 = v / 64 := by omega
    rw [hfirst, Nat.add_comm, Nat.add_comm 0x80]
  · have hfirst : v / 4096 % 16 = v / 4096 := by omega
    rw [hfirst, Nat.add_comm, Nat.add_comm 0x80, Nat.add_comm 0x80]
  · have hfirst : v / 262144 % 8 = v / 262144 := by omega
    rw [hfirst, Nat.add_comm, Nat.add_comm 0x80, Nat.add_comm 0x80, Nat.add_comm 0x80]

namespace Json

/-- A code is written with four digits. -/
theorem Grammar.Code.exists_eq {ds : List UInt8} {code : Nat} (h : Code ds code) :
    ∃ a b c d, ds = [a, b, c, d] := by
  cases h
  exact ⟨_, _, _, _, rfl⟩

namespace Parser

open Grammar

/-! ## Codes -/

theorem hexDigit?_eq_some_iff {b : UInt8} {d : Nat} :
    Byte.hexDigit? b = some d ↔ HexDigit b d := by
  constructor
  · intro h
    have hvalue : UInt8.ofNat b.toNat = b := UInt8.ofNat_toNat
    simp only [Byte.hexDigit?, Bool.and_eq_true, decide_eq_true_iff, UInt8.le_iff_toNat_le,
      UInt8.reduceToNat] at h
    split_ifs at h with hdecimal hsmall hcapital
    · have hoffset : b.toNat = 0x30 + d := by
        have := Option.some.inj h
        omega
      rw [← hvalue, hoffset]
      exact .decimal (by omega)
    · obtain ⟨k, rfl⟩ : ∃ k, d = 10 + k := ⟨d - 10, by have := Option.some.inj h; omega⟩
      have hoffset : b.toNat = 0x61 + k := by
        have := Option.some.inj h
        omega
      rw [← hvalue, hoffset]
      exact .small (by omega)
    · obtain ⟨k, rfl⟩ : ∃ k, d = 10 + k := ⟨d - 10, by have := Option.some.inj h; omega⟩
      have hoffset : b.toNat = 0x41 + k := by
        have := Option.some.inj h
        omega
      rw [← hvalue, hoffset]
      exact .capital (by omega)
  · have hdecimal : ∀ d < 10, Byte.hexDigit? (UInt8.ofNat (0x30 + d)) = some d := by decide
    have hcapital : ∀ d < 6, Byte.hexDigit? (UInt8.ofNat (0x41 + d)) = some (10 + d) := by decide
    have hsmall : ∀ d < 6, Byte.hexDigit? (UInt8.ofNat (0x61 + d)) = some (10 + d) := by decide
    rintro (hd | hd | hd)
    exacts [hdecimal _ hd, hcapital _ hd, hsmall _ hd]

theorem hexCode_eq_ok_iff {a b c d : UInt8} {rest : List UInt8} {code : Nat} :
    hexCode a b c d rest = .ok code ↔ Code [a, b, c, d] code := by
  constructor
  · intro h
    rw [hexCode] at h
    split at h
    iterate 4 exact nomatch h
    next w x y z ha hb hc hd =>
    rw [hexDigit?_eq_some_iff] at ha hb hc hd
    have hcode : 0x1000 * w + 0x100 * x + 0x10 * y + z = code := by
      have := Except.ok.inj h
      omega
    exact hcode ▸ .mk ha hb hc hd
  · intro h
    cases h with
    | mk ha hb hc hd =>
      rw [← hexDigit?_eq_some_iff] at ha hb hc hd
      simp only [hexCode, ha, hb, hc, hd]
      congr 1
      omega

theorem escaped?_eq_some_iff {b c : UInt8} : escaped? b = some c ↔ (b, c) ∈ escapes := by
  constructor
  · intro h
    unfold escaped? at h
    split_ifs at h <;> subst b <;> obtain rfl := Option.some.inj h <;> decide
  · intro h
    simp only [escapes, List.mem_cons, List.not_mem_nil, or_false, Prod.mk.injEq] at h
    rcases h with ⟨rfl, rfl⟩ | ⟨rfl, rfl⟩ | ⟨rfl, rfl⟩ | ⟨rfl, rfl⟩ | ⟨rfl, rfl⟩ | ⟨rfl, rfl⟩ |
      ⟨rfl, rfl⟩ | ⟨rfl, rfl⟩ <;> rfl

/-! ## The characters of a string -/

variable {s value rest seen ds : List UInt8} {code : Nat}

/-- Bytes of a value that were read join those that are read after them. -/
theorem ofList_reverse_append (read seen value : List UInt8) :
    Text.ofList ((read.reverse ++ seen).reverse ++ value) =
      .ofList (seen.reverse ++ (read ++ value)) := by
  rw [List.reverse_append, List.reverse_reverse, List.append_assoc]

/-- The two halves of a pair make one character. -/
theorem exists_char_of_surrogates {high low : Nat} (hhigh : Unicode.isHighSurrogate high = true)
    (hlow : Unicode.isLowSurrogate low = true) :
    ∃ c : Char, c.toNat = 0x10000 + 0x400 * (high - 0xD800) + (low - 0xDC00) := by
  simp only [Unicode.isHighSurrogate, Unicode.isLowSurrogate, Bool.and_eq_true,
    decide_eq_true_iff] at hhigh hlow
  have hvalid : (0x10000 + 0x400 * (high - 0xD800) + (low - 0xDC00)).isValidChar := by
    unfold Nat.isValidChar
    omega
  exact ⟨Char.ofNatAux _ hvalid, rfl⟩

theorem encode_ofSurrogates {high low : Nat} {c : Char}
    (hc : c.toNat = 0x10000 + 0x400 * (high - 0xD800) + (low - 0xDC00)) :
    Unicode.encode (Unicode.ofSurrogates high low) = String.utf8EncodeChar c := by
  have hcode : Unicode.ofSurrogates high low = c.toNat := by
    unfold Unicode.ofSurrogates
    omega
  rw [hcode, Unicode.encode_toNat]

/-- Four digits write one code. -/
theorem code_unique {code other : Nat} (h : Code ds code) (hother : Code ds other) :
    code = other := by
  obtain ⟨a, b, c, d, rfl⟩ := h.exists_eq
  have hread {n : Nat} (hn : Code [a, b, c, d] n) : hexCode a b c d [] = .ok n :=
    hexCode_eq_ok_iff.mpr hn
  exact Except.ok.inj ((hread h).symm.trans (hread hother))

theorem stringBody_sound {t : Text} (h : stringBody s seen = .ok (t, rest)) :
    ∃ body value, Characters body value ∧ s = body ++ 0x22 :: rest ∧
      t = .ofList (seen.reverse ++ value) := by
  fun_induction stringBody s seen with
  | case2 after seen =>
    obtain ⟨rfl, rfl⟩ := Prod.mk.inj (Except.ok.inj h)
    exact ⟨[], [], .nil, rfl, by rw [List.append_nil]⟩
  | case6 a b c d seen high hhigh e f g i after low hreadLow hlow hreadHigh ih =>
    obtain ⟨body, value, hbody, rfl, rfl⟩ := ih h
    obtain ⟨char, hchar⟩ := exists_char_of_surrogates hhigh hlow
    have hpair := Characters.pair (hexCode_eq_ok_iff.mp hreadHigh) hhigh
      (hexCode_eq_ok_iff.mp hreadLow) hlow hchar hbody
    exact ⟨_, _, hpair, rfl, by rw [ofList_reverse_append, encode_ofSurrogates hchar]⟩
  | case7 a b c d seen high hhigh e f g i after low hreadLow hlow hreadHigh ih =>
    obtain ⟨body, value, hbody, hs, rfl⟩ := ih h
    have halone : ¬ BeginsLow body := by
      rintro ⟨_, other, tail, rfl, hother, hotherLow⟩
      cases hother with
      | mk ha hb hc hd =>
        obtain ⟨rfl, rfl, rfl, rfl, -⟩ : e = _ ∧ f = _ ∧ g = _ ∧ i = _ ∧ after = _ := by
          simpa using hs
        rw [code_unique (.mk ha hb hc hd) (hexCode_eq_ok_iff.mp hreadLow)] at hotherLow
        exact hlow hotherLow
    have hcode := Characters.code (hexCode_eq_ok_iff.mp hreadHigh) (fun _ ↦ halone) hbody
    exact ⟨_, _, hcode, by rw [hs]; rfl, ofList_reverse_append _ _ _⟩
  | case9 a b c d seen high hhigh tail hlong hshort hread ih =>
    obtain ⟨body, value, hbody, rfl, rfl⟩ := ih h
    have halone : ¬ BeginsLow body := by
      rintro ⟨_, _, _, rfl, -⟩
      exact hshort _ rfl
    have hcode := Characters.code (hexCode_eq_ok_iff.mp hread) (fun _ ↦ halone) hbody
    exact ⟨_, _, hcode, rfl, ofList_reverse_append _ _ _⟩
  | case10 a b c d tail seen code hread hhigh ih =>
    obtain ⟨body, value, hbody, rfl, rfl⟩ := ih h
    have hcode := Characters.code (hexCode_eq_ok_iff.mp hread) (fun h ↦ absurd h hhigh) hbody
    exact ⟨_, _, hcode, rfl, ofList_reverse_append _ _ _⟩
  | case12 b tail seen hlong hshort c hescape ih =>
    obtain ⟨body, value, hbody, rfl, rfl⟩ := ih h
    exact ⟨_, _, .escape (escaped?_eq_some_iff.mp hescape) hbody, rfl,
      ofList_reverse_append [c] seen value⟩
  | case14 b tail seen hquote hend hcode hshort hescape ih =>
    obtain ⟨body, value, hbody, rfl, rfl⟩ := ih h
    have hbackslash : b ≠ 0x5C := by
      rintro rfl
      cases body with
      | nil => exact hescape _ _ rfl rfl
      | cons => exact hescape _ _ rfl rfl
    exact ⟨_, _, .plain hquote hbackslash hbody, rfl, ofList_reverse_append [b] seen value⟩
  | _ => exact nomatch h

/-- Where an escape of a code comes next in a string, its four digits are in the string. -/
theorem exists_code {tail : List UInt8} (h : Characters s value)
    (hs : s ++ 0x22 :: rest = 0x5C :: 0x75 :: tail) :
    ∃ a b c d after code, tail = a :: b :: c :: d :: after ∧ Code [a, b, c, d] code ∧
      (Unicode.isLowSurrogate code = true → BeginsLow s) := by
  cases h with
  | nil => exact absurd (List.cons.inj hs).1 (by decide)
  | plain _ hbackslash => exact absurd (List.cons.inj hs).1 hbackslash
  | escape hescape =>
    obtain ⟨rfl, -⟩ := List.cons.inj (List.cons.inj hs).2
    rw [← escaped?_eq_some_iff] at hescape
    exact nomatch hescape
  | pair hcode | code hcode =>
    obtain ⟨a, b, c, d, rfl⟩ := hcode.exists_eq
    exact ⟨a, b, c, d, _, _, (List.cons.inj (List.cons.inj hs).2).2.symm, hcode,
      fun hlow ↦ ⟨_, _, _, rfl, hcode, hlow⟩⟩

/-- The escape of a code that is no first half of a pair is read on its own. -/
theorem stringBody_code (hcode : Code ds code)
    (halone : Unicode.isHighSurrogate code = true → ¬ BeginsLow s) (hs : Characters s value) :
    stringBody (0x5C :: 0x75 :: (ds ++ (s ++ 0x22 :: rest))) seen =
      stringBody (s ++ 0x22 :: rest) ((Unicode.encode code).reverse ++ seen) := by
  obtain ⟨a, b, c, d, rfl⟩ := hcode.exists_eq
  simp only [List.cons_append, List.nil_append]
  rw [stringBody, hexCode_eq_ok_iff.mpr hcode]
  dsimp only
  split
  · next hhigh =>
    split
    · next e f g i after heq =>
      obtain ⟨_, _, _, _, _, low, htail, hread, hlow⟩ := exists_code hs heq
      cases htail
      rw [hexCode_eq_ok_iff.mpr hread]
      dsimp only
      rw [if_neg fun h ↦ halone hhigh (hlow h), heq]
    · next short hlong heq =>
      obtain ⟨e, f, g, i, after, _, rfl, -⟩ := exists_code hs heq
      exact absurd rfl (hlong e f g i after)
    · rfl
  · rfl

/-- The characters of a string are read up to its closing quote. -/
theorem stringBody_complete (h : Characters s value) (rest seen : List UInt8) :
    stringBody (s ++ 0x22 :: rest) seen = .ok (.ofList (seen.reverse ++ value), rest) := by
  induction h generalizing seen with
  | nil => rw [List.nil_append, stringBody, List.append_nil]
  | @plain b s value hquote hbackslash hs ih =>
    rw [List.cons_append, stringBody, ih, List.reverse_cons, List.append_assoc,
      List.singleton_append]
    exacts [hquote, fun h _ ↦ hbackslash h, fun _ _ _ _ _ h _ ↦ hbackslash h,
      fun _ h _ ↦ hbackslash h, fun _ _ h _ ↦ hbackslash h]
  | @escape b c s value hescape hs ih =>
    have hunicode : b ≠ 0x75 := by
      rintro rfl
      rw [← escaped?_eq_some_iff] at hescape
      exact nomatch hescape
    rw [List.cons_append, List.cons_append, stringBody, escaped?_eq_some_iff.mpr hescape]
    · dsimp only
      rw [ih, List.reverse_cons, List.append_assoc, List.singleton_append]
    exacts [fun _ _ _ _ _ h _ ↦ hunicode h, hunicode]
  | @pair high low char s value ds es hhigh hisHigh hlow hisLow hchar hs ih =>
    obtain ⟨a, b, c, d, rfl⟩ := hhigh.exists_eq
    obtain ⟨e, f, g, i, rfl⟩ := hlow.exists_eq
    simp only [List.cons_append, List.nil_append]
    rw [stringBody, hexCode_eq_ok_iff.mpr hhigh]
    dsimp only
    simp only [if_pos hisHigh, hexCode_eq_ok_iff.mpr hlow]
    rw [if_pos hisLow, ih, ofList_reverse_append, encode_ofSurrogates hchar]
  | @code code s value ds hcode halone hs ih =>
    rw [List.cons_append, List.cons_append, List.append_assoc, stringBody_code hcode halone hs, ih,
      ofList_reverse_append]

/-! ## Strings -/

/-- Exactly the strings of the grammar are read, each as what it stands for. -/
theorem string_eq_ok_iff {t : Text} :
    string s = .ok (t, rest) ↔ ∃ quoted, Quoted quoted t ∧ s = quoted ++ rest := by
  constructor
  · intro h
    fun_cases string s with
    | case1 tail =>
      obtain ⟨body, value, hbody, rfl, rfl⟩ := stringBody_sound h
      refine ⟨_, .mk hbody, ?_⟩
      rw [List.cons_append, List.append_assoc, List.singleton_append]
    | case2 _ hquote =>
      rw [string] at h
      · exact nomatch h
      · exact hquote
  · rintro ⟨_, ⟨hbody⟩, rfl⟩
    rw [List.cons_append, List.append_assoc, List.singleton_append, string,
      stringBody_complete hbody]
    rfl

end Parser

end Json

end EcmaTree
