import EcmaTree.Proofs.Json.Collecting
import EcmaTree.Proofs.Json.Numerals
import EcmaTree.Proofs.Json.Strings

/-!
# Recognition of JSON

Reading a text succeeds exactly if the text is in the grammar, and then gives the document that the
grammar gives. What is read is in the grammar, by induction on the calls; what is in the grammar is
read, by induction on its rules. The bound on nested calls is never met, as every second call passes
over a byte.
-/

namespace EcmaTree.Json

variable {s rest before after : List UInt8} {b : UInt8} {j : Json} {n : Nat}

namespace Grammar

/-! ## Blanks -/

theorem isBlank_iff :
    Byte.isBlank b = true ↔ b ∈ ([0x20, 0x09, 0x0A, 0x0B, 0x0C, 0x0D] : List UInt8) := by
  simp only [Byte.isBlank, Bool.or_eq_true, Bool.and_eq_true, beq_iff_eq, decide_eq_true_iff,
    UInt8.le_iff_toNat_le, ← UInt8.toNat_inj, UInt8.reduceToNat, List.mem_cons, List.not_mem_nil,
    or_false]
  omega

theorem Blanks.append (hbefore : Blanks before) (hafter : Blanks after) :
    Blanks (before ++ after) := by
  intro b hb
  rcases List.mem_append.mp hb with hb | hb
  · exact hbefore b hb
  · exact hafter b hb

/-- Blanks in front of a value are part of the element. -/
theorem Element.prepend (hbefore : Blanks before) (h : Element s j) : Element (before ++ s) j := by
  cases h with
  | mk hfront hs hafter =>
    rw [← List.append_assoc]
    exact .mk (hbefore.append hfront) hs hafter

theorem Elements.prepend {l : List Json} (hbefore : Blanks before) (h : Elements s l) :
    Elements (before ++ s) l := by
  cases h with
  | last hs => exact .last (hs.prepend hbefore)
  | more hs hrest =>
    rw [← List.append_assoc]
    exact .more (hs.prepend hbefore) hrest

theorem Member.prepend {pair : Text × Json} (hbefore : Blanks before) (h : Member s pair) :
    Member (before ++ s) pair := by
  cases h with
  | mk hfront hkey hafter hs =>
    rw [← List.append_assoc]
    exact .mk (hbefore.append hfront) hkey hafter hs

theorem Members.prepend {pairs : List (Text × Json)} (hbefore : Blanks before)
    (h : Members s pairs) : Members (before ++ s) pairs := by
  cases h with
  | last hs => exact .last (hs.prepend hbefore)
  | more hs hrest =>
    rw [← List.append_assoc]
    exact .more (hs.prepend hbefore) hrest

end Grammar

namespace Parser

open Grammar

theorem skipBlanks_cons (hb : Byte.isBlank b = false) (rest : List UInt8) :
    skipBlanks (b :: rest) = b :: rest :=
  List.dropWhile_cons_of_neg (by rw [hb]; exact Bool.false_ne_true)

theorem skipBlanks_append (h : Blanks before) : skipBlanks (before ++ s) = skipBlanks s :=
  List.dropWhile_append_of_pos fun b hb ↦ isBlank_iff.mpr (h b hb)

/-- What is skipped is blank. -/
theorem exists_blanks (s : List UInt8) : ∃ before, Blanks before ∧ s = before ++ skipBlanks s :=
  ⟨s.takeWhile Byte.isBlank, fun _ hb ↦ isBlank_iff.mp (List.mem_takeWhile_imp hb),
    List.takeWhile_append_dropWhile.symm⟩

/-- What is left has no blank in front. -/
theorem skipBlanks_skipBlanks (s : List UInt8) : skipBlanks (skipBlanks s) = skipBlanks s := by
  obtain ⟨before, hbefore, hs⟩ := exists_blanks s
  conv_rhs => rw [hs, skipBlanks_append hbefore]

theorem value_skipBlanks (n : Nat) (s : List UInt8) :
    value (n + 1) (skipBlanks s) = value (n + 1) s := by
  rw [value, value, skipBlanks_skipBlanks]

/-! ## What is read is in the grammar -/

theorem word_sound {spelling : String} {result : Json}
    (h : word spelling result s = .ok (j, rest)) :
    j = result ∧ s = (Text.ofString spelling).toList ++ rest := by
  rw [word] at h
  split at h
  · next hprefix =>
    obtain ⟨tail, rfl⟩ := List.isPrefixOf_iff_prefix.mp hprefix
    obtain ⟨rfl, rfl⟩ := Prod.mk.inj (Except.ok.inj h)
    exact ⟨rfl, by rw [List.drop_left]⟩
  · exact nomatch h

mutual

theorem value_sound : ∀ (n : Nat) {s rest : List UInt8} {j : Json},
    value n s = .ok (j, rest) →
      ∃ before body, Blanks before ∧ Grammar.Value body j ∧ s = before ++ (body ++ rest)
  | 0, _, _, _, h => nomatch h
  | n + 1, s, rest, j, h => by
    obtain ⟨before, hbefore, hs⟩ := exists_blanks s
    suffices hbody : ∃ body, Grammar.Value body j ∧ skipBlanks s = body ++ rest by
      obtain ⟨body, hbody, hskip⟩ := hbody
      exact ⟨before, body, hbefore, hbody, by rw [hs, hskip]⟩
    rw [value] at h
    split at h
    · exact nomatch h
    next b tail hskip =>
    rw [hskip]
    split_ifs at h with hquote htrue hfalse hnull hobject harray hnumber
    · subst hquote
      obtain ⟨⟨t, _⟩, hread, hresult⟩ := exists_of_map_eq_ok h
      obtain ⟨rfl, rfl⟩ := Prod.mk.inj hresult
      obtain ⟨quoted, hquoted, htail⟩ := string_eq_ok_iff (s := 0x22 :: tail).mp hread
      exact ⟨quoted, .text hquoted, htail⟩
    · obtain ⟨rfl, htail⟩ := word_sound h
      exact ⟨_, .true, htail⟩
    · obtain ⟨rfl, htail⟩ := word_sound h
      exact ⟨_, .false, htail⟩
    · obtain ⟨rfl, htail⟩ := word_sound h
      exact ⟨_, .null, htail⟩
    · subst hobject
      obtain ⟨inner, hinner, htail⟩ := exists_blanks tail
      split at h
      · next after hclose =>
        obtain ⟨rfl, rfl⟩ := Prod.mk.inj (Except.ok.inj h)
        refine ⟨_, .emptyObject hinner, ?_⟩
        rw [htail, hclose]
        simp
      · obtain ⟨body, pairs, hbody, rfl, hs⟩ := members_sound n h
        refine ⟨_, .object (hbody.prepend hinner) (collects_setMembers pairs), ?_⟩
        rw [htail, hs]
        simp
    · subst harray
      obtain ⟨inner, hinner, htail⟩ := exists_blanks tail
      split at h
      · next after hclose =>
        obtain ⟨rfl, rfl⟩ := Prod.mk.inj (Except.ok.inj h)
        refine ⟨_, .emptyArray hinner, ?_⟩
        rw [htail, hclose]
        simp
      · obtain ⟨body, l, hbody, rfl, hs⟩ := items_sound n h
        refine ⟨_, .array (hbody.prepend hinner), ?_⟩
        rw [htail, hs]
        simp
    · obtain ⟨lexeme, m, hlexeme, rfl, hs⟩ := number_sound h
      exact ⟨lexeme, .number hlexeme, hs⟩
    · exact nomatch h

theorem items_sound : ∀ (n : Nat) {s rest : List UInt8} {seen : List Json} {j : Json},
    items n s seen = .ok (j, rest) →
      ∃ body l, Elements body l ∧ j = .array (seen.reverse ++ l) ∧ s = body ++ 0x5D :: rest
  | 0, _, _, _, _, h => nomatch h
  | n + 1, s, rest, seen, j, h => by
    rw [items] at h
    split at h
    · exact nomatch h
    next item afterItem hitem =>
    obtain ⟨before, body, hbefore, hbody, rfl⟩ := value_sound n hitem
    obtain ⟨after, hafter, hrest⟩ := exists_blanks afterItem
    have helement := Element.mk hbefore hbody hafter
    split at h
    · exact nomatch h
    next b tail hskip =>
    split_ifs at h with hclose hcomma
    · obtain ⟨rfl, rfl⟩ := Prod.mk.inj (Except.ok.inj h)
      refine ⟨_, [item], .last helement, by rw [List.reverse_cons], ?_⟩
      rw [hrest, hskip, hclose]
      simp
    · obtain ⟨bodies, l, hbodies, rfl, rfl⟩ := items_sound n h
      refine ⟨_, item :: l, .more helement hbodies, by simp, ?_⟩
      rw [hrest, hskip, hcomma]
      simp
    · exact nomatch h

theorem members_sound : ∀ (n : Nat) {s rest : List UInt8} {seen : List (Text × Json)} {j : Json},
    members n s seen = .ok (j, rest) →
      ∃ body pairs, Members body pairs ∧ j = .object (setMembers pairs seen) ∧
        s = body ++ 0x7D :: rest
  | 0, _, _, _, _, h => nomatch h
  | n + 1, s, rest, seen, j, h => by
    rw [members] at h
    split at h
    · exact nomatch h
    next key afterKey hkey =>
    obtain ⟨before, hbefore, hs⟩ := exists_blanks s
    obtain ⟨quoted, hquoted, hskip⟩ := string_eq_ok_iff.mp hkey
    obtain ⟨between, hbetween, hafterKey⟩ := exists_blanks afterKey
    split at h
    next afterColon hcolon =>
      split at h
      · exact nomatch h
      next item afterItem hitem =>
      obtain ⟨front, body, hfront, hbody, rfl⟩ := value_sound n hitem
      obtain ⟨after, hafter, hrest⟩ := exists_blanks afterItem
      have hmember := Member.mk hbefore hquoted hbetween (.mk hfront hbody hafter)
      split at h
      · exact nomatch h
      next b tail hskipItem =>
      split_ifs at h with hclose hcomma
      · obtain ⟨rfl, rfl⟩ := Prod.mk.inj (Except.ok.inj h)
        refine ⟨_, [(key, item)], .last hmember, rfl, ?_⟩
        rw [hs, hskip, hafterKey, hcolon, hrest, hskipItem, hclose]
        simp
      · obtain ⟨bodies, pairs, hbodies, rfl, rfl⟩ := members_sound n h
        refine ⟨_, (key, item) :: pairs, .more hmember hbodies, rfl, ?_⟩
        rw [hs, hskip, hafterKey, hcolon, hrest, hskipItem, hcomma]
        simp
      · exact nomatch h
    · exact nomatch h

end

/-! ## What is in the grammar is read -/

/-- Blanks do not go on with a number. -/
theorem endsNumber_append (hbefore : Blanks before) (h : EndsNumber rest) :
    EndsNumber (before ++ rest) := by
  cases before with
  | nil => exact h
  | cons b tail =>
    have hblanks : ∀ b ∈ ([0x20, 0x09, 0x0A, 0x0B, 0x0C, 0x0D] : List UInt8),
        Byte.isDigit b = false ∧ b ≠ 0x2E ∧ b ≠ 0x65 ∧ b ≠ 0x45 := by
      simp [Byte.isDigit]
    exact endsNumber_cons (hblanks b (hbefore b List.mem_cons_self))

/-- A number begins with a byte that begins no other value, and with no blank. -/
theorem exists_eq_cons_of_signed {m : Number} (h : Signed s m) :
    ∃ b tail, s = b :: tail ∧ (b = 0x2D ∨ Byte.isDigit b = true) := by
  cases h with
  | positive h =>
    obtain ⟨b, tail, rfl, hb⟩ := h.exists_eq_cons
    exact ⟨b, tail, rfl, .inr hb⟩
  | negative h => exact ⟨_, _, rfl, .inl rfl⟩

theorem isBlank_of_number (hb : b = 0x2D ∨ Byte.isDigit b = true) : Byte.isBlank b = false := by
  rw [Bool.eq_false_iff, ne_eq, isBlank_iff]
  intro hmem
  have hblanks : ∀ b ∈ ([0x20, 0x09, 0x0A, 0x0B, 0x0C, 0x0D] : List UInt8),
      ¬ (b = 0x2D ∨ Byte.isDigit b = true) := by
    simp [Byte.isDigit]
  exact hblanks b hmem hb

theorem value_number (hb : b = 0x2D ∨ Byte.isDigit b = true) (n : Nat) (s : List UInt8) :
    value (n + 1) (b :: s) = number (b :: s) := by
  have hne (c : UInt8) (hc : ¬ (c = 0x2D ∨ Byte.isDigit c = true)) : b ≠ c := fun h ↦ hc (h ▸ hb)
  rw [value, skipBlanks_cons (isBlank_of_number hb)]
  dsimp only
  rw [if_neg (hne _ (by decide)), if_neg (hne _ (by decide)), if_neg (hne _ (by decide)),
    if_neg (hne _ (by decide)), if_neg (hne _ (by decide)), if_neg (hne _ (by decide)), if_pos]
  rwa [Bool.or_eq_true, decide_eq_true_iff]

/-- A value begins with a byte that is no blank and closes nothing. -/
theorem exists_eq_cons (h : Grammar.Value s j) :
    ∃ b tail, s = b :: tail ∧ Byte.isBlank b = false ∧ b ≠ 0x5D := by
  cases h with
  | number hs =>
    obtain ⟨b, tail, rfl, hb⟩ := exists_eq_cons_of_signed hs
    refine ⟨b, tail, rfl, isBlank_of_number hb, ?_⟩
    rintro rfl
    exact absurd hb (by decide)
  | text hs =>
    cases hs
    exact ⟨_, _, rfl, rfl, by decide⟩
  | _ => exact ⟨_, _, rfl, rfl, by decide⟩

theorem value_append (hbefore : Blanks before) (n : Nat) (s : List UInt8) :
    value (n + 1) (before ++ s) = value (n + 1) s := by
  rw [value, value, skipBlanks_append hbefore]

/-- An array is closed at once or read from its first item. -/
theorem value_openBracket (n : Nat) (s : List UInt8) :
    value (n + 1) (0x5B :: s) =
      match skipBlanks s with
      | 0x5D :: after => .ok (.array [], after)
      | inner => items n inner [] :=
  rfl

/-- An object is closed at once or read from its first member. -/
theorem value_openBrace (n : Nat) (s : List UInt8) :
    value (n + 1) (0x7B :: s) =
      match skipBlanks s with
      | 0x7D :: after => .ok (.object [], after)
      | inner => members n inner [] :=
  rfl

theorem value_quoted {t : Text} (h : Quoted s t) (n : Nat) (rest : List UInt8) :
    value (n + 1) (s ++ rest) = .ok (.text t, rest) := by
  have hread : string (s ++ rest) = .ok (t, rest) := string_eq_ok_iff.mpr ⟨s, h, rfl⟩
  cases h with
  | mk h =>
    change stringBody _ _ = _ at hread
    change (stringBody _ _).map _ = _
    rw [hread]
    rfl

/-- An array with an item is not closed at once. -/
theorem skipBlanks_elements_ne {l : List Json} (h : Elements s l) (tail : List UInt8) :
    skipBlanks (s ++ rest) ≠ 0x5D :: tail := by
  have helement {s : List UInt8} {item : Json} (h : Element s item) (rest : List UInt8) :
      skipBlanks (s ++ rest) ≠ 0x5D :: tail := by
    cases h with
    | mk hbefore hs hafter =>
      obtain ⟨b, body, rfl, hblank, hclose⟩ := exists_eq_cons hs
      rw [List.append_assoc, skipBlanks_append hbefore, List.cons_append, List.cons_append,
        skipBlanks_cons hblank]
      exact fun heq ↦ hclose (List.cons.inj heq).1
  cases h with
  | last hs => exact helement hs rest
  | more hs =>
    rw [List.append_assoc]
    exact helement hs _

/-- An object with a member is not closed at once. -/
theorem skipBlanks_members_ne {pairs : List (Text × Json)} (h : Members s pairs)
    (tail : List UInt8) : skipBlanks (s ++ rest) ≠ 0x7D :: tail := by
  have hmember {s : List UInt8} {pair : Text × Json} (h : Member s pair) (rest : List UInt8) :
      skipBlanks (s ++ rest) ≠ 0x7D :: tail := by
    cases h with
    | mk hbefore hkey =>
      cases hkey with
      | mk =>
        rw [List.append_assoc, skipBlanks_append hbefore, List.cons_append, List.cons_append,
          skipBlanks_cons rfl]
        exact fun heq ↦ absurd (List.cons.inj heq).1 (by decide)
  cases h with
  | last hs => exact hmember hs rest
  | more hs =>
    rw [List.append_assoc]
    exact hmember hs _

section steps

variable {between quoted : List UInt8} {item : Json} {key : Text}

/-- An item with the closing bracket behind it is the last one. -/
theorem items_close (h : value n s = .ok (item, rest)) (hrest : skipBlanks rest = 0x5D :: after)
    (seen : List Json) : items (n + 1) s seen = .ok (.array (item :: seen).reverse, after) := by
  rw [items, h]
  dsimp only
  rw [hrest]
  rfl

/-- An item with a comma behind it is one of those that were seen. -/
theorem items_comma (h : value n s = .ok (item, rest)) (hrest : skipBlanks rest = 0x2C :: after)
    (seen : List Json) : items (n + 1) s seen = items n after (item :: seen) := by
  rw [items, h]
  dsimp only
  rw [hrest]
  rfl

/-- A key is read before the colon. -/
theorem string_key (hbefore : Blanks before) (hkey : Quoted quoted key) (s : List UInt8) :
    string (skipBlanks (before ++ (quoted ++ s))) = .ok (key, s) := by
  rw [skipBlanks_append hbefore]
  cases hkey with
  | mk hkey =>
    rw [List.cons_append, skipBlanks_cons rfl, ← List.cons_append]
    exact string_eq_ok_iff.mpr ⟨_, .mk hkey, rfl⟩

/-- A member with the closing bracket behind it is the last one. -/
theorem members_close (hbefore : Blanks before) (hkey : Quoted quoted key)
    (hbetween : Blanks between) (h : value n s = .ok (item, rest))
    (hrest : skipBlanks rest = 0x7D :: after) (seen : List (Text × Json)) :
    members (n + 1) (before ++ (quoted ++ (between ++ 0x3A :: s))) seen =
      .ok (.object (setMember key item seen), after) := by
  rw [members, string_key hbefore hkey]
  dsimp only
  rw [skipBlanks_append hbetween, skipBlanks_cons rfl]
  simp only [h, hrest]
  rfl

/-- A member with a comma behind it is one of those that were seen. -/
theorem members_comma (hbefore : Blanks before) (hkey : Quoted quoted key)
    (hbetween : Blanks between) (h : value n s = .ok (item, rest))
    (hrest : skipBlanks rest = 0x2C :: after) (seen : List (Text × Json)) :
    members (n + 1) (before ++ (quoted ++ (between ++ 0x3A :: s))) seen =
      members n after (setMember key item seen) := by
  rw [members, string_key hbefore hkey]
  dsimp only
  rw [skipBlanks_append hbetween, skipBlanks_cons rfl]
  simp only [h, hrest]
  rfl

end steps

mutual

theorem value_complete : ∀ {s : List UInt8} {j : Json}, Grammar.Value s j →
    ∀ {n : Nat} {rest : List UInt8}, EndsNumber rest → 2 * s.length ≤ n →
      value n (s ++ rest) = .ok (j, rest)
  | s, _, h, 0, _, _, hn => by
    obtain ⟨b, tail, rfl, -⟩ := exists_eq_cons h
    exact absurd hn (by rw [List.length_cons]; omega)
  | _, _, .null, n + 1, rest, _, _ => rfl
  | _, _, .true, n + 1, rest, _, _ => rfl
  | _, _, .false, n + 1, rest, _, _ => rfl
  | _, _, .number hs, n + 1, rest, hrest, _ => by
    rw [← number_complete hs hrest]
    obtain ⟨b, tail, rfl, hb⟩ := exists_eq_cons_of_signed hs
    exact value_number hb n _
  | _, _, .text hs, n + 1, rest, _, _ => value_quoted hs n rest
  | _, _, .emptyArray hs, n + 1, rest, _, _ => by
    rw [List.cons_append, List.append_assoc, value_openBracket, skipBlanks_append hs]
    rfl
  | _, _, .array hs, n + 1, rest, _, hn => by
    rw [List.length_cons, List.length_append, List.length_singleton] at hn
    obtain ⟨k, rfl⟩ : ∃ k, n = k + 2 := ⟨n - 2, by omega⟩
    rw [List.cons_append, List.append_assoc, value_openBracket]
    split
    · next h => exact absurd h (skipBlanks_elements_ne hs _)
    · rw [items, value_skipBlanks, ← items]
      exact elements_complete hs (by omega)
  | _, _, .emptyObject hs, n + 1, rest, _, _ => by
    rw [List.cons_append, List.append_assoc, value_openBrace, skipBlanks_append hs]
    rfl
  | _, _, .object hs hmembers, n + 1, rest, _, hn => by
    rw [List.length_cons, List.length_append, List.length_singleton] at hn
    obtain ⟨k, rfl⟩ : ∃ k, n = k + 1 := ⟨n - 1, by omega⟩
    rw [List.cons_append, List.append_assoc, value_openBrace, collects_iff.mp hmembers]
    split
    · next h => exact absurd h (skipBlanks_members_ne hs _)
    · rw [members, skipBlanks_skipBlanks, ← members]
      exact members_complete hs (by omega)

theorem element_complete : ∀ {s : List UInt8} {j : Json}, Element s j →
    ∀ {n : Nat} {b : UInt8} (rest : List UInt8), b = 0x5D ∨ b = 0x7D ∨ b = 0x2C →
      2 * s.length ≤ n →
      ∃ after, value n (s ++ b :: rest) = .ok (j, after) ∧ skipBlanks after = b :: rest
  | _, _, .mk hbefore hs hafter, 0, _, _, _, hn => by
    obtain ⟨_, _, rfl, -⟩ := exists_eq_cons hs
    exact absurd hn (by simp)
  | _, _, .mk hbefore hs hafter, n + 1, b, rest, hb, hn => by
    rw [List.length_append, List.length_append] at hn
    rw [List.append_assoc, List.append_assoc, value_append hbefore]
    have hends : EndsNumber (b :: rest) ∧ Byte.isBlank b = false := by
      rcases hb with rfl | rfl | rfl <;> exact ⟨endsNumber_cons (by decide), rfl⟩
    refine ⟨_, value_complete hs (endsNumber_append hafter hends.1) (by omega), ?_⟩
    rw [skipBlanks_append hafter, skipBlanks_cons hends.2]

theorem elements_complete : ∀ {s : List UInt8} {l : List Json}, Elements s l →
    ∀ {n : Nat} {rest : List UInt8} {seen : List Json}, 2 * s.length + 1 ≤ n →
      items n (s ++ 0x5D :: rest) seen = .ok (.array (seen.reverse ++ l), rest)
  | _, _, _, 0, _, _, hn => absurd hn (by omega)
  | _, _, .last hs, n + 1, rest, seen, hn => by
    obtain ⟨after, hitem, hafter⟩ := element_complete hs (n := n) rest (.inl rfl) (by omega)
    rw [items_close hitem hafter, List.reverse_cons]
  | _, _, .more hs hrest, n + 1, rest, seen, hn => by
    rw [List.length_append, List.length_cons] at hn
    rw [List.append_assoc, List.cons_append]
    obtain ⟨after, hitem, hafter⟩ :=
      element_complete hs (n := n) _ (.inr (.inr rfl)) (by omega)
    rw [items_comma hitem hafter, elements_complete hrest (by omega), List.reverse_cons,
      List.append_assoc, List.singleton_append]

theorem members_complete : ∀ {s : List UInt8} {pairs : List (Text × Json)}, Members s pairs →
    ∀ {n : Nat} {rest : List UInt8} {seen : List (Text × Json)}, 2 * s.length + 1 ≤ n →
      members n (s ++ 0x7D :: rest) seen = .ok (.object (setMembers pairs seen), rest)
  | _, _, _, 0, _, _, hn => absurd hn (by omega)
  | _, _, .last (.mk hbefore hkey hbetween hs), n + 1, rest, seen, hn => by
    rw [List.length_append, List.length_append, List.length_append, List.length_cons] at hn
    rw [List.append_assoc, List.append_assoc, List.append_assoc, List.cons_append]
    obtain ⟨after, hitem, hafter⟩ :=
      element_complete hs (n := n) rest (.inr (.inl rfl)) (by omega)
    rw [members_close hbefore hkey hbetween hitem hafter]
    rfl
  | _, _, .more (.mk hbefore hkey hbetween hs) hrest, n + 1, rest, seen, hn => by
    rw [List.length_append, List.length_append, List.length_append, List.length_append,
      List.length_cons, List.length_cons] at hn
    rw [List.append_assoc, List.append_assoc, List.append_assoc, List.append_assoc,
      List.cons_append, List.cons_append]
    obtain ⟨after, hitem, hafter⟩ :=
      element_complete hs (n := n) _ (.inr (.inr rfl)) (by omega)
    rw [members_comma hbefore hkey hbetween hitem hafter, members_complete hrest (by omega)]
    rfl

end

end Parser

theorem parse_sound {t : Text} (h : parse t = .ok j) : Grammar.Element t.toList j := by
  rw [parse, Parser.document] at h
  split at h
  · next hdocument =>
    obtain rfl := Except.ok.inj h
    split at hdocument
    · exact nomatch hdocument
    next result rest hvalue =>
    split at hdocument
    · next hrest =>
      obtain rfl := Except.ok.inj hdocument
      obtain ⟨before, body, hbefore, hbody, hs⟩ := Parser.value_sound _ hvalue
      obtain ⟨after, hafter, heq⟩ := Parser.exists_blanks rest
      rw [hs, heq, hrest, List.append_nil]
      exact .mk hbefore hbody hafter
    · exact nomatch hdocument
  · exact nomatch h

theorem parse_complete {t : Text} (h : Grammar.Element t.toList j) : parse t = .ok j := by
  rw [parse, Parser.document]
  generalize t.toList = s at h
  cases h with
  | @mk before body after j hbefore hbody hafter =>
    have hends : Parser.EndsNumber after :=
      List.append_nil after ▸ Parser.endsNumber_append hafter nofun
    have hread := Parser.value_complete hbody hends
      (n := 2 * (before ++ (body ++ after)).length + 2) (by simp; omega)
    have hclosed : Parser.skipBlanks after = [] := by
      rw [← List.append_nil after, Parser.skipBlanks_append hafter]
      rfl
    rw [Parser.value_append hbefore, hread]
    simp only [hclosed]

/-- Reading a text gives a document exactly if the text writes it, with blanks around it. -/
theorem parse_eq_ok_iff (t : Text) (j : Json) : parse t = .ok j ↔ Grammar.Element t.toList j :=
  ⟨parse_sound, parse_complete⟩

end EcmaTree.Json
