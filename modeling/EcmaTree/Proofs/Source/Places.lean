import EcmaTree.Source.Lines
import Mathlib.Algebra.Group.Nat.Defs
import Mathlib.Data.List.Forall2
import Mathlib.Data.List.TakeWhile

/-!
# Lines and places

How a text is cut into lines, and how offsets and places correspond: the lines are what stands
between the newlines, and a place counts the newlines before an offset and the bytes since the last
one. No word is exceeded as long as the text is shorter than 2^32 - 1 bytes.
-/

namespace EcmaTree.Source

variable {b : UInt8} {bytes rest : List UInt8} {a o : Nat}

/-! ## Pieces -/

theorem pieces_newline (rest : List UInt8) : pieces (Byte.newline :: rest) = [] :: pieces rest := by
  rw [pieces, if_pos rfl]

theorem pieces_ne_nil (bytes : List UInt8) : pieces bytes ≠ [] := by
  cases bytes with
  | nil => exact List.cons_ne_nil _ _
  | cons b rest =>
    rw [pieces]
    split
    · exact List.cons_ne_nil _ _
    · split <;> exact List.cons_ne_nil _ _

/-- A byte that is no newline belongs to the first piece. -/
theorem exists_pieces_cons (hb : b ≠ Byte.newline) (rest : List UInt8) :
    ∃ piece others, pieces rest = piece :: others ∧
      pieces (b :: rest) = (b :: piece) :: others := by
  obtain ⟨piece, others, heq⟩ := List.exists_cons_of_ne_nil (pieces_ne_nil rest)
  refine ⟨piece, others, heq, ?_⟩
  rw [pieces, if_neg hb, heq]

theorem intercalate_pieces (bytes : List UInt8) :
    [Byte.newline].intercalate (pieces bytes) = bytes := by
  induction bytes with
  | nil => rfl
  | cons b rest ih =>
    by_cases hb : b = Byte.newline
    · subst hb
      rw [pieces_newline, List.intercalate_cons_of_ne_nil (pieces_ne_nil rest), ih]
      rfl
    · obtain ⟨piece, others, heq, hcons⟩ := exists_pieces_cons hb rest
      rw [heq] at ih
      rw [hcons, ← ih]
      cases others <;> simp [List.intercalate_cons_of_ne_nil]

theorem newline_notMem_pieces (bytes : List UInt8) :
    ∀ piece ∈ pieces bytes, Byte.newline ∉ piece := by
  induction bytes with
  | nil => simp [pieces]
  | cons b rest ih =>
    by_cases hb : b = Byte.newline
    · subst hb
      rw [pieces_newline]
      exact List.forall_mem_cons.mpr ⟨List.not_mem_nil, ih⟩
    · obtain ⟨piece, others, heq, hcons⟩ := exists_pieces_cons hb rest
      rw [heq, List.forall_mem_cons] at ih
      rw [hcons, List.forall_mem_cons]
      exact ⟨List.not_mem_cons_of_ne_of_not_mem (Ne.symm hb) ih.1, ih.2⟩

theorem length_pieces (bytes : List UInt8) :
    (pieces bytes).length = bytes.count Byte.newline + 1 := by
  induction bytes with
  | nil => rfl
  | cons b rest ih =>
    by_cases hb : b = Byte.newline
    · subst hb
      rw [pieces_newline, List.length_cons, ih, List.count_cons_self]
    · obtain ⟨piece, others, heq, hcons⟩ := exists_pieces_cons hb rest
      rw [hcons, List.length_cons, ← List.length_cons (a := piece), ← heq, ih,
        List.count_cons_of_ne hb]

theorem length_le_of_mem_pieces {piece : List UInt8} (hpiece : piece ∈ pieces bytes) :
    piece.length ≤ bytes.length := by
  induction bytes generalizing piece with
  | nil =>
    rw [pieces, List.mem_singleton] at hpiece
    rw [hpiece]
  | cons b rest ih =>
    by_cases hb : b = Byte.newline
    · subst hb
      rw [pieces_newline] at hpiece
      rcases List.mem_cons.mp hpiece with rfl | hpiece
      · exact Nat.zero_le _
      · exact (ih hpiece).trans (Nat.le_succ _)
    · obtain ⟨first, others, heq, hcons⟩ := exists_pieces_cons hb rest
      rw [heq] at ih
      rw [hcons] at hpiece
      rcases List.mem_cons.mp hpiece with rfl | hpiece
      · exact Nat.succ_le_succ (ih List.mem_cons_self)
      · exact (ih (List.mem_cons_of_mem _ hpiece)).trans (Nat.le_succ _)

theorem length_shown_le (piece : List UInt8) : (shown piece).length ≤ piece.length := by
  rw [shown]
  split
  · rw [Text.length_eq, Text.toList_ofList, List.length_dropLast]
    exact Nat.sub_le _ _
  · rw [Text.length_eq, Text.toList_ofList]

/-! ## Starts of lines -/

/-- The offsets right after the newlines among bytes, of which the first one is at an offset. -/
def startsAfter : Nat → List UInt8 → List Nat
  | _, [] => []
  | a, b :: rest =>
    if b = Byte.newline then (a + 1) :: startsAfter (a + 1) rest else startsAfter (a + 1) rest

theorem startsAfter_newline (a : Nat) (rest : List UInt8) :
    startsAfter a (Byte.newline :: rest) = (a + 1) :: startsAfter (a + 1) rest := by
  rw [startsAfter, if_pos rfl]

theorem startsAfter_of_ne (hb : b ≠ Byte.newline) (a : Nat) (rest : List UInt8) :
    startsAfter a (b :: rest) = startsAfter (a + 1) rest := by
  rw [startsAfter, if_neg hb]

theorem lt_of_mem_startsAfter {n : Nat} (hn : n ∈ startsAfter a bytes) : a < n := by
  induction bytes generalizing a with
  | nil => cases hn
  | cons b rest ih =>
    rw [startsAfter] at hn
    split at hn
    · rcases List.mem_cons.mp hn with rfl | hn
      · exact Nat.lt_succ_self a
      · exact (Nat.lt_succ_self a).trans (ih hn)
    · exact (Nat.lt_succ_self a).trans (ih hn)

theorem pairwise_startsAfter (a : Nat) (bytes : List UInt8) :
    (startsAfter a bytes).Pairwise (· < ·) := by
  induction bytes generalizing a with
  | nil => exact .nil
  | cons b rest ih =>
    rw [startsAfter]
    split
    · exact .cons (fun _ ↦ lt_of_mem_startsAfter) (ih (a + 1))
    · exact ih (a + 1)

/-- The offsets of the pieces are the first one and those right after the newlines. -/
theorem map_toNat_offsets (w : UInt32) (hfits : w.toNat + bytes.length < 2 ^ 32) :
    (offsets w (pieces bytes)).map UInt32.toNat = w.toNat :: startsAfter w.toNat bytes := by
  induction bytes generalizing w with
  | nil => rfl
  | cons b rest ih =>
    rw [List.length_cons] at hfits
    have hnext : (w + 1).toNat = w.toNat + 1 := by
      rw [UInt32.toNat_add]
      exact Nat.mod_eq_of_lt (by change w.toNat + 1 < _; omega)
    have ih := ih (w + 1) (by omega)
    rw [hnext] at ih
    by_cases hb : b = Byte.newline
    · subst hb
      rw [pieces_newline, offsets, startsAfter_newline, List.map_cons]
      congr 1
      rw [← ih]
      congr 2
      simp
    · obtain ⟨piece, others, heq, hcons⟩ := exists_pieces_cons hb rest
      rw [heq, offsets, List.map_cons] at ih
      rw [hcons, offsets, startsAfter_of_ne hb, List.map_cons]
      congr 1
      rw [← (List.cons.inj ih).2]
      congr 2
      rw [List.length_cons, UInt32.ofNat_add]
      ac_rfl

theorem takeWhile_startsAfter_of_le (ho : o ≤ a) (bytes : List UInt8) :
    (startsAfter a bytes).takeWhile (· ≤ o) = [] := by
  rw [List.takeWhile_eq_nil_iff]
  intro hpos
  rw [decide_eq_true_iff, Nat.not_le]
  exact ho.trans_lt (lt_of_mem_startsAfter (List.getElem_mem hpos))

theorem takeWhile_startsAfter_newline (ho : a < o) (rest : List UInt8) :
    (startsAfter a (Byte.newline :: rest)).takeWhile (· ≤ o) =
      (a + 1) :: (startsAfter (a + 1) rest).takeWhile (· ≤ o) := by
  rw [startsAfter_newline, List.takeWhile_cons_of_pos]
  exact decide_eq_true ho

/-- As many lines begin after the first one, up to an offset, as newlines stand before it. -/
theorem length_takeWhile_startsAfter (a o : Nat) (bytes : List UInt8) :
    ((startsAfter a bytes).takeWhile (· ≤ o)).length =
      (bytes.take (o - a)).count Byte.newline := by
  induction bytes generalizing a with
  | nil => simp [startsAfter]
  | cons b rest ih =>
    by_cases ho : a < o
    · have htake : o - a = o - (a + 1) + 1 := by omega
      rw [htake, List.take_succ_cons]
      by_cases hb : b = Byte.newline
      · subst hb
        rw [takeWhile_startsAfter_newline ho, List.length_cons, ih, List.count_cons_self]
      · rw [startsAfter_of_ne hb, ih, List.count_cons_of_ne hb]
    · have hle := Nat.not_lt.mp ho
      rw [takeWhile_startsAfter_of_le hle, Nat.sub_eq_zero_of_le hle, List.take_zero]
      rfl

/-- The bytes since the last newline, counted backwards, do not reach past it. -/
theorem takeWhile_reverse_newline (before after : List UInt8) :
    (before ++ Byte.newline :: after).reverse.takeWhile (· != Byte.newline) =
      after.reverse.takeWhile (· != Byte.newline) := by
  rw [List.reverse_append, List.reverse_cons, List.append_assoc, List.takeWhile_append]
  split
  · next hall => rw [List.IsPrefix.eq_of_length (List.takeWhile_prefix _) hall]; simp
  · rfl

theorem takeWhile_reverse_of_notMem (hbytes : Byte.newline ∉ bytes) :
    bytes.reverse.takeWhile (· != Byte.newline) = bytes.reverse := by
  rw [List.takeWhile_eq_self_iff]
  intro b hb
  rw [bne_iff_ne]
  rintro rfl
  exact hbytes (List.mem_reverse.mp hb)

/-- From the last start of a line up to an offset there are the bytes since the last newline. The
line of the first byte may have begun earlier. -/
theorem getLast?_startsAfter (start : Nat) (before : List UInt8) (hbefore : Byte.newline ∉ before)
    (ha : start + before.length = a) (hao : a ≤ o) (ho : o ≤ a + bytes.length) :
    (((startsAfter a bytes).takeWhile (· ≤ o)).getLast?.getD start) +
      ((before ++ bytes.take (o - a)).reverse.takeWhile (· != Byte.newline)).length = o := by
  induction bytes generalizing a start before with
  | nil =>
    obtain rfl : a = o := Nat.le_antisymm hao ho
    rw [List.take_nil, List.append_nil, takeWhile_reverse_of_notMem hbefore, List.length_reverse]
    exact ha
  | cons b rest ih =>
    rcases hao.eq_or_lt with rfl | hlt
    · rw [takeWhile_startsAfter_of_le (Nat.le_refl a), Nat.sub_self, List.take_zero,
        List.append_nil, takeWhile_reverse_of_notMem hbefore, List.length_reverse]
      exact ha
    · have htake : o - a = o - (a + 1) + 1 := by omega
      have hend : o ≤ a + 1 + rest.length := by
        rw [List.length_cons] at ho
        omega
      rw [htake, List.take_succ_cons]
      by_cases hb : b = Byte.newline
      · subst hb
        rw [takeWhile_startsAfter_newline hlt, List.getLast?_cons, Option.getD_some,
          takeWhile_reverse_newline]
        exact ih (a + 1) [] List.not_mem_nil rfl hlt hend
      · rw [startsAfter_of_ne hb, ← List.singleton_append, ← List.append_assoc]
        apply ih start _ _ _ hlt hend
        · simpa [hbefore] using Ne.symm hb
        · rw [List.length_append, List.length_singleton, ← ha]
          rfl

/-- Each piece stands between the start of its line and the next newline. -/
theorem forall₂_startsAfter (a : Nat) (bytes : List UInt8) :
    List.Forall₂ (fun n piece ↦
        ∃ k, n = a + k ∧ (bytes.drop k).takeWhile (· != Byte.newline) = piece)
      (a :: startsAfter a bytes) (pieces bytes) := by
  induction bytes generalizing a with
  | nil => exact .cons ⟨0, rfl, rfl⟩ .nil
  | cons b rest ih =>
    have hshift {n : Nat} {piece : List UInt8}
        (h : ∃ k, n = a + 1 + k ∧ (rest.drop k).takeWhile (· != Byte.newline) = piece) :
        ∃ k, n = a + k ∧ ((b :: rest).drop k).takeWhile (· != Byte.newline) = piece := by
      obtain ⟨k, rfl, hpiece⟩ := h
      exact ⟨k + 1, by omega, hpiece⟩
    by_cases hb : b = Byte.newline
    · subst hb
      rw [pieces_newline, startsAfter_newline]
      exact .cons ⟨0, rfl, rfl⟩ ((ih (a + 1)).imp fun _ _ ↦ hshift)
    · obtain ⟨piece, others, heq, hcons⟩ := exists_pieces_cons hb rest
      have ih := ih (a + 1)
      rw [heq] at ih
      obtain ⟨hpiece, hothers⟩ := List.forall₂_cons.mp ih
      obtain ⟨k, hk, hpiece⟩ := hpiece
      obtain rfl : k = 0 := by omega
      rw [hcons, startsAfter_of_ne hb]
      refine .cons ⟨0, rfl, ?_⟩ (hothers.imp fun _ _ ↦ hshift)
      rw [List.drop_zero, List.takeWhile_cons_of_pos, ← hpiece, List.drop_zero]
      exact bne_iff_ne.mpr hb

/-! ## The lines of a text -/

/-- A piece and the line that is shown of it. -/
inductive Displayed : List UInt8 → Text → Prop where
  | whole {piece : List UInt8} (hlast : piece.getLast? ≠ some Byte.carriageReturn) :
      Displayed piece (.ofList piece)
  | returned {line : List UInt8} : Displayed (line ++ [Byte.carriageReturn]) (.ofList line)

theorem displayed_shown (piece : List UInt8) : Displayed piece (shown piece) := by
  rw [shown]
  split
  · next hlast =>
    obtain ⟨line, rfl⟩ := List.getLast?_eq_some_iff.mp hlast
    rw [List.dropLast_concat]
    exact .returned
  · next hlast => exact .whole hlast

/-- The lines of a text and their starts. The pieces are what stands between the newlines; each is
shown as a line, and each begins at a start. -/
structure Splits (s : Source) (bytes : List UInt8) (pieces : List (List UInt8)) : Prop where
  intercalate_eq : [Byte.newline].intercalate pieces = bytes
  notMem : ∀ piece ∈ pieces, Byte.newline ∉ piece
  lines : List.Forall₂ Displayed pieces s.lines
  length_eq : s.lines.length = bytes.count Byte.newline + 1
  starts : List.Forall₂ (fun start piece ↦
    (bytes.drop start.toNat).takeWhile (· != Byte.newline) = piece) s.starts pieces
  first : s.starts.head? = some 0
  increasing : s.starts.Pairwise (· < ·)

/-- The place of an offset: a line that exists and a column in it, from which the offset is computed
back. Up to the end of the text they count newlines and bytes before the offset, and past the end
the line is the last one. -/
structure Places (s : Source) (bytes : List UInt8) (offset : Nat) (p : Position) : Prop where
  line_pos : 1 ≤ p.line.toNat
  line_le : p.line.toNat ≤ s.lines.length
  column_pos : 1 ≤ p.column.toNat
  offset_eq : ∃ start, s.starts[p.line.toNat - 1]? = some start ∧
    start.toNat + p.column.toNat - 1 = offset
  line_eq (ho : offset ≤ bytes.length) :
    p.line.toNat - 1 = (bytes.take offset).count Byte.newline
  column_eq (ho : offset ≤ bytes.length) :
    p.column.toNat - 1 = ((bytes.take offset).reverse.takeWhile (· != Byte.newline)).length
  beyond (ho : bytes.length < offset) : p.line.toNat = s.lines.length

variable {file text : Text}

theorem ofText_eq (hne : text ≠ .empty) :
    ofText file text = ⟨file, (pieces text.toList).map shown, offsets 0 (pieces text.toList)⟩ := by
  rw [ofText, if_neg (by simpa using hne)]

theorem map_toNat_starts (file : Text) (hne : text ≠ .empty) (hlength : text.length < 2 ^ 32) :
    (ofText file text).starts.map UInt32.toNat = 0 :: startsAfter 0 text.toList := by
  rw [ofText_eq hne]
  apply map_toNat_offsets 0
  rw [← Text.length_eq]
  change 0 + text.length < 2 ^ 32
  omega

theorem length_lines (hne : text ≠ .empty) :
    (ofText file text).lines.length = text.toList.count Byte.newline + 1 := by
  rw [ofText_eq hne, List.length_map, length_pieces]

theorem splits_ofText (hne : text ≠ .empty) (hlength : text.length < 2 ^ 32) :
    (ofText file text).Splits text.toList (pieces text.toList) where
  intercalate_eq := intercalate_pieces _
  notMem := newline_notMem_pieces _
  lines := by
    rw [ofText_eq hne, List.forall₂_map_right_iff, List.forall₂_same]
    exact fun piece _ ↦ displayed_shown piece
  length_eq := length_lines hne
  starts := by
    have hstarts := forall₂_startsAfter 0 text.toList
    rw [← map_toNat_starts file hne hlength, List.forall₂_map_left_iff] at hstarts
    refine hstarts.imp fun start piece h ↦ ?_
    obtain ⟨k, hk, hpiece⟩ := h
    rwa [hk, Nat.zero_add]
  first := by
    obtain ⟨piece, others, heq⟩ := List.exists_cons_of_ne_nil (pieces_ne_nil text.toList)
    rw [ofText_eq hne, heq]
    rfl
  increasing := by
    have hincreasing : (0 :: startsAfter 0 text.toList).Pairwise (· < ·) :=
      .cons (fun _ ↦ lt_of_mem_startsAfter) (pairwise_startsAfter 0 _)
    rw [← map_toNat_starts file hne hlength, List.pairwise_map] at hincreasing
    exact hincreasing.imp UInt32.lt_iff_toNat_lt.mpr

/-- The place of an offset in words: one more than the newlines before it, and one more than what
lies between it and the start of its line. -/
theorem exists_locate_eq (file : Text) (hne : text ≠ .empty) (hlength : text.length < 2 ^ 32)
    (offset : UInt32) :
    ∃ start,
      (ofText file text).locate offset =
        ⟨UInt32.ofNat ((text.toList.take offset.toNat).count Byte.newline + 1),
          offset - start + 1⟩ ∧
      (ofText file text).starts[(text.toList.take offset.toNat).count Byte.newline]? = some start ∧
      start.toNat =
        ((startsAfter 0 text.toList).takeWhile (· ≤ offset.toNat)).getLast?.getD 0 ∧
      start ≤ offset := by
  have hmap : ((ofText file text).starts.takeWhile (· ≤ offset)).map UInt32.toNat =
      0 :: (startsAfter 0 text.toList).takeWhile (· ≤ offset.toNat) := by
    have hstarts := congrArg (List.takeWhile (· ≤ offset.toNat))
      (map_toNat_starts file hne hlength)
    rwa [List.takeWhile_map, List.takeWhile_cons_of_pos (by simp)] at hstarts
  have hcount := congrArg List.length hmap
  rw [List.length_map, List.length_cons, length_takeWhile_startsAfter, Nat.sub_zero] at hcount
  have hlast := congrArg List.getLast? hmap
  rw [List.getLast?_map, List.getLast?_cons, Option.map_eq_some_iff] at hlast
  obtain ⟨start, hstart, hvalue⟩ := hlast
  refine ⟨start, ?_, ?_, hvalue, ?_⟩
  · rw [locate, hstart, ← hcount]
  · rw [List.getLast?_eq_getElem?, hcount, Nat.add_sub_cancel] at hstart
    obtain ⟨hlt, rfl⟩ := List.getElem?_eq_some_iff.mp hstart
    exact List.prefix_iff_getElem?.mp (List.takeWhile_prefix _) _ hlt
  · have hmem := List.mem_takeWhile_imp (List.mem_of_getLast? hstart)
    exact of_decide_eq_true hmem

theorem places_locate (hne : text ≠ .empty) (hlength : text.length < 2 ^ 32 - 1) {offset : UInt32}
    (hoffset : offset.toNat < 2 ^ 32 - 1) :
    (ofText file text).Places text.toList offset.toNat ((ofText file text).locate offset) := by
  obtain ⟨start, hlocate, hget, hstart, hle⟩ :=
    exists_locate_eq file hne (by omega) offset
  rw [UInt32.le_iff_toNat_le] at hle
  rw [Text.length_eq] at hlength
  have hcount : (text.toList.take offset.toNat).count Byte.newline ≤
      text.toList.count Byte.newline := (List.take_sublist _ _).count_le _
  have hbound : text.toList.count Byte.newline ≤ text.toList.length := List.count_le_length
  have hline : ((ofText file text).locate offset).line.toNat =
      (text.toList.take offset.toNat).count Byte.newline + 1 := by
    rw [hlocate]
    exact UInt32.toNat_ofNat_of_lt (by change _ < 2 ^ 32; omega)
  have hcolumn : ((ofText file text).locate offset).column.toNat =
      offset.toNat - start.toNat + 1 := by
    rw [hlocate]
    change (offset - start + 1).toNat = _
    rw [UInt32.toNat_add, UInt32.toNat_sub_of_le _ _ hle]
    exact Nat.mod_eq_of_lt (by change _ + 1 < _; omega)
  constructor
  · omega
  · rw [hline, length_lines hne]
    omega
  · omega
  · refine ⟨start, ?_, by omega⟩
    rwa [hline, Nat.add_sub_cancel]
  · intro _
    rw [hline, Nat.add_sub_cancel]
  · intro ho
    have hsum := getLast?_startsAfter (a := 0) 0 [] List.not_mem_nil rfl (Nat.zero_le _)
      (ho.trans (Nat.le_add_left _ _))
    rw [List.nil_append, Nat.sub_zero, ← hstart] at hsum
    omega
  · intro ho
    rw [hline, length_lines hne, List.take_of_length_le ho.le]

/-- A text that is not empty is cut into lines at its newlines and nowhere else, and every offset
has its place, from which it is computed back: so many newlines before it, and so many bytes since
the last one. Offsets past the end are on the last line. No word wraps around. -/
theorem positions_exact (file text : Text) (hne : text ≠ .empty)
    (hlength : text.length < 2 ^ 32 - 1) :
    (∃ pieces, (ofText file text).Splits text.toList pieces) ∧
      ∀ offset : UInt32, offset.toNat < 2 ^ 32 - 1 →
        (ofText file text).Places text.toList offset.toNat ((ofText file text).locate offset) :=
  ⟨⟨_, splits_ofText hne (by omega)⟩, fun _ ↦ places_locate hne hlength⟩

/-- Lines that end with a carriage return, have one inside, or are empty, the last one after a
newline at the end. An offset of a newline is on the line that it ends. -/
theorem positions_exact_emptyLines :
    let text : Text := "a\r\n\nb\rc\n"
    text ≠ .empty ∧ text.length < 2 ^ 32 - 1 ∧
      (ofText "f" text).lines = ["a", "", "b\rc", ""].map Text.ofString ∧
      (∃ pieces, (ofText "f" text).Splits text.toList pieces) ∧
      (ofText "f" text).locate 7 = ⟨3, 4⟩ ∧
      (ofText "f" text).Places text.toList 7 ⟨3, 4⟩ ∧
      (ofText "f" text).locate 4294967294 = ⟨4, 4294967287⟩ ∧
      (ofText "f" text).Places text.toList 4294967294 ⟨4, 4294967287⟩ := by
  intro text
  have hne : text ≠ .empty := by decide +kernel
  have hlength : text.length < 2 ^ 32 - 1 := by decide +kernel
  obtain ⟨hsplits, hplaces⟩ := positions_exact "f" text hne hlength
  have hinside : (ofText "f" text).locate 7 = ⟨3, 4⟩ := by decide +kernel
  have hbeyond : (ofText "f" text).locate 4294967294 = ⟨4, 4294967287⟩ := by decide +kernel
  exact ⟨hne, hlength, by decide +kernel, hsplits, hinside, hinside ▸ hplaces 7 (by decide),
    hbeyond, hbeyond ▸ hplaces 4294967294 (by decide)⟩

end EcmaTree.Source
