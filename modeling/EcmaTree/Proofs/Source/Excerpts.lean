import EcmaTree.Proofs.Number.Digits
import EcmaTree.Proofs.Source.Places
import EcmaTree.Source.Excerpt

/-!
# Excerpts

Which lines an excerpt shows, and how its rows are aligned. The lines are those of a window around
the marked one, unless the sum of its line and the context wraps around: then the window ends above
the marked line. The row of carets stands under the marked line and does not run past its end.
-/

namespace EcmaTree

theorem UInt32.toNat_min (a b : UInt32) : (min a b).toNat = min a.toNat b.toNat := by
  change (if a ≤ b then a else b).toNat = _
  split
  · next h => exact (Nat.min_eq_left (UInt32.le_iff_toNat_le.mp h)).symm
  · next h => exact (Nat.min_eq_right (Nat.not_le.mp (mt UInt32.le_iff_toNat_le.mpr h)).le).symm

theorem UInt32.toNat_max (a b : UInt32) : (max a b).toNat = max a.toNat b.toNat := by
  change (if a ≤ b then b else a).toNat = _
  split
  · next h => exact (Nat.max_eq_right (UInt32.le_iff_toNat_le.mp h)).symm
  · next h => exact (Nat.max_eq_left (Nat.not_le.mp (mt UInt32.le_iff_toNat_le.mpr h)).le).symm

theorem UInt32.ne_zero_of_pos {a : UInt32} (h : 1 ≤ a.toNat) : a ≠ 0 := by
  rintro rfl
  exact absurd h (by decide)

theorem Text.length_replicate (n : Nat) (b : UInt8) : (Text.replicate n b).length = n := by
  rw [length_eq, toList_replicate, List.length_replicate]

theorem Text.length_ofNat (n : Nat) : (Text.ofNat n).length = Nat.log 10 n + 1 := by
  rw [length_eq, ofNat, toList_ofList, length_decimalDigits]

namespace Source

/-- The lines of a source and the bytes of each of its lines are counted by words. -/
structure Fits (s : Source) : Prop where
  lines_lt : s.lines.length < 2 ^ 32
  line_lt : ∀ line ∈ s.lines, line.length < 2 ^ 32

/-- Every text fits whose offsets are words, the one past its end included. -/
theorem fits_ofText (file : Text) {text : Text} (hlength : text.length < 2 ^ 32 - 1) :
    (ofText file text).Fits := by
  by_cases hne : text = .empty
  · subst hne
    have hlines : (ofText file .empty).lines = [] := rfl
    constructor <;> simp [hlines]
  · rw [Text.length_eq] at hlength
    have hcount : text.toList.count Byte.newline ≤ text.toList.length := List.count_le_length
    constructor
    · rw [length_lines hne]
      omega
    · intro line hline
      rw [ofText_eq hne] at hline
      obtain ⟨piece, hpiece, rfl⟩ := List.mem_map.mp hline
      have hle := length_shown_le piece
      have := length_le_of_mem_pieces hpiece
      omega

/-- A row of an excerpt: what stands up to the bar and the blank behind it, and what follows. -/
structure Row where
  gutter : Text
  content : Text

/-- A row as it is written. -/
def Row.toText (r : Row) : Text := r.gutter ++ r.content

/-- Rows as they are printed: each on a line of its own, after a line that is empty. -/
def printed (rows : List Row) : Text :=
  .single Byte.newline ++ .concat (rows.map fun r ↦ r.toText ++ .single Byte.newline)

theorem mem_printed {rows : List Row} {r : Row} (hr : r ∈ rows) {b : UInt8}
    (hb : b ∈ r.gutter.toList) : b ∈ (printed rows).toList := by
  rw [printed, Text.toList_append, Text.toList_concat]
  apply List.mem_append_right
  refine List.mem_flatMap.mpr ⟨_, List.mem_map_of_mem hr, ?_⟩
  rw [Row.toText, Text.toList_append, Text.toList_append]
  exact List.mem_append_left _ (List.mem_append_left _ hb)

/-- The row of a line: the gutter has a mark and then the number of the line, with blanks before it
up to a width. -/
structure Row.Shows (r : Row) (s : Source) (width : Nat) (mark : Text) (number : Nat) : Prop where
  gutter_eq : ∃ blanks, r.gutter =
    mark ++ Text.replicate blanks Byte.space ++ Text.ofNat number ++ " | "
  length_eq : r.gutter.length = width
  content_eq : s.lines[number - 1]? = some r.content

/-- A row of carets: the gutter has blanks only, and behind it the first caret is at a column. -/
structure Row.Marks (r : Row) (width column count : Nat) : Prop where
  gutter_eq : ∃ blanks, r.gutter = Text.replicate blanks Byte.space ++ " | "
  length_eq : r.gutter.length = width
  content_eq : r.content =
    Text.replicate (column - 1) Byte.space ++ Text.replicate count 0x5E

/-- The rows of the lines from a first to a last one, in order, one of them marked. All gutters have
the same width. -/
structure Shown (s : Source) (first marked last width : Nat) (before : List Row) (row : Row)
    (after : List Row) : Prop where
  before_shown : List.Forall₂ (fun k r ↦ r.Shows s width "  " k)
    (List.range' first (marked - first)) before
  row_shown : row.Shows s width "> " marked
  after_shown : List.Forall₂ (fun k r ↦ r.Shows s width "  " k)
    (List.range' (marked + 1) (last - marked)) after

variable {s : Source} {place : Position} {line context length : UInt32} {width k : Nat}

/-! ## The window -/

theorem toNat_window_fst :
    (s.window line context).1.toNat = max 1 (line.toNat - context.toNat) := by
  change (if context < line then line - context else 1).toNat = _
  split
  · next h =>
    rw [UInt32.lt_iff_toNat_lt] at h
    rw [UInt32.toNat_sub_of_le _ _ (UInt32.le_iff_toNat_le.mpr h.le)]
    omega
  · next h =>
    rw [UInt32.lt_iff_toNat_lt] at h
    change 1 = _
    omega

theorem toNat_window_snd (hs : s.Fits) :
    (s.window line context).2.toNat =
      min s.lines.length ((line.toNat + context.toNat) % 2 ^ 32) := by
  change (min (UInt32.ofNat s.lines.length) (line + context)).toNat = _
  rw [UInt32.toNat_min, UInt32.toNat_ofNat_of_lt' hs.lines_lt, UInt32.toNat_add]

theorem toNat_window_snd_of_lt (hs : s.Fits) (hsum : line.toNat + context.toNat < 2 ^ 32) :
    (s.window line context).2.toNat = min s.lines.length (line.toNat + context.toNat) := by
  rw [toNat_window_snd hs, Nat.mod_eq_of_lt hsum]

/-! ## The rounds -/

/-- No number is behind the greatest word. -/
theorem number_le {last : UInt32} (hlast : last.toNat + 1 = UInt32.size) (w : Writing) :
    w.number ≤ last := by
  have hword : w.number.toNat < last.toNat + 1 := hlast ▸ w.number.toNat_lt_size
  exact UInt32.le_iff_toNat_le.mpr (Nat.le_of_lt_succ hword)

/-- The rounds are those of a loop: whatever the last line is, there is one more as long as the
number is not behind it. -/
theorem rounds_eq (last : UInt32) (w : Writing) :
    s.rounds width place length last w =
      if w.number ≤ last then s.rounds width place length last (s.round width place length w)
      else some w.text := by
  by_cases hlast : last.toNat + 1 = UInt32.size
  · rw [if_pos (number_le hlast w), rounds, rounds, if_pos hlast, if_pos hlast]
  · rw [rounds, if_neg hlast]

/-- The rounds that end are finitely many, and have written what there is then. Where there are no
such rounds, there is no text. -/
theorem rounds_eq_some_iff {last : UInt32} {w : Writing} {t : Text} :
    s.rounds width place length last w = some t ↔ ∃ k,
      (∀ j < k, ((s.round width place length)^[j] w).number ≤ last) ∧
      last < ((s.round width place length)^[k] w).number ∧
      ((s.round width place length)^[k] w).text = t := by
  constructor
  · fun_induction rounds s width place length last w with
    | case1 w hlast => exact nofun
    | case2 w hlast hle ih =>
      intro ht
      obtain ⟨k, hbefore, hbehind, htext⟩ := ih ht
      refine ⟨k + 1, fun j hj ↦ ?_, hbehind, htext⟩
      cases j with
      | zero => exact hle
      | succ j => exact hbefore j (Nat.lt_of_succ_lt_succ hj)
    | case3 w hlast hle =>
      intro ht
      refine ⟨0, fun j hj ↦ absurd hj (Nat.not_lt_zero j), ?_, Option.some.inj ht⟩
      exact UInt32.not_le.mp hle
  · rintro ⟨k, hbefore, hbehind, htext⟩
    induction k generalizing w with
    | zero =>
      have hbehind : ¬ w.number ≤ last := UInt32.not_le.mpr hbehind
      rw [rounds_eq, if_neg hbehind]
      exact congrArg some htext
    | succ k ih =>
      have hle : w.number ≤ last := hbefore 0 (Nat.succ_pos k)
      rw [rounds_eq, if_pos hle]
      exact ih (fun j hj ↦ hbefore (j + 1) (Nat.succ_lt_succ hj)) hbehind htext

theorem rounds_eq_none {last : UInt32} (hlast : last.toNat + 1 = UInt32.size) (w : Writing) :
    s.rounds width place length last w = none := by
  rw [rounds, if_pos hlast]

theorem number_iterate_round (w : Writing) (k : Nat) :
    ((s.round width place length)^[k] w).number = w.number + UInt32.ofNat k := by
  induction k with
  | zero => exact (UInt32.add_zero _).symm
  | succ k ih =>
    rw [Function.iterate_succ_apply', round, ih, UInt32.add_assoc, UInt32.ofNat_add]
    rfl

/-- The row of a line with a mark. -/
def lineRow (s : Source) (width : Nat) (mark : Text) (number : UInt32) : Row :=
  ⟨mark ++ padded width number.toNat ++ " | ", s.line number⟩

/-- The row of carets under the line of a place. -/
def caretRow (s : Source) (width : Nat) (place : Position) (length : UInt32) : Row :=
  ⟨Text.replicate (width + 2) Byte.space ++ " | ",
    carets place.column (min length (room (s.line place.line) place.column))⟩

/-- The rows under the line of a place: one of carets if there is a column. -/
def rowsUnder (s : Source) (width : Nat) (place : Position) (length : UInt32) : List Row :=
  if place.column = 0 then [] else [s.caretRow width place length]

/-- The rows that one round writes. -/
def rowsAt (s : Source) (width : Nat) (place : Position) (length number : UInt32) : List Row :=
  if number = place.line then s.lineRow width "> " number :: s.rowsUnder width place length
  else [s.lineRow width "  " number]

theorem rows_eq_map (s : Source) (width : Nat) (place : Position) (length number : UInt32) :
    s.rows width place length number = (s.rowsAt width place length number).map Row.toText := by
  rw [rows, rowsAt]
  split
  · next h =>
    subst h
    rw [rowsUnder]
    split <;> rfl
  · rfl

theorem printed_append (rows more : List Row) :
    printed (rows ++ more) =
      printed rows ++ .concat (more.map fun r ↦ r.toText ++ .single Byte.newline) := by
  apply Text.ext
  simp only [printed, Text.toList_append, Text.toList_concat, List.map_append, List.flatMap_append,
    List.append_assoc]

theorem round_printed (s : Source) (width : Nat) (place : Position) (length number : UInt32)
    (rows : List Row) :
    s.round width place length ⟨number, printed rows⟩ =
      ⟨number + 1, printed (rows ++ s.rowsAt width place length number)⟩ := by
  rw [round, rows_eq_map, List.map_map, printed_append]
  rfl

/-- After some rounds the rows of as many lines are written. -/
theorem iterate_round_printed (s : Source) (width : Nat) (place : Position) (length first : UInt32)
    (k : Nat) :
    ((s.round width place length)^[k] ⟨first, printed []⟩).text =
      printed ((List.range k).flatMap fun j ↦
        s.rowsAt width place length (first + UInt32.ofNat j)) := by
  have hround : (s.round width place length)^[k] ⟨first, printed []⟩ =
      ⟨first + UInt32.ofNat k, printed ((List.range k).flatMap fun j ↦
        s.rowsAt width place length (first + UInt32.ofNat j))⟩ := by
    induction k with
    | zero => exact congrArg (Writing.mk · _) (UInt32.add_zero first).symm
    | succ k ih =>
      rw [Function.iterate_succ_apply', ih, round_printed, List.range_succ, List.flatMap_append,
        List.flatMap_singleton, UInt32.add_assoc, UInt32.ofNat_add]
      rfl
  rw [hround]

/-- The rounds up to a line that is not the greatest word write the rows of the lines up to it. -/
theorem rounds_eq_printed {first last : UInt32} (hlast : last.toNat < 2 ^ 32 - 1) :
    s.rounds width place length last ⟨first, printed []⟩ =
      some (printed ((List.range' first.toNat (last.toNat + 1 - first.toNat)).flatMap fun k ↦
        s.rowsAt width place length (UInt32.ofNat k))) := by
  have hword := first.toNat_lt
  have hnumber (j : Nat) (hj : first.toNat + j < 2 ^ 32) :
      ((s.round width place length)^[j] ⟨first, printed []⟩).number.toNat = first.toNat + j := by
    rw [number_iterate_round, UInt32.toNat_add, UInt32.toNat_ofNat', Nat.add_mod_mod,
      Nat.mod_eq_of_lt hj]
  refine rounds_eq_some_iff.mpr ⟨last.toNat + 1 - first.toNat, fun j hj ↦ ?_, ?_, ?_⟩
  · rw [UInt32.le_iff_toNat_le, hnumber j (by omega)]
    omega
  · rw [UInt32.lt_iff_toNat_lt, hnumber _ (by omega)]
    omega
  · rw [iterate_round_printed, List.range'_eq_map_range, List.flatMap_map]
    simp only [UInt32.ofNat_add, UInt32.ofNat_toNat]

/-! ## The rows -/

theorem lines_getElem? (hs : s.Fits) (hpos : 1 ≤ k) (hle : k ≤ s.lines.length) :
    s.lines[k - 1]? = some (s.line (UInt32.ofNat k)) := by
  have hk : (UInt32.ofNat k).toNat = k := UInt32.toNat_ofNat_of_lt' (hle.trans_lt hs.lines_lt)
  have hne : UInt32.ofNat k ≠ 0 := UInt32.ne_zero_of_pos (hpos.trans_eq hk.symm)
  have hlt : k - 1 < s.lines.length := by omega
  rw [line, if_neg hne, hk, List.getD_eq_getElem?_getD, List.getElem?_eq_getElem hlt,
    Option.getD_some]

/-- A number stands in its gutter with blanks before it, up to the width of the gutters. -/
theorem length_gutter_lineRow {mark : Text} (hmark : mark.length = 2) {number : UInt32}
    (hwidth : (Text.ofNat number.toNat).length ≤ width) :
    (s.lineRow width mark number).gutter.length = width + 5 := by
  have hbar : (" | " : Text).length = 3 := by decide +kernel
  simp only [lineRow, padded, Text.length_append, hmark, hbar, Text.length_replicate]
  omega

theorem shows_lineRow (hs : s.Fits) {mark : Text} (hmark : mark.length = 2) (hpos : 1 ≤ k)
    (hle : k ≤ s.lines.length) (hwidth : (Text.ofNat k).length ≤ width) :
    (s.lineRow width mark (UInt32.ofNat k)).Shows s (width + 5) mark k := by
  have hk : (UInt32.ofNat k).toNat = k := UInt32.toNat_ofNat_of_lt' (hle.trans_lt hs.lines_lt)
  refine ⟨⟨width - (Text.ofNat k).length, ?_⟩, length_gutter_lineRow hmark (by rwa [hk]),
    lines_getElem? hs hpos hle⟩
  simp only [lineRow, padded, Text.append_assoc, hk]

theorem length_ofNat_mono {m n : Nat} (h : m ≤ n) :
    (Text.ofNat m).length ≤ (Text.ofNat n).length := by
  rw [Text.length_ofNat, Text.length_ofNat]
  exact Nat.succ_le_succ (Nat.log_mono_right h)

/-- The numbers of a window are those before the marked line, its own one, and those after it. -/
theorem range'_eq_append_cons {first marked last : Nat} (hfirst : first ≤ marked)
    (hlast : marked ≤ last) :
    List.range' first (last + 1 - first) =
      List.range' first (marked - first) ++ marked :: List.range' (marked + 1) (last - marked) := by
  have hmarked : first + (marked - first) = marked := by omega
  have hcount : last + 1 - first = marked - first + (last - marked + 1) := by omega
  rw [hcount, ← List.range'_append_1, hmarked, List.range'_succ]

/-- The rows of lines that are not marked. -/
theorem flatMap_rowsAt {numbers : List Nat} (hne : ∀ k ∈ numbers, UInt32.ofNat k ≠ place.line) :
    (numbers.flatMap fun k ↦ s.rowsAt width place length (UInt32.ofNat k)) =
      numbers.map fun k ↦ s.lineRow width "  " (UInt32.ofNat k) := by
  induction numbers with
  | nil => rfl
  | cons k rest ih =>
    rw [List.forall_mem_cons] at hne
    rw [List.flatMap_cons, rowsAt, if_neg hne.1, ih hne.2]
    rfl

theorem ofNat_ne_line {marked : UInt32} (hne : k ≠ marked.toNat) (hk : k < 2 ^ 32) :
    UInt32.ofNat k ≠ marked := by
  rintro rfl
  exact hne (UInt32.toNat_ofNat_of_lt' hk).symm

/-- An excerpt is made by rounds from its first line on. -/
theorem excerpt_eq_rounds (hpos : 1 ≤ place.line.toNat) (hle : place.line.toNat ≤ s.lines.length)
    (length context : UInt32) :
    s.excerpt place length context =
      s.rounds (Text.ofNat (s.window place.line context).2.toNat).length place length
        (s.window place.line context).2 ⟨(s.window place.line context).1, printed []⟩ := by
  have hzero : place.line ≠ 0 := UInt32.ne_zero_of_pos hpos
  have hvalid : ¬ (place.line = 0 || s.lines.length < place.line.toNat) = true := by
    simpa [hzero] using hle
  rw [excerpt, if_neg hvalid]
  rfl

/-- An excerpt is printed from the rows of the lines in its window. -/
theorem excerpt_eq_printed (hpos : 1 ≤ place.line.toNat) (hle : place.line.toNat ≤ s.lines.length)
    {first last : Nat} (hfirst : (s.window place.line context).1.toNat = first)
    (hlast : (s.window place.line context).2.toNat = last) (hend : last < 2 ^ 32 - 1) :
    s.excerpt place length context =
      some (printed ((List.range' first (last + 1 - first)).flatMap fun k ↦
        s.rowsAt (Text.ofNat last).length place length (UInt32.ofNat k))) := by
  subst hfirst hlast
  rw [excerpt_eq_rounds hpos hle, rounds_eq_printed hend]

theorem shown_lineRows (hs : s.Fits) {last : Nat} (hlast : last ≤ s.lines.length)
    {numbers : List Nat} (hnumbers : ∀ k ∈ numbers, 1 ≤ k ∧ k ≤ last) :
    List.Forall₂ (fun k r ↦ r.Shows s ((Text.ofNat last).length + 5) "  " k) numbers
      (numbers.map fun k ↦ s.lineRow (Text.ofNat last).length "  " (UInt32.ofNat k)) := by
  rw [List.forall₂_map_right_iff, List.forall₂_same]
  intro k hk
  obtain ⟨hpos, hle⟩ := hnumbers k hk
  exact shows_lineRow hs (by decide +kernel) hpos (hle.trans hlast) (length_ofNat_mono hle)

/-- An excerpt whose window does not wrap around, and does not end with the greatest word, has the
rows of its window, and those of the carets under the marked line. -/
theorem excerpt_shown (hs : s.Fits) (hpos : 1 ≤ place.line.toNat)
    (hle : place.line.toNat ≤ s.lines.length)
    (hsum : place.line.toNat + context.toNat < 2 ^ 32)
    (hend : min s.lines.length (place.line.toNat + context.toNat) < 2 ^ 32 - 1)
    (length : UInt32) :
    ∃ width before row after,
      s.Shown (max 1 (place.line.toNat - context.toNat)) place.line.toNat
        (min s.lines.length (place.line.toNat + context.toNat)) (width + 5) before row after ∧
      row.content = s.line place.line ∧
      s.excerpt place length context =
        some (printed (before ++ row :: (s.rowsUnder width place length ++ after))) := by
  have hwindow : (s.window place.line context).2.toNat =
      min s.lines.length (place.line.toNat + context.toNat) :=
    toNat_window_snd_of_lt hs hsum
  have hlastle : min s.lines.length (place.line.toNat + context.toNat) ≤ s.lines.length :=
    Nat.min_le_left _ _
  have hmarked : place.line.toNat ≤ min s.lines.length (place.line.toNat + context.toNat) := by
    omega
  generalize min s.lines.length (place.line.toNat + context.toNat) = last at *
  generalize hfirst : max 1 (place.line.toNat - context.toNat) = first
  have hbefore {k : Nat} (hk : k ∈ List.range' first (place.line.toNat - first)) :
      1 ≤ k ∧ k < place.line.toNat := by
    rw [List.mem_range'_1] at hk
    omega
  have hafter {k : Nat} (hk : k ∈ List.range' (place.line.toNat + 1) (last - place.line.toNat)) :
      place.line.toNat < k ∧ k ≤ last := by
    rw [List.mem_range'_1] at hk
    omega
  refine ⟨(Text.ofNat last).length, _,
    s.lineRow (Text.ofNat last).length "> " (UInt32.ofNat place.line.toNat), _,
    ⟨shown_lineRows hs hlastle fun k hk ↦ ?_, ?_, shown_lineRows hs hlastle fun k hk ↦ ?_⟩, ?_, ?_⟩
  · have := hbefore hk
    omega
  · exact shows_lineRow hs (by decide +kernel) hpos hle (length_ofNat_mono hmarked)
  · have := hafter hk
    omega
  · rw [lineRow, UInt32.ofNat_toNat]
  · rw [excerpt_eq_printed hpos hle (toNat_window_fst.trans hfirst) hwindow hend,
      range'_eq_append_cons (by omega) hmarked, List.flatMap_append, List.flatMap_cons,
      flatMap_rowsAt fun k hk ↦ ofNat_ne_line (hbefore hk).2.ne (by have := hbefore hk; omega),
      flatMap_rowsAt fun k hk ↦ ofNat_ne_line (hafter hk).1.ne' (by have := hafter hk; omega),
      rowsAt, if_pos UInt32.ofNat_toNat, List.cons_append]

/-- An excerpt whose window wraps around has rows that all come before the line of the place. -/
theorem excerpt_wrapped (hs : s.Fits) (hpos : 1 ≤ place.line.toNat)
    (hle : place.line.toNat ≤ s.lines.length)
    (hsum : 2 ^ 32 ≤ place.line.toNat + context.toNat) (length : UInt32) {last : Nat}
    (hlast : place.line.toNat + context.toNat - 2 ^ 32 = last) :
    ∃ rows,
      List.Forall₂ (fun k r ↦ r.Shows s ((Text.ofNat last).length + 5) "  " k)
        (List.range' (max 1 (place.line.toNat - context.toNat))
          (last + 1 - max 1 (place.line.toNat - context.toNat))) rows ∧
      s.excerpt place length context = some (printed rows) := by
  have hline := place.line.toNat_lt
  have hcontext := context.toNat_lt
  generalize hfirst : max 1 (place.line.toNat - context.toNat) = first
  have hwindow : (s.window place.line context).2.toNat = last := by
    rw [toNat_window_snd hs, Nat.mod_eq_sub_mod hsum, hlast, Nat.mod_eq_of_lt (by omega)]
    omega
  have hnumbers {k : Nat} (hk : k ∈ List.range' first (last + 1 - first)) :
      1 ≤ k ∧ k ≤ last ∧ k < place.line.toNat := by
    rw [List.mem_range'_1] at hk
    omega
  refine ⟨_, shown_lineRows hs (by omega) fun k hk ↦ ?_, ?_⟩
  · have := hnumbers hk
    omega
  · rw [excerpt_eq_printed hpos hle (toNat_window_fst.trans hfirst) hwindow (by omega),
      flatMap_rowsAt fun k hk ↦
        ofNat_ne_line (hnumbers hk).2.2.ne (by have := hnumbers hk; omega)]

/-! ## The carets -/

theorem toNat_room {line : Text} {column : UInt32} (hline : line.length < 2 ^ 32)
    (hpos : 1 ≤ column.toNat) :
    (room line column).toNat =
      if column.toNat ≤ line.length then line.length - column.toNat + 1 else 1 := by
  have hlength : (UInt32.ofNat line.length).toNat = line.length := UInt32.toNat_ofNat_of_lt' hline
  rw [room]
  by_cases hle : column ≤ UInt32.ofNat line.length
  · have hle' := UInt32.le_iff_toNat_le.mp hle
    rw [hlength] at hle'
    rw [if_pos hle, if_pos hle', UInt32.toNat_add, UInt32.toNat_sub_of_le _ _ hle, hlength]
    exact Nat.mod_eq_of_lt (by change _ + 1 < _; omega)
  · have hle' := mt UInt32.le_iff_toNat_le.mpr hle
    rw [hlength] at hle'
    rw [if_neg hle, if_neg hle']
    rfl

/-- As many carets stand under a line as were asked for and fit, but at least one. Where the column
is past the end, one stands. -/
def caretCount (lineLength column length : Nat) : Nat :=
  if column ≤ lineLength then max 1 (min length (lineLength - column + 1)) else 1

theorem marks_caretRow (hline : (s.line place.line).length < 2 ^ 32)
    (hcolumn : 1 ≤ place.column.toNat) :
    (s.caretRow width place length).Marks (width + 5) place.column.toNat
      (caretCount (s.line place.line).length place.column.toNat length.toNat) where
  gutter_eq := ⟨width + 2, rfl⟩
  length_eq := by
    have hbar : (" | " : Text).length = 3 := by decide +kernel
    rw [caretRow, Text.length_append, Text.length_replicate, hbar]
  content_eq := by
    have hone : (place.column - 1).toNat = place.column.toNat - 1 :=
      UInt32.toNat_sub_of_le _ _ (UInt32.le_iff_toNat_le.mpr hcolumn)
    have hcount : (max (min length (room (s.line place.line) place.column)) 1).toNat =
        caretCount (s.line place.line).length place.column.toNat length.toNat := by
      rw [UInt32.toNat_max, UInt32.toNat_min, toNat_room hline hcolumn, caretCount, Nat.max_comm]
      change max 1 _ = _
      split <;> omega
    rw [caretRow, carets, if_neg (UInt32.ne_zero_of_pos hcolumn), hone, hcount]

theorem caretCount_le {lineLength column : Nat} (hpos : 1 ≤ column) (hle : column ≤ lineLength)
    (length : Nat) : column - 1 + caretCount lineLength column length ≤ lineLength := by
  rw [caretCount, if_pos hle]
  omega

namespace Row

variable {r : Row} {column count j : Nat}

theorem byte?_toText_gutter (hr : r.gutter.length = width) (j : Nat) :
    r.toText.byte? (width + j) = r.content.byte? j := by
  rw [Text.length_eq] at hr
  rw [toText, Text.byte?_eq, Text.byte?_eq, Text.toList_append, ← hr,
    List.getElem?_append_right (Nat.le_add_right _ _), Nat.add_sub_cancel_left]

/-- The carets stand next to each other from the column on, and nowhere else in the row. -/
theorem Marks.byte?_toText_iff (h : r.Marks width column count) :
    r.toText.byte? j = some 0x5E ↔
      width + (column - 1) ≤ j ∧ j < width + (column - 1) + count := by
  by_cases hj : j < width
  · have hgutter : r.gutter.toList[j]? ≠ some 0x5E := by
      intro hcaret
      obtain ⟨blanks, heq⟩ := h.gutter_eq
      have hbar : (" | " : Text).toList = [0x20, 0x7C, 0x20] := by decide +kernel
      have hmem := List.mem_of_getElem? hcaret
      rw [heq, Text.toList_append, hbar, Text.toList_replicate, List.mem_append] at hmem
      rcases hmem with hmem | hmem
      · exact absurd (List.eq_of_mem_replicate hmem) (by decide)
      · exact absurd hmem (by decide)
    have hlength := h.length_eq
    rw [Text.length_eq] at hlength
    rw [toText, Text.byte?_eq, Text.toList_append, List.getElem?_append_left (by omega)]
    exact iff_of_false hgutter (by omega)
  · obtain ⟨i, rfl⟩ := Nat.exists_eq_add_of_le (Nat.not_lt.mp hj)
    rw [byte?_toText_gutter h.length_eq, h.content_eq, Text.byte?_eq, Text.toList_append,
      Text.toList_replicate, Text.toList_replicate, List.getElem?_append, List.length_replicate,
      List.getElem?_replicate, List.getElem?_replicate]
    have hspace : Byte.space ≠ 0x5E := by decide
    split_ifs <;> simp [hspace] <;> omega

end Row

/-- A row of carets that belongs to the row of a line, where the gutters have a width. The first
caret stands under the byte of a column, or where it would be. There are as many as were asked for,
but at least one, and none past the end of a line that has the column. -/
structure Row.Underlined (r : Row) (width column length : Nat) (carets : Row) : Prop where
  byte?_eq : ∀ j, r.toText.byte? (width + j) = r.content.byte? j
  exists_marks : ∃ count, carets.Marks width column count ∧
    (∀ j, carets.toText.byte? j = some 0x5E ↔
      width + (column - 1) ≤ j ∧ j < width + (column - 1) + count) ∧
    (column ≤ r.content.length →
      count = max 1 (min length (r.content.length - column + 1)) ∧
      column - 1 + count ≤ r.content.length) ∧
    (r.content.length < column → count = 1)

/-! ## Excerpts of a source -/

theorem line_length_lt (hs : s.Fits) (hpos : 1 ≤ place.line.toNat)
    (hle : place.line.toNat ≤ s.lines.length) : (s.line place.line).length < 2 ^ 32 := by
  have hget := lines_getElem? hs hpos hle
  rw [UInt32.ofNat_toNat] at hget
  exact hs.line_lt _ (List.mem_of_getElem? hget)

theorem rowsUnder_of_pos (hcolumn : 1 ≤ place.column.toNat) :
    s.rowsUnder width place length = [s.caretRow width place length] := by
  rw [rowsUnder, if_neg (UInt32.ne_zero_of_pos hcolumn)]

theorem rowsUnder_of_zero (hcolumn : ¬ 1 ≤ place.column.toNat) :
    s.rowsUnder width place length = [] := by
  rw [rowsUnder, if_pos (UInt32.toNat_inj.mp (Nat.lt_one_iff.mp (Nat.not_le.mp hcolumn)))]

theorem underlined_caretRow (hline : (s.line place.line).length < 2 ^ 32)
    (hcolumn : 1 ≤ place.column.toNat) {row : Row} (hrow : row.gutter.length = width + 5)
    (hcontent : row.content = s.line place.line) :
    row.Underlined (width + 5) place.column.toNat length.toNat (s.caretRow width place length) where
  byte?_eq j := Row.byte?_toText_gutter hrow j
  exists_marks := by
    have hmarks : (s.caretRow width place length).Marks (width + 5) place.column.toNat _ :=
      marks_caretRow hline hcolumn
    rw [← hcontent] at hmarks
    refine ⟨_, hmarks, fun j ↦ hmarks.byte?_toText_iff, ?_, ?_⟩
    · intro hinside
      exact ⟨if_pos hinside, caretCount_le hcolumn hinside _⟩
    · intro hpast
      exact if_neg (Nat.not_le.mpr hpast)

/-- An excerpt that would end with the greatest word never ends. -/
theorem excerpt_eq_none (hs : s.Fits) (hpos : 1 ≤ place.line.toNat)
    (hle : place.line.toNat ≤ s.lines.length)
    (hsum : place.line.toNat + context.toNat < 2 ^ 32)
    (hend : min s.lines.length (place.line.toNat + context.toNat) = 2 ^ 32 - 1)
    (length : UInt32) : s.excerpt place length context = none := by
  rw [excerpt_eq_rounds hpos hle]
  apply rounds_eq_none
  rw [toNat_window_snd_of_lt hs hsum, hend]
  rfl

/-- An excerpt shows the lines of its window, each once and in order and only one of them marked,
with at most a row of carets besides. The window has as many lines on either side as there are, up
to the context, as long as the line and the context have a word as their sum. If the last line of
the window is the greatest word, the excerpt never ends. If the sum wraps around, the window ends
above the line of the place, so that no row is marked. -/
theorem excerpt_window (s : Source) (hs : s.Fits) (place : Position) (length context : UInt32)
    (hpos : 1 ≤ place.line.toNat) (hle : place.line.toNat ≤ s.lines.length) :
    (place.line.toNat + context.toNat < 2 ^ 32 →
      (min s.lines.length (place.line.toNat + context.toNat) < 2 ^ 32 - 1 →
        ∃ width before row under after,
          s.Shown (max 1 (place.line.toNat - context.toNat)) place.line.toNat
            (min s.lines.length (place.line.toNat + context.toNat)) width before row after ∧
          under.length ≤ 1 ∧ (∀ r ∈ under, ∃ count, r.Marks width place.column.toNat count) ∧
          s.excerpt place length context = some (printed (before ++ row :: (under ++ after)))) ∧
      (min s.lines.length (place.line.toNat + context.toNat) = 2 ^ 32 - 1 →
        s.excerpt place length context = none)) ∧
    (2 ^ 32 ≤ place.line.toNat + context.toNat → ∃ width rows,
      List.Forall₂ (fun k r ↦ r.Shows s width "  " k)
        (List.range' (max 1 (place.line.toNat - context.toNat))
          (place.line.toNat + context.toNat - 2 ^ 32 + 1 -
            max 1 (place.line.toNat - context.toNat))) rows ∧
      s.excerpt place length context = some (printed rows)) := by
  refine ⟨fun hsum ↦ ⟨fun hend ↦ ?_, fun hend ↦ excerpt_eq_none hs hpos hle hsum hend length⟩, ?_⟩
  · obtain ⟨width, before, row, after, hshown, -, hexcerpt⟩ :=
      excerpt_shown hs hpos hle hsum hend length
    refine ⟨_, before, row, _, after, hshown, ?_, ?_, hexcerpt⟩
    · rw [rowsUnder]
      split
      · exact Nat.zero_le _
      · exact Nat.le_refl _
    · by_cases hcolumn : 1 ≤ place.column.toNat
      · rw [rowsUnder_of_pos hcolumn, List.forall_mem_singleton]
        exact ⟨_, marks_caretRow (line_length_lt hs hpos hle) hcolumn⟩
      · rw [rowsUnder_of_zero hcolumn]
        exact List.forall_mem_nil _
  · intro hsum
    obtain ⟨rows, hrows, hexcerpt⟩ := excerpt_wrapped hs hpos hle hsum length rfl
    exact ⟨_, rows, hrows, hexcerpt⟩

/-- Three lines around the second one, with a context that is wider than the source, and the first
one alone where the sum wraps around. -/
theorem excerpt_window_threeLines :
    let s := ofText "f" "one\ntwo\nthree"
    s.Fits ∧ s.lines.length = 3 ∧
      (∃ width before row under after, s.Shown 1 2 3 width before row after ∧
        under.length ≤ 1 ∧ (∀ r ∈ under, ∃ count, r.Marks width 1 count) ∧
        s.excerpt ⟨2, 1⟩ 1 5 = some (printed (before ++ row :: (under ++ after)))) ∧
      ∃ width rows, List.Forall₂ (fun k r ↦ r.Shows s width "  " k) [1] rows ∧
        s.excerpt ⟨2, 1⟩ 1 4294967295 = some (printed rows) := by
  intro s
  have hs : s.Fits := fits_ofText _ (by decide +kernel)
  have hlength : s.lines.length = 3 := by decide +kernel
  have hle : (2 : UInt32).toNat ≤ s.lines.length := by
    rw [hlength]
    decide
  have hwhole := ((excerpt_window s hs ⟨2, 1⟩ 1 5 (by decide) hle).1 (by decide)).1
  have hwrapped := (excerpt_window s hs ⟨2, 1⟩ 1 4294967295 (by decide) hle).2 (by decide)
  rw [hlength] at hwhole
  exact ⟨hs, hlength, hwhole (by decide), hwrapped⟩

/-- Where the sum of the line and the context wraps around, the line is not shown, and no row is
marked. -/
theorem excerpt_unmarked :
    let s := ofText "f" "one\ntwo\nthree"
    s.Fits ∧ 2 ≤ s.lines.length ∧ s.excerpt ⟨2, 1⟩ 1 4294967295 = some (.ofString "\n  1 | one\n") ∧
      ¬ ∃ width before row under after,
        s.Shown (max 1 (2 - 4294967295)) 2 (min s.lines.length (2 + 4294967295)) width before row
          after ∧
        s.excerpt ⟨2, 1⟩ 1 4294967295 = some (printed (before ++ row :: (under ++ after))) := by
  intro s
  have hle : (Position.mk 2 1).line.toNat ≤ s.lines.length := by decide +kernel
  have hexcerpt : s.excerpt ⟨2, 1⟩ 1 4294967295 = some (.ofString "\n  1 | one\n") := by
    have hfirst : (s.window 2 4294967295).1.toNat = 1 := by decide +kernel
    have hlast : (s.window 2 4294967295).2.toNat = 1 := by decide +kernel
    rw [excerpt_eq_printed (by decide) hle hfirst hlast (by decide)]
    decide +kernel
  refine ⟨fits_ofText _ (by decide +kernel), hle, hexcerpt, ?_⟩
  rintro ⟨width, before, row, under, after, hshown, hprinted⟩
  obtain ⟨blanks, hgutter⟩ := hshown.row_shown.gutter_eq
  have hmark : 0x3E ∈ row.gutter.toList := by
    have hmark : 0x3E ∈ ("> " : Text).toList := by decide +kernel
    rw [hgutter, Text.toList_append, Text.toList_append, Text.toList_append]
    exact List.mem_append_left _ (List.mem_append_left _ (List.mem_append_left _ hmark))
  have hrow : row ∈ before ++ row :: (under ++ after) :=
    List.mem_append_right before List.mem_cons_self
  have hmem := mem_printed hrow hmark
  rw [← Option.some.inj (hexcerpt.symm.trans hprinted)] at hmem
  exact absurd hmem (by decide +kernel)

/-- What an excerpt is after some rounds, whether or not they end. -/
def writing (s : Source) (place : Position) (length context : UInt32) (k : Nat) : Writing :=
  let (first, last) := s.window place.line context
  (s.round (Text.ofNat last.toNat).length place length)^[k] ⟨first, .single Byte.newline⟩

/-- The row of a line that need not exist, as it is written in its round: the gutter has a mark and
then the number, and behind it is what is on the line. -/
structure Row.Numbers (r : Row) (s : Source) (width : Nat) (mark : Text) (number : UInt32) :
    Prop where
  gutter_eq : ∃ blanks, r.gutter =
    mark ++ Text.replicate blanks Byte.space ++ Text.ofNat number.toNat ++ " | "
  length_eq : r.gutter.length = width
  content_eq : r.content = s.line number

/-- The rows that a round writes for a line, with gutters of one width: the row of the line, and
right under the line of the place the row of its carets. -/
inductive Block (s : Source) (place : Position) (length width : Nat) : UInt32 → List Row → Prop
  | line {number : UInt32} {row : Row} (hne : number ≠ place.line)
      (h : row.Numbers s width "  " number) : Block s place length width number [row]
  | marked {row carets : Row} (h : row.Numbers s width "> " place.line)
      (hcarets : row.Underlined width place.column.toNat length carets) :
      Block s place length width place.line [row, carets]

theorem numbers_lineRow (s : Source) {mark : Text} (hmark : mark.length = 2) {number : UInt32}
    (hwidth : (Text.ofNat number.toNat).length ≤ width) :
    (s.lineRow width mark number).Numbers s (width + 5) mark number where
  gutter_eq := by
    refine ⟨width - (Text.ofNat number.toNat).length, ?_⟩
    simp only [lineRow, padded, Text.append_assoc]
  length_eq := length_gutter_lineRow hmark hwidth
  content_eq := rfl

theorem block_rowsAt (hline : (s.line place.line).length < 2 ^ 32)
    (hcolumn : 1 ≤ place.column.toNat) {number : UInt32}
    (hwidth : (Text.ofNat number.toNat).length ≤ width) :
    s.Block place length.toNat (width + 5) number (s.rowsAt width place length number) := by
  rw [rowsAt]
  split
  · next h =>
    subst h
    have hrow : (s.lineRow width "> " place.line).Numbers s (width + 5) "> " place.line :=
      numbers_lineRow s (by decide +kernel) hwidth
    rw [rowsUnder_of_pos hcolumn]
    exact .marked hrow (underlined_caretRow hline hcolumn hrow.length_eq rfl)
  · next h => exact .line h (numbers_lineRow s (by decide +kernel) hwidth)

/-- The blocks of rows that the rounds write, from a line on. -/
theorem blocks_iterate_round (hline : (s.line place.line).length < 2 ^ 32)
    (hcolumn : 1 ≤ place.column.toNat)
    (hwidth : ∀ number : UInt32, (Text.ofNat number.toNat).length ≤ width) (first : UInt32)
    (k : Nat) :
    ∃ blocks : List (List Row),
      ((s.round width place length)^[k] ⟨first, printed []⟩).text = printed blocks.flatten ∧
      List.Forall₂ (s.Block place length.toNat (width + 5))
        ((List.range k).map fun j ↦ first + UInt32.ofNat j) blocks := by
  refine ⟨(List.range k).map fun j ↦ s.rowsAt width place length (first + UInt32.ofNat j), ?_, ?_⟩
  · rw [iterate_round_printed, List.flatMap_def]
  · rw [List.forall₂_map_left_iff, List.forall₂_map_right_iff, List.forall₂_same]
    exact fun j _ ↦ block_rowsAt hline hcolumn (hwidth _)

/-- Where there is a column, the carets stand in the row right under the marked line, and begin
under the byte of the column, or where it would be: the gutters of all rows are equally wide. There
are as many as were asked for, but none past the end of a line that has the column. An excerpt that
would end with the greatest word never ends, but all that its rounds write is aligned this way. -/
theorem carets_aligned (s : Source) (hs : s.Fits) (place : Position) (length context : UInt32)
    (hpos : 1 ≤ place.line.toNat) (hle : place.line.toNat ≤ s.lines.length)
    (hcolumn : 1 ≤ place.column.toNat) (hsum : place.line.toNat + context.toNat < 2 ^ 32) :
    (min s.lines.length (place.line.toNat + context.toNat) < 2 ^ 32 - 1 →
      ∃ width before row carets after,
        s.Shown (max 1 (place.line.toNat - context.toNat)) place.line.toNat
          (min s.lines.length (place.line.toNat + context.toNat)) width before row after ∧
        row.Underlined width place.column.toNat length.toNat carets ∧
        s.excerpt place length context = some (printed (before ++ row :: carets :: after))) ∧
    (min s.lines.length (place.line.toNat + context.toNat) = 2 ^ 32 - 1 →
      s.excerpt place length context = none ∧
      ∃ width, ∀ rounds, ∃ blocks : List (List Row),
        (s.writing place length context rounds).text = printed blocks.flatten ∧
        List.Forall₂ (s.Block place length.toNat width)
          ((List.range rounds).map fun j ↦ (s.window place.line context).1 + UInt32.ofNat j)
          blocks) := by
  have hline := line_length_lt hs hpos hle
  constructor
  · intro hend
    obtain ⟨width, before, row, after, hshown, hcontent, hexcerpt⟩ :=
      excerpt_shown hs hpos hle hsum hend length
    rw [rowsUnder_of_pos hcolumn, List.singleton_append] at hexcerpt
    exact ⟨_, before, row, _, after, hshown,
      underlined_caretRow hline hcolumn hshown.row_shown.length_eq hcontent, hexcerpt⟩
  · intro hend
    have hwidth (number : UInt32) : (Text.ofNat number.toNat).length ≤
        (Text.ofNat (s.window place.line context).2.toNat).length := by
      apply length_ofNat_mono
      rw [toNat_window_snd_of_lt hs hsum, hend]
      exact Nat.le_pred_of_lt number.toNat_lt
    exact ⟨excerpt_eq_none hs hpos hle hsum hend length, _,
      blocks_iterate_round hline hcolumn hwidth _⟩

/-- The gutters of the ninth and the tenth line are equally wide, and a row of carets that was asked
to be longer than its line ends with it. A line without a byte has one caret, past its end. -/
theorem carets_aligned_tenLines :
    let s := ofText "f" "\n\n\n\n\n\n\n\nnine\r\nten"
    s.Fits ∧ s.lines.length = 10 ∧
      s.excerpt ⟨9, 3⟩ 7 1 =
        some (.ofString "\n   8 | \n>  9 | nine\n     |   ^^\n  10 | ten\n") ∧
      s.excerpt ⟨8, 2⟩ 7 0 = some (.ofString "\n> 8 | \n    |  ^\n") ∧
      ∃ width before row carets after,
        s.Shown 8 9 10 width before row after ∧
        row.Underlined width 3 7 carets ∧
        s.excerpt ⟨9, 3⟩ 7 1 = some (printed (before ++ row :: carets :: after)) := by
  intro s
  have hs : s.Fits := fits_ofText _ (by decide +kernel)
  have hlength : s.lines.length = 10 := by decide +kernel
  have hnine : (Position.mk 9 3).line.toNat ≤ s.lines.length := by
    rw [hlength]
    decide
  have height : (Position.mk 8 2).line.toNat ≤ s.lines.length := by
    rw [hlength]
    decide
  have haligned := (carets_aligned s hs ⟨9, 3⟩ 7 1 (by decide) hnine (by decide) (by decide)).1
  rw [hlength] at haligned
  refine ⟨hs, hlength, ?_, ?_, haligned (by decide)⟩
  · have hfirst : (s.window 9 1).1.toNat = 8 := by decide +kernel
    have hlast : (s.window 9 1).2.toNat = 10 := by decide +kernel
    rw [excerpt_eq_printed (by decide) hnine hfirst hlast (by decide)]
    decide +kernel
  · have hfirst : (s.window 8 0).1.toNat = 8 := by decide +kernel
    have hlast : (s.window 8 0).2.toNat = 8 := by decide +kernel
    rw [excerpt_eq_printed (by decide) height hfirst hlast (by decide)]
    decide +kernel

end Source

end EcmaTree
