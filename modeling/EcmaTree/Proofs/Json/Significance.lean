import EcmaTree.Proofs.Json.Recognition

/-!
# Blanks that do not matter

The blanks of a text matter only inside its strings. A text that is read stays one without the other
blanks, and writes the same document. So texts that differ in such blanks only are read as the same,
unless one of them cannot be read at all, since a blank may cut a number or a word in two.
-/

namespace EcmaTree.Json

open Grammar

/-- Where in a text a byte stands. -/
inductive Place where
  | outside
  /-- Between the quotes of a string. -/
  | inside
  /-- Directly behind a backslash in a string. -/
  | escaped
deriving DecidableEq

namespace Place

/-- Where the byte after a byte stands. -/
def next : Place → UInt8 → Place
  | outside, b => if b = Byte.quote then inside else outside
  | inside, b => if b = Byte.quote then outside else if b = Byte.backslash then escaped else inside
  | escaped, _ => inside

end Place

/-- The bytes from a place on, without the blanks outside strings. -/
def significant : Place → List UInt8 → List UInt8
  | _, [] => []
  | p, b :: rest =>
    if p = .outside ∧ Byte.isBlank b = true then significant p rest
    else b :: significant (p.next b) rest

/-- The text without the blanks outside its strings. -/
def compact (t : Text) : Text := .ofList (significant .outside t.toList)

variable {s kept : List UInt8} {b : UInt8} {j : Json}

theorem significant_blank (hb : Byte.isBlank b = true) (rest : List UInt8) :
    significant .outside (b :: rest) = significant .outside rest :=
  if_pos ⟨rfl, hb⟩

theorem significant_outside (hb : Byte.isBlank b = false) (hquote : b ≠ Byte.quote)
    (rest : List UInt8) : significant .outside (b :: rest) = b :: significant .outside rest := by
  have hkeep : ¬(Place.outside = .outside ∧ Byte.isBlank b = true) := by
    rw [hb]
    exact fun h ↦ Bool.false_ne_true h.2
  rw [significant, if_neg hkeep, Place.next, if_neg hquote]

theorem significant_quote (rest : List UInt8) :
    significant .outside (Byte.quote :: rest) = Byte.quote :: significant .inside rest :=
  rfl

theorem significant_close (rest : List UInt8) :
    significant .inside (Byte.quote :: rest) = Byte.quote :: significant .outside rest :=
  rfl

theorem significant_inside (hquote : b ≠ Byte.quote) (hbackslash : b ≠ Byte.backslash)
    (rest : List UInt8) : significant .inside (b :: rest) = b :: significant .inside rest := by
  have hkeep : ¬(Place.inside = .outside ∧ Byte.isBlank b = true) := fun h ↦ Place.noConfusion h.1
  rw [significant, if_neg hkeep, Place.next, if_neg hquote, if_neg hbackslash]

theorem significant_escape (b : UInt8) (rest : List UInt8) :
    significant .inside (Byte.backslash :: b :: rest) =
      Byte.backslash :: b :: significant .inside rest :=
  rfl

/-! ## Pieces that end outside strings -/

/-- A piece of a text that begins and ends outside strings, and what is left of it. -/
def Keeps (s kept : List UInt8) : Prop :=
  ∀ rest, significant .outside (s ++ rest) = kept ++ significant .outside rest

namespace Keeps

theorem nil : Keeps [] [] := fun _ ↦ rfl

theorem eq (h : Keeps s kept) : significant .outside s = kept := by
  have hs := h []
  rwa [List.append_nil, significant, List.append_nil] at hs

theorem append {s' kept' : List UInt8} (h : Keeps s kept) (h' : Keeps s' kept') :
    Keeps (s ++ s') (kept ++ kept') := by
  intro rest
  rw [List.append_assoc, h, h', List.append_assoc]

theorem cons (hb : Byte.isBlank b = false) (hquote : b ≠ Byte.quote) (h : Keeps s kept) :
    Keeps (b :: s) (b :: kept) := by
  intro rest
  rw [List.cons_append, significant_outside hb hquote, h, List.cons_append]

theorem blanks (h : Blanks s) : Keeps s [] := by
  induction s with
  | nil => exact nil
  | cons b s ih =>
    intro rest
    rw [List.cons_append, significant_blank (isBlank_iff.mpr (h b List.mem_cons_self))]
    exact ih (fun c hc ↦ h c (List.mem_cons_of_mem b hc)) rest

/-- Of bytes that are neither blanks nor quotes everything is left. -/
theorem of_forall (h : ∀ b ∈ s, Byte.isBlank b = false ∧ b ≠ Byte.quote) : Keeps s s := by
  induction s with
  | nil => exact nil
  | cons b s ih =>
    obtain ⟨hb, hquote⟩ := h b List.mem_cons_self
    exact cons hb hquote (ih fun c hc ↦ h c (List.mem_cons_of_mem b hc))

end Keeps

/-! ## Numbers -/

/-- The bytes of numbers are digits, signs, points and marks of exponents. -/
theorem Grammar.Magnitude.mem {digits : Nat} {e : Int} (h : Magnitude s digits e) (hb : b ∈ s) :
    Byte.isDigit b = true ∨ b ∈ ([0x2E, 0x2B, 0x2D, 0x65, 0x45] : List UInt8) := by
  obtain ⟨hwhole, hfraction, hpower⟩ := h
  rcases List.mem_append.mp hb with hb | hb
  · exact .inl (hwhole.isDigits.2 b hb)
  rcases List.mem_append.mp hb with hb | hb
  · cases hfraction with
    | none => cases hb
    | point hds =>
      rcases List.mem_cons.mp hb with rfl | hb
      · exact .inr (by decide)
      · exact .inl (hds.2 b hb)
  · cases hpower with
    | none => cases hb
    | digits hmark hsign hds =>
      rcases List.mem_cons.mp hb with rfl | hb
      · rcases hmark with rfl | rfl
        all_goals exact .inr (by decide)
      rcases List.mem_append.mp hb with hb | hb
      · cases hsign with
        | none => cases hb
        | plus | minus =>
          obtain rfl := List.mem_singleton.mp hb
          exact .inr (by decide)
      · exact .inl (hds.2 b hb)

theorem keeps_magnitude {digits : Nat} {e : Int} (h : Magnitude s digits e) : Keeps s s := by
  have hdigit (b : UInt8) (hb : Byte.isDigit b = true) :
      Byte.isBlank b = false ∧ b ≠ Byte.quote := by
    refine ⟨Parser.isBlank_of_number (.inr hb), ?_⟩
    rintro rfl
    exact absurd hb (by decide)
  have hmark : ∀ b ∈ ([0x2E, 0x2B, 0x2D, 0x65, 0x45] : List UInt8),
      Byte.isBlank b = false ∧ b ≠ Byte.quote := by
    simp [Byte.isBlank, Byte.quote]
  exact .of_forall fun b hb ↦ (h.mem hb).elim (hdigit b) (hmark b)

theorem keeps_signed {n : Number} (h : Signed s n) : Keeps s s := by
  cases h with
  | positive h => exact keeps_magnitude h
  | negative h => exact .cons rfl (by decide) (keeps_magnitude h)

/-! ## Strings -/

/-- In the digits of a code nothing ends a string. -/
theorem significant_code {ds : List UInt8} {code : Nat} (h : Code ds code) (rest : List UInt8) :
    significant .inside (ds ++ rest) = ds ++ significant .inside rest := by
  have hdigit {b : UInt8} {d : Nat} (hd : HexDigit b d) : b ≠ Byte.quote ∧ b ≠ Byte.backslash := by
    constructor
    all_goals
      rintro rfl
      have hnone := Parser.hexDigit?_eq_some_iff.mpr hd
      cases hnone
  obtain ⟨ha, hb, hc, hd⟩ := h
  rw [List.cons_append, List.cons_append, List.cons_append, List.cons_append, List.nil_append,
    significant_inside (hdigit ha).1 (hdigit ha).2, significant_inside (hdigit hb).1 (hdigit hb).2,
    significant_inside (hdigit hc).1 (hdigit hc).2, significant_inside (hdigit hd).1 (hdigit hd).2]
  rfl

/-- All of a string is left, up to the quote that ends it. -/
theorem significant_characters {value : List UInt8} (h : Characters s value) (rest : List UInt8) :
    significant .inside (s ++ Byte.quote :: rest) =
      s ++ Byte.quote :: significant .outside rest := by
  induction h with
  | nil => exact significant_close rest
  | plain hquote hbackslash _ ih =>
    rw [List.cons_append, significant_inside hquote hbackslash, ih]
    rfl
  | escape _ _ ih =>
    rw [List.cons_append, List.cons_append, significant_escape, ih]
    rfl
  | pair hhigh _ hlow _ _ _ ih =>
    rw [List.cons_append, List.cons_append, List.append_assoc, List.cons_append, List.cons_append,
      List.append_assoc, significant_escape, significant_code hhigh, significant_escape,
      significant_code hlow, ih]
    simp only [List.append_assoc, List.cons_append]
  | code hcode _ _ ih =>
    rw [List.cons_append, List.cons_append, List.append_assoc, significant_escape,
      significant_code hcode, ih]
    simp only [List.append_assoc, List.cons_append]

theorem keeps_quoted {text : Text} (h : Quoted s text) : Keeps s s := by
  obtain ⟨hs⟩ := h
  intro rest
  rw [List.cons_append, List.append_assoc, List.singleton_append, significant_quote,
    significant_characters hs]
  simp only [List.append_assoc, List.cons_append, List.nil_append]

/-! ## Documents -/

mutual

/-- What is left of a value writes the same document. -/
theorem exists_keeps_value : ∀ {s : List UInt8} {j : Json}, Grammar.Value s j →
    ∃ kept, Keeps s kept ∧ Grammar.Value kept j
  | _, _, .null => ⟨_, .of_forall (by simp [Byte.isBlank, Byte.quote]), .null⟩
  | _, _, .true => ⟨_, .of_forall (by simp [Byte.isBlank, Byte.quote]), .true⟩
  | _, _, .false => ⟨_, .of_forall (by simp [Byte.isBlank, Byte.quote]), .false⟩
  | _, _, .number hs => ⟨_, keeps_signed hs, .number hs⟩
  | _, _, .text hs => ⟨_, keeps_quoted hs, .text hs⟩
  | _, _, .emptyArray hs => ⟨_, .cons rfl (by decide) ((Keeps.blanks hs).append
      (.cons rfl (by decide) .nil)), .emptyArray (List.forall_mem_nil _)⟩
  | _, _, .array hs => by
    obtain ⟨kept, hkept, hitems⟩ := exists_keeps_elements hs
    exact ⟨_, .cons rfl (by decide) (hkept.append (.cons rfl (by decide) .nil)), .array hitems⟩
  | _, _, .emptyObject hs => ⟨_, .cons rfl (by decide) ((Keeps.blanks hs).append
      (.cons rfl (by decide) .nil)), .emptyObject (List.forall_mem_nil _)⟩
  | _, _, .object hs hmembers => by
    obtain ⟨kept, hkept, hpairs⟩ := exists_keeps_members hs
    exact ⟨_, .cons rfl (by decide) (hkept.append (.cons rfl (by decide) .nil)),
      .object hpairs hmembers⟩

theorem exists_keeps_element : ∀ {s : List UInt8} {j : Json}, Element s j →
    ∃ kept, Keeps s kept ∧ Element kept j
  | _, _, .mk hbefore hs hafter => by
    obtain ⟨kept, hkept, hvalue⟩ := exists_keeps_value hs
    exact ⟨_, (Keeps.blanks hbefore).append (hkept.append (.blanks hafter)),
      .mk (List.forall_mem_nil _) hvalue (List.forall_mem_nil _)⟩

theorem exists_keeps_elements : ∀ {s : List UInt8} {items : List Json}, Elements s items →
    ∃ kept, Keeps s kept ∧ Elements kept items
  | _, _, .last hs => by
    obtain ⟨kept, hkept, hitem⟩ := exists_keeps_element hs
    exact ⟨kept, hkept, .last hitem⟩
  | _, _, .more hs hrest => by
    obtain ⟨kept, hkept, hitem⟩ := exists_keeps_element hs
    obtain ⟨others, hothers, hitems⟩ := exists_keeps_elements hrest
    exact ⟨_, hkept.append (.cons rfl (by decide) hothers), .more hitem hitems⟩

theorem exists_keeps_member : ∀ {s : List UInt8} {pair : Text × Json}, Member s pair →
    ∃ kept, Keeps s kept ∧ Member kept pair
  | _, _, .mk hbefore hkey hafter hs => by
    obtain ⟨kept, hkept, hitem⟩ := exists_keeps_element hs
    exact ⟨_, (Keeps.blanks hbefore).append ((keeps_quoted hkey).append
        ((Keeps.blanks hafter).append (.cons rfl (by decide) hkept))),
      .mk (List.forall_mem_nil _) hkey (List.forall_mem_nil _) hitem⟩

theorem exists_keeps_members : ∀ {s : List UInt8} {pairs : List (Text × Json)}, Members s pairs →
    ∃ kept, Keeps s kept ∧ Members kept pairs
  | _, _, .last hs => by
    obtain ⟨kept, hkept, hpair⟩ := exists_keeps_member hs
    exact ⟨kept, hkept, .last hpair⟩
  | _, _, .more hs hrest => by
    obtain ⟨kept, hkept, hpair⟩ := exists_keeps_member hs
    obtain ⟨others, hothers, hpairs⟩ := exists_keeps_members hrest
    exact ⟨_, hkept.append (.cons rfl (by decide) hothers), .more hpair hpairs⟩

end

/-- A text that is read is read as the same without the blanks outside its strings. -/
theorem parse_compact {t : Text} (h : parse t = .ok j) : parse (compact t) = .ok j := by
  obtain ⟨kept, hkept, hj⟩ := exists_keeps_element ((parse_eq_ok_iff t j).mp h)
  rwa [compact, hkept.eq, parse_eq_ok_iff, Text.toList_ofList]

/-- Texts that are read and differ only in blanks outside strings write the same document. -/
theorem eq_of_compact_eq {t t' : Text} {j' : Json} (h : parse t = .ok j) (h' : parse t' = .ok j')
    (hcompact : compact t = compact t') : j = j' :=
  Except.ok.inj ((parse_compact h).symm.trans (hcompact ▸ parse_compact h'))

end EcmaTree.Json
