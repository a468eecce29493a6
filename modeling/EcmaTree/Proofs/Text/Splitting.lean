import EcmaTree.Text.Search
import Mathlib.Data.List.Basic

/-!
# Splitting and joining

A text is cut at the leftmost match of a separator, and what follows the match is cut in the same
way. This gives one list of fields, the one that splitting gives. None of them contains the
separator, and with it between them they are the text again.
-/

namespace EcmaTree.Text

variable {separator s field rest : List UInt8} {fs gs : List (List UInt8)}

/-- The fields of bytes between the matches of a separator, each of which is the leftmost one behind
the match before it. -/
inductive Cuts (separator : List UInt8) : List UInt8 → List (List UInt8) → Prop where
  | last {s : List UInt8} (hnone : ¬ separator <:+: s) : Cuts separator s [s]
  | cut {field rest : List UInt8} {fs : List (List UInt8)}
      (hleftmost : ∀ i < field.length, ¬ separator <+: (field ++ (separator ++ rest)).drop i)
      (hrest : Cuts separator rest fs) : Cuts separator (field ++ (separator ++ rest)) (field :: fs)

/-- Bytes in which no match begins, whatever follows them, contain no match. -/
theorem not_infix_of_leftmost (hne : separator ≠ []) {after : List UInt8}
    (hleftmost : ∀ i < field.length, ¬ separator <+: (field ++ after).drop i) :
    ¬ separator <:+: field := by
  rintro ⟨before, behind, rfl⟩
  have hlength := List.length_pos_iff.mpr hne
  apply hleftmost before.length
  · simp only [List.length_append]
    omega
  · rw [List.append_assoc, List.append_assoc, List.drop_left]
    exact List.prefix_append _ _

namespace Cuts

/-- No field contains the separator. -/
theorem not_infix (hc : Cuts separator s fs) (hne : separator ≠ []) :
    ∀ f ∈ fs, ¬ separator <:+: f := by
  induction hc with
  | last hnone =>
    intro f hf
    rwa [List.mem_singleton.mp hf]
  | cut hleftmost _ ih =>
    intro f hf
    rcases List.mem_cons.mp hf with rfl | hf
    · exact not_infix_of_leftmost hne hleftmost
    · exact ih f hf

theorem ne_nil (hc : Cuts separator s fs) : fs ≠ [] := by
  cases hc with
  | last | cut => exact List.cons_ne_nil _ _

/-- The fields with the separator between them are the bytes again. -/
theorem intercalate_eq (hc : Cuts separator s fs) : separator.intercalate fs = s := by
  induction hc with
  | last => simp
  | cut _ hrest ih =>
    rw [List.intercalate_cons_of_ne_nil hrest.ne_nil, ih, List.append_assoc]

/-- The match that ends the first field is not left of another such match. -/
theorem length_le {field' rest' : List UInt8}
    (hsame : field ++ (separator ++ rest) = field' ++ (separator ++ rest'))
    (hleftmost : ∀ i < field'.length, ¬ separator <+: (field' ++ (separator ++ rest')).drop i) :
    field'.length ≤ field.length := by
  apply Nat.not_lt.mp
  intro hlt
  apply hleftmost field.length hlt
  rw [← hsame, List.drop_left]
  exact List.prefix_append _ _

/-- There is one way to cut. -/
theorem unique (hf : Cuts separator s fs) (hg : Cuts separator s gs) : fs = gs := by
  induction hf generalizing gs with
  | last hnone =>
    cases hg with
    | last => rfl
    | cut => exact absurd ⟨_, _, (List.append_assoc _ _ _)⟩ hnone
  | @cut field rest fs hleftmost hrest ih =>
    generalize hs : field ++ (separator ++ rest) = s at hg
    cases hg with
    | last hnone =>
      subst hs
      exact absurd ⟨_, _, (List.append_assoc _ _ _)⟩ hnone
    | @cut field' rest' gs hleftmost' hrest' =>
      have hlength : field.length = field'.length := by
        apply Nat.le_antisymm
        · exact length_le hs.symm hleftmost
        · exact length_le hs hleftmost'
      obtain ⟨rfl, htail⟩ := List.append_inj hs hlength
      obtain rfl := List.append_cancel_left htail
      rw [ih hrest']

end Cuts

/-- Splitting passes over the rest of a match, and from there on looks for the next match. The bytes
of the current field are those in which no match begins. -/
theorem cuts_fields (hne : separator ≠ []) (s field : List UInt8) {skip : Nat}
    (hskip : skip ≤ s.length)
    (hleftmost : ∀ i < field.length, ¬ separator <+: (field.reverse ++ s.drop skip).drop i) :
    Cuts separator (field.reverse ++ s.drop skip) ((fields separator s skip field).map toList) := by
  fun_induction fields separator s skip field with
  | case1 skip field =>
    rw [List.drop_nil, List.append_nil] at hleftmost ⊢
    have hbare : ∀ i < field.reverse.length, ¬ separator <+: (field.reverse ++ []).drop i := by
      simpa using hleftmost
    simpa using Cuts.last (not_infix_of_leftmost hne hbare)
  | case2 b rest skip field ih =>
    exact ih (Nat.le_of_succ_le_succ hskip) hleftmost
  | case3 b rest field hmatch ih =>
    obtain ⟨tail, htail⟩ := List.isPrefixOf_iff_prefix.mp hmatch
    have hrest : rest = separator.drop 1 ++ tail := by
      rw [← List.drop_append_of_le_length (List.length_pos_iff.mpr hne), htail, List.drop_one,
        List.tail_cons]
    have hdrop : rest.drop (separator.length - 1) = tail := by
      rw [hrest, ← List.length_drop, List.drop_left]
    have hfields := ih (by simp [hrest]) (fun _ h ↦ absurd h (Nat.not_lt_zero _))
    rw [hdrop, List.reverse_nil, List.nil_append] at hfields
    rw [List.drop_zero, ← htail] at hleftmost ⊢
    rw [List.map_cons, toList_ofList]
    apply Cuts.cut _ hfields
    simpa using hleftmost
  | case4 b rest field hmatch ih =>
    have happend : (b :: field).reverse ++ rest.drop 0 = field.reverse ++ (b :: rest).drop 0 := by
      simp
    rw [happend] at ih
    apply ih (Nat.zero_le _)
    intro i hi
    by_cases hend : i < field.length
    · exact hleftmost i hend
    · -- The match would begin where the next byte is read.
      have hlength : i = field.reverse.length := by
        rw [List.length_cons] at hi
        rw [List.length_reverse]
        omega
      rw [hlength, List.drop_left, List.drop_zero, ← List.isPrefixOf_iff_prefix]
      exact hmatch

/-! ## Texts -/

/-- The bytes of a join are those of its texts with the separator's between them. -/
theorem toList_join (separator : Text) (ts : List Text) :
    (join separator ts).toList = separator.toList.intercalate (ts.map toList) := by
  rw [join, toList_concat]
  induction ts with
  | nil => rfl
  | cons t ts ih =>
    cases ts with
    | nil => simp
    | cons u us =>
      rw [List.map_cons, List.intercalate_cons_of_ne_nil (by simp), List.intersperse_cons_cons,
        List.flatMap_cons, List.flatMap_cons, ih, List.append_assoc]

/-- Splitting cuts a text, and there is no other way to cut it. -/
theorem cuts_iff {t separator : Text} (hne : separator ≠ empty) :
    Cuts separator.toList t.toList fs ↔ fs = (t.split separator).map toList := by
  have hbytes : separator.toList ≠ [] := by
    rwa [Ne, ← toList_empty, toList_inj]
  have hcuts : Cuts separator.toList t.toList ((t.split separator).map toList) := by
    have hfields := cuts_fields hbytes t.toList [] (Nat.zero_le _)
      fun _ h ↦ absurd h (Nat.not_lt_zero _)
    rwa [split, if_neg (by simpa using hne)]
  constructor
  · intro hfs
    exact hfs.unique hcuts
  · rintro rfl
    exact hcuts

/-- A separator without bytes splits a text into its bytes. -/
theorem split_empty (t : Text) : t.split empty = t.toList.map single := rfl

/-- Joining undoes splitting, also without a separator. -/
theorem join_split (t separator : Text) : join separator (t.split separator) = t := by
  ext1
  by_cases hempty : separator = empty
  · rw [hempty, split_empty, toList_join, toList_empty, List.map_map]
    induction t.toList with
    | nil => rfl
    | cons b bytes ih =>
      cases bytes with
      | nil => rfl
      | cons c bytes =>
        rw [List.map_cons, List.intercalate_cons_of_ne_nil (by simp), ih]
        rfl
  · rw [toList_join]
    exact ((cuts_iff hempty).mpr rfl).intercalate_eq

end EcmaTree.Text
