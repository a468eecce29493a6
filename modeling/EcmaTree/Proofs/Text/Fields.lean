import EcmaTree.Evaluation.TextMethods
import EcmaTree.Proofs.Heap.Contents
import EcmaTree.Proofs.Text.Splitting
import EcmaTree.Session.Interpreter

/-!
# The method that splits and the method that joins

What a program gets when it splits a text by a value and joins the fields by the same value: the
text again, whatever the value is. Undefined is no separator. By it a text is not split at all, so
that the comma which joins without a separator does not come into play.
-/

namespace EcmaTree

/-- The text by which a value separates. Undefined is no separator. -/
def Heap.separator? (h : Heap) (v : Value) : Option Text :=
  if v = .undefined then none else some (h.toText v)

/-- The fields of a text: those between the leftmost matches of a separator, its bytes when the
separator has none, and the whole text without a separator. -/
inductive Text.Fields (t : Text) : Option Text → List Text → Prop where
  | whole : Fields t none [t]
  | bytes : Fields t (some .empty) (t.toList.map .single)
  | between {separator : Text} {fields : List Text} (hne : separator ≠ .empty)
      (hcuts : Text.Cuts separator.toList t.toList (fields.map Text.toList)) :
      Fields t (some separator) fields

namespace Text.Fields

variable {t separator : Text} {fields : List Text}

/-- Splitting by a separator gives the fields. -/
theorem split_iff : t.Fields (some separator) fields ↔ fields = t.split separator := by
  by_cases hempty : separator = .empty
  · subst hempty
    constructor
    · intro hf
      cases hf with
      | bytes => rfl
      | between hne => exact absurd rfl hne
    · rintro rfl
      exact .bytes
  · constructor
    · intro hf
      cases hf with
      | bytes => exact absurd rfl hempty
      | between _ hcuts =>
        have hsame := (cuts_iff hempty).mp hcuts
        exact List.map_injective_iff.mpr (fun _ _ ↦ Text.ext) hsame
    · rintro rfl
      exact .between hempty ((cuts_iff hempty).mpr rfl)

theorem whole_iff : t.Fields none fields ↔ fields = [t] := by
  constructor
  · intro hf
    cases hf with
    | whole => rfl
  · rintro rfl
    exact .whole

theorem not_infix (hf : t.Fields (some separator) fields) (hne : separator ≠ .empty) :
    ∀ f ∈ fields, ¬ separator.toList <:+: f.toList := by
  cases hf with
  | bytes => exact absurd rfl hne
  | between _ hcuts =>
    intro f hf
    apply hcuts.not_infix
    · rwa [Ne, ← toList_empty, toList_inj]
    · exact List.mem_map_of_mem hf

end Text.Fields

namespace Heap

/-- An array of texts is rendered as their join. -/
theorem join_texts {h : Heap} {id : ArrayId} {ts : List Text}
    (hid : h.arrays.get? id.index = some (ts.map Value.text).toArray) (separator : Text) :
    h.join id separator = .join separator ts := by
  rw [join, joinActive, dif_neg List.not_mem_nil]
  split
  · simp_all
  · next es hes =>
    obtain rfl := Option.some.inj (hid.symm.trans hes)
    rw [List.map_map]
    congr 1
    exact List.map_id ts

end Heap

/-- Splitting by any value makes a new array of the fields, and changes nothing else. -/
theorem TextMethod.run_split (s : State) (t : Text) (sep : Value) :
    ∃ fields, (∀ fields', t.Fields (s.heap.separator? sep) fields' ↔ fields' = fields) ∧
      TextMethod.run .split (.text t) [sep] s =
        Eval.newArray (fields.map Value.text).toArray s := by
  by_cases hundefined : sep = .undefined
  · subst hundefined
    exact ⟨[t], fun _ ↦ Text.Fields.whole_iff, rfl⟩
  · refine ⟨t.split (s.heap.toText sep), ?_, ?_⟩
    · intro fields
      rw [Heap.separator?, if_neg hundefined]
      exact Text.Fields.split_iff
    · cases sep with
      | undefined => exact absurd rfl hundefined
      | _ => rfl

/-- Joining fields by the separator that they come from gives the text. -/
theorem ArrayMethod.run_join (r : Evaluator) {s : State} {id : ArrayId} {t : Text} {sep : Value}
    {fields : List Text} (hfields : t.Fields (s.heap.separator? sep) fields)
    (hid : s.heap.arrays.get? id.index = some (fields.map Value.text).toArray) :
    ArrayMethod.run r .join (.array id) [sep] s = .done (.text t) s := by
  by_cases hundefined : sep = .undefined
  · subst hundefined
    obtain rfl := Text.Fields.whole_iff.mp hfields
    change Outcome.done (Value.text (s.heap.join id ",")) s = _
    rw [Heap.join_texts hid, Text.join, List.intersperse_singleton, Text.concat_cons,
      Text.concat_nil, Text.append_empty]
  · rw [Heap.separator?, if_neg hundefined, Text.Fields.split_iff] at hfields
    have hrun : ArrayMethod.run r .join (.array id) [sep] s =
        .done (.text (s.heap.join id (s.heap.toText sep))) s := by
      cases sep with
      | undefined => exact absurd rfl hundefined
      | _ => rfl
    rw [hrun, Heap.join_texts hid, hfields, Text.join_split]

/-- Splitting a text by a value of any kind ends with a new array, and joining that array by the
same value gives the text. The fields are those between the leftmost matches of the value's text,
and contain it nowhere; if that text is empty they are the bytes, and by undefined nothing is
split. -/
theorem split_join (r : Evaluator) (s : State) (t : Text) (sep : Value)
    (hsep : s.heap.Contains sep) :
    ∃ fields id h,
      TextMethod.run .split (.text t) [sep] s = .done (.array id) { s with heap := h } ∧
      s.heap.Gains id (fields.map Value.text).toArray h ∧
      ArrayMethod.run r .join (.array id) [sep] { s with heap := h } =
        .done (.text t) { s with heap := h } ∧
      (∀ fields', t.Fields (s.heap.separator? sep) fields' ↔ fields' = fields) ∧
      ∀ separator, s.heap.separator? sep = some separator → separator ≠ .empty →
        ∀ f ∈ fields, ¬ separator.toList <:+: f.toList := by
  obtain ⟨fields, hfields, hsplit⟩ := TextMethod.run_split s t sep
  obtain ⟨id, h, hnew, hgains⟩ := Eval.newArray_eq s (fields.map Value.text).toArray
  have hcut := (hfields fields).mpr rfl
  have hseparator : h.separator? sep = s.heap.separator? sep := by
    rw [Heap.separator?, Heap.separator?, hgains.spares.shows.toText_eq hsep]
  refine ⟨fields, id, h, hsplit.trans hnew, hgains, ?_, hfields, ?_⟩
  · apply ArrayMethod.run_join r _ hgains.get?_eq
    exact hseparator ▸ hcut
  · intro separator hsome hne
    rw [hsome] at hcut
    exact hcut.not_infix hne

/-- A text with overlapping matches, split by the text of an array. -/
theorem split_join_overlapping :
    let h := (Heap.empty.newArray #[.text "aa"]).2
    let s := (Interpreter.start .standard h .start []).state
    let sep : Value := .array ⟨0⟩
    s.heap.Contains sep ∧ s.heap.separator? sep = some (.ofString "aa") ∧
      ∃ id h', TextMethod.run .split (.text "aaabaa") [sep] s =
          .done (.array id) { s with heap := h' } ∧
        s.heap.Gains id #[.text "", .text "ab", .text ""] h' ∧
        ArrayMethod.run (Config.standard.level 1) .join (.array id) [sep] { s with heap := h' } =
          .done (.text "aaabaa") { s with heap := h' } ∧
        ∀ f ∈ ["", "ab", ""].map Text.ofString, ¬ (Text.ofString "aa").toList <:+: f.toList := by
  intro h s sep
  have hnext : s.heap.references (.array ⟨0⟩) = [] := by decide +kernel
  have hholds : s.heap.holds (.array ⟨0⟩) = true := by decide +kernel
  have hsep : s.heap.Contains sep := by
    intro r hr
    have hr : r = .array ⟨0⟩ := by
      apply hr.closed (P := (· = .array ⟨0⟩))
      · exact fun _ h ↦ List.mem_singleton.mp h
      · rintro _ rfl b hb
        rw [hnext] at hb
        cases hb
    rwa [hr]
  have hseparator : s.heap.separator? sep = some (.ofString "aa") := by decide +kernel
  obtain ⟨fields, id, h', hrun, hgains, hjoin, hfields, hnone⟩ :=
    split_join (Config.standard.level 1) s "aaabaa" sep hsep
  have hthree : ["", "ab", ""].map Text.ofString = fields := by
    rw [← hfields, hseparator, Text.Fields.split_iff]
    decide +kernel
  subst hthree
  exact ⟨hsep, hseparator, id, h', hrun, hgains, hjoin,
    hnone (.ofString "aa") hseparator (by decide +kernel)⟩

end EcmaTree
