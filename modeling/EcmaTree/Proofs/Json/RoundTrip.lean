import EcmaTree.Proofs.Json.Lexemes

/-!
# Reading what was written

A document in normal form has only finite numbers, none of them the negative zero, and no key twice
in an object. What is written for such a document is in the grammar, so reading it gives the
document.
-/

namespace EcmaTree.Json

open Grammar

mutual

/-- Writing the document loses nothing. -/
def IsNormal : Json → Prop
  | null | bool _ | text _ => True
  | number n => n.isFinite = true ∧ n.isNegativeZero = false
  | array items => AreNormal items
  | object members => (members.map Prod.fst).Nodup ∧ MembersNormal members

/-- All items are in normal form. -/
def AreNormal : List Json → Prop
  | [] => True
  | item :: rest => item.IsNormal ∧ AreNormal rest

/-- The values of all members are in normal form. -/
def MembersNormal : List (Text × Json) → Prop
  | [] => True
  | (_, item) :: rest => item.IsNormal ∧ MembersNormal rest

end

theorem areNormal_iff {items : List Json} : AreNormal items ↔ ∀ j ∈ items, j.IsNormal := by
  induction items with
  | nil => simp [AreNormal]
  | cons item rest ih => simp [AreNormal, ih]

theorem areNormal_map {α : Type} {f : α → Json} {as : List α} :
    AreNormal (as.map f) ↔ ∀ a ∈ as, (f a).IsNormal := by
  rw [areNormal_iff, List.forall_mem_map]

namespace Grammar

/-- No blanks need to stand around a value. -/
theorem Value.element {s : List UInt8} {j : Json} (h : Value s j) : Element s j := by
  have hblanks : Blanks [] := List.forall_mem_nil _
  have helement := Element.mk hblanks h hblanks
  rwa [List.nil_append, List.append_nil] at helement

theorem Value.member {s : List UInt8} {j : Json} (h : Value s j) (key : Text) :
    Member (quoted key ++ 0x3A :: s) (key, j) := by
  have hblanks : Blanks [] := List.forall_mem_nil _
  exact .mk hblanks (quoted_quoted key) hblanks h.element

end Grammar

mutual

/-- What is written for a document is a value of the grammar. -/
theorem exists_write_eq : ∀ (j : Json) (after : List UInt8), j.IsNormal →
    ∃ s, Grammar.Value s j ∧ write j after = s ++ after
  | .null, after, _ => ⟨_, .null, rfl⟩
  | .bool true, after, _ => ⟨_, .true, rfl⟩
  | .bool false, after, _ => ⟨_, .false, rfl⟩
  | .number n, after, h => by
    rw [write, scalar, if_pos h.1]
    exact ⟨_, .number (signed_toText h.1 h.2), rfl⟩
  | .text t, after, _ => ⟨_, .text (quoted_quoted t), rfl⟩
  | .array [], after, _ => ⟨_, .emptyArray (s := []) nofun, rfl⟩
  | .array (item :: rest), after, h => by
    obtain ⟨s, hs, hwrite⟩ := exists_writeItems_eq (item :: rest) (0x5D :: after) h nofun
    refine ⟨_, .array hs, ?_⟩
    rw [write, (List.cons.inj hwrite).2, List.cons_append, List.append_assoc,
      List.singleton_append]
  | .object [], after, _ => ⟨_, .emptyObject (s := []) nofun, rfl⟩
  | .object (member :: rest), after, h => by
    obtain ⟨s, hs, hwrite⟩ := exists_writeMembers_eq (member :: rest) (0x7D :: after) h.2 nofun
    refine ⟨_, .object hs (collects_self.mpr h.1), ?_⟩
    rw [write, (List.cons.inj hwrite).2, List.cons_append, List.append_assoc,
      List.singleton_append]

/-- What is written for further items has a comma in front of them. -/
theorem exists_writeItems_eq : ∀ (items : List Json) (after : List UInt8),
    AreNormal items → items ≠ [] →
      ∃ s, Elements s items ∧ writeItems items after = 0x2C :: (s ++ after)
  | [], _, _, h => absurd rfl h
  | [item], after, h, _ => by
    obtain ⟨s, hs, hwrite⟩ := exists_write_eq item after h.1
    exact ⟨s, .last hs.element, by rw [writeItems, writeItems, hwrite]⟩
  | item :: next :: rest, after, h, _ => by
    obtain ⟨body, hbody, hrest⟩ := exists_writeItems_eq (next :: rest) after h.2 nofun
    obtain ⟨s, hs, hwrite⟩ := exists_write_eq item (0x2C :: (body ++ after)) h.1
    refine ⟨_, .more hs.element hbody, ?_⟩
    rw [writeItems, hrest, hwrite, List.append_assoc, List.cons_append]

/-- What is written for further members has a comma in front of them. -/
theorem exists_writeMembers_eq : ∀ (members : List (Text × Json)) (after : List UInt8),
    MembersNormal members → members ≠ [] →
      ∃ s, Members s members ∧ writeMembers members after = 0x2C :: (s ++ after)
  | [], _, _, h => absurd rfl h
  | [(key, item)], after, h, _ => by
    obtain ⟨s, hs, hwrite⟩ := exists_write_eq item after h.1
    refine ⟨_, .last (hs.member key), ?_⟩
    rw [writeMembers, writeMembers, hwrite, List.append_assoc, List.cons_append]
  | (key, item) :: next :: rest, after, h, _ => by
    obtain ⟨body, hbody, hrest⟩ := exists_writeMembers_eq (next :: rest) after h.2 nofun
    obtain ⟨s, hs, hwrite⟩ := exists_write_eq item (0x2C :: (body ++ after)) h.1
    refine ⟨_, .more (hs.member key) hbody, ?_⟩
    rw [writeMembers, hrest, hwrite, List.append_assoc, List.append_assoc, List.cons_append,
      List.cons_append]

end

/-- Reading the text of a document in normal form gives the document. -/
theorem parse_render {j : Json} (h : j.IsNormal) : parse j.render = .ok j := by
  obtain ⟨s, hs, hwrite⟩ := exists_write_eq j [] h
  apply parse_complete
  rw [render, Text.toList_ofList, hwrite, List.append_nil]
  exact hs.element

end EcmaTree.Json
