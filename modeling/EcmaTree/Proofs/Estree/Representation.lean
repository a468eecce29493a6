import EcmaTree.Proofs.Estree.VariedLoading
import EcmaTree.Proofs.Json.Reordering
import EcmaTree.Proofs.Json.Significance

/-!
# Representations of programs

A program may be written in many ways that the loader does not tell apart: with other blanks, with
the members of objects in another order, with more fields than those that are looked up, and with
parentheses around expressions.
-/

namespace EcmaTree

namespace Estree

/-- Nodes of the same type and range vary if the fields vary that are looked up for their type. -/
theorem Varies.of_own {r : Role} {members others : List (Text × Json)} {fields : List (Text × Slot)}
    (htype : Json.lookup "type" members = Json.lookup "type" others)
    (hstart : Json.lookup "start" members = Json.lookup "start" others)
    (hstop : Json.lookup "end" members = Json.lookup "end" others)
    (hfields : r.ownFields (Role.typeIn members) (Role.computedIn members) = fields)
    (h : ∀ p ∈ fields, FieldVaries p.2 (Json.lookup p.1 members) (Json.lookup p.1 others)) :
    Varies (.node r) (.object members) (.object others) := by
  refine .node fun field slot hfield ↦ ?_
  rcases List.mem_append.mp hfield with hcommon | hown
  · simp only [commonFields, List.mem_cons, Prod.mk.injEq, List.not_mem_nil, or_false] at hcommon
    rcases hcommon with ⟨rfl, rfl⟩ | ⟨rfl, rfl⟩ | ⟨rfl, rfl⟩
    · exact htype ▸ .refl _ _
    · exact hstart ▸ .refl _ _
    · exact hstop ▸ .refl _ _
  · exact h (field, slot) (hfields ▸ hown)

/-! ## The order of members -/

mutual

/-- Whatever is looked for, it does not matter in which order members come. -/
theorem Varies.of_reorders : ∀ {j j' : Json}, j.Reorders j' → ∀ slot, Varies slot j j'
  | _, _, .same j, slot => .same slot j
  | _, _, .array h, .list _ => .list (ItemsVary.of_reorders h _)
  | _, _, .array _, .leaf | _, _, .array _, .node _ => .array fun _ ↦ Slot.noConfusion
  | _, _, .object hkeys h hperm, .node _ => .node fun field slot _ ↦
      h.lookup_inner hkeys hperm field ▸ FieldVaries.of_reorders h field slot
  | _, _, .object _ _ _, .leaf | _, _, .object _ _ _, .list _ =>
      .object fun _ ↦ Slot.noConfusion

theorem ItemsVary.of_reorders : ∀ {items others : List Json}, Json.ItemsReorder items others →
    ∀ r, ItemsVary r items others
  | _, _, .nil, r => .nil r
  | _, _, .cons h hrest, r => .cons (Varies.of_reorders h (.node r)) (ItemsVary.of_reorders hrest r)

theorem FieldVaries.of_reorders : ∀ {members inner : List (Text × Json)},
    Json.MembersReorder members inner → ∀ field slot,
      FieldVaries slot (Json.lookup field members) (Json.lookup field inner)
  | _, _, .nil, _, slot => .absent slot
  | _, _, .cons h hrest, field, slot => by
    rw [Json.lookup_cons, Json.lookup_cons]
    split
    · exact .present (Varies.of_reorders h slot)
    · exact FieldVaries.of_reorders hrest field slot

end

/-! ## More fields -/

/-- A field that is not looked up may stand anywhere among the members. -/
theorem Varies.insert {r : Role} {before after : List (Text × Json)} {field : Text} {value : Json}
    (hfield : field ∉ (r.fields (before ++ after)).map Prod.fst) :
    Varies (.node r) (.object (before ++ after)) (.object (before ++ (field, value) :: after)) := by
  refine .node fun key slot hkey ↦ ?_
  have hne : field ≠ key := by
    rintro rfl
    exact hfield (List.mem_map.mpr ⟨_, hkey, rfl⟩)
  have hlookup : Json.lookup key (before ++ (field, value) :: after) =
      Json.lookup key (before ++ after) := by
    rw [Json.lookup, Json.lookup, List.find?_append, List.find?_append, List.find?_cons_of_neg]
    rwa [decide_eq_true_eq]
  rw [hlookup]
  exact .refl slot _

end Estree

/-! ## Programs -/

open Estree

theorem Program.load_of_parse {t : Text} {j : Json} (h : Json.parse t = .ok j) :
    Program.load t = Program.ofJson j := by
  rw [Program.load, h]

/-- The result of loading a text that is JSON does not depend on how the text represents the
program. It is the same, be it a program with its ranges or an error with its offsets, for every
other such text that has other blanks outside its strings, that has the members of any objects in
another order, or whose document varies from that of the first one in what is not looked up and in
parentheses. -/
theorem Program.load_ignores_representation {t t' : Text} {j j' : Json} (h : Json.parse t = .ok j)
    (h' : Json.parse t' = .ok j') :
    (Json.compact t = Json.compact t' → Program.load t = Program.load t') ∧
      (j.Reorders j' → Program.load t = Program.load t') ∧
      (Varies (.node .program) j j' → Program.load t = Program.load t') := by
  rw [load_of_parse h, load_of_parse h']
  refine ⟨fun hcompact ↦ ?_, fun hreorders ↦ ?_, Program.ofJson_eq_of_varies⟩
  · rw [Json.eq_of_compact_eq h h' hcompact]
  · exact Program.ofJson_eq_of_varies (.of_reorders hreorders _)

/-! ### One program in five texts -/

/-- The document of a program that throws `this`. -/
def throwThis : Json :=
  .object [("type", .text "Program"), ("body", .array [.object [("type", .text "ThrowStatement"),
    ("argument", .object [("type", .text "ThisExpression")])]])]

/-- The same with the members the other way round. -/
def reorderedThrowThis : Json :=
  .object [("body", .array [.object [("argument", .object [("type", .text "ThisExpression")]),
    ("type", .text "ThrowStatement")]]), ("type", .text "Program")]

/-- The same with a field that is not looked up. -/
def extendedThrowThis : Json :=
  .object [("type", .text "Program"), ("sourceType", .text "script"),
    ("body", .array [.object [("type", .text "ThrowStatement"),
      ("argument", .object [("type", .text "ThisExpression")])]])]

/-- The same with `this` in two pairs of parentheses. -/
def wrappedThrowThis : Json :=
  .object [("type", .text "Program"), ("body", .array [.object [("type", .text "ThrowStatement"),
    ("argument", .object [("type", .text "ParenthesizedExpression"),
      ("start", .number (.zero false)),
      ("expression", .object [("type", .text "ParenthesizedExpression"),
        ("expression", .object [("type", .text "ThisExpression")])])])]])]

theorem reorders_throwThis : throwThis.Reorders reorderedThrowThis := by
  have hstatement : Json.ItemsReorder
      [.object [("type", .text "ThrowStatement"),
        ("argument", .object [("type", .text "ThisExpression")])]]
      [.object [("argument", .object [("type", .text "ThisExpression")]),
        ("type", .text "ThrowStatement")]] :=
    .cons (.object (by decide) (.cons (.same _) (.cons (.same _) .nil)) (.swap _ _ [])) .nil
  exact .object (by decide) (.cons (.same _) (.cons (.array hstatement) .nil)) (.swap _ _ [])

theorem extends_throwThis : Varies (.node .program) throwThis extendedThrowThis := by
  let front : List (Text × Json) := [("type", .text "Program")]
  let added : Text × Json := ("sourceType", .text "script")
  change Varies _ (.object (front ++ [_])) (.object (front ++ added :: [_]))
  exact .insert (by decide)

theorem wraps_throwThis : Varies (.node .program) throwThis wrappedThrowThis := by
  have habsent : IsOffset none := by
    intro x hx
    cases hx
  have hzero : IsOffset (some (.number (.zero false))) := by
    intro x hx
    cases hx
    exact ⟨0, by decide⟩
  have hargument : Varies (.node .expression) (.object [("type", .text "ThisExpression")])
      (.object [("type", .text "ParenthesizedExpression"), ("start", .number (.zero false)),
        ("expression", .object [("type", .text "ParenthesizedExpression"),
          ("expression", .object [("type", .text "ThisExpression")])])]) :=
    .wrapped (.inl rfl) ⟨rfl, hzero, habsent, rfl⟩
      (.wrapped (.inl rfl) ⟨rfl, habsent, habsent, rfl⟩ (.same _ _))
  refine .of_own rfl rfl rfl rfl (List.forall_mem_singleton.mpr (.present (.list ?_)))
  refine .cons (.of_own rfl rfl rfl rfl ?_) (.nil _)
  exact List.forall_mem_singleton.mpr (.present hargument)

/-- A program that throws `this`, with other blanks, with its members in another order, with a field
that is not looked up, and with two pairs of parentheses. -/
theorem Program.load_ignores_representation_throwThis :
    let plain : Text := "\x7b\"type\":\"Program\",\"body\":[
      \x7b\"type\":\"ThrowStatement\",\"argument\":\x7b\"type\":\"ThisExpression\"\x7d\x7d]\x7d"
    Program.load plain = Program.load "\x7b \"type\": \"Program\", \"body\": [ \x7b
        \"type\": \"ThrowStatement\", \"argument\": \x7b\"type\": \"ThisExpression\"\x7d
      \x7d ] \x7d" ∧
    Program.load plain = Program.load "\x7b\"body\":[
      \x7b\"argument\":\x7b\"type\":\"ThisExpression\"\x7d,\"type\":\"ThrowStatement\"\x7d],
      \"type\":\"Program\"\x7d" ∧
    Program.load plain = Program.load "\x7b\"type\":\"Program\",\"sourceType\":\"script\",\"body\":[
      \x7b\"type\":\"ThrowStatement\",\"argument\":\x7b\"type\":\"ThisExpression\"\x7d\x7d]\x7d" ∧
    Program.load plain = Program.load "\x7b\"type\":\"Program\",\"body\":[
      \x7b\"type\":\"ThrowStatement\",\"argument\":
        \x7b\"type\":\"ParenthesizedExpression\",\"start\":0,\"expression\":
          \x7b\"type\":\"ParenthesizedExpression\",\"expression\":
            \x7b\"type\":\"ThisExpression\"\x7d\x7d\x7d\x7d]\x7d" := by
  intro plain
  have hplain : Json.parse plain = .ok throwThis := by rfl
  refine ⟨(load_ignores_representation hplain (by rfl : Json.parse _ = .ok throwThis)).1 ?_,
    (load_ignores_representation hplain (by rfl : Json.parse _ = .ok reorderedThrowThis)).2.1
      reorders_throwThis,
    (load_ignores_representation hplain (by rfl : Json.parse _ = .ok extendedThrowThis)).2.2
      extends_throwThis,
    (load_ignores_representation hplain
      (by set_option maxRecDepth 4000 in rfl : Json.parse _ = .ok wrappedThrowThis)).2.2
      wraps_throwThis⟩
  decide +kernel

end EcmaTree
