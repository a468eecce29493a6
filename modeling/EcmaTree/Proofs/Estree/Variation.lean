import EcmaTree.Estree.Loader
import EcmaTree.Proofs.Json.Collecting

/-!
# Variations of documents

What the loader looks up depends on where a node stands and on its type. Documents that differ in
nothing that is looked up are variations of each other: the order of the members does not matter,
nor does any other field, nor what a field holds where something else is looked for. An expression
may also stand in parentheses, unless it is in a place in which its type is looked at.
-/

namespace EcmaTree.Estree

/-- What a node is looked at as. -/
inductive Role where
  | program | expression | statement
  /-- The body of a function: a block, or an expression. -/
  | body
  /-- What has to be a block. -/
  | block
  /-- A key that is not computed. -/
  | key
  | property
  /-- What a loop begins with: a declaration, or an expression. -/
  | initializer
  | declarator | switchCase | handler
  /-- A parameter, a variable, a label or the name of a function. -/
  | name
deriving DecidableEq

/-- What is looked for in a field. -/
inductive Slot where
  /-- A scalar, or only whether there is something and of which kind. -/
  | leaf
  | node (r : Role)
  | list (r : Role)
deriving DecidableEq

/-! ## What is looked up -/

/-- The fields that are looked up on every node. -/
def commonFields : List (Text × Slot) := [("type", .leaf), ("start", .leaf), ("end", .leaf)]

/-- The fields that are looked up on functions of any kind. -/
def functionFields : List (Text × Slot) :=
  [("async", .leaf), ("generator", .leaf), ("params", .list .name), ("id", .node .name),
    ("body", .node .body)]

/-- The fields that are looked up on an expression of a type. -/
def ExpressionType.fields (computed : Bool) : ExpressionType → List (Text × Slot)
  | identifier => [("name", .leaf)]
  | literal => [("regex", .leaf), ("bigint", .leaf), ("value", .leaf)]
  | receiver => []
  | parenthesized => [("expression", .node .expression)]
  | binary | logical | assignment =>
    [("operator", .leaf), ("left", .node .expression), ("right", .node .expression)]
  | unary => [("operator", .leaf), ("argument", .node .expression)]
  | update => [("operator", .leaf), ("prefix", .leaf), ("argument", .node .expression)]
  | call => [("optional", .leaf), ("callee", .node .expression), ("arguments", .list .expression)]
  | member =>
    [("optional", .leaf), ("computed", .leaf), ("object", .node .expression),
      ("property", .node (if computed then .expression else .key))]
  | conditional =>
    [("test", .node .expression), ("consequent", .node .expression),
      ("alternate", .node .expression)]
  | array => [("elements", .list .expression)]
  | object => [("properties", .list .property)]
  | sequence => [("expressions", .list .expression)]
  | arrow | function => functionFields

/-- The fields that are looked up on a statement of a type. -/
def StatementType.fields : StatementType → List (Text × Slot)
  | expression => [("expression", .node .expression)]
  | block => [("body", .list .statement)]
  | empty => []
  | declaration => [("kind", .leaf), ("declarations", .list .declarator)]
  | function => functionFields
  | returned | throwing => [("argument", .node .expression)]
  | conditional =>
    [("test", .node .expression), ("consequent", .node .statement), ("alternate", .node .statement)]
  | whileLoop | doWhileLoop => [("test", .node .expression), ("body", .node .statement)]
  | forLoop =>
    [("init", .node .initializer), ("test", .node .expression), ("update", .node .expression),
      ("body", .node .statement)]
  | switch => [("discriminant", .node .expression), ("cases", .list .switchCase)]
  | breaking | continuing => [("label", .node .name)]
  | labeled => [("label", .node .name), ("body", .node .statement)]
  | guarded =>
    [("block", .node .block), ("handler", .node .handler), ("finalizer", .node .block)]

/-- The fields that are looked up on a property of an object. -/
def propertyFields (computed : Bool) : List (Text × Slot) :=
  [("kind", .leaf), ("method", .leaf), ("computed", .leaf), ("value", .node .expression),
    ("key", .node (if computed then .expression else .key))]

/-- The fields that are looked up on an expression whose type has a name. -/
def expressionFields (type : Text) (computed : Bool) : List (Text × Slot) :=
  ((ExpressionType.ofText? type).map (·.fields computed)).getD []

/-- The fields that are looked up on a statement whose type has a name. -/
def statementFields (type : Text) : List (Text × Slot) :=
  ((StatementType.ofText? type).map StatementType.fields).getD []

namespace Role

/-- The fields that are looked up on a node in a role besides the common ones. -/
def ownFields (type : Text) (computed : Bool) : Role → List (Text × Slot)
  | program => if type = programType then [("body", .list .statement)] else []
  | expression | key => expressionFields type computed
  | statement => statementFields type
  | body =>
    if StatementType.ofText? type = some .block then StatementType.block.fields
    else expressionFields type computed
  | block => if StatementType.ofText? type = some .block then StatementType.block.fields else []
  | property => if type = propertyType then propertyFields computed else []
  | initializer =>
    if StatementType.ofText? type = some .declaration then StatementType.declaration.fields
    else expressionFields type computed
  | declarator => [("id", .node .name), ("init", .node .expression)]
  | switchCase => [("test", .node .expression), ("consequent", .list .statement)]
  | handler => [("param", .node .name), ("body", .node .block)]
  | name => [("name", .leaf)]

/-- The type that members name; empty if they name none. -/
def typeIn (members : List (Text × Json)) : Text :=
  match Json.lookup "type" members with
  | some (.text t) => t
  | _ => .empty

/-- The members say that a key is computed. -/
def computedIn (members : List (Text × Json)) : Bool :=
  match Json.lookup "computed" members with
  | some (.bool b) => b
  | _ => false

/-- The fields that are looked up on a node in a role, each with what is looked for in it. -/
def fields (r : Role) (members : List (Text × Json)) : List (Text × Slot) :=
  commonFields ++ r.ownFields (typeIn members) (computedIn members)

end Role

/-! ## Variations -/

/-- An offset that is either left out or a place in a source. -/
def IsOffset (o : Option Json) : Prop :=
  ∀ x, o = some (.number x) → ∃ k : UInt32, x.integer? = some ↑k.toNat

/-- Members of parentheses around an expression. -/
structure Parenthesizes (members : List (Text × Json)) (inner : Json) : Prop where
  type : Json.lookup "type" members = some (.text "ParenthesizedExpression")
  start : IsOffset (Json.lookup "start" members)
  stop : IsOffset (Json.lookup "end" members)
  expression : Json.lookup "expression" members = some inner

/-- An expression may stand in parentheses where it is loaded before its type is looked at, and
where only a block is told from all other types. -/
def Role.Wraps (r : Role) (members : List (Text × Json)) : Prop :=
  r = .expression ∨ r = .body ∧ ∃ type, Json.lookup "type" members = some (.text type) ∧
    StatementType.ofText? type ≠ some .block

mutual

/-- The second document is the same as the first to anyone who looks for something in a slot. -/
inductive Varies : Slot → Json → Json → Prop where
  | same (slot : Slot) (j : Json) : Varies slot j j
  /-- Of a list in the place of something else nothing is looked up. -/
  | array {slot : Slot} {items others : List Json} (hslot : ∀ r, slot ≠ .list r) :
      Varies slot (.array items) (.array others)
  /-- Of an object in the place of something else nothing is looked up. -/
  | object {slot : Slot} {members others : List (Text × Json)} (hslot : ∀ r, slot ≠ .node r) :
      Varies slot (.object members) (.object others)
  | list {r : Role} {items others : List Json} (h : ItemsVary r items others) :
      Varies (.list r) (.array items) (.array others)
  /-- Whatever the order of the members is, and whatever fields there are besides. -/
  | node {r : Role} {members others : List (Text × Json)}
      (h : ∀ field slot, (field, slot) ∈ r.fields members →
        FieldVaries slot (Json.lookup field members) (Json.lookup field others)) :
      Varies (.node r) (.object members) (.object others)
  /-- Any number of parentheses around the variation of an expression. -/
  | wrapped {r : Role} {members others : List (Text × Json)} {inner : Json}
      (hr : r.Wraps members) (hothers : Parenthesizes others inner)
      (h : Varies (.node .expression) (.object members) inner) :
      Varies (.node r) (.object members) (.object others)

/-- A field that is there in both documents or in neither. -/
inductive FieldVaries : Slot → Option Json → Option Json → Prop where
  | absent (slot : Slot) : FieldVaries slot none none
  | present {slot : Slot} {j j' : Json} (h : Varies slot j j') :
      FieldVaries slot (some j) (some j')

/-- Items that vary one by one. -/
inductive ItemsVary : Role → List Json → List Json → Prop where
  | nil (r : Role) : ItemsVary r [] []
  | cons {r : Role} {j j' : Json} {items others : List Json} (h : Varies (.node r) j j')
      (hrest : ItemsVary r items others) : ItemsVary r (j :: items) (j' :: others)

end

theorem FieldVaries.refl (slot : Slot) (o : Option Json) : FieldVaries slot o o := by
  cases o with
  | none => exact .absent slot
  | some j => exact .present (.same slot j)

theorem ItemsVary.refl (r : Role) (items : List Json) : ItemsVary r items items := by
  induction items with
  | nil => exact .nil r
  | cons j rest ih => exact .cons (.same _ j) ih

namespace Varies

variable {r : Role} {j j' : Json} {members others : List (Text × Json)}

/-- Of a scalar everything is looked at. -/
theorem leaf_cases (h : Varies .leaf j j') :
    j = j' ∨ (∃ items others, j = .array items ∧ j' = .array others) ∨
      ∃ members others, j = .object members ∧ j' = .object others := by
  cases h with
  | same => exact .inl rfl
  | array => exact .inr (.inl ⟨_, _, rfl, rfl⟩)
  | object => exact .inr (.inr ⟨_, _, rfl, rfl⟩)

/-- A node is a node in both documents. -/
theorem node_cases (h : Varies (.node r) j j') :
    (∃ members others, j = .object members ∧ j' = .object others) ∨
      (∀ members, j ≠ .object members) ∧ ∀ members, j' ≠ .object members := by
  cases h with
  | same =>
    by_cases hj : ∃ members, j = .object members
    · obtain ⟨members, rfl⟩ := hj
      exact .inl ⟨members, members, rfl, rfl⟩
    · exact .inr ⟨not_exists.mp hj, not_exists.mp hj⟩
  | array => exact .inr ⟨fun _ ↦ Json.noConfusion, fun _ ↦ Json.noConfusion⟩
  | object hslot => exact absurd rfl (hslot r)
  | node | wrapped => exact .inl ⟨_, _, rfl, rfl⟩

/-- Nothing stands in the place of null. -/
theorem null_iff (h : Varies (.node r) j j') : j = .null ↔ j' = .null := by
  cases h with
  | same => exact .rfl
  | array | object | node | wrapped => exact ⟨Json.noConfusion, Json.noConfusion⟩

/-- Two nodes have the same where it is looked up, or the second one is in parentheses. -/
theorem fields_or_wrapped (h : Varies (.node r) (.object members) (.object others)) :
    (∀ field slot, (field, slot) ∈ r.fields members →
        FieldVaries slot (Json.lookup field members) (Json.lookup field others)) ∨
      ∃ inner, r.Wraps members ∧ Parenthesizes others inner ∧
        Varies (.node .expression) (.object members) inner := by
  cases h with
  | same => exact .inl fun _ _ _ ↦ .refl _ _
  | object hslot => exact absurd rfl (hslot r)
  | node h => exact .inl h
  | wrapped hr hothers h => exact .inr ⟨_, hr, hothers, h⟩

/-- A list is a list in both documents. -/
theorem list_cases (h : Varies (.list r) j j') :
    (∃ items others, j = .array items ∧ j' = .array others ∧ ItemsVary r items others) ∨
      (∀ items, j ≠ .array items) ∧ ∀ items, j' ≠ .array items := by
  cases h with
  | same =>
    by_cases hj : ∃ items, j = .array items
    · obtain ⟨items, rfl⟩ := hj
      exact .inl ⟨items, items, rfl, rfl, .refl r items⟩
    · exact .inr ⟨not_exists.mp hj, not_exists.mp hj⟩
  | array hslot => exact absurd rfl (hslot r)
  | object => exact .inr ⟨fun _ ↦ Json.noConfusion, fun _ ↦ Json.noConfusion⟩
  | list h => exact .inl ⟨_, _, rfl, rfl, h⟩

end Varies

end EcmaTree.Estree
