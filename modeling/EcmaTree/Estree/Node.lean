import EcmaTree.Estree.LoadError

/-!
# Nodes of documents

A node is an object of the document. Nodes and fragments are indexed by a bound on their height,
which goes down from a node to what its fields hold, so that loading ends.
-/

namespace EcmaTree.Estree

/-- A fragment of a document, at most `n` high. -/
structure Fragment (n : Nat) where
  json : Json
  height_le : json.height ≤ n

/-- An object of a document, with the values of its members all lower than `n`. -/
structure Node (n : Nat) where
  members : List (Text × Json)
  height_lt : Json.membersHeight members < n

namespace Fragment

variable {n : Nat}

/-- The fragment as a node, if it is an object. -/
def node? : Fragment n → Option (Node n)
  | ⟨.object members, h⟩ => some ⟨members, h⟩
  | _ => none

/-- The items of a list as fragments. -/
def ofItems : (items : List Json) → Json.itemsHeight items ≤ n → List (Fragment n)
  | [], _ => []
  | item :: rest, h =>
    ⟨item, Nat.le_trans (Nat.le_max_left _ _) h⟩ ::
      ofItems rest (Nat.le_trans (Nat.le_max_right _ _) h)

/-- The items of the fragment, if it is a list. -/
def items? : Fragment n → Option (List (Fragment n))
  | ⟨.array items, h⟩ => some (ofItems items (Nat.le_of_lt h))
  | _ => none

end Fragment

namespace Node

variable {n : Nat}

/-- The node under a weaker bound. -/
def up (node : Node (n - 1)) : Node n :=
  ⟨node.members, Nat.lt_of_lt_of_le node.height_lt (Nat.sub_le n 1)⟩

/-- What a field holds. -/
def field? (node : Node n) (field : Text) : Option (Fragment (n - 1)) :=
  match h : Json.lookup field node.members with
  | some json =>
    some ⟨json, Nat.le_sub_one_of_lt (Nat.lt_of_le_of_lt (Json.height_le_of_lookup h)
      node.height_lt)⟩
  | none => none

/-- The node has a field, whatever it holds. -/
def has (node : Node n) (field : Text) : Bool := (node.field? field).isSome

/-- A field that holds `true` and nothing else. -/
def flag (node : Node n) (field : Text) : Bool :=
  match node.field? field with
  | some ⟨.bool b, _⟩ => b
  | _ => false

/-- The node that a field holds, if it does hold one. -/
def child? (node : Node n) (field : Text) : Option (Node (n - 1)) :=
  (node.field? field).bind Fragment.node?

/-- An offset into the source. A field without a number stands for 0. -/
def offset (node : Node n) (field : Text) : Loaded UInt32 :=
  match node.field? field with
  | some ⟨.number x, _⟩ =>
    match x.integer? with
    | some i =>
      if 0 ≤ i && i < UInt32.size then .ok (UInt32.ofNat i.toNat)
      else .error ⟨.offset field x, .nowhere⟩
    | none => .error ⟨.offset field x, .nowhere⟩
  | _ => .ok 0

/-- Where the node comes from. -/
def span (node : Node n) : Loaded Span := do
  let start ← node.offset "start"
  return ⟨start, ← node.offset "end"⟩

/-- The type of the node. -/
def type (node : Node n) : Loaded Text := do
  match node.field? "type" with
  | some ⟨.text t, _⟩ => return t
  | _ => throw ⟨.untyped, ← node.span⟩

/-- Fails with a fault of the node, which names its type. -/
def fail {α : Type} (node : Node n) (fault : Text → LoadFault) : Loaded α := do
  let type ← node.type
  throw ⟨fault type, ← node.span⟩

/-- What a field holds that the node must have. -/
def required (node : Node n) (field : Text) : Loaded (Fragment (n - 1)) :=
  match node.field? field with
  | some fragment => .ok fragment
  | none => node.fail (.missing field)

/-- The node that a field must hold. -/
def child (node : Node n) (field : Text) : Loaded (Node (n - 1)) := do
  match (← node.required field).node? with
  | some c => return c
  | none => node.fail (.shape field · .node)

/-- The list that a field must hold. -/
def list (node : Node n) (field : Text) : Loaded (List (Fragment (n - 1))) := do
  match (← node.required field).items? with
  | some fragments => return fragments
  | none => node.fail (.shape field · .list)

/-- The text that a field must hold. -/
def text (node : Node n) (field : Text) : Loaded Text := do
  match (← node.required field).json with
  | .text t => return t
  | _ => node.fail (.shape field · .text)

/-- The name of the node that a field must hold. -/
def childName (node : Node n) (field : Text) : Loaded Text := do (← node.child field).text "name"

end Node

/-- A fragment of a list field as the node it must be; the node that it belongs to is at `span`. -/
def Fragment.asNode {n : Nat} (fragment : Fragment n) (field : Text) (span : Span) :
    Loaded (Node n) :=
  match fragment.node? with
  | some node => .ok node
  | none => .error ⟨.notNode field, span⟩

end EcmaTree.Estree
