import EcmaTree.Number.Basic
import EcmaTree.Text.Basic

/-!
# JSON documents

A JSON document as a tree. The members of an object are in the order in which their keys first came,
and each key is there once.
-/

namespace EcmaTree

/-- A JSON document. -/
inductive Json where
  | null
  | bool (value : Bool)
  | number (value : Number)
  | text (value : Text)
  | array (items : List Json)
  | object (members : List (Text × Json))

namespace Json

instance : Inhabited Json := ⟨.null⟩

/-- The members after a key got a value: a key that is present keeps its place, a new one comes
last. -/
def setMember (key : Text) (value : Json) : List (Text × Json) → List (Text × Json)
  | [] => [(key, value)]
  | (k, v) :: rest =>
    if k = key then (k, value) :: rest else (k, v) :: setMember key value rest

/-- The value of a key among members. -/
def lookup (key : Text) (members : List (Text × Json)) : Option Json :=
  (members.find? fun p ↦ p.1 = key).map Prod.snd

mutual

/-- How deep arrays and objects are nested in a document. -/
def height : Json → Nat
  | null | bool _ | number _ | text _ => 0
  | array items => itemsHeight items + 1
  | object members => membersHeight members + 1

/-- The height of the highest item. -/
def itemsHeight : List Json → Nat
  | [] => 0
  | item :: rest => max item.height (itemsHeight rest)

/-- The height of the highest value among members. -/
def membersHeight : List (Text × Json) → Nat
  | [] => 0
  | (_, value) :: rest => max value.height (membersHeight rest)

end

/-- No value is higher than the members it is among. -/
theorem height_le_of_lookup {key : Text} {members : List (Text × Json)} {value : Json}
    (h : lookup key members = some value) : value.height ≤ membersHeight members := by
  induction members with
  | nil => simp [lookup] at h
  | cons m rest ih =>
    obtain ⟨k, v⟩ := m
    simp only [lookup, List.find?_cons] at h ih
    split at h
    · simp only [Option.map_some, Option.some.injEq] at h
      subst h
      exact Nat.le_max_left _ _
    · exact Nat.le_trans (ih h) (Nat.le_max_right _ _)

end Json

end EcmaTree
