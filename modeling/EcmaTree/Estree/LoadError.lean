import EcmaTree.Json.Parser
import EcmaTree.Source.Lines

/-!
# Errors of loading

Why a document is no program, and which part of the source is to blame.
-/

namespace EcmaTree.Estree

/-- What a field was expected to hold. -/
inductive FieldShape where
  | node | list | text | block
deriving DecidableEq, Repr

/-- What is said of a field that does not hold what was expected. -/
def FieldShape.complaint : FieldShape → Text
  | node => "is not a node"
  | list => "is not a list"
  | text => "is not a string"
  | block => "must be a BlockStatement"

/-- What is wrong with a document. -/
inductive LoadFault where
  /-- It is not even JSON. -/
  | notJson (e : Json.ParseError)
  /-- It is a node, but no program. -/
  | notProgram (type : Text)
  /-- A node says that it begins or ends where nothing can. -/
  | offset (field : Text) (value : Number)
  /-- A node has no type. -/
  | untyped
  /-- What should be a node is none. -/
  | notNode (field : Text)
  /-- A node of a type has no such field. -/
  | missing (field type : Text)
  /-- A field of a node of a type does not hold what it should. -/
  | shape (field type : Text) (expected : FieldShape)
  /-- No operator of the family is spelt like this. -/
  | operator (family : String) (spelling : Text)
deriving DecidableEq

/-- A document is no program. -/
structure LoadError where
  fault : LoadFault
  span : Span
deriving DecidableEq

namespace LoadError

/-- A name in quotes. -/
def quoted (name : Text) : Text := "'" ++ name ++ "'"

/-- What is said of the error. -/
def message (e : LoadError) : Text :=
  let place : Text := " at Location " ++ e.span.location
  match e.fault with
  | .notJson inner => "Invalid ESTree JSON: " ++ inner.message
  | .notProgram type => "Expected a Program node, got " ++ type
  | .offset field value =>
    "Field " ++ quoted field ++ " is not a valid source offset: " ++ value.toText
  | .untyped => "Missing required field 'type'" ++ place
  | .notNode field => "Field " ++ quoted field ++ " is not a node" ++ place
  | .missing field type => "Missing required field " ++ quoted field ++ " on " ++ type ++ place
  | .shape field type expected =>
    "Field " ++ quoted field ++ " of " ++ type ++ " " ++ expected.complaint ++ place
  | .operator family spelling =>
    "Unknown " ++ family ++ " operator " ++ quoted spelling ++ place

end LoadError

/-- Something loaded, or the error that it could not be. -/
abbrev Loaded (α : Type) := Except LoadError α

end EcmaTree.Estree
