import EcmaTree.Heap.Conversion
import EcmaTree.Heap.JsonTree
import EcmaTree.Source.Lines
import EcmaTree.Source.Report

/-!
# Errors

What a program can be stopped by. A *runtime error* becomes an object that is thrown and that the
program can catch. A *structural error* is about the tree itself and ends the evaluation.
-/

namespace EcmaTree

/-- The kinds of error objects. -/
inductive ErrorKind where
  | error | typeError | referenceError | rangeError
deriving DecidableEq, Repr

namespace ErrorKind

/-- All kinds of error objects. -/
def all : List ErrorKind := [.error, .typeError, .referenceError, .rangeError]

/-- The name of a kind. -/
def name : ErrorKind → String
  | error => "Error" | typeError => "TypeError" | referenceError => "ReferenceError"
  | rangeError => "RangeError"

/-- The kind with a name. -/
def ofText? (t : Text) : Option ErrorKind := all.find? fun k ↦ Text.ofString k.name == t

end ErrorKind

/-- What went wrong in a running program. -/
inductive RuntimeError where
  | notDefined (name : Text)
  | constantAssignment
  /-- A property `key` was read from a value without properties, whose text is `holder`. -/
  | unreadable (holder key : Text)
  /-- A property `key` was written to a value without properties, whose text is `holder`. -/
  | unwritable (holder key : Text)
  | notCallable (callee : Text)
  | arrayLength
  | callDepth
  | arrayReceiver (method : ArrayMethod)
  | textReceiver (method : TextMethod)
  | emptyReduce
  /-- The host failed, and says why. -/
  | hostFailure (message : Text)
deriving DecidableEq

namespace RuntimeError

/-- The kind of object that an error becomes. -/
def kind : RuntimeError → ErrorKind
  | notDefined _ => .referenceError
  | arrayLength | callDepth | hostFailure _ => .rangeError
  | constantAssignment | unreadable .. | unwritable .. | notCallable _ | arrayReceiver _
  | textReceiver _ | emptyReduce => .typeError

/-- What is said of an error. -/
def message : RuntimeError → Text
  | notDefined name => name ++ " is not defined"
  | constantAssignment => "Assignment to constant variable."
  | unreadable holder key => "Cannot read properties of " ++ holder ++ " (reading '" ++ key ++ "')"
  | unwritable holder key => "Cannot set properties of " ++ holder ++ " (setting '" ++ key ++ "')"
  | notCallable callee => callee ++ " is not a function"
  | arrayLength => "Invalid array length"
  | callDepth => "Maximum call stack size exceeded"
  | arrayReceiver method =>
    "Array.prototype." ++ Text.ofString method.name ++ " called on non-array"
  | textReceiver method =>
    "String.prototype." ++ Text.ofString method.name ++ " called on null or undefined"
  | emptyReduce => "Reduce of empty array with no initial value"
  | hostFailure message => message

end RuntimeError

/-- What is wrong with a tree. -/
inductive StructuralCause where
  | unsupportedNode (type : Text)
  | unsupportedOperator (operator type : Text)
  | strayBreak (label : Option Text)
  | strayContinue (label : Option Text)
deriving DecidableEq

/-- A node that cannot be evaluated. -/
structure StructuralError where
  cause : StructuralCause
  span : Span
deriving DecidableEq

namespace StructuralError

/-- The type of the node in question. -/
def nodeType (e : StructuralError) : Text :=
  match e.cause with
  | .unsupportedNode type => type
  | .unsupportedOperator _ type => type
  | .strayBreak _ => "BreakStatement"
  | .strayContinue _ => "ContinueStatement"

/-- A keyword with the label that follows it. -/
def jump (keyword : Text) (label : Option Text) : Text :=
  match label with
  | none => keyword
  | some l => keyword ++ " " ++ l

/-- What is said of an error. -/
def message (e : StructuralError) : Text :=
  (match e.cause with
    | .unsupportedNode type => "Unsupported Syntax " ++ type
    | .unsupportedOperator operator _ => "Unsupported Operator " ++ operator
    | .strayBreak label => "Illegal " ++ jump "break" label ++ " statement"
    | .strayContinue label => "Illegal " ++ jump "continue" label ++ " statement") ++
    " at Location " ++ e.span.location

end StructuralError

/-- A value on its way to a handler: the calls that were active when it was thrown, the place where
that was, and what was said of it then. -/
structure Thrown where
  value : Value
  calls : CallTrace
  origin : Span
  message : Text
deriving DecidableEq

/-- What ends an evaluation without any handler. -/
inductive Fault where
  | structural (e : StructuralError)
  /-- The host was given a text that is no JSON document. -/
  | document (e : Json.ParseError)
  /-- A node is absent. -/
  | absent
  /-- A function has no code. -/
  | codeless
deriving DecidableEq

namespace Heap

/-- The property of an error object that holds its name. -/
def nameKey : Text := "name"

/-- The property of an error object that holds its message. -/
def messageKey : Text := "message"

/-- The properties of an error object. Without a stack of its own it has its headline as stack. -/
def errorProperties (kind : ErrorKind) (message stack : Text) : Properties :=
  let name := Text.ofString kind.name
  .ofList [(nameKey, .text name), (messageKey, .text message),
    ("stack", .text (if stack.isEmpty then name ++ ": " ++ message else stack))]

/-- The name and the message of an error object: an object that has both as texts. -/
def errorParts? (h : Heap) : Value → Option (Text × Text)
  | .object id =>
    match h.property id nameKey, h.property id messageKey with
    | .text name, .text message => some (name, message)
    | _, _ => none
  | _ => none

/-- An error object. -/
def isError (h : Heap) (v : Value) : Bool := (h.errorParts? v).isSome

/-- How a value that is no error object is shown when it was thrown: objects and arrays as JSON. -/
def thrownText (h : Heap) : Value → Text
  | .object id => h.jsonText (.object id)
  | .array id => h.jsonText (.array id)
  | v => h.toText v

/-- What is said of a value when it is thrown. -/
def uncaughtMessage (h : Heap) (v : Value) : Text :=
  "Uncaught " ++
    match h.errorParts? v with
    | some (name, message) => Report.headline name message
    | none => h.thrownText v

/-- What is thrown when a value is. -/
def thrown (h : Heap) (v : Value) (calls : CallTrace) (origin : Span) : Thrown :=
  ⟨v, calls, origin, h.uncaughtMessage v⟩

end Heap

end EcmaTree
