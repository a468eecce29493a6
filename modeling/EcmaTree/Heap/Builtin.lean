import EcmaTree.Text.Basic

/-!
# Functions that are not written in a program

The methods that every array and every text has, and the functions a host lends to its programs.
-/

namespace EcmaTree

/-- The methods of arrays. -/
inductive ArrayMethod where
  | push | pop | shift | unshift | slice | join | indexOf | includes | reverse | concat
  | map | filter | forEach | reduce
deriving DecidableEq, Repr

/-- The methods of texts. -/
inductive TextMethod where
  | charAt | indexOf | slice | substring | toUpperCase | toLowerCase | trim | split
deriving DecidableEq, Repr

/-- A method that needs no program. -/
inductive Builtin where
  | array (method : ArrayMethod)
  | text (method : TextMethod)
deriving DecidableEq, Repr

/-- The functions of the host. -/
inductive HostFunction where
  /-- Records its receiver and its arguments, and returns the first argument. -/
  | log
  /-- Returns the first argument. -/
  | id
  /-- Returns its receiver. -/
  | self
  /-- Returns a new array of all arguments. -/
  | args
  /-- Adds two arguments as numbers. -/
  | add
  /-- Returns the text of the first argument. -/
  | string
  /-- Returns the JSON text of the first argument. -/
  | json
  /-- Reads the text of the first argument as JSON. -/
  | parse
  /-- Throws the first argument. -/
  | throw
  /-- Throws a range error with the text of the first argument. -/
  | fail
  /-- Calls the first argument with the second as receiver and the elements of the third. -/
  | apply
  /-- Asks for a collection. -/
  | gc
  /-- Whatever else the host lends, by number. -/
  | other (number : Nat)
deriving DecidableEq, Repr

namespace ArrayMethod

/-- All methods of arrays. -/
def all : List ArrayMethod :=
  [.push, .pop, .shift, .unshift, .slice, .join, .indexOf, .includes, .reverse, .concat, .map,
    .filter, .forEach, .reduce]

/-- The name of a method. -/
def name : ArrayMethod → String
  | push => "push" | pop => "pop" | shift => "shift" | unshift => "unshift" | slice => "slice"
  | join => "join" | indexOf => "indexOf" | includes => "includes" | reverse => "reverse"
  | concat => "concat" | map => "map" | filter => "filter" | forEach => "forEach"
  | reduce => "reduce"

/-- The method with a name. -/
def ofText? (t : Text) : Option ArrayMethod := all.find? fun m ↦ Text.ofString m.name == t

end ArrayMethod

namespace TextMethod

/-- All methods of texts. -/
def all : List TextMethod :=
  [.charAt, .indexOf, .slice, .substring, .toUpperCase, .toLowerCase, .trim, .split]

/-- The name of a method. -/
def name : TextMethod → String
  | charAt => "charAt" | indexOf => "indexOf" | slice => "slice" | substring => "substring"
  | toUpperCase => "toUpperCase" | toLowerCase => "toLowerCase" | trim => "trim"
  | split => "split"

/-- The method with a name. -/
def ofText? (t : Text) : Option TextMethod := all.find? fun m ↦ Text.ofString m.name == t

end TextMethod

namespace Builtin

/-- The name of a method. -/
def name : Builtin → Text
  | array method => method.name
  | text method => method.name

/-- All methods. They belong to the evaluator and are live as long as it is. -/
def all : List Builtin := ArrayMethod.all.map array ++ TextMethod.all.map text

/-- Every method is among them. -/
theorem mem_all (method : Builtin) : method ∈ all := by
  cases method with
  | array m => cases m <;> decide
  | text m => cases m <;> decide

/-- The place of a method among all of them. -/
def index (method : Builtin) : Nat := all.idxOf method

/-- Different methods have different places. -/
theorem index_inj {a b : Builtin} (h : a.index = b.index) : a = b := by
  have found (m : Builtin) : all[m.index]? = some m := by
    have hm := List.idxOf_lt_length_of_mem (mem_all m)
    rw [index, List.getElem?_eq_getElem hm, List.getElem_idxOf hm]
  exact Option.some.inj (by rw [← found a, h, found b])

end Builtin

namespace HostFunction

/-- The functions that every host has. -/
def all : List HostFunction :=
  [.log, .id, .self, .args, .add, .string, .json, .parse, .throw, .fail, .apply, .gc]

/-- The name of a function, unless it is given another. -/
def name : HostFunction → String
  | log => "log" | id => "id" | self => "self" | args => "args" | add => "add"
  | string => "string" | json => "json" | parse => "parse" | throw => "throw" | fail => "fail"
  | apply => "apply" | gc => "gc" | other _ => "other"

/-- The function with a name. -/
def ofText? (t : Text) : Option HostFunction := all.find? fun f ↦ Text.ofString f.name == t

end HostFunction

end EcmaTree
