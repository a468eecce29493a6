import EcmaTree.Heap.Accounting
import EcmaTree.Heap.Reference

/-!
# Specifications of values

A host writes down the values that it hands in. Arrays, objects and functions can be given a number
and then be referred to by it, even from inside themselves. Containers are made before their
contents, and a key that comes again in an object replaces the value that it had.
-/

namespace EcmaTree

/-- What a host writes down for a value. -/
inductive ValueSpec where
  | undefined
  | null
  | bool (value : Bool)
  | number (value : Number)
  | text (value : Text)
  | array (id : Option Nat) (elements : List ValueSpec)
  /-- A key that comes again replaces the value it had. -/
  | object (id : Option Nat) (members : List (Text × ValueSpec))
  /-- A function of the host. -/
  | host (id : Option Nat) (function : HostFunction) (name : Text)
  /-- What was given a number before. -/
  | numbered (id : Nat)
  /-- What the host keeps under a name. -/
  | kept (name : Text)
  /-- The value of a variable. -/
  | bound (name : Text)

instance : Inhabited ValueSpec := ⟨.undefined⟩

namespace ValueSpec

/-- What names mean in a specification, and what becomes of values that are replaced. -/
structure Scope where
  kept : Text → Option Value
  bound : Text → Option Value
  /-- What is left of a heap when a value was replaced, given what is in use besides. -/
  tidy : List HeapRef → Heap → Heap

/-- The scope in which no name means anything and nothing goes away. -/
def Scope.empty : Scope := ⟨fun _ ↦ none, fun _ ↦ none, fun _ h ↦ h⟩

/-- A heap with its accounts, and what was given a number in it. -/
structure Building where
  heap : Heap
  accounting : Accounting
  numbered : List (Nat × Value)

/-- A step of making values. -/
abbrev Build (α : Type) := StateM Building α

/-- Makes something in the heap, and books it. -/
def create {α : Type} (f : Heap → α × Heap) : Build α := fun b ↦
  let (a, h) := f b.heap
  (a, { b with heap := h, accounting := b.accounting.made 1 })

/-- Changes the heap. -/
def changeHeap (f : Heap → Heap) : Build Unit := fun b ↦ ((), { b with heap := f b.heap })

/-- Lets go of what is no longer in use, and books it. Whatever has a number stays in use. -/
def tidy (scope : Scope) (inUse : List HeapRef) : Build Unit := fun b ↦
  let left := scope.tidy (inUse ++ b.numbered.filterMap fun p ↦ p.2.ref?) b.heap
  ((), { b with
    heap := left
    accounting := b.accounting.gone (b.heap.cells.length - left.cells.length) })

/-- Gives a value its number, if it is to have one. A number that comes again is taken away from the
value that had it. -/
def register (scope : Scope) (inUse : List HeapRef) (id : Option Nat) (v : Value) : Build Unit :=
  match id with
  | none => pure ()
  | some n => fun b ↦
    let others := b.numbered.filter fun p ↦ p.1 != n
    let given := { b with numbered := (n, v) :: others }
    if others.length < b.numbered.length then tidy scope inUse given else ((), given)

/-- Gives a property of an object a value, and lets go of the value that it had. -/
def setProperty (scope : Scope) (inUse : List HeapRef) (id : ObjectId) (key : Text) (v : Value) :
    Build Unit := fun b ↦
  let changed := { b with heap := b.heap.modifyObject id (·.insert key v) }
  if (b.heap.properties id).contains key then tidy scope inUse changed else ((), changed)

mutual

/-- Makes the value of a specification. A name or a number without a meaning stands for undefined.
`inUse` lists what is being made around the value or was made beside it. -/
def build (scope : Scope) (inUse : List HeapRef) : ValueSpec → Build Value
  | undefined => pure .undefined
  | null => pure .null
  | bool b => pure (.bool b)
  | number x => pure (.number x)
  | text t => pure (.text t)
  | array id elements => do
    let a ← create fun h ↦ h.newArray #[]
    register scope (.array a :: inUse) id (.array a)
    fillArray scope (.array a :: inUse) a elements
    return .array a
  | object id members => do
    let o ← create fun h ↦ h.newObject .empty
    register scope (.object o :: inUse) id (.object o)
    fillObject scope (.object o :: inUse) o members
    return .object o
  | host id function name => do
    let f ← create fun h ↦ h.newFunction ⟨name, .host function⟩
    register scope (.function f :: inUse) id (.function (.cell f))
    return .function (.cell f)
  | numbered id => fun b ↦ (((b.numbered.find? fun p ↦ p.1 = id).map Prod.snd).getD .undefined, b)
  | kept name => pure ((scope.kept name).getD .undefined)
  | bound name => pure ((scope.bound name).getD .undefined)

/-- Makes the elements of an array in order. -/
def fillArray (scope : Scope) (inUse : List HeapRef) (id : ArrayId) : List ValueSpec → Build Unit
  | [] => pure ()
  | spec :: rest => do
    let v ← build scope inUse spec
    changeHeap fun h ↦ h.modifyArray id (·.push v)
    fillArray scope inUse id rest

/-- Makes the values of an object's properties in order. -/
def fillObject (scope : Scope) (inUse : List HeapRef) (id : ObjectId) :
    List (Text × ValueSpec) → Build Unit
  | [] => pure ()
  | (key, spec) :: rest => do
    let v ← build scope inUse spec
    setProperty scope inUse id key v
    fillObject scope inUse id rest

end

/-- Makes the values of specifications in order, each of them beside the ones before it. -/
def buildAll (scope : Scope) (inUse : List HeapRef) : List ValueSpec → Build (List Value)
  | [] => pure []
  | spec :: rest => do
    let v ← build scope inUse spec
    return v :: (← buildAll scope (v.ref?.toList ++ inUse) rest)

/-- Makes values under names in order, each of them beside the ones before it. -/
def buildBindings (scope : Scope) (inUse : List HeapRef) :
    List (Text × ValueSpec) → Build (List (Text × Value))
  | [] => pure []
  | (name, spec) :: rest => do
    let v ← build scope inUse spec
    return (name, v) :: (← buildBindings scope (v.ref?.toList ++ inUse) rest)

/-- Makes a callee, the arguments and the receiver in this order. -/
def buildCall (scope : Scope) (function : ValueSpec) (arguments : List ValueSpec)
    (receiver : ValueSpec) : Build (Value × List Value × Value) := do
  let callee ← build scope [] function
  let args ← buildAll scope callee.ref?.toList arguments
  return (callee, args, ← build scope ((callee :: args).filterMap Value.ref?) receiver)

/-- Makes values in a heap with its accounts, under a numbering of their own. -/
def make {α : Type} (h : Heap) (a : Accounting) (m : Build α) : α × Heap × Accounting :=
  let (made, b) := m ⟨h, a, []⟩
  (made, b.heap, b.accounting)

end ValueSpec

end EcmaTree
