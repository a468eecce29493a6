import EcmaTree.Evaluation.Error
import EcmaTree.Evaluation.Members
import EcmaTree.Evaluation.Operators
import EcmaTree.Heap.Snapshot
import EcmaTree.Proofs.Heap.Texts
import Mathlib.Tactic.Common

/-!
# What evaluations read

Evaluations read frames only to look names and receivers up. So two states show them the same if
they have the same objects, arrays and functions, whatever frames these captured, and if the current
frames see the same.
-/

namespace EcmaTree

/-- The same function, but for the frame that it captured. -/
inductive Function.Resembles (scopes : FrameId → FrameId → Prop) : Function → Function → Prop where
  | closure (name : Text) (code : FunctionNode) {scope scope' : FrameId} (h : scopes scope scope') :
      Resembles scopes ⟨name, .closure code scope⟩ ⟨name, .closure code scope'⟩
  | captured (name : Text) {scope scope' : FrameId} (h : scopes scope scope') :
      Resembles scopes ⟨name, .captured scope⟩ ⟨name, .captured scope'⟩
  | host (name : Text) (f : HostFunction) : Resembles scopes ⟨name, .host f⟩ ⟨name, .host f⟩

namespace Function.Resembles

variable {scopes : FrameId → FrameId → Prop} {f f' : Function}

theorem name_eq (h : f.Resembles scopes f') : f'.name = f.name := by
  cases h <;> rfl

/-- Two such functions get the same name. -/
theorem named (h : f.Resembles scopes f') (name : Text) :
    ({ f with name := name } : Function).Resembles scopes { f' with name := name } := by
  cases h with
  | closure _ code h => exact .closure name code h
  | captured _ h => exact .captured name h
  | host _ g => exact .host name g

theorem mono {scopes' : FrameId → FrameId → Prop} (h : f.Resembles scopes f')
    (hscopes : ∀ {id id'}, scopes id id' → scopes' id id') : f.Resembles scopes' f' := by
  cases h with
  | closure name code h => exact .closure name code (hscopes h)
  | captured name h => exact .captured name (hscopes h)
  | host name g => exact .host name g

theorem refl (h : ∀ id, scopes id id) (f : Function) : f.Resembles scopes f := by
  obtain ⟨name, _ | _ | _⟩ := f
  · exact .closure name _ (h _)
  · exact .captured name (h _)
  · exact .host name _

end Function.Resembles

/-- The same objects, arrays and functions, whatever frames these captured. -/
structure Heap.Resembles (h h' : Heap) : Prop where
  objects_eq : h'.objects = h.objects
  arrays_eq : h'.arrays = h.arrays
  size_eq : h'.functions.size = h.functions.size
  function_rel (id : FunctionId) :
    Option.Rel (Function.Resembles fun _ _ ↦ True) (h.function? id) (h'.function? id)

namespace Heap.Resembles

variable {h h' : Heap}

theorem refl (h : Heap) : h.Resembles h := by
  refine ⟨rfl, rfl, rfl, fun id ↦ ?_⟩
  cases h.function? id with
  | none => exact .none
  | some f => exact .some (.refl (fun _ ↦ trivial) f)

/-! ### Contents -/

theorem elements_eq (hr : h.Resembles h') (id : ArrayId) : h'.elements id = h.elements id := by
  rw [elements, elements, hr.arrays_eq]

theorem property_eq (hr : h.Resembles h') (id : ObjectId) (key : Text) :
    h'.property id key = h.property id key := by
  rw [property, property, properties, properties, hr.objects_eq]

theorem functionName_eq (hr : h.Resembles h') (f : FunctionRef) :
    h'.functionName f = h.functionName f := by
  cases f with
  | builtin => rfl
  | cell id =>
    have hid := hr.function_rel id
    rw [functionName, functionName]
    generalize h.function? id = g, h'.function? id = g' at hid ⊢
    cases hid with
    | none => rfl
    | some hg => simp [hg.name_eq]

theorem functionForm_eq (hr : h.Resembles h') (f : FunctionRef) :
    h'.functionForm f = h.functionForm f := by
  cases f with
  | builtin => rfl
  | cell id =>
    have hid := hr.function_rel id
    rw [functionForm, functionForm]
    generalize h.function? id = g, h'.function? id = g' at hid ⊢
    cases hid with
    | none => rfl
    | some hg => cases hg <;> rfl

theorem member_eq (hr : h.Resembles h') (v : Value) (key : Text) :
    h'.member v key = h.member v key := by
  cases v with
  | object id => exact hr.property_eq id key
  | array id => simp only [member, arrayMember, hr.elements_eq]
  | function f => simp only [member, hr.functionName_eq]
  | undefined | null | bool | number | text => rfl

/-! ### Texts and numbers -/

theorem shows (hr : h.Resembles h') : h.Shows h' fun _ ↦ True where
  arrays_eq _ := by rw [hr.arrays_eq]
  element _ _ _ := trivial
  functionName_eq _ := hr.functionName_eq _

theorem join_eq (hr : h.Resembles h') (id : ArrayId) (separator : Text) :
    h'.join id separator = h.join id separator :=
  hr.shows.join_eq trivial separator

theorem toText_eq (hr : h.Resembles h') (v : Value) : h'.toText v = h.toText v :=
  hr.shows.toText_eq trivial

theorem toNumber_eq (hr : h.Resembles h') (v : Value) : h'.toNumber v = h.toNumber v :=
  hr.shows.toNumber_eq trivial

theorem primitive_eq (hr : h.Resembles h') (v : Value) : h'.primitive v = h.primitive v :=
  hr.shows.primitive_eq trivial

theorem arithmetic_eq (hr : h.Resembles h') (op : ArithmeticOp) (v w : Value) :
    op.apply h' v w = op.apply h v w := by
  simp only [ArithmeticOp.apply, hr.toText_eq, hr.toNumber_eq]

theorem result?_eq (hr : h.Resembles h') (op : BinaryOp) (v w : Value) :
    op.result? h' v w = op.result? h v w := by
  cases op <;>
    simp only [BinaryOp.result?, hr.arithmetic_eq, OrderOp.apply, looseEquals, hr.toNumber_eq,
      hr.primitive_eq]

theorem relativeIndex_eq (hr : h.Resembles h') (arg : Value) (length fallback : Nat) :
    h'.relativeIndex arg length fallback = h.relativeIndex arg length fallback :=
  hr.shows.relativeIndex_eq trivial length fallback

theorem clampedIndex_eq (hr : h.Resembles h') (arg : Value) (length fallback : Nat) :
    h'.clampedIndex arg length fallback = h.clampedIndex arg length fallback :=
  hr.shows.clampedIndex_eq trivial length fallback

/-! ### Documents and snapshots -/

theorem documentWithin_eq (hr : h.Resembles h') (arrays objects : List Nat) (v : Value) :
    h'.documentWithin arrays objects v = h.documentWithin arrays objects v := by
  induction arrays, objects, v using documentWithin.induct (h := h) with
  | case1 | case2 | case3 | case4 | case5 | case6 | case7 | case8 => simp [documentWithin]
  | case9 arrays objects id hin | case12 arrays objects id hin => simp [documentWithin, hin]
  | case10 arrays objects id hin hnone =>
    have hnone' := hnone
    rw [← hr.arrays_eq] at hnone'
    rw [documentWithin, documentWithin]
    simp only [hin, ↓reduceDIte]
    split <;> split <;> simp_all
  | case11 arrays objects id hin elements hsome ih =>
    have hsome' := hsome
    rw [← hr.arrays_eq] at hsome'
    rw [documentWithin, documentWithin]
    simp only [hin, ↓reduceDIte]
    split <;> split <;> simp_all
  | case13 arrays objects id hin hnone =>
    have hnone' := hnone
    rw [← hr.objects_eq] at hnone'
    rw [documentWithin, documentWithin]
    simp only [hin, ↓reduceDIte]
    split <;> split <;> simp_all
  | case14 arrays objects id hin properties hsome ih =>
    have hsome' := hsome
    rw [← hr.objects_eq] at hsome'
    rw [documentWithin, documentWithin]
    simp only [hin, ↓reduceDIte]
    split <;> split <;> simp_all

theorem jsonText_eq (hr : h.Resembles h') (v : Value) : h'.jsonText v = h.jsonText v := by
  rw [jsonText, jsonText, document, document, hr.documentWithin_eq]

theorem walk_eq (hr : h.Resembles h') (depth : Nat) : h'.walk depth = h.walk depth := by
  induction depth with
  | zero => rfl
  | succ depth ih =>
    funext v
    simp only [walk, ih, hr.elements_eq, properties, hr.objects_eq, hr.functionName_eq,
      hr.functionForm_eq]

theorem snapshots_eq (hr : h.Resembles h') (vs : List Value) :
    h'.snapshots vs = h.snapshots vs := by
  rw [snapshots, snapshots, hr.walk_eq, hr.arrays_eq, hr.objects_eq]

/-! ### Errors -/

theorem thrown_eq (hr : h.Resembles h') (v : Value) (calls : CallTrace) (origin : Span) :
    h'.thrown v calls origin = h.thrown v calls origin := by
  have hparts : h'.errorParts? v = h.errorParts? v := by
    cases v <;> simp only [errorParts?, hr.property_eq]
  have htext : h'.thrownText v = h.thrownText v := by
    cases v <;> simp only [thrownText, hr.jsonText_eq, hr.toText_eq]
  rw [thrown, thrown, uncaughtMessage, uncaughtMessage, hparts, htext]

/-! ### Changes -/

theorem newObject (hr : h.Resembles h') (ps : Properties) :
    (h.newObject ps).2.Resembles (h'.newObject ps).2 :=
  { hr with objects_eq := congrArg (Store.push · ps) hr.objects_eq }

end Heap.Resembles

end EcmaTree
