import EcmaTree.Evaluation.ArrayMethods
import EcmaTree.Evaluation.Operators
import Mathlib.Data.List.Basic
import Mathlib.Logic.Relation

/-!
# The texts of arrays

The rules by which an array becomes a text. One set of rules has a parameter for where the recursion
is cut: it is cut inside the same array for the rendering, and nowhere for the plain recursion. The
first gives every array of every heap one text; the second gives a text exactly to the arrays from
which no cycle is reached, and it is the same one.
-/

namespace EcmaTree

open Relation

variable {h : Heap} {cut : List ArrayId → ArrayId → Prop} {path : List ArrayId}
  {separator t t' : Text} {v : Value} {a b id : ArrayId}

namespace Heap

/-! ## The rules -/

/-- The text of a value between others. The path holds the arrays that are being rendered further
up, the innermost first, and the separator goes between the elements of an array. -/
inductive Renders (h : Heap) (cut : List ArrayId → ArrayId → Prop) :
    List ArrayId → Text → Value → Text → Prop where
  | nullish {path : List ArrayId} {separator : Text} {v : Value} (hv : v.isNullish = true) :
      Renders h cut path separator v .empty
  | cut {path : List ArrayId} {separator : Text} {id : ArrayId} (hcut : cut path id) :
      Renders h cut path separator (.array id) .empty
  | array {path : List ArrayId} {separator : Text} {id : ArrayId} {texts : List Text}
      (hcut : ¬ cut path id) (hlength : texts.length = (h.elements id).size)
      (htexts : ∀ (i : Nat) (v : Value) (t : Text), (h.elements id)[i]? = some v →
        texts[i]? = some t → Renders h cut (id :: path) "," v t) :
      Renders h cut path separator (.array id) (.join separator texts)
  | plain {path : List ArrayId} {separator : Text} {v : Value} (hv : v.isNullish = false)
      (harray : ∀ id, v ≠ .array id) : Renders h cut path separator v (h.toText v)

/-- The first array has the second as an element. -/
def Nests (h : Heap) (a b : ArrayId) : Prop := .array b ∈ h.elements a

/-- No cycle is reached from an array. -/
def Acyclic (h : Heap) (a : ArrayId) : Prop :=
  ∀ b, ReflTransGen h.Nests a b → ¬ TransGen h.Nests b b

/-- A cycle that is reached from an array is reached from an element of it. -/
theorem Acyclic.of_nested (hnested : ∀ b, h.Nests a b → h.Acyclic b) : h.Acyclic a := by
  intro b hab hcycle
  rcases hab.cases_head with rfl | ⟨c, hac, hcb⟩
  · obtain ⟨c, hac, hca⟩ := TransGen.head'_iff.mp hcycle
    exact hnested c hac a hca hcycle
  · exact hnested c hac b hcb hcycle

theorem Acyclic.nested (ha : h.Acyclic a) (hab : h.Nests a b) : h.Acyclic b :=
  fun c hbc ↦ ha c (.head hab hbc)

namespace Renders

/-- A value has one text, wherever the recursion is cut. -/
theorem unique (ht : Renders h cut path separator v t) (ht' : Renders h cut path separator v t') :
    t = t' := by
  induction ht generalizing t' with
  | nullish hv =>
    cases ht' with
    | nullish => rfl
    | cut | array => cases hv
    | plain hv' => simp [hv] at hv'
  | cut hcut =>
    cases ht' with
    | nullish | cut => rfl
    | array hcut' => exact absurd hcut hcut'
    | plain _ harray => exact absurd rfl (harray _)
  | @array path separator id texts hcut hlength _ ih =>
    cases ht' with
    | nullish hv => cases hv
    | cut hcut' => exact absurd hcut' hcut
    | @array _ _ _ texts' _ hlength' htexts' =>
      have hsame : texts = texts' := by
        apply List.ext_getElem (hlength.trans hlength'.symm)
        intro i hi hi'
        have hsize : i < (h.elements id).size := hlength ▸ hi
        have hv := Array.getElem?_eq_getElem hsize
        have hvt' := htexts' i _ _ hv (List.getElem?_eq_getElem hi')
        exact ih i _ _ hv (List.getElem?_eq_getElem hi) hvt'
      rw [hsame]
    | plain _ harray => exact absurd rfl (harray _)
  | plain hv harray =>
    cases ht' with
    | nullish hv' => simp [hv] at hv'
    | cut | array => exact absurd rfl (harray _)
    | plain => rfl

/-- Without a cut, the recursion ends only where there is no cycle. -/
theorem acyclic (ht : Renders h (fun _ _ ↦ False) path separator (.array a) t) : h.Acyclic a := by
  generalize hv : Value.array a = v at ht
  induction ht generalizing a with
  | nullish hnullish =>
    subst hv
    cases hnullish
  | cut hcut => exact hcut.elim
  | @array _ _ id texts _ hlength _ ih =>
    cases hv
    refine .of_nested fun b hab ↦ ?_
    obtain ⟨i, hi⟩ := Array.mem_iff_getElem?.mp hab
    obtain ⟨hi', -⟩ := Array.getElem?_eq_some_iff.mp hi
    exact ih i _ _ hi (List.getElem?_eq_getElem (hlength ▸ hi')) rfl
  | plain _ harray => exact absurd hv.symm (harray a)

/-- Where there is no cycle, no array is met again inside itself, and no cut is needed. -/
theorem uncut (ht : Renders h (fun path id ↦ id ∈ path) path separator v t)
    (hacyclic : ∀ a, v = .array a → h.Acyclic a)
    (hpath : ∀ p ∈ path, ∀ a, v = .array a → TransGen h.Nests p a) :
    Renders h (fun _ _ ↦ False) path separator v t := by
  induction ht with
  | nullish hv => exact .nullish hv
  | @cut path separator id hcut =>
    exact absurd (hpath id hcut id rfl) (hacyclic id rfl id .refl)
  | @array path separator id texts _ hlength _ ih =>
    refine .array not_false hlength fun i v t hv ht ↦ ih i v t hv ht ?_ ?_
    · rintro a rfl
      exact (hacyclic id rfl).nested (Array.mem_of_getElem? hv)
    · rintro p hp a rfl
      have hnests : h.Nests id a := Array.mem_of_getElem? hv
      rcases List.mem_cons.mp hp with rfl | hp
      · exact .single hnests
      · exact .tail (hpath p hp id rfl) hnests
  | plain hv harray => exact .plain hv harray

end Renders

/-! ## Arrays are rendered by the rules -/

/-- The active indices are those of the path at every depth, so the cut is where the rules have
it. -/
theorem renders_joinActive (h : Heap) (path : List ArrayId) (id : ArrayId) (separator : Text) :
    Renders h (fun path id ↦ id ∈ path) path separator (.array id)
      (h.joinActive (path.map ArrayId.index) id separator) := by
  generalize hactive : path.map ArrayId.index = active
  have hinjective : Function.Injective ArrayId.index := by
    rintro ⟨i⟩ ⟨j⟩ h
    exact congrArg ArrayId.mk h
  have hmem {path : List ArrayId} {id : ArrayId} :
      id.index ∈ path.map ArrayId.index ↔ id ∈ path := List.mem_map_of_injective hinjective
  fun_induction joinActive h active id separator generalizing path with
  | case1 active id separator hin =>
    exact .cut (hmem.mp (hactive ▸ hin))
  | case2 active id separator hout hnone =>
    have hempty : h.elements id = #[] := by rw [elements, hnone]; rfl
    have hlength : ([] : List Text).length = (h.elements id).size := by rw [hempty]; rfl
    exact .array (fun hin ↦ hout (hactive ▸ hmem.mpr hin)) hlength (by simp [hempty])
  | case3 active id separator hout elements hsome ih =>
    have helements : h.elements id = elements := by rw [Heap.elements, hsome]; rfl
    refine .array (fun hin ↦ hout (hactive ▸ hmem.mpr hin)) (by simp [helements]) ?_
    intro i v t hv ht
    rw [helements] at hv
    simp only [List.getElem?_map, Array.getElem?_toList, hv, Option.map_some,
      Option.some.injEq] at ht
    subst ht
    cases v with
    | undefined | null => exact .nullish rfl
    | array inner => exact ih inner (id :: path) (by rw [List.map_cons, hactive])
    | bool | number | text | object | function => exact .plain rfl (by simp)

/-- An array has the text of its join and no other. -/
theorem renders_iff :
    Renders h (fun path id ↦ id ∈ path) [] separator (.array a) t ↔ t = h.join a separator := by
  have hjoin := renders_joinActive h [] a separator
  exact ⟨fun ht ↦ ht.unique hjoin, fun ht ↦ ht ▸ hjoin⟩

/-- An array that is shared is rendered each time, and one inside itself is not. -/
example :
    let (a, h) := Heap.empty.newArray #[.text "x", .null]
    let (b, h) := h.newArray #[.array a, .array a, .array ⟨1⟩]
    h.join b ";" = "x,;x,;" := by
  cbv

/-- The plain recursion gives an array a text exactly when it reaches no cycle, and then the text of
its join. -/
theorem renders_uncut_iff :
    Renders h (fun _ _ ↦ False) [] separator (.array a) t ↔
      h.Acyclic a ∧ t = h.join a separator := by
  have hjoin (ha : h.Acyclic a) :
      Renders h (fun _ _ ↦ False) [] separator (.array a) (h.join a separator) := by
    refine (renders_joinActive h [] a separator).uncut ?_ (List.forall_mem_nil _)
    rintro _ ⟨⟩
    exact ha
  constructor
  · intro ht
    exact ⟨ht.acyclic, ht.unique (hjoin ht.acyclic)⟩
  · rintro ⟨ha, rfl⟩
    exact hjoin ha

/-! ## What makes use of the text -/

/-- An array is loosely equal to what its text is equal to, unless it is compared with a reference:
then only to itself. -/
theorem looseEquals_array (h : Heap) (a : ArrayId) (v : Value) :
    h.looseEquals (.array a) v =
        (if v.isReference then (Value.array a).strictEquals v
        else h.looseEquals (.text (h.toText (.array a))) v) ∧
      h.looseEquals v (.array a) =
        if v.isReference then v.strictEquals (.array a)
        else h.looseEquals v (.text (h.toText (.array a))) := by
  cases v <;> exact ⟨rfl, rfl⟩

/-- A sum with an array is the concatenation of the texts. -/
theorem add_array (h : Heap) (a : ArrayId) (v : Value) :
    BinaryOp.add.result? h (.array a) v = some (.text (h.toText (.array a) ++ h.toText v)) ∧
      BinaryOp.add.result? h v (.array a) = some (.text (h.toText v ++ h.toText (.array a))) := by
  cases v <;> exact ⟨rfl, rfl⟩

/-- Every array of every heap has a text by the rules in which the recursion is cut at the arrays
further up, and exactly one; the plain recursion agrees with it wherever that ends, which is for the
arrays that reach no cycle. The method gives that text, with a comma the one that stands for the
array in conversions, comparisons and sums. -/
theorem join_renders (r : Evaluator) (s : State) (a : ArrayId) (separator : Text) :
    (∀ t, Renders s.heap (fun path id ↦ id ∈ path) [] separator (.array a) t ↔
        t = s.heap.join a separator) ∧
      (∀ t, Renders s.heap (fun _ _ ↦ False) [] separator (.array a) t ↔
        s.heap.Acyclic a ∧ t = s.heap.join a separator) ∧
      ArrayMethod.run r .join (.array a) [.text separator] s =
        .done (.text (s.heap.join a separator)) s ∧
      ArrayMethod.run r .join (.array a) [.text ","] s =
        .done (.text (s.heap.toText (.array a))) s ∧
      s.heap.toNumber (.array a) = .ofText (s.heap.toText (.array a)) ∧
      ∀ v,
        (s.heap.looseEquals (.array a) v =
            (if v.isReference then (Value.array a).strictEquals v
            else s.heap.looseEquals (.text (s.heap.toText (.array a))) v) ∧
          s.heap.looseEquals v (.array a) =
            if v.isReference then v.strictEquals (.array a)
            else s.heap.looseEquals v (.text (s.heap.toText (.array a)))) ∧
        BinaryOp.add.result? s.heap (.array a) v =
          some (.text (s.heap.toText (.array a) ++ s.heap.toText v)) ∧
        BinaryOp.add.result? s.heap v (.array a) =
          some (.text (s.heap.toText v ++ s.heap.toText (.array a))) :=
  ⟨fun _ ↦ renders_iff, fun _ ↦ renders_uncut_iff, rfl, rfl, rfl,
    fun v ↦ ⟨s.heap.looseEquals_array a v, s.heap.add_array a v⟩⟩

end Heap

end EcmaTree
