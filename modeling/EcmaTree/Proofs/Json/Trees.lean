import EcmaTree.Heap.JsonTree
import EcmaTree.Heap.Reference
import EcmaTree.Proofs.Json.RoundTrip
import EcmaTree.Proofs.OrderedMap

/-!
# The trees of values

Which tree a value stands for, as a relation by rules: one rule for each kind of value, and one for
an array or an object that is open already. Values have exactly one tree, their document, whatever
graph the heap is.
-/

namespace EcmaTree.Heap

mutual

/-- The tree of a value that stands inside the arrays and objects of a path. -/
inductive Tree (h : Heap) : (path : List HeapRef) → Value → Json → Prop where
  | undefined {path : List HeapRef} : Tree h path .undefined .null
  | null {path : List HeapRef} : Tree h path .null .null
  | function {path : List HeapRef} (ref : FunctionRef) : Tree h path (.function ref) .null
  | bool {path : List HeapRef} (b : Bool) : Tree h path (.bool b) (.bool b)
  | text {path : List HeapRef} (t : Text) : Tree h path (.text t) (.text t)
  /-- The sign of a zero is lost. -/
  | zero {path : List HeapRef} (negative : Bool) :
      Tree h path (.number (.zero negative)) (.number (.zero false))
  | number {path : List HeapRef} {n : Number} (hfinite : n.isFinite = true)
      (hzero : n.isZero = false) : Tree h path (.number n) (.number n)
  | nonfinite {path : List HeapRef} {n : Number} (hfinite : n.isFinite = false) :
      Tree h path (.number n) .null
  | openArray {path : List HeapRef} {id : ArrayId} (hid : .array id ∈ path) :
      Tree h path (.array id) .null
  | array {path : List HeapRef} {id : ArrayId} {items : List Json} (hid : .array id ∉ path)
      (hitems : Items h (.array id :: path) (h.elements id).toList items) :
      Tree h path (.array id) (.array items)
  | openObject {path : List HeapRef} {id : ObjectId} (hid : .object id ∈ path) :
      Tree h path (.object id) .null
  | object {path : List HeapRef} {id : ObjectId} {members : List (Text × Json)}
      (hid : .object id ∉ path)
      (hmembers : Members h (.object id :: path) (h.properties id).toList members) :
      Tree h path (.object id) (.object members)

/-- The trees of the elements of an array, one for each. -/
inductive Items (h : Heap) : (path : List HeapRef) → List Value → List Json → Prop where
  | nil {path : List HeapRef} : Items h path [] []
  | cons {path : List HeapRef} {v : Value} {vs : List Value} {item : Json} {items : List Json}
      (hitem : Tree h path v item) (hitems : Items h path vs items) :
      Items h path (v :: vs) (item :: items)

/-- The trees of the properties of an object in their order. Undefined and functions are passed
over. -/
inductive Members (h : Heap) :
    (path : List HeapRef) → List (Text × Value) → List (Text × Json) → Prop where
  | nil {path : List HeapRef} : Members h path [] []
  | omitted {path : List HeapRef} {key : Text} {v : Value} {ps : List (Text × Value)}
      {members : List (Text × Json)} (hv : v = .undefined ∨ ∃ ref, v = .function ref)
      (hmembers : Members h path ps members) : Members h path ((key, v) :: ps) members
  | kept {path : List HeapRef} {key : Text} {v : Value} {item : Json} {ps : List (Text × Value)}
      {members : List (Text × Json)} (hv : ¬ (v = .undefined ∨ ∃ ref, v = .function ref))
      (hitem : Tree h path v item) (hmembers : Members h path ps members) :
      Members h path ((key, v) :: ps) ((key, item) :: members)

end

variable {h : Heap} {path : List HeapRef}

/-! ## The one tree of a value -/

theorem isOmitted_iff {v : Value} :
    isOmitted v = true ↔ v = .undefined ∨ ∃ ref, v = .function ref := by
  cases v <;> simp [isOmitted]

/-- If all elements have one tree, their array has one. -/
theorem items_iff {vs : List Value} {f : Value → Json}
    (hf : ∀ v ∈ vs, ∀ j, h.Tree path v j ↔ j = f v)
    (items : List Json) : h.Items path vs items ↔ items = vs.map f := by
  induction vs generalizing items with
  | nil => exact ⟨fun hitems ↦ by cases hitems; rfl, fun hitems ↦ hitems ▸ .nil⟩
  | cons v vs ih =>
    have hv := hf v List.mem_cons_self
    have hvs := ih fun w hw ↦ hf w (List.mem_cons_of_mem v hw)
    constructor
    · intro hitems
      cases hitems with
      | cons hitem hitems => rw [(hv _).mp hitem, (hvs _).mp hitems, List.map_cons]
    · rintro rfl
      exact .cons ((hv _).mpr rfl) ((hvs _).mpr rfl)

/-- If all properties have one tree, their object has one. -/
theorem members_iff {ps : List (Text × Value)} {f : Value → Json}
    (hf : ∀ p ∈ ps, ∀ j, h.Tree path p.2 j ↔ j = f p.2) (members : List (Text × Json)) :
    h.Members path ps members ↔
      members = (ps.filter fun p ↦ !isOmitted p.2).map fun p ↦ (p.1, f p.2) := by
  induction ps generalizing members with
  | nil => exact ⟨fun hmembers ↦ by cases hmembers; rfl, fun hmembers ↦ hmembers ▸ .nil⟩
  | cons p ps ih =>
    obtain ⟨key, v⟩ := p
    have hv := hf (key, v) List.mem_cons_self
    have hps := ih fun p hp ↦ hf p (List.mem_cons_of_mem _ hp)
    by_cases homitted : isOmitted v = true
    · have hv := isOmitted_iff.mp homitted
      rw [List.filter_cons_of_neg (by simp [homitted]), ← hps]
      constructor
      · intro hmembers
        cases hmembers with
        | omitted _ hmembers => exact hmembers
        | kept hkept => exact absurd hv hkept
      · exact .omitted hv
    · have hkept := isOmitted_iff.not.mp homitted
      rw [List.filter_cons_of_pos (by simp [homitted]), List.map_cons]
      constructor
      · intro hmembers
        cases hmembers with
        | omitted homitted _ => exact absurd homitted hkept
        | kept _ hitem hmembers => rw [(hv _).mp hitem, (hps _).mp hmembers]
      · rintro rfl
        exact .kept hkept ((hv _).mpr rfl) ((hps _).mpr rfl)

variable {arrays objects : List Nat}

/-- An array that is not open has the trees of its elements. -/
theorem tree_array_iff {id : ArrayId} (hid : .array id ∉ path) {f : Value → Json}
    (hf : ∀ v ∈ (h.elements id).toList, ∀ j, h.Tree (.array id :: path) v j ↔ j = f v) (j : Json) :
    h.Tree path (.array id) j ↔ j = .array ((h.elements id).toList.map f) := by
  constructor
  · intro htree
    cases htree with
    | openArray hopen => exact absurd hopen hid
    | array _ hitems => rw [(items_iff hf _).mp hitems]
  · rintro rfl
    exact .array hid ((items_iff hf _).mpr rfl)

/-- An object that is not open has the trees of its properties. -/
theorem tree_object_iff {id : ObjectId} (hid : .object id ∉ path) {f : Value → Json}
    (hf : ∀ p ∈ (h.properties id).toList, ∀ j, h.Tree (.object id :: path) p.2 j ↔ j = f p.2)
    (j : Json) :
    h.Tree path (.object id) j ↔ j = .object
      (((h.properties id).toList.filter fun p ↦ !isOmitted p.2).map fun p ↦ (p.1, f p.2)) := by
  constructor
  · intro htree
    cases htree with
    | openObject hopen => exact absurd hopen hid
    | object _ hmembers => rw [(members_iff hf _).mp hmembers]
  · rintro rfl
    exact .object hid ((members_iff hf _).mpr rfl)

/-- The open arrays and objects of a path, by their kind. -/
structure Opens (path : List HeapRef) (arrays objects : List Nat) : Prop where
  array_iff : ∀ id : ArrayId, .array id ∈ path ↔ id.index ∈ arrays
  object_iff : ∀ id : ObjectId, .object id ∈ path ↔ id.index ∈ objects

theorem Opens.cons_array (ho : Opens path arrays objects) (id : ArrayId) :
    Opens (.array id :: path) (id.index :: arrays) objects where
  array_iff other := by
    rw [List.mem_cons, List.mem_cons, ho.array_iff, HeapRef.array.injEq, ArrayId.mk.injEq]
  object_iff other := by
    rw [List.mem_cons, ho.object_iff]
    exact or_iff_right nofun

theorem Opens.cons_object (ho : Opens path arrays objects) (id : ObjectId) :
    Opens (.object id :: path) arrays (id.index :: objects) where
  array_iff other := by
    rw [List.mem_cons, ho.array_iff]
    exact or_iff_right nofun
  object_iff other := by
    rw [List.mem_cons, List.mem_cons, ho.object_iff, HeapRef.object.injEq, ObjectId.mk.injEq]

theorem documentWithin_array {id : ArrayId} (hclosed : id.index ∉ arrays) :
    h.documentWithin arrays objects (.array id) =
      .array ((h.elements id).toList.map (h.documentWithin (id.index :: arrays) objects)) := by
  rw [documentWithin, dif_neg hclosed, elements]
  split
  · next hcell => rw [hcell]; rfl
  · next hcell => rw [hcell]; rfl

theorem documentWithin_object {id : ObjectId} (hclosed : id.index ∉ objects) :
    h.documentWithin arrays objects (.object id) =
      .object (((h.properties id).toList.filter fun p ↦ !isOmitted p.2).map fun p ↦
        (p.1, h.documentWithin arrays (id.index :: objects) p.2)) := by
  rw [documentWithin, dif_neg hclosed, properties]
  split
  · next hcell => rw [hcell]; rfl
  · next hcell => rw [hcell]; rfl

theorem exists_eq_zero {n : Number} (hzero : n.isZero = true) : ∃ negative, n = .zero negative := by
  cases n with
  | nan => exact nomatch hzero
  | infinity _ => exact nomatch hzero
  | finite negative rank hrank =>
    obtain rfl : rank = 0 := beq_iff_eq.mp hzero
    exact ⟨negative, rfl⟩

/-- A value has one tree, its document. -/
theorem tree_iff {v : Value} (ho : Opens path arrays objects) (j : Json) :
    h.Tree path v j ↔ j = h.documentWithin arrays objects v := by
  induction arrays, objects, v using documentWithin.induct (h := h) generalizing path j with
  | case1 | case2 | case3 | case4 | case8 =>
    rw [documentWithin]
    exact ⟨fun htree ↦ by cases htree; rfl, fun hj ↦ hj ▸ by constructor⟩
  | case5 arrays objects n hzero =>
    rw [documentWithin, if_pos hzero]
    constructor
    · intro htree
      cases htree with
      | zero => rfl
      | number _ hnonzero => exact absurd hzero (Bool.eq_false_iff.mp hnonzero)
      | nonfinite hfinite =>
        obtain ⟨_, rfl⟩ := exists_eq_zero hzero
        exact nomatch hfinite
    · rintro rfl
      obtain ⟨negative, rfl⟩ := exists_eq_zero hzero
      exact .zero negative
  | case6 arrays objects n hzero hfinite =>
    rw [documentWithin, if_neg hzero, if_pos hfinite]
    constructor
    · intro htree
      cases htree with
      | zero => exact absurd rfl hzero
      | number => rfl
      | nonfinite hnonfinite => exact absurd hfinite (Bool.eq_false_iff.mp hnonfinite)
    · rintro rfl
      exact .number hfinite (Bool.eq_false_iff.mpr hzero)
  | case7 arrays objects n hzero hfinite =>
    rw [documentWithin, if_neg hzero, if_neg hfinite]
    constructor
    · intro htree
      cases htree with
      | zero => exact absurd rfl hzero
      | number h => exact absurd h hfinite
      | nonfinite => rfl
    · rintro rfl
      exact .nonfinite (Bool.eq_false_iff.mpr hfinite)
  | case9 arrays objects id hopen =>
    rw [documentWithin, dif_pos hopen]
    have hopen := (ho.array_iff id).mpr hopen
    refine ⟨fun htree ↦ ?_, fun hj ↦ hj ▸ .openArray hopen⟩
    cases htree with
    | openArray => rfl
    | array hid => exact absurd hopen hid
  | case10 arrays objects id hclosed hcell =>
    rw [documentWithin_array hclosed]
    refine tree_array_iff (fun h ↦ hclosed ((ho.array_iff id).mp h)) (fun v hv ↦ ?_) j
    rw [elements, hcell] at hv
    exact nomatch hv
  | case11 arrays objects id hclosed elements hcell ih =>
    rw [documentWithin_array hclosed]
    exact tree_array_iff (fun h ↦ hclosed ((ho.array_iff id).mp h))
      (fun v _ ↦ ih v (ho.cons_array id)) j
  | case12 arrays objects id hopen =>
    rw [documentWithin, dif_pos hopen]
    have hopen := (ho.object_iff id).mpr hopen
    refine ⟨fun htree ↦ ?_, fun hj ↦ hj ▸ .openObject hopen⟩
    cases htree with
    | openObject => rfl
    | object hid => exact absurd hopen hid
  | case13 arrays objects id hclosed hcell =>
    rw [documentWithin_object hclosed]
    refine tree_object_iff (fun h ↦ hclosed ((ho.object_iff id).mp h)) (fun p hp ↦ ?_) j
    rw [properties, hcell] at hp
    exact nomatch hp
  | case14 arrays objects id hclosed properties hcell ih =>
    rw [documentWithin_object hclosed]
    exact tree_object_iff (fun h ↦ hclosed ((ho.object_iff id).mp h))
      (fun p _ ↦ ih p (ho.cons_object id)) j

/-- The tree of a value by itself is its document. -/
theorem tree_nil_iff {v : Value} (j : Json) : h.Tree [] v j ↔ j = h.document v :=
  tree_iff ⟨fun _ ↦ iff_of_false List.not_mem_nil List.not_mem_nil,
    fun _ ↦ iff_of_false List.not_mem_nil List.not_mem_nil⟩ j

/-! ## Trees are in normal form -/

theorem isNegativeZero_eq_false {n : Number} (hzero : n.isZero = false) :
    n.isNegativeZero = false := by
  cases n with
  | nan => rfl
  | infinity _ => rfl
  | finite negative rank hrank =>
    cases negative with
    | false => rfl
    | true => exact hzero

/-- The keys of the members are keys of the properties, in the same order. -/
theorem Members.keys_sublist {ps : List (Text × Value)} {members : List (Text × Json)}
    (hmembers : h.Members path ps members) :
    (members.map Prod.fst).Sublist (ps.map Prod.fst) := by
  induction ps generalizing members with
  | nil =>
    cases hmembers
    exact List.Sublist.slnil
  | cons p ps ih =>
    cases hmembers with
    | omitted _ hmembers => exact (ih hmembers).cons _
    | kept _ _ hmembers => exact (ih hmembers).cons_cons _

mutual

theorem Tree.isNormal {path : List HeapRef} {v : Value} {j : Json} :
    h.Tree path v j → j.IsNormal
  | .undefined | .null | .function _ | .bool _ | .text _ | .nonfinite _ | .openArray _
  | .openObject _ => trivial
  | .zero _ => ⟨rfl, rfl⟩
  | .number hfinite hzero => ⟨hfinite, isNegativeZero_eq_false hzero⟩
  | .array _ hitems => hitems.areNormal
  | @Tree.object _ _ id _ _ hmembers =>
    ⟨hmembers.keys_sublist.nodup (h.properties id).nodup_keys, hmembers.membersNormal⟩

theorem Items.areNormal {path : List HeapRef} {vs : List Value} {items : List Json} :
    h.Items path vs items → Json.AreNormal items
  | .nil => trivial
  | .cons hitem hitems => ⟨hitem.isNormal, hitems.areNormal⟩

theorem Members.membersNormal {path : List HeapRef} {ps : List (Text × Value)}
    {members : List (Text × Json)} : h.Members path ps members → Json.MembersNormal members
  | .nil => trivial
  | .omitted _ hmembers => hmembers.membersNormal
  | .kept _ hitem hmembers => ⟨hitem.isNormal, hmembers.membersNormal⟩

end

end EcmaTree.Heap
