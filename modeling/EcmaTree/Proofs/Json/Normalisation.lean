import EcmaTree.Proofs.Json.Trees

/-!
# Writing values and reading them back

A document that is read builds a value of new arrays and objects, each part before the whole it is
in. Such a value has the document as its tree, so that writing a value, reading the text and writing
again gives the same text.
-/

namespace EcmaTree.Heap

/-! ## Values that documents build -/

mutual

/-- A value is what a document says, without anything left out. -/
inductive Builds (h : Heap) : Value → Json → Prop where
  | null : Builds h .null .null
  | bool (b : Bool) : Builds h (.bool b) (.bool b)
  | number (n : Number) : Builds h (.number n) (.number n)
  | text (t : Text) : Builds h (.text t) (.text t)
  | array {id : ArrayId} {es : Array Value} {items : List Json}
      (hcell : h.arrays.get? id.index = some es) (hitems : BuildsItems h es.toList items) :
      Builds h (.array id) (.array items)
  | object {id : ObjectId} {ps : Properties} {members : List (Text × Json)}
      (hcell : h.objects.get? id.index = some ps) (hmembers : BuildsMembers h ps.toList members) :
      Builds h (.object id) (.object members)

/-- The elements of an array are the items, one for one. -/
inductive BuildsItems (h : Heap) : List Value → List Json → Prop where
  | nil : BuildsItems h [] []
  | cons {v : Value} {vs : List Value} {item : Json} {items : List Json} (hitem : Builds h v item)
      (hitems : BuildsItems h vs items) : BuildsItems h (v :: vs) (item :: items)

/-- The properties of an object are the members, one for one and under the same keys. -/
inductive BuildsMembers (h : Heap) : List (Text × Value) → List (Text × Json) → Prop where
  | nil : BuildsMembers h [] []
  | cons {key : Text} {v : Value} {ps : List (Text × Value)} {item : Json}
      {members : List (Text × Json)} (hitem : Builds h v item)
      (hmembers : BuildsMembers h ps members) :
      BuildsMembers h ((key, v) :: ps) ((key, item) :: members)

end

variable {h h' : Heap}

mutual

/-- A value is built by one document only. -/
theorem Builds.unique {v : Value} {j j' : Json} : h.Builds v j → h.Builds v j' → j = j'
  | .null, .null | .bool _, .bool _ | .number _, .number _ | .text _, .text _ => rfl
  | .array hcell hitems, .array hcell' hitems' => by
    obtain rfl := Option.some.inj (hcell.symm.trans hcell')
    rw [hitems.unique hitems']
  | .object hcell hmembers, .object hcell' hmembers' => by
    obtain rfl := Option.some.inj (hcell.symm.trans hcell')
    rw [hmembers.unique hmembers']

theorem BuildsItems.unique {vs : List Value} {items items' : List Json} :
    h.BuildsItems vs items → h.BuildsItems vs items' → items = items'
  | .nil, .nil => rfl
  | .cons hitem hitems, .cons hitem' hitems' => by
    rw [hitem.unique hitem', hitems.unique hitems']

theorem BuildsMembers.unique {ps : List (Text × Value)} {members members' : List (Text × Json)} :
    h.BuildsMembers ps members → h.BuildsMembers ps members' → members = members'
  | .nil, .nil => rfl
  | .cons hitem hmembers, .cons hitem' hmembers' => by
    rw [hitem.unique hitem', hmembers.unique hmembers']

end

/-- The arrays and objects of a heap are in the other one, too. -/
structure Extends (h h' : Heap) : Prop where
  array {i : Nat} {es : Array Value} : h.arrays.get? i = some es → h'.arrays.get? i = some es
  object {i : Nat} {ps : Properties} : h.objects.get? i = some ps → h'.objects.get? i = some ps

theorem Extends.refl (h : Heap) : h.Extends h := ⟨id, id⟩

theorem Extends.trans {h'' : Heap} (hh : h.Extends h') (hh' : h'.Extends h'') : h.Extends h'' :=
  ⟨hh'.array ∘ hh.array, hh'.object ∘ hh.object⟩

theorem extends_newArray (h : Heap) (es : Array Value) : h.Extends (h.newArray es).2 where
  array hcell := by
    rw [newArray, Store.get?_push, if_neg (Store.lt_size_of_get?_eq_some hcell).ne, hcell]
  object := id

theorem extends_newObject (h : Heap) (ps : Properties) : h.Extends (h.newObject ps).2 where
  array := id
  object hcell := by
    rw [newObject, Store.get?_push, if_neg (Store.lt_size_of_get?_eq_some hcell).ne, hcell]

theorem get?_newArray (h : Heap) (es : Array Value) :
    (h.newArray es).2.arrays.get? (h.newArray es).1.index = some es := by
  rw [newArray, Store.get?_push, if_pos rfl]

theorem get?_newObject (h : Heap) (ps : Properties) :
    (h.newObject ps).2.objects.get? (h.newObject ps).1.index = some ps := by
  rw [newObject, Store.get?_push, if_pos rfl]

mutual

theorem Builds.mono (hh : h.Extends h') {v : Value} {j : Json} : h.Builds v j → h'.Builds v j
  | .null => .null
  | .bool b => .bool b
  | .number n => .number n
  | .text t => .text t
  | .array hcell hitems => .array (hh.array hcell) (hitems.mono hh)
  | .object hcell hmembers => .object (hh.object hcell) (hmembers.mono hh)

theorem BuildsItems.mono (hh : h.Extends h') {vs : List Value} {items : List Json} :
    h.BuildsItems vs items → h'.BuildsItems vs items
  | .nil => .nil
  | .cons hitem hitems => .cons (hitem.mono hh) (hitems.mono hh)

theorem BuildsMembers.mono (hh : h.Extends h') {ps : List (Text × Value)}
    {members : List (Text × Json)} : h.BuildsMembers ps members → h'.BuildsMembers ps members
  | .nil => .nil
  | .cons hitem hmembers => .cons (hitem.mono hh) (hmembers.mono hh)

end

/-! ## Building -/

mutual

/-- The value of a document is built by it, and what was there stays. -/
theorem builds_ofDocument : ∀ (h : Heap) (j : Json), j.IsNormal →
    h.Extends (h.ofDocument j).2 ∧ (h.ofDocument j).2.Builds (h.ofDocument j).1 j
  | h, .null, _ => ⟨.refl h, .null⟩
  | h, .bool b, _ => ⟨.refl h, .bool b⟩
  | h, .number n, _ => ⟨.refl h, .number n⟩
  | h, .text t, _ => ⟨.refl h, .text t⟩
  | h, .array items, hj => by
    obtain ⟨hextends, vs, hvs, hitems⟩ := builds_ofItems h items #[] hj
    rw [List.nil_append] at hvs
    have hnew := extends_newArray (h.ofItems items #[]).2 (h.ofItems items #[]).1
    exact ⟨hextends.trans hnew, .array (get?_newArray _ _) (hvs ▸ hitems.mono hnew)⟩
  | h, .object members, hj => by
    obtain ⟨hextends, qs, hqs, hmembers⟩ :=
      builds_ofMembers h members .empty hj.2 hj.1
    have hnew := extends_newObject (h.ofMembers members .empty).2 (h.ofMembers members .empty).1
    exact ⟨hextends.trans hnew, .object (get?_newObject _ _) (hqs ▸ hmembers.mono hnew)⟩

/-- The values of items come behind the elements that are there. -/
theorem builds_ofItems : ∀ (h : Heap) (items : List Json) (es : Array Value),
    Json.AreNormal items → h.Extends (h.ofItems items es).2 ∧
      ∃ vs, (h.ofItems items es).1.toList = es.toList ++ vs ∧
        (h.ofItems items es).2.BuildsItems vs items
  | h, [], es, _ => ⟨.refl h, [], (List.append_nil _).symm, .nil⟩
  | h, item :: rest, es, hitems => by
    obtain ⟨hextends, hitem⟩ := builds_ofDocument h item hitems.1
    obtain ⟨hextends', vs, hvs, hrest⟩ := builds_ofItems (h.ofDocument item).2 rest
      (es.push (h.ofDocument item).1) hitems.2
    refine ⟨hextends.trans hextends', (h.ofDocument item).1 :: vs, ?_,
      .cons (hitem.mono hextends') hrest⟩
    rw [ofItems, hvs, Array.toList_push, List.append_assoc, List.singleton_append]

/-- The values of members with new keys come behind the properties that are there. -/
theorem builds_ofMembers : ∀ (h : Heap) (members : List (Text × Json)) (ps : Properties),
    Json.MembersNormal members → (ps.toList.map Prod.fst ++ members.map Prod.fst).Nodup →
    h.Extends (h.ofMembers members ps).2 ∧
      ∃ qs, (h.ofMembers members ps).1.toList = ps.toList ++ qs ∧
        (h.ofMembers members ps).2.BuildsMembers qs members
  | h, [], ps, _, _ => ⟨.refl h, [], (List.append_nil _).symm, .nil⟩
  | h, (key, item) :: rest, ps, hmembers, hkeys => by
    obtain ⟨hextends, hitem⟩ := builds_ofDocument h item hmembers.1
    have hnew : key ∉ ps.toList.map Prod.fst :=
      fun h ↦ (List.nodup_append.mp hkeys).2.2 key h key List.mem_cons_self rfl
    have hinsert := OrderedMap.toList_insert (v := (h.ofDocument item).1) hnew
    obtain ⟨hextends', qs, hqs, hrest⟩ := builds_ofMembers (h.ofDocument item).2 rest
      (ps.insert key (h.ofDocument item).1) hmembers.2 (by
        rw [hinsert, List.map_append, List.append_assoc]
        exact hkeys)
    refine ⟨hextends.trans hextends', (key, (h.ofDocument item).1) :: qs, ?_,
      .cons (hitem.mono hextends') hrest⟩
    rw [ofMembers, hqs, hinsert, List.append_assoc, List.singleton_append]

end

/-! ## The tree of what was built -/

/-- Documents that build an array or an object of a path are larger than `size`. -/
def Exceeds (h : Heap) (path : List HeapRef) (size : Nat) : Prop :=
  ∀ (v : Value) (j : Json) (ref : HeapRef), v.ref? = some ref → ref ∈ path → h.Builds v j →
    size < sizeOf j

theorem Exceeds.mono {path : List HeapRef} {n m : Nat} (hpath : h.Exceeds path n) (hnm : m ≤ n) :
    h.Exceeds path m :=
  fun v j ref hv href hj ↦ Nat.lt_of_le_of_lt hnm (hpath v j ref hv href hj)

/-- Only one value refers to a thing of the heap. -/
theorem eq_of_ref?_eq_some {v w : Value} {ref : HeapRef} (hv : v.ref? = some ref)
    (hw : w.ref? = some ref) : v = w := by
  rcases v with _ | _ | _ | _ | _ | _ | _ | ⟨_ | _⟩ <;> cases hv <;>
    rcases w with _ | _ | _ | _ | _ | _ | _ | ⟨_ | _⟩ <;> cases hw <;> rfl

/-- On the path to the parts of a whole is the whole, too. -/
theorem Exceeds.cons {path : List HeapRef} {v : Value} {j : Json} {ref : HeapRef} {size : Nat}
    (hpath : h.Exceeds path (sizeOf j)) (hj : h.Builds v j) (hv : v.ref? = some ref)
    (hsize : size < sizeOf j) : h.Exceeds (ref :: path) size := by
  intro w i ref' hw href hi
  rcases List.mem_cons.mp href with rfl | href
  · obtain rfl := eq_of_ref?_eq_some hv hw
    rwa [hi.unique hj]
  · exact hsize.trans (hpath w i ref' hw href hi)

theorem tree_number {path : List HeapRef} {n : Number} (hn : (Json.number n).IsNormal) :
    h.Tree path (.number n) (.number n) := by
  cases hzero : n.isZero with
  | false => exact .number hn.1 hzero
  | true =>
    obtain ⟨negative, rfl⟩ := exists_eq_zero hzero
    cases negative with
    | false => exact .zero false
    | true => exact nomatch hn.2

mutual

/-- What a document built has the document as its tree. On the way into it nothing comes twice,
because the documents become smaller. -/
theorem Builds.tree {path : List HeapRef} {v : Value} {j : Json} (hj : j.IsNormal)
    (hpath : h.Exceeds path (sizeOf j)) : h.Builds v j → h.Tree path v j
  | .null => .null
  | .bool b => .bool b
  | .number _ => tree_number hj
  | .text t => .text t
  | @Builds.array _ id _ items hcell hitems => by
    have hbuilds : h.Builds (.array id) (.array items) := .array hcell hitems
    have hsize : sizeOf items < sizeOf (Json.array items) := by
      rw [Json.array.sizeOf_spec]
      omega
    have htrees := hitems.trees hj (hpath.cons hbuilds rfl hsize)
    refine .array (fun hid ↦ Nat.lt_irrefl _ (hpath _ _ _ rfl hid hbuilds)) ?_
    rwa [elements, hcell]
  | @Builds.object _ id _ members hcell hmembers => by
    have hbuilds : h.Builds (.object id) (.object members) := .object hcell hmembers
    have hsize : sizeOf members < sizeOf (Json.object members) := by
      rw [Json.object.sizeOf_spec]
      omega
    have htrees := hmembers.trees hj.2 (hpath.cons hbuilds rfl hsize)
    refine .object (fun hid ↦ Nat.lt_irrefl _ (hpath _ _ _ rfl hid hbuilds)) ?_
    rwa [properties, hcell]

theorem BuildsItems.trees {path : List HeapRef} {vs : List Value} {items : List Json}
    (hitems : Json.AreNormal items) (hpath : h.Exceeds path (sizeOf items)) :
    h.BuildsItems vs items → h.Items path vs items
  | .nil => .nil
  | .cons hitem hrest => by
    rw [List.cons.sizeOf_spec] at hpath
    exact .cons (hitem.tree hitems.1 (hpath.mono (by omega)))
      (hrest.trees hitems.2 (hpath.mono (by omega)))

theorem BuildsMembers.trees {path : List HeapRef} {ps : List (Text × Value)}
    {members : List (Text × Json)} (hmembers : Json.MembersNormal members)
    (hpath : h.Exceeds path (sizeOf members)) :
    h.BuildsMembers ps members → h.Members path ps members
  | .nil => .nil
  | .cons hitem hrest => by
    rw [List.cons.sizeOf_spec, Prod.mk.sizeOf_spec] at hpath
    refine .kept ?_ (hitem.tree hmembers.1 (hpath.mono (by omega)))
      (hrest.trees hmembers.2 (hpath.mono (by omega)))
    rintro (rfl | ⟨_, rfl⟩) <;> cases hitem

end

/-- Writing a value gives a text that is read as the tree of the value. What is built from it, in
any heap, is written as the same text again. -/
theorem parse_jsonText (h : Heap) (v : Value) (k : Heap) :
    ∃ j, (∀ i, h.Tree [] v i ↔ i = j) ∧ Json.parse (h.jsonText v) = .ok j ∧
      (k.ofDocument j).2.Builds (k.ofDocument j).1 j ∧
      (k.ofDocument j).2.jsonText (k.ofDocument j).1 = h.jsonText v := by
  have htree : h.Tree [] v (h.document v) := (tree_nil_iff _).mpr rfl
  have hnormal := htree.isNormal
  obtain ⟨-, hbuilds⟩ := builds_ofDocument k (h.document v) hnormal
  have hagain : (k.ofDocument (h.document v)).2.Tree [] _ _ :=
    hbuilds.tree hnormal fun _ _ _ _ href ↦ nomatch href
  refine ⟨h.document v, tree_nil_iff, Json.parse_render hnormal, hbuilds, ?_⟩
  rw [jsonText, ← (tree_nil_iff _).mp hagain, jsonText]

/-- An object that holds itself, nothing at all, the negative zero, and twice an array that holds
the object again. -/
def tangle : Heap :=
  let (o, h) := empty.newObject .empty
  let (a, h) := h.newArray #[.number .nan, .text (.ofList [0x22, 0x00, 0xFF]), .object o]
  h.modifyObject o fun ps ↦ ps.insert "self" (.object o) |>.insert "gone" .undefined
    |>.insert "zero" (.number (.zero true)) |>.insert "first" (.array a)
    |>.insert "second" (.array a)

/-- The object is written, read and written again. -/
theorem parse_jsonText_tangle :
    ∃ items j, items = Json.array [.null, .text (.ofList [0x22, 0x00, 0xFF]), .null] ∧
      j = Json.object [("self", .null), ("zero", .number (.zero false)), ("first", items),
        ("second", items)] ∧
      Json.parse (tangle.jsonText (.object ⟨0⟩)) = .ok j ∧
      (tangle.ofDocument j).2.jsonText (tangle.ofDocument j).1 = tangle.jsonText (.object ⟨0⟩) := by
  have hitems : tangle.Tree [.object ⟨0⟩] (.array ⟨0⟩)
      (.array [.null, .text (.ofList [0x22, 0x00, 0xFF]), .null]) :=
    .array (by decide)
      (.cons (.nonfinite rfl) (.cons (.text _) (.cons (.openObject (by decide)) .nil)))
  have hproperties : (tangle.properties ⟨0⟩).toList =
      ([("self", .object ⟨0⟩), ("gone", .undefined), ("zero", .number (.zero true)),
        ("first", .array ⟨0⟩), ("second", .array ⟨0⟩)] : List (Text × Value)) := by
    rfl
  have htree : tangle.Tree [] (.object ⟨0⟩) (.object [("self", .null),
      ("zero", .number (.zero false)),
      ("first", .array [.null, .text (.ofList [0x22, 0x00, 0xFF]), .null]),
      ("second", .array [.null, .text (.ofList [0x22, 0x00, 0xFF]), .null])]) := by
    refine .object nofun (hproperties ▸ .kept nofun (.openObject (by decide)) ?_)
    exact .omitted (.inl rfl)
      (.kept nofun (.zero true) (.kept nofun hitems (.kept nofun hitems .nil)))
  obtain ⟨j, hj, hparse, -, hagain⟩ := parse_jsonText tangle (.object ⟨0⟩) tangle
  obtain rfl := (hj _).mp htree
  exact ⟨_, _, rfl, rfl, hparse, hagain⟩

end EcmaTree.Heap
