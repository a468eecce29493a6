import EcmaTree.Proofs.Alike.Evaluation

/-!
# Alike reads and writes

Operators, members and targets work alike on values at hand, and keep everything that is at hand.
-/

namespace EcmaTree

open Carries

theorem subset_refs {vs : List Value} {kept : List HeapRef} (h : ∀ v ∈ vs, refs v ⊆ kept) :
    refs vs ⊆ kept := by
  intro r hr
  obtain ⟨v, hv, hr⟩ := mem_refs_list.mp hr
  exact h v hv (Option.mem_toList.mpr hr)

theorem refs_subset_of_mem {vs : List Value} {v : Value} (hv : v ∈ vs) : refs v ⊆ refs vs :=
  fun _ hr ↦ mem_refs_list.mpr ⟨v, hv, Option.mem_toList.mp hr⟩

/-- Fewer values refer to less. -/
theorem refs_mono {vs ws : List Value} (h : vs ⊆ ws) : refs vs ⊆ refs ws :=
  subset_refs fun _ hv ↦ refs_subset_of_mem (h hv)

@[simp, grind =] theorem refs_append (vs ws : List Value) : refs (vs ++ ws) = refs vs ++ refs ws :=
  List.filterMap_append

theorem refs_subset_of_mem_array {es : Array Value} {v : Value} (hv : v ∈ es) : refs v ⊆ refs es :=
  refs_subset_of_mem (Array.mem_toList_iff.mpr hv)

theorem subset_refs_array {es : Array Value} {kept : List HeapRef} (h : ∀ v ∈ es, refs v ⊆ kept) :
    refs es ⊆ kept :=
  subset_refs fun v hv ↦ h v (Array.mem_toList_iff.mp hv)

@[simp, grind =] theorem refs_getD (o : Option Value) : refs (o.getD .undefined) = refs o := by
  cases o <;> rfl

@[simp, grind =] theorem refs_toList (o : Option Value) : refs o.toList = refs o := by
  cases o with
  | none => rfl
  | some v => simp

theorem refs_orElse (a b : Option Value) : refs (a <|> b) ⊆ refs a ++ refs b := by
  cases a with
  | none => exact fun _ ↦ id
  | some v => exact List.subset_append_left ..

theorem refs_getElem? (es : Array Value) (i : Nat) : refs es[i]? ⊆ refs es := by
  cases hv : es[i]? with
  | none => exact List.nil_subset _
  | some v => exact refs_subset_of_mem_array (Array.mem_of_getElem? hv)

theorem refs_extract (es : Array Value) (i j : Nat) : refs (es.extract i j) ⊆ refs es := by
  refine subset_refs_array fun v hv ↦ ?_
  obtain ⟨k, hk, rfl⟩ := Array.mem_extract_iff_getElem.mp hv
  exact refs_subset_of_mem_array (Array.getElem_mem _)

theorem refs_resized (es : Array Value) (n : Nat) : refs (resized es n) ⊆ refs es := by
  refine subset_refs_array fun v hv ↦ ?_
  unfold resized at hv
  split at hv
  · exact List.Subset.trans (refs_subset_of_mem_array hv) (refs_extract ..)
  · rcases Array.mem_append.mp hv with hv | hv
    · exact refs_subset_of_mem_array hv
    · obtain rfl := (Array.mem_replicate.mp hv).2
      exact List.nil_subset _

theorem refs_written (es : Array Value) (i : Nat) (v : Value) :
    refs (written es i v) ⊆ refs v ++ refs es := by
  refine subset_refs_array fun w hw ↦ ?_
  have hold (hw : w ∈ es) : refs w ⊆ refs v ++ refs es :=
    List.subset_append_of_subset_right _ (refs_subset_of_mem_array hw)
  unfold written at hw
  split at hw
  · rcases Array.mem_or_eq_of_mem_setIfInBounds hw with hw | rfl
    · exact hold hw
    · exact List.subset_append_left ..
  · rcases Array.mem_push.mp hw with hw | rfl
    · rcases Array.mem_append.mp hw with hw | hw
      · exact hold hw
      · obtain rfl := (Array.mem_replicate.mp hw).2
        exact List.nil_subset _
    · exact List.subset_append_left ..

theorem refs_insert (ps : Properties) (key : Text) (v : Value) :
    refs (ps.insert key v) ⊆ refs v ++ refs ps := by
  refine subset_refs fun w hw ↦ ?_
  rcases OrderedMap.mem_values_insert hw with rfl | hw
  · exact List.subset_append_left ..
  · exact List.subset_append_of_subset_right _ (refs_subset_of_mem hw)

namespace Heap.Matched

variable {free whole intact : Prop} {roots kept : List HeapRef} {h h' : Heap}

/-- The elements that an array gets are at hand, or it had them before. -/
theorem changeArray (ha : h.Matched free whole intact roots h') {id : ArrayId}
    {c : Array Value → Array Value} (hid : h.Reachable roots (.array id))
    (hc : ∀ es, refs (c es) ⊆ refs es ++ kept) (hk : ∀ r ∈ kept, h.Reachable roots r) :
    (h.modifyArray id c).Matched free whole intact roots (h'.modifyArray id c) := by
  refine ha.modifyArray id c hid fun es hes r hr ↦ ?_
  have hold : h.elements id = es := by rw [Heap.elements, hes, Option.getD_some]
  rcases List.mem_append.mp (hc es hr) with hr | hr
  · exact reachable_of_reachesAll (reaches_element hid) r (hold ▸ hr)
  · exact hk r hr

/-- The values that an object gets are at hand, or it had them before. -/
theorem changeObject (ha : h.Matched free whole intact roots h') {id : ObjectId}
    {c : Properties → Properties} (hid : h.Reachable roots (.object id))
    (hc : ∀ ps, refs (c ps) ⊆ refs ps ++ kept) (hk : ∀ r ∈ kept, h.Reachable roots r) :
    (h.modifyObject id c).Matched free whole intact roots (h'.modifyObject id c) := by
  refine ha.modifyObject id c hid fun ps hps r hr ↦ ?_
  have hold : h.properties id = ps := by rw [Heap.properties, hps, Option.getD_some]
  rcases List.mem_append.mp (hc ps hr) with hr | hr
  · exact reachable_of_reachesAll (reaches_property hid) r (hold ▸ hr)
  · exact hk r hr

end Heap.Matched

namespace Eval.Alike

variable {p : Pairing} {kept : List HeapRef} {v holder a b : Value}

/-! ### Operators -/

theorem refs_arithmetic (op : ArithmeticOp) (h : Heap) (a b : Value) :
    refs (op.apply h a b) = [] := by
  unfold ArithmeticOp.apply
  split <;> rfl

theorem refs_order (op : OrderOp) (h : Heap) (a b : Value) : refs (op.apply h a b) = [] := by
  unfold OrderOp.apply
  split <;> rfl

theorem refs_result (op : BinaryOp) (h : Heap) (a b : Value) : refs (op.result? h a b) = [] := by
  cases op <;> first
    | rfl
    | exact refs_arithmetic ..
    | exact refs_order ..

theorem result? (op : BinaryOp) (ha : refs a ⊆ kept) (hb : refs b ⊆ kept) :
    Alike p kept kept (Eval.readHeap fun h ↦ op.result? h a b)
      (Eval.readHeap fun h ↦ op.result? h a b) := by
  refine readHeap fun h h' roots hh hk ↦ ⟨?_, ?_⟩
  · exact hh.result?_eq op (Heap.reaches_of_subset hk ha) (Heap.reaches_of_subset hk hb)
  · simp [refs_result]

theorem arithmetic (op : ArithmeticOp) (ha : refs a ⊆ kept) (hb : refs b ⊆ kept) :
    Alike p kept kept (Eval.readHeap fun h ↦ op.apply h a b)
      (Eval.readHeap fun h ↦ op.apply h a b) := by
  refine readHeap fun h h' roots hh hk ↦ ⟨?_, ?_⟩
  · exact hh.arithmetic_eq op (Heap.reaches_of_subset hk ha) (Heap.reaches_of_subset hk hb)
  · simp [refs_arithmetic]

/-! ### Members -/

theorem elements {id : ArrayId} (hid : .array id ∈ kept) :
    Alike p kept kept (Eval.elements id) (Eval.elements id) :=
  readHeap fun _ _ _ ha hk ↦
    ⟨ha.elements_eq (hk _ hid), Heap.reachable_of_reachesAll (Heap.reaches_element (hk _ hid))⟩

theorem modifyArray {id : ArrayId} {c : Array Value → Array Value}
    (hc : ∀ es, refs (c es) ⊆ refs es ++ kept) (hid : .array id ∈ kept) :
    Alike p kept kept (Eval.modifyHeap (·.modifyArray id c))
      (Eval.modifyHeap (·.modifyArray id c)) :=
  modifyHeap fun _ _ _ ha hk ↦ ha.changeArray (hk _ hid) hc hk

theorem modifyObject {id : ObjectId} {c : Properties → Properties}
    (hc : ∀ ps, refs (c ps) ⊆ refs ps ++ kept) (hid : .object id ∈ kept) :
    Alike p kept kept (Eval.modifyHeap (·.modifyObject id c))
      (Eval.modifyHeap (·.modifyObject id c)) :=
  modifyHeap fun _ _ _ ha hk ↦ ha.changeObject (hk _ hid) hc hk

theorem getMember (key : Text) (span : Span) (hv : refs v ⊆ kept) :
    Alike p kept kept (Eval.getMember v key span) (Eval.getMember v key span) := by
  unfold Eval.getMember
  split
  · exact bind (textOf hv) fun t _ ↦ raise _ _
  · exact readHeap fun h h' roots ha hk ↦ by
      have hv := Heap.reaches_of_subset hk hv
      exact ⟨ha.member_eq hv key, Heap.reachable_of_reaches (Heap.reaches_member hv key)⟩

theorem setArrayMember {id : ArrayId} (key : Text) (span : Span) (hid : .array id ∈ kept)
    (hv : refs v ⊆ kept) :
    Alike p kept kept (Eval.setArrayMember id key v span)
      (Eval.setArrayMember id key v span) := by
  unfold Eval.setArrayMember
  split
  · refine bind (numberOf hv) fun n _ ↦ ?_
    split
    · exact modifyArray (fun es ↦ List.subset_append_of_subset_left _ (refs_resized es _)) hid
    · exact raise _ _
  · split
    · split
      · exact modifyArray (fun es ↦ List.Subset.trans (refs_written es _ v) (by grind)) hid
      · exact raise _ _
    · exact skip

theorem setMember (key : Text) (span : Span) (hholder : refs holder ⊆ kept) (hv : refs v ⊆ kept) :
    Alike p kept kept (Eval.setMember holder key v span) (Eval.setMember holder key v span) := by
  cases holder with
  | undefined | null => exact bind (textOf hholder) fun t _ ↦ raise _ _
  | object id =>
    exact modifyObject (fun ps ↦ List.Subset.trans (refs_insert ps key v) (by grind)) (by grind)
  | array id => exact setArrayMember key span (by grind) hv
  | text | function | bool | number => exact skip

/-! ### Targets -/

theorem readRoot {root : Root} (span : Span) (hroot : refs root ⊆ kept) :
    Alike p kept kept (Target.readRoot root span) (Target.readRoot root span) := by
  cases root with
  | value v => exact pure hroot (List.Subset.refl _)
  | named name =>
    refine bind (lookup name) fun b _ ↦ ?_
    cases b with
    | some b => exact pure (by grind) (by grind)
    | none => exact raise _ _

theorem follow {path : List Text} (span : Span) (hv : refs v ⊆ kept) :
    Alike p kept kept (Target.follow span path v) (Target.follow span path v) := by
  induction path generalizing v kept with
  | nil => exact pure hv (List.Subset.refl _)
  | cons key rest ih =>
    exact bind (getMember key span hv) fun w _ ↦ mono_right (ih (by grind)) (by grind)

theorem container {root : Root} (path : List Text) (span : Span) (hroot : refs root ⊆ kept) :
    Alike p kept kept (Target.container root path span) (Target.container root path span) :=
  bind (readRoot span hroot) fun w _ ↦ mono_right (follow span (by grind)) (by grind)

theorem readTarget {t : Target} (span : Span) (ht : refs t ⊆ kept) :
    Alike p kept kept (t.read span) (t.read span) := by
  cases t with
  | named name =>
    have hname : refs (Root.named name) ⊆ kept := ht
    exact readRoot span hname
  | member root path key =>
    exact bind (container path span (by grind)) fun w _ ↦
      mono_right (getMember key span (by grind)) (by grind)

theorem assign (name : Text) (hv : refs v ⊆ kept) :
    Alike p kept kept
      (fun s ↦ .done (s.heap.assign s.frame name v).1
        { s with heap := (s.heap.assign s.frame name v).2 })
      (fun s ↦ .done (s.heap.assign s.frame name v).1
        { s with heap := (s.heap.assign s.frame name v).2 }) := by
  intro s t h
  have hv := Heap.reaches_of_subset (fun _ ↦ State.reachable_of_mem (s := s)) hv
  obtain ⟨hresult, hh⟩ := h.heap.assign State.reachable_frame name hv
  have ht : t.heap.assign t.frame name v = t.heap.assign s.frame name v := by rw [h.frame]
  dsimp only
  rw [ht, ← hresult]
  exact .done _ (h.withHeap hh) rfl

theorem writeVariable (name : Text) (span : Span) (hv : refs v ⊆ kept) :
    Alike p kept kept (Target.writeVariable name v span) (Target.writeVariable name v span) := by
  refine bind (assign name hv) fun result _ ↦ ?_
  cases result with
  | ok => exact skip
  | constViolation | notFound => exact raise _ _

theorem writeTarget {t : Target} (span : Span) (ht : refs t ⊆ kept) (hv : refs v ⊆ kept) :
    Alike p kept kept (t.write v span) (t.write v span) := by
  cases t with
  | named name => exact writeVariable name span hv
  | member root path key =>
    exact bind (container path span (by grind)) fun w _ ↦
      mono_right (setMember key span (by grind) (by grind)) (by grind)

end Eval.Alike

end EcmaTree
