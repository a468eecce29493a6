import EcmaTree.Proofs.Alike.Methods

/-!
# Alike functions of the host

The functions of the host are alike for the same receiver and the same arguments. Code of the host
sees nothing of a value but what snapshots show, and these are the same for alike heaps.
-/

namespace EcmaTree

open Carries

/-! ### Documents -/

namespace Heap.Matched

variable {free whole intact : Prop} {h h' : Heap} {roots : List HeapRef}

theorem subset (ha : h.Matched free whole intact roots h') {less : List HeapRef}
    (hl : less ⊆ roots) :
    h.Matched free whole intact less h' :=
  ha.shrink fun _ hr ↦ .root (hl hr)

mutual

/-- A document builds the same value in alike heaps. -/
theorem ofDocument {h h' : Heap} {roots : List HeapRef}
    (ha : h.Matched free whole intact roots h') :
    ∀ document, (h.ofDocument document).1 = (h'.ofDocument document).1 ∧
      (h.ofDocument document).2.Matched free whole intact (refs (h.ofDocument document).1 ++ roots)
        (h'.ofDocument document).2
  | .null | .bool _ | .number _ | .text _ => ⟨rfl, ha⟩
  | .array items => by
    obtain ⟨hes, hh⟩ := ofItems ha #[] (List.nil_subset _) items
    obtain ⟨hid, hnew⟩ := hh.newArray _ fun r hr ↦ .root (List.mem_append_left _ hr)
    simp only [Heap.ofDocument, ← hes]
    exact ⟨congrArg Value.array hid, hnew.subset (by simp)⟩
  | .object members => by
    obtain ⟨hps, hh⟩ := ofMembers ha .empty (List.nil_subset _) members
    obtain ⟨hid, hnew⟩ := hh.newObject _ fun r hr ↦ .root (List.mem_append_left _ hr)
    simp only [Heap.ofDocument, ← hps]
    exact ⟨congrArg Value.object hid, hnew.subset (by simp)⟩

theorem ofItems {h h' : Heap} {roots : List HeapRef} (ha : h.Matched free whole intact roots h')
    (es : Array Value) (hes : refs es ⊆ roots) : ∀ items,
      (h.ofItems items es).1 = (h'.ofItems items es).1 ∧
      (h.ofItems items es).2.Matched free whole intact (refs (h.ofItems items es).1 ++ roots)
        (h'.ofItems items es).2
  | [] => ⟨rfl, ha.subset (List.append_subset.mpr ⟨hes, fun _ ↦ id⟩)⟩
  | item :: rest => by
    obtain ⟨hv, hh⟩ := ofDocument ha item
    obtain ⟨hall, hh⟩ := ofItems hh (es.push (h.ofDocument item).1) (by
      simp only [refs_array, Array.toList_push, refs_append]
      grind) rest
    simp only [Heap.ofItems, ← hv]
    exact ⟨hall, hh.subset (by simp)⟩

theorem ofMembers {h h' : Heap} {roots : List HeapRef} (ha : h.Matched free whole intact roots h')
    (ps : Properties) (hps : refs ps ⊆ roots) :
    ∀ members, (h.ofMembers members ps).1 = (h'.ofMembers members ps).1 ∧
      (h.ofMembers members ps).2.Matched free whole intact
        (refs (h.ofMembers members ps).1 ++ roots)
        (h'.ofMembers members ps).2
  | [] => ⟨rfl, ha.subset (List.append_subset.mpr ⟨hps, fun _ ↦ id⟩)⟩
  | (key, item) :: rest => by
    obtain ⟨hv, hh⟩ := ofDocument ha item
    have hinsert := refs_insert ps key (h.ofDocument item).1
    obtain ⟨hall, hh⟩ := ofMembers hh _ (List.Subset.trans hinsert (by grind)) rest
    simp only [Heap.ofMembers, ← hv]
    exact ⟨hall, hh.subset (by simp)⟩

end

end Heap.Matched

/-! ### Values at hand -/

instance : Carries (List Snapshot) := ⟨fun _ ↦ []⟩
instance : Carries (List (List Snapshot)) := ⟨fun _ ↦ []⟩

@[simp, grind =] theorem refs_shown (shown : List Snapshot) : refs shown = [] := rfl
@[simp, grind =] theorem refs_log (log : List (List Snapshot)) : refs log = [] := rfl

namespace Hand

theorem refs_value (hand : Hand) (place : HostPlace) :
    refs (hand.value place) ⊆ refs hand.values := by
  rw [values, refs_cons, refs_append]
  cases place with
  | receiver => exact List.subset_append_left ..
  | argument i =>
    have : refs (hand.value (.argument i)) ⊆ refs hand.args := refs_argument hand.args i
    grind
  | result i =>
    have : refs (hand.value (.result i)) ⊆ refs hand.results := refs_argument hand.results i
    grind

theorem refs_elements (hand : Hand) (places : List HostPlace) :
    refs (hand.elements places) ⊆ refs hand.values :=
  subset_refs fun v hv ↦ by
    obtain ⟨place, _, rfl⟩ := List.mem_map.mp hv
    exact hand.refs_value place

theorem refs_members (hand : Hand) (places : List (Text × HostPlace)) :
    refs (hand.members places) ⊆ refs hand.values :=
  subset_refs fun v hv ↦ by
    have hv := OrderedMap.mem_values_ofList hv
    rw [List.map_map, List.mem_map] at hv
    obtain ⟨place, _, rfl⟩ := hv
    exact hand.refs_value place.2

@[simp, grind =] theorem refs_take (hand : Hand) (v : Value) :
    refs (hand.take v).values = refs hand.values ++ refs v := by
  simp [take, values]

end Hand

namespace Eval.Alike

variable {p : Pairing} {kept : List HeapRef} {args : List Value} {receiver : Value}
  {r r' : Evaluator}

/-! ### Actions -/

theorem record {vs : List Value} (hvs : refs vs ⊆ kept) :
    Alike p kept kept (Eval.record vs) (Eval.record vs) := by
  refine modify (fun s t h ↦ { h with log := ?_ }) fun _ ↦ rfl
  have hreach := Heap.reachesAll_of_subset (fun _ ↦ State.reachable_of_mem (s := s)) hvs
  rw [h.log, h.heap.snapshots_eq hreach]

theorem snapshots {vs : List Value} (hvs : refs vs ⊆ kept) :
    Alike p kept kept (Eval.readHeap (·.snapshots vs)) (Eval.readHeap (·.snapshots vs)) :=
  readHeap fun _ _ _ ha hk ↦ ⟨ha.snapshots_eq (Heap.reachesAll_of_subset hk hvs), nofun⟩

theorem log : Alike p kept kept (Eval.read State.log) (Eval.read State.log) :=
  read fun _ _ h ↦ ⟨h.log, nofun⟩

theorem property {id : ObjectId} (key : Text) (hid : .object id ∈ kept) :
    Alike p kept kept (Eval.readHeap (·.property id key)) (Eval.readHeap (·.property id key)) :=
  readHeap fun _ _ _ ha hk ↦ by
    have hid := Heap.reaches_object.mpr (hk _ hid)
    exact ⟨ha.member_eq hid key, Heap.reachable_of_reaches (Heap.reaches_member hid key)⟩

theorem jsonText {v : Value} (hv : refs v ⊆ kept) :
    Alike p kept kept (Eval.readHeap (·.jsonText v)) (Eval.readHeap (·.jsonText v)) :=
  readHeap fun _ _ _ ha hk ↦ ⟨ha.jsonText_eq (Heap.reaches_of_subset hk hv), nofun⟩

theorem moment (hr : r.Alike p r') (m : Moment) {vs : List Value} (hvs : refs vs ⊆ kept) :
    Alike p kept (refs vs) (r.passMoment m vs) (r'.passMoment m vs) := by
  rw [Evaluator.passMoment, Evaluator.passMoment, hr.left, hr.right]
  exact mono_right (holding (Alike.passMoment m) (by grind)) (by grind)

theorem newHostFunction (name : Text) (f : HostFunction) :
    Alike p kept kept (Eval.newFunction ⟨name, .host f⟩) (Eval.newFunction ⟨name, .host f⟩) :=
  updateHeap fun _ _ _ ha _ ↦ by
    obtain ⟨hid, hh⟩ := ha.newFunction (.host name f) nofun
    exact ⟨congrArg (Value.function ∘ FunctionRef.cell) hid, hh⟩

theorem runAction (hr : r.Alike p r') (hand : Hand) (action : HostAction)
    (hhand : refs hand.values ⊆ kept) :
    Alike p kept [] (action.run r hand) (action.run r' hand) := by
  have hvalue (place : HostPlace) : refs (hand.value place) ⊆ kept :=
    List.Subset.trans (hand.refs_value place) hhand
  have helements (places : List HostPlace) : refs (hand.elements places) ⊆ kept :=
    List.Subset.trans (hand.refs_elements places) hhand
  have hmembers (places : List (Text × HostPlace)) : refs (hand.members places) ⊆ kept :=
    List.Subset.trans (hand.refs_members places) hhand
  cases action with
  | literal v plain =>
    have : refs v = [] := congrArg Option.toList plain
    exact finish (by grind)
  | array elements => exact mono_right (newArray (helements elements)) (List.nil_subset _)
  | object members => exact mono_right (newObject (hmembers members)) (List.nil_subset _)
  | function name f => exact mono_right (newHostFunction name f) (List.nil_subset _)
  | string v => exact bind (textOf (hvalue v)) fun _ _ ↦ finish (List.nil_subset _)
  | number v => exact bind (numberOf (hvalue v)) fun _ _ ↦ finish (List.nil_subset _)
  | json v => exact bind (jsonText (hvalue v)) fun _ _ ↦ finish (List.nil_subset _)
  | element holder i =>
    have hholder := hvalue holder
    simp only [HostAction.run]
    generalize hand.value holder = v at hholder ⊢
    cases v with
    | array id =>
      refine bind (elements (by grind)) fun es _ ↦ finish ?_
      rw [Array.getD_eq_getD_getElem?, refs_getD]
      have := refs_getElem? es i
      grind
    | _ => exact finish (List.nil_subset _)
  | member holder key =>
    have hholder := hvalue holder
    simp only [HostAction.run]
    generalize hand.value holder = v at hholder ⊢
    cases v with
    | object id => exact mono_right (property key (by grind)) (List.nil_subset _)
    | _ => exact finish (List.nil_subset _)
  | setElements holder elements =>
    have hholder := hvalue holder
    simp only [HostAction.run]
    generalize hand.value holder = v at hholder ⊢
    refine bind (k := []) ?_ fun _ _ ↦ finish (List.nil_subset _)
    cases v with
    | array id =>
      have := helements elements
      have hchange (es : Array Value) : refs (hand.elements elements).toArray ⊆ refs es ++ kept :=
        List.subset_append_of_subset_right _ this
      exact mono_right (modifyArray hchange (by grind)) (List.nil_subset _)
    | _ => exact mono_right (modifyHeap fun _ _ _ ha _ ↦ ha) (List.nil_subset _)
  | setMembers holder members =>
    have hholder := hvalue holder
    simp only [HostAction.run]
    generalize hand.value holder = v at hholder ⊢
    refine bind (k := []) ?_ fun _ _ ↦ finish (List.nil_subset _)
    cases v with
    | object id =>
      have := hmembers members
      have hchange (ps : Properties) : refs (hand.members members) ⊆ refs ps ++ kept :=
        List.subset_append_of_subset_right _ this
      exact mono_right (modifyObject hchange (by grind)) (List.nil_subset _)
    | _ => exact mono_right (modifyHeap fun _ _ _ ha _ ↦ ha) (List.nil_subset _)
  | call f args this => exact hr.call (hvalue f) (helements args) (hvalue this)
  | record vs => exact bind (record (helements vs)) fun _ _ ↦ finish (List.nil_subset _)
  | throw v => exact throwValue _ _ (hvalue v)
  | fail e => exact raiseBare e
  | fault e => exact fault e

/-! ### Code -/

theorem runCode (hr : r.Alike p r') (f : HostFunction) (code : HostCode) (hand : Hand)
    (hhand : refs hand.values ⊆ kept) :
    Alike p kept [] (code.run r f hand) (code.run r' f hand) := by
  induction code generalizing hand kept with
  | done v => exact finish (List.Subset.trans (hand.refs_value v) hhand)
  | act action next ih =>
    refine bind (moment hr _ hhand) fun _ _ ↦ ?_
    refine bind (holding (runAction hr hand action (by grind)) (by grind)) fun v _ ↦ ?_
    exact ih _ (by grind)
  | attempt action next caught ihnext ihcaught =>
    refine bind (moment hr _ hhand) fun _ _ ↦ ?_
    refine bind (holding (catching (runAction hr hand action (by grind))) (by grind))
      fun outcome _ ↦ ?_
    cases outcome with
    | ok v => exact ihnext _ (by grind)
    | error t => exact ihcaught _ (by grind)
  | look vs next ih =>
    refine bind (snapshots (List.Subset.trans (hand.refs_elements vs) hhand)) fun shown _ ↦ ?_
    exact bind log fun _ _ ↦ ih _ _ _ (by grind)

theorem runHost (hr : r.Alike p r') (f : HostFunction) (hreceiver : refs receiver ⊆ kept)
    (hargs : refs args ⊆ kept) :
    Alike p kept [] (f.run r receiver args) (f.run r' receiver args) := by
  cases f with
  | log => exact bind (record (by grind)) fun _ _ ↦ finish (by grind)
  | id | self | gc => exact finish (by grind)
  | args => exact mono_right (newArray hargs) (List.nil_subset _)
  | add =>
    exact bind (numberOf (by grind)) fun _ _ ↦ bind (numberOf (by grind)) fun _ _ ↦
      finish (List.nil_subset _)
  | string => exact bind (textOf (by grind)) fun _ _ ↦ finish (List.nil_subset _)
  | json => exact bind (jsonText (by grind)) fun _ _ ↦ finish (List.nil_subset _)
  | parse =>
    refine bind (textOf (by grind)) fun t _ ↦ ?_
    unfold HostFunction.runParse
    split
    · exact mono_right (updateHeap fun h h' roots ha _ ↦ ha.ofDocument _) (List.nil_subset _)
    · exact fault _
  | throw => exact throwValue _ _ (by grind)
  | fail => exact bind (textOf (by grind)) fun _ _ ↦ raiseBare _
  | apply =>
    unfold HostFunction.run
    dsimp only
    split
    · next source hsource =>
      have := refs_argument args 2
      refine bind (map (elements (by grind)) fun es ↦ ?_) fun inner _ ↦
        hr.call (by grind) (by grind) (by grind)
      exact List.subset_append_left ..
    · exact afterPure (hr.call (by grind) (by grind) (by grind))
  | other n =>
    unfold HostFunction.run
    dsimp only
    rw [hr.left, hr.right, ← p.others_eq]
    exact runCode hr _ _ _ (by simp only [Hand.values, List.append_nil]; grind)

end Eval.Alike

end EcmaTree
