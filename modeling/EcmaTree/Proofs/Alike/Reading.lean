import EcmaTree.Evaluation.Members
import EcmaTree.Evaluation.Operators
import EcmaTree.Heap.Snapshot
import EcmaTree.Proofs.Alike.Heap
import EcmaTree.Proofs.Heap.Texts
import EcmaTree.Proofs.OrderedMap
import Mathlib.Data.List.Find

/-!
# Reading alike heaps

What is read of a heap from a reference that the roots reach is the same in an alike heap, and the
references that are read are reached too.
-/

namespace EcmaTree

/-- The roots reach what a value refers to. -/
def Heap.Reaches (h : Heap) (roots : List HeapRef) (v : Value) : Prop :=
  ∀ r, v.ref? = some r → h.Reachable roots r

/-- The roots reach what values refer to. -/
def Heap.ReachesAll (h : Heap) (roots : List HeapRef) (vs : List Value) : Prop :=
  ∀ v ∈ vs, h.Reaches roots v

namespace Heap

variable {h : Heap} {roots : List HeapRef}

theorem reachable_of_mem_refs {vs : List Value} (hvs : h.ReachesAll roots vs) :
    ∀ r ∈ vs.filterMap Value.ref?, h.Reachable roots r := by
  intro r hr
  obtain ⟨v, hv, hr⟩ := List.mem_filterMap.mp hr
  exact hvs v hv r hr

theorem reaches_array {id : ArrayId} :
    h.Reaches roots (.array id) ↔ h.Reachable roots (.array id) := by
  simp [Reaches, Value.ref?]

theorem reaches_object {id : ObjectId} :
    h.Reaches roots (.object id) ↔ h.Reachable roots (.object id) := by
  simp [Reaches, Value.ref?]

theorem reaches_function {id : FunctionId} :
    h.Reaches roots (.function (.cell id)) ↔ h.Reachable roots (.function id) := by
  simp [Reaches, Value.ref?]

/-- A value that refers to nothing is reached from anywhere. -/
theorem reaches_of_none {v : Value} (hv : v.ref? = none) : h.Reaches roots v := by
  simp [Reaches, hv]

/-- A frame that is reached reaches what it refers to. -/
theorem reachable_of_frame {id : FrameId} (hid : h.Reachable roots (.frame id)) {f : Frame}
    (hf : h.frame? id = some f) {r : HeapRef} (hr : r ∈ f.references) : h.Reachable roots r :=
  hid.next (by simpa [references, hf] using hr)

theorem reaches_binding {id : FrameId} (hid : h.Reachable roots (.frame id)) {f : Frame}
    (hf : h.frame? id = some f) {b : Binding} (hb : b ∈ f.bindings) :
    h.Reaches roots b.value :=
  fun _ hr ↦ .step hid (.binding hf hb hr)

theorem reaches_property {id : ObjectId} (hid : h.Reachable roots (.object id)) :
    h.ReachesAll roots (h.properties id).values := by
  intro v hv r hr
  exact hid.next (List.mem_filterMap.mpr ⟨v, hv, hr⟩)

theorem reaches_element {id : ArrayId} (hid : h.Reachable roots (.array id)) :
    h.ReachesAll roots (h.elements id).toList := by
  intro v hv r hr
  exact hid.next (List.mem_filterMap.mpr ⟨v, hv, hr⟩)

/-! ### Frames -/

theorem reachable_of_mem_chain {id : FrameId} (hid : h.Reachable roots (.frame id)) :
    ∀ p ∈ h.chain id, h.Reachable roots (.frame p) := by
  fun_induction chain h id with
  | case1 id hf => simp
  | case2 id f hf hp => simpa using hid
  | case3 id f hf p hp hlt ih =>
    intro q hq
    rcases List.mem_cons.mp hq with rfl | hq
    · exact hid
    · exact ih (.step hid (.parent hf hp)) q hq
  | case4 id f hf p hp hlt => simpa using hid

theorem mem_frame_of_lookup {id : FrameId} {name : Text} {b : Binding}
    (hb : h.lookup id name = some b) :
    ∃ p ∈ h.chain id, ∃ f, h.frame? p = some f ∧ b ∈ f.bindings := by
  obtain ⟨p, hp, hl⟩ := List.exists_of_findSome?_eq_some hb
  obtain ⟨f, hf, hb⟩ := Option.bind_eq_some_iff.mp hl
  exact ⟨p, hp, f, hf, List.mem_of_find?_eq_some hb⟩

theorem reaches_lookup {id : FrameId} (hid : h.Reachable roots (.frame id)) {name : Text}
    {b : Binding} (hb : h.lookup id name = some b) : h.Reaches roots b.value := by
  obtain ⟨p, hp, f, hf, hm⟩ := mem_frame_of_lookup hb
  exact reaches_binding (reachable_of_mem_chain hid p hp) hf hm

theorem reaches_receiver {id : FrameId} (hid : h.Reachable roots (.frame id)) :
    h.Reaches roots (h.receiver id) := by
  rw [receiver]
  cases hr : (h.chain id).findSome? fun f ↦ (h.frame? f).bind Frame.receiver with
  | none => exact reaches_of_none rfl
  | some v =>
    obtain ⟨p, hp, hl⟩ := List.exists_of_findSome?_eq_some hr
    obtain ⟨f, hf, hv⟩ := Option.bind_eq_some_iff.mp hl
    exact fun r hr ↦ .step (reachable_of_mem_chain hid p hp) (.receiver hf hv hr)

/-! ### Members -/

theorem reaches_get? {ps : Properties} (hps : h.ReachesAll roots ps.values) {key : Text} :
    h.Reaches roots ((ps.get? key).getD .undefined) := by
  cases hv : ps.get? key with
  | none => exact reaches_of_none rfl
  | some v => exact hps v (OrderedMap.mem_values_of_get? hv)

theorem reaches_getElem? {es : Array Value} (hes : h.ReachesAll roots es.toList) {i : Nat}
    {v : Value} (hv : es[i]? = some v) : h.Reaches roots v :=
  hes v (Array.mem_toList_iff.mpr (Array.mem_of_getElem? hv))

theorem reaches_member {v : Value} (hv : h.Reaches roots v) (key : Text) :
    h.Reaches roots (h.member v key) := by
  cases v with
  | object id => exact reaches_get? (reaches_property (reaches_object.mp hv))
  | array id =>
    simp only [member, arrayMember]
    split
    · exact reaches_of_none rfl
    · split
      · next i _ =>
        rw [Array.getD_eq_getD_getElem?]
        cases he : (h.elements id)[i]? with
        | none => exact reaches_of_none rfl
        | some e => exact reaches_getElem? (reaches_element (reaches_array.mp hv)) he
      · split <;> exact reaches_of_none rfl
  | text t =>
    simp only [member, textMember]
    repeat' split
    all_goals exact reaches_of_none rfl
  | function f =>
    simp only [member]
    split <;> exact reaches_of_none rfl
  | undefined | null | bool | number => exact reaches_of_none rfl

end Heap

theorem findSome?_congr {α β : Type} {f g : α → Option β} {l : List α}
    (hfg : ∀ x ∈ l, f x = g x) : l.findSome? f = l.findSome? g := by
  induction l with
  | nil => rfl
  | cons x rest ih =>
    rw [List.findSome?_cons, List.findSome?_cons, hfg x (List.mem_cons_self ..),
      ih fun y hy ↦ hfg y (List.mem_cons_of_mem _ hy)]

namespace Heap.Alike

variable {free whole : Prop} {roots : List HeapRef} {h h' : Heap}

/-! ### The same frames -/

theorem chain_eq (ha : h.Alike free whole roots h') {id : FrameId}
    (hid : h.Reachable roots (.frame id)) : h.chain id = h'.chain id := by
  fun_induction chain h id with
  | case1 id hf =>
    rw [chain, ← ha.frame?_eq (.inr hid), hf]
  | case2 id f hf hp =>
    rw [chain, ← ha.frame?_eq (.inr hid), hf]
    simp [hp]
  | case3 id f hf p hp hlt ih =>
    rw [ih (.step hid (.parent hf hp))]
    conv_rhs => rw [chain, ← ha.frame?_eq (.inr hid), hf]
    simp [hp, hlt]
  | case4 id f hf p hp hlt =>
    rw [chain, ← ha.frame?_eq (.inr hid), hf]
    simp [hp, hlt]

theorem findLocal?_eq (ha : h.Alike free whole roots h') {id : FrameId}
    (hid : h.Reachable roots (.frame id)) (name : Text) :
    h.findLocal? id name = h'.findLocal? id name := by
  rw [findLocal?, findLocal?, ha.frame?_eq (.inr hid)]

theorem lookup_eq (ha : h.Alike free whole roots h') {id : FrameId}
    (hid : h.Reachable roots (.frame id)) (name : Text) : h.lookup id name = h'.lookup id name := by
  rw [lookup, lookup, ← ha.chain_eq hid]
  exact findSome?_congr fun p hp ↦ ha.findLocal?_eq (reachable_of_mem_chain hid p hp) name

theorem owner?_eq (ha : h.Alike free whole roots h') {id : FrameId}
    (hid : h.Reachable roots (.frame id)) (name : Text) : h.owner? id name = h'.owner? id name := by
  rw [owner?, owner?, ← ha.chain_eq hid]
  refine List.find?_congr fun p hp ↦ ?_
  rw [ha.findLocal?_eq (reachable_of_mem_chain hid p hp)]

theorem receiver_eq (ha : h.Alike free whole roots h') {id : FrameId}
    (hid : h.Reachable roots (.frame id)) : h.receiver id = h'.receiver id := by
  rw [receiver, receiver, ← ha.chain_eq hid]
  congr 1
  refine findSome?_congr fun p hp ↦ ?_
  rw [ha.frame?_eq (.inr (reachable_of_mem_chain hid p hp))]

theorem depth_eq (ha : h.Alike free whole roots h') {id : FrameId}
    (hid : h.Reachable roots (.frame id)) : h.depth id = h'.depth id := by
  rw [depth, depth, ha.chain_eq hid]

/-! ### The same contents -/

theorem properties_eq (ha : h.Alike free whole roots h') {id : ObjectId}
    (hid : h.Reachable roots (.object id)) : h.properties id = h'.properties id := by
  rw [properties, properties, ha.objects_eq (.inr hid)]

theorem elements_eq (ha : h.Alike free whole roots h') {id : ArrayId}
    (hid : h.Reachable roots (.array id)) : h.elements id = h'.elements id := by
  rw [elements, elements, ha.arrays_eq (.inr hid)]

theorem functionName_eq (ha : h.Alike free whole roots h') {f : FunctionRef}
    (hf : h.Reaches roots (.function f)) : h.functionName f = h'.functionName f := by
  cases f with
  | builtin m => rfl
  | cell id =>
    have hr := ha.function?_rel (.inr (reaches_function.mp hf))
    rw [functionName, functionName]
    generalize h.function? id = g, h'.function? id = g' at hr ⊢
    cases hr with
    | none => rfl
    | some hr => simp [hr.name_eq]

theorem functionForm_eq (ha : h.Alike free whole roots h') {f : FunctionRef}
    (hf : h.Reaches roots (.function f)) : h.functionForm f = h'.functionForm f := by
  cases f with
  | builtin m => rfl
  | cell id =>
    have hr := ha.function?_rel (.inr (reaches_function.mp hf))
    rw [functionForm, functionForm]
    generalize h.function? id = g, h'.function? id = g' at hr ⊢
    cases hr with
    | none => rfl
    | some hr =>
      cases hr with
      | closure name p hc =>
        cases hc
        rfl
      | captured | host => rfl

theorem member_eq (ha : h.Alike free whole roots h') {v : Value} (hv : h.Reaches roots v)
    (key : Text) : h.member v key = h'.member v key := by
  cases v with
  | object id => simp only [member, property, ha.properties_eq (reaches_object.mp hv)]
  | array id => simp only [member, arrayMember, ha.elements_eq (reaches_array.mp hv)]
  | function f => simp only [member, ha.functionName_eq hv]
  | undefined | null | bool | number | text => rfl

/-! ### The same texts and numbers -/

theorem shows (ha : h.Alike free whole roots h') : h.Shows h' (h.Reaches roots) where
  arrays_eq hid := (ha.arrays_eq (.inr (reaches_array.mp hid))).symm
  element hid _ hv := reaches_element (reaches_array.mp hid) _ (Array.mem_toList_iff.mpr hv)
  functionName_eq hf := (ha.functionName_eq hf).symm

theorem join_eq (ha : h.Alike free whole roots h') {id : ArrayId}
    (hid : h.Reachable roots (.array id)) (separator : Text) :
    h.join id separator = h'.join id separator :=
  (ha.shows.join_eq (reaches_array.mpr hid) separator).symm

theorem toText_eq (ha : h.Alike free whole roots h') {v : Value} (hv : h.Reaches roots v) :
    h.toText v = h'.toText v :=
  (ha.shows.toText_eq hv).symm

theorem toNumber_eq (ha : h.Alike free whole roots h') {v : Value} (hv : h.Reaches roots v) :
    h.toNumber v = h'.toNumber v :=
  (ha.shows.toNumber_eq hv).symm

theorem primitive_eq (ha : h.Alike free whole roots h') {v : Value} (hv : h.Reaches roots v) :
    h.primitive v = h'.primitive v :=
  (ha.shows.primitive_eq hv).symm

theorem looseEquals_eq (ha : h.Alike free whole roots h') {v w : Value} (hv : h.Reaches roots v)
    (hw : h.Reaches roots w) : h.looseEquals v w = h'.looseEquals v w := by
  rw [looseEquals, looseEquals, ha.primitive_eq hv, ha.primitive_eq hw]

theorem arithmetic_eq (ha : h.Alike free whole roots h') (op : ArithmeticOp) {v w : Value}
    (hv : h.Reaches roots v) (hw : h.Reaches roots w) : op.apply h v w = op.apply h' v w := by
  rw [ArithmeticOp.apply, ArithmeticOp.apply, ha.toText_eq hv, ha.toText_eq hw, ha.toNumber_eq hv,
    ha.toNumber_eq hw]

theorem order_eq (ha : h.Alike free whole roots h') (op : OrderOp) {v w : Value}
    (hv : h.Reaches roots v) (hw : h.Reaches roots w) : op.apply h v w = op.apply h' v w := by
  unfold OrderOp.apply
  split
  · rfl
  · rw [ha.toNumber_eq hv, ha.toNumber_eq hw]

theorem result?_eq (ha : h.Alike free whole roots h') (op : BinaryOp) {v w : Value}
    (hv : h.Reaches roots v) (hw : h.Reaches roots w) : op.result? h v w = op.result? h' v w := by
  cases op <;>
    simp only [BinaryOp.result?, ha.arithmetic_eq _ hv hw, ha.order_eq _ hv hw,
      ha.looseEquals_eq hv hw]

theorem relativeIndex_eq (ha : h.Alike free whole roots h') {v : Value} (hv : h.Reaches roots v)
    (length fallback : Nat) :
    h.relativeIndex v length fallback = h'.relativeIndex v length fallback :=
  (ha.shows.relativeIndex_eq hv length fallback).symm

theorem clampedIndex_eq (ha : h.Alike free whole roots h') {v : Value} (hv : h.Reaches roots v)
    (length fallback : Nat) :
    h.clampedIndex v length fallback = h'.clampedIndex v length fallback :=
  (ha.shows.clampedIndex_eq hv length fallback).symm

end Heap.Alike

namespace Heap.Matched

variable {free whole intact : Prop} {roots : List HeapRef} {h h' : Heap}

/-! ### Frames that are made and changed -/

theorem newSibling (ha : h.Matched free whole intact roots h') (id : FrameId)
    (hid : h.Reachable roots (.frame id)) :
    (h.newSibling id).1 = (h'.newSibling id).1 ∧
      (h.newSibling id).2.Matched free whole intact (.frame (h.newSibling id).1 :: roots)
        (h'.newSibling id).2 := by
  rw [Heap.newSibling, Heap.newSibling, ← ha.frame?_eq (.inr hid)]
  refine ha.newFrame _ fun r hr ↦ ?_
  cases hf : h.frame? id with
  | none =>
    rw [hf] at hr
    cases hr
  | some f =>
    rw [hf, Option.map_some, Option.getD_some] at hr
    exact reachable_of_frame hid hf (Frame.mem_references_sibling hr)

theorem define (ha : h.Matched free whole intact roots h') {id : FrameId}
    (hid : h.Reachable roots (.frame id)) (name : Text) {v : Value} (kind : BindingKind)
    (hv : h.Reaches roots v) :
    (h.define id name v kind).Matched free whole intact roots (h'.define id name v kind) := by
  refine ha.modifyFrame id _ hid (fun _ hf r hr ↦ ?_) fun _ ↦ rfl
  exact (Frame.mem_references_define hr).elim (reachable_of_frame hid hf) (hv r)

private theorem mem_assignFirst {name : Text} {v : Value} {bs : List Binding} {b : Binding}
    (hb : b ∈ Frame.assignFirst name v bs) : b.value = v ∨ b ∈ bs := by
  induction bs with
  | nil => cases hb
  | cons c rest ih =>
    rw [Frame.assignFirst] at hb
    split at hb <;> grind

/-- An assignment has the same outcome in both, and stores what is reached. -/
theorem assign (ha : h.Matched free whole intact roots h') {id : FrameId}
    (hid : h.Reachable roots (.frame id)) (name : Text) {v : Value} (hv : h.Reaches roots v) :
    (h.assign id name v).1 = (h'.assign id name v).1 ∧
      (h.assign id name v).2.Matched free whole intact roots (h'.assign id name v).2 := by
  rw [Heap.assign, Heap.assign, ← ha.owner?_eq hid]
  cases ho : h.owner? id name with
  | none => exact ⟨rfl, ha⟩
  | some owner =>
    have howner := reachable_of_mem_chain hid owner (List.mem_of_find?_eq_some ho)
    dsimp only
    rw [← ha.findLocal?_eq howner]
    cases h.findLocal? owner name with
    | none => exact ⟨rfl, ha⟩
    | some b =>
      dsimp only
      split
      · exact ⟨rfl, ha⟩
      · refine ⟨rfl, ha.modifyFrame owner _ howner (fun f hf r hr ↦ ?_) fun _ ↦ rfl⟩
        rw [Frame.mem_references] at hr
        have hold (hr : r ∈ f.references) := reachable_of_frame howner hf hr
        rw [Frame.mem_references] at hold
        rcases hr with hr | ⟨b, hb, hr⟩ | hr
        · exact hold (.inl hr)
        · rcases mem_assignFirst hb with rfl | hb
          · exact hv r hr
          · exact hold (.inr (.inl ⟨b, hb, hr⟩))
        · exact hold (.inr (.inr hr))

end Heap.Matched

end EcmaTree
