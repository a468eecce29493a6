import EcmaTree.Evaluation.Targets
import EcmaTree.Evaluation.Loops
import EcmaTree.Proofs.Activations
import EcmaTree.Proofs.Alike.Showing
import EcmaTree.Proofs.Heap.Collection

/-!
# Alike states

Two states are alike when they agree on everything but the heap, and the heaps are alike as far as
the evaluation can still reach: from the owners, and from what is at hand. Collecting in one of
them, or in both, keeps them alike. Of the first of them more can be asked: that its heap is sound,
and that its call trace accounts for what is active.
-/

namespace EcmaTree

/-- Two configurations, and how their evaluations are compared. -/
structure Pairing where
  left : Config
  right : Config
  /-- Unsupported nodes of the first may be any nodes in the second. -/
  free : Prop
  /-- The second may have more levels of evaluation. -/
  short : Prop
  /-- Whole heaps are compared, with the collections that happened. -/
  whole : Prop
  /-- The heap of the first is sound. -/
  intact : Prop
  /-- What is active in the first, if that is known. -/
  active : Option (List Activation)
  short_of_free : free → short
  unbound_eq : left.unbound = right.unbound
  maxDepth_eq : left.maxDepth = right.maxDepth
  noteUnbound_eq : left.noteUnbound = right.noteUnbound
  source_eq : left.source = right.source
  others_eq : left.others = right.others
  collects_eq : whole → left.collects = right.collects

/-- One configuration for both evaluations. -/
def Pairing.same (c : Config) (free short whole : Prop) (h : free → short) : Pairing where
  left := c
  right := c
  free := free
  short := short
  whole := whole
  intact := False
  active := none
  short_of_free := h
  unbound_eq := rfl
  maxDepth_eq := rfl
  noteUnbound_eq := rfl
  source_eq := rfl
  others_eq := rfl
  collects_eq _ := rfl

/-- The same comparison inside of a further activation. -/
def Pairing.entered (p : Pairing) (a : Activation) : Pairing :=
  { p with active := p.active.map (a :: ·) }

/-- What something refers to in the heap. -/
class Carries (α : Type) where
  refs : α → List HeapRef

namespace Carries

variable {α β : Type}

instance : Carries Unit := ⟨fun _ ↦ []⟩
instance : Carries Bool := ⟨fun _ ↦ []⟩
instance : Carries Nat := ⟨fun _ ↦ []⟩
instance : Carries Number := ⟨fun _ ↦ []⟩
instance : Carries Text := ⟨fun _ ↦ []⟩
instance : Carries CallTrace := ⟨fun _ ↦ []⟩
instance : Carries AssignResult := ⟨fun _ ↦ []⟩
instance : Carries Value := ⟨fun v ↦ v.ref?.toList⟩
instance : Carries (List Value) := ⟨List.filterMap Value.ref?⟩
instance : Carries (Array Value) := ⟨fun es ↦ refs es.toList⟩
instance : Carries Properties := ⟨fun ps ↦ refs ps.values⟩
instance : Carries Holder := ⟨Holder.references⟩
instance : Carries Binding := ⟨fun b ↦ refs b.value⟩
instance : Carries Thrown := ⟨fun t ↦ refs t.value⟩

instance [Carries α] : Carries (Option α) := ⟨fun o ↦ o.elim [] refs⟩
instance [Carries α] [Carries β] : Carries (α × β) := ⟨fun p ↦ refs p.1 ++ refs p.2⟩

instance : Carries Completion := ⟨fun c ↦ refs c.value?⟩

instance [Carries α] : Carries (Except Thrown α) := ⟨fun
  | .ok a => refs a
  | .error t => refs t⟩

instance [Carries α] [Carries β] : Carries (Round α β) := ⟨fun
  | .again a => refs a
  | .over b => refs b⟩

instance : Carries Root := ⟨fun
  | .named _ => []
  | .value v => refs v⟩

instance : Carries Target := ⟨fun
  | .named _ => []
  | .member root _ _ => refs root⟩

instance : Carries Stem := ⟨fun
  | .target t => refs t
  | .value v => refs v⟩

section

variable [Carries α] [Carries β]

@[simp, grind =] theorem refs_unit (u : Unit) : refs u = [] := rfl
@[simp, grind =] theorem refs_bool (b : Bool) : refs b = [] := rfl
@[simp, grind =] theorem refs_nat (n : Nat) : refs n = [] := rfl
@[simp, grind =] theorem refs_number (n : Number) : refs n = [] := rfl
@[simp, grind =] theorem refs_text (t : Text) : refs t = [] := rfl
@[simp, grind =] theorem refs_calls (t : CallTrace) : refs t = [] := rfl
@[simp, grind =] theorem refs_assigned (r : AssignResult) : refs r = [] := rfl

@[simp, grind =] theorem refs_undefinedValue : refs Value.undefined = [] := rfl
@[simp, grind =] theorem refs_nullValue : refs Value.null = [] := rfl
@[simp, grind =] theorem refs_boolValue (b : Bool) : refs (Value.bool b) = [] := rfl
@[simp, grind =] theorem refs_numberValue (n : Number) : refs (Value.number n) = [] := rfl
@[simp, grind =] theorem refs_natValue (n : Nat) : refs (Value.ofNat n) = [] := rfl
@[simp, grind =] theorem refs_textValue (t : Text) : refs (Value.text t) = [] := rfl
@[simp, grind =] theorem refs_objectValue (id : ObjectId) :
    refs (Value.object id) = [.object id] := rfl
@[simp, grind =] theorem refs_arrayValue (id : ArrayId) : refs (Value.array id) = [.array id] := rfl
@[simp, grind =] theorem refs_functionValue (id : FunctionId) :
    refs (Value.function (.cell id)) = [.function id] := rfl
@[simp, grind =] theorem refs_builtinValue (m : Builtin) :
    refs (Value.function (.builtin m)) = [] := rfl

@[simp, grind =] theorem refs_nil : refs ([] : List Value) = [] := rfl

@[simp, grind =] theorem refs_cons (v : Value) (vs : List Value) :
    refs (v :: vs) = refs v ++ refs vs := by
  change List.filterMap Value.ref? (v :: vs) = v.ref?.toList ++ List.filterMap Value.ref? vs
  rw [List.filterMap_cons]
  cases v.ref? <;> rfl

theorem mem_refs_list {vs : List Value} {r : HeapRef} :
    r ∈ refs vs ↔ ∃ v ∈ vs, v.ref? = some r :=
  List.mem_filterMap

@[simp, grind =] theorem refs_array (es : Array Value) : refs es = refs es.toList := rfl
@[simp, grind =] theorem refs_properties (ps : Properties) : refs ps = refs ps.values := rfl
@[simp, grind =] theorem refs_binding (b : Binding) : refs b = refs b.value := rfl
@[simp, grind =] theorem refs_thrown (t : Thrown) : refs t = refs t.value := rfl
@[simp, grind =] theorem refs_none : refs (none : Option α) = [] := rfl
@[simp, grind =] theorem refs_some (a : α) : refs (some a) = refs a := rfl
@[simp, grind =] theorem refs_pair (a : α) (b : β) : refs (a, b) = refs a ++ refs b := rfl
@[simp, grind =] theorem refs_value? (c : Completion) : refs c.value? = refs c := rfl
@[simp, grind =] theorem refs_normal (v : Option Value) : refs (Completion.normal v) = refs v := rfl
@[simp, grind =] theorem refs_returned (v : Value) : refs (Completion.returned v) = refs v := rfl
@[simp, grind =] theorem refs_broke (l : Option Text) : refs (Completion.broke l) = [] := rfl
@[simp, grind =] theorem refs_continued (l : Option Text) :
    refs (Completion.continued l) = [] := rfl
@[simp, grind =] theorem refs_ok (a : α) : refs (Except.ok a : Except Thrown α) = refs a := rfl
@[simp, grind =] theorem refs_error (t : Thrown) :
    refs (Except.error t : Except Thrown α) = refs t := rfl
@[simp, grind =] theorem refs_again (a : α) : refs (Round.again a : Round α β) = refs a := rfl
@[simp, grind =] theorem refs_over (b : β) : refs (Round.over b : Round α β) = refs b := rfl
@[simp, grind =] theorem refs_rootNamed (name : Text) : refs (Root.named name) = [] := rfl
@[simp, grind =] theorem refs_rootValue (v : Value) : refs (Root.value v) = refs v := rfl
@[simp, grind =] theorem refs_named (name : Text) : refs (Target.named name) = [] := rfl
@[simp, grind =] theorem refs_member (root : Root) (path : List Text) (key : Text) :
    refs (Target.member root path key) = refs root := rfl
@[simp, grind =] theorem refs_stemTarget (t : Target) : refs (Stem.target t) = refs t := rfl
@[simp, grind =] theorem refs_stemValue (v : Value) : refs (Stem.value v) = refs v := rfl
@[simp, grind =] theorem refs_targetHolder (t : Target) : refs t.holder = refs t := by
  rcases t with name | ⟨name | v, path, key⟩
  · rfl
  · rfl
  · exact (refs_cons v []).trans (List.append_nil _)

@[simp, grind =] theorem refs_targetChild (t : Target) (key : Text) :
    refs (t.child key) = refs t := by
  cases t <;> rfl

@[simp, grind =] theorem refs_stemHolder (s : Stem) : refs s.holder = refs s := by
  cases s with
  | target t => exact refs_targetHolder t
  | value v => exact (refs_cons v []).trans (List.append_nil _)

@[simp, grind =] theorem refs_stemChild (s : Stem) (key : Text) : refs (s.child key) = refs s := by
  cases s with
  | target t => exact refs_targetChild t key
  | value v => rfl

@[simp, grind =] theorem refs_frameHeld (id : FrameId) : refs (Holder.frame id) = [.frame id] := rfl
@[simp, grind =] theorem refs_valuesHeld (vs : List Value) :
    refs (Holder.values vs) = refs vs := rfl
@[simp, grind =] theorem refs_elementsHeld (es : Array Value) :
    refs (Holder.elements es) = refs es.toList := rfl
@[simp, grind =] theorem refs_propertiesHeld (ps : Properties) :
    refs (Holder.properties ps) = refs ps.values := rfl

end

end Carries

open Carries

namespace Heap

variable {h : Heap} {roots kept : List HeapRef}

/-- What a value at hand refers to is reached. -/
theorem reaches_of_subset (hk : ∀ r ∈ kept, h.Reachable roots r) {v : Value} (hv : refs v ⊆ kept) :
    h.Reaches roots v :=
  fun r hr ↦ hk r (hv (Option.mem_toList.mpr hr))

theorem reachesAll_of_subset (hk : ∀ r ∈ kept, h.Reachable roots r) {vs : List Value}
    (hvs : refs vs ⊆ kept) : h.ReachesAll roots vs :=
  fun v hv r hr ↦ hk r (hvs (mem_refs_list.mpr ⟨v, hv, hr⟩))

theorem reachable_of_reaches {v : Value} (hv : h.Reaches roots v) :
    ∀ r ∈ refs v, h.Reachable roots r :=
  fun r hr ↦ hv r (Option.mem_toList.mp hr)

theorem reachable_of_reachesAll {vs : List Value} (hvs : h.ReachesAll roots vs) :
    ∀ r ∈ refs vs, h.Reachable roots r :=
  reachable_of_mem_refs hvs

end Heap

/-- What an evaluation can still reach: the owners, and what is at hand. -/
def State.roots (s : State) (kept : List HeapRef) : List HeapRef := kept ++ s.owners

/-- States that are the same for every evaluation to come that begins with something at hand. -/
structure State.Alike (p : Pairing) (kept : List HeapRef) (s t : State) : Prop where
  heap : s.heap.Matched p.free p.whole p.intact (s.roots kept) t.heap
  frame : s.frame = t.frame
  depth : s.depth = t.depth
  calls : s.calls = t.calls
  log : s.log = t.log
  notices : s.notices = t.notices
  held : s.held = t.held
  moments : p.whole → s.moments = t.moments
  accounting : p.whole → s.accounting = t.accounting
  accounts : ∀ active ∈ p.active, p.left.Accounts active s.calls s.depth

namespace State

variable {s : State} {kept : List HeapRef}

/-- What is at hand is reached. -/
theorem reachable_of_mem {r : HeapRef} (hr : r ∈ kept) : s.heap.Reachable (s.roots kept) r :=
  .root (List.mem_append_left _ hr)

/-- An owner is reached. -/
theorem reachable_of_mem_owners {r : HeapRef} (hr : r ∈ s.owners) :
    s.heap.Reachable (s.roots kept) r :=
  .root (List.mem_append_right _ hr)

theorem reachable_frame : s.heap.Reachable (s.roots kept) (.frame s.frame) :=
  reachable_of_mem_owners (List.mem_cons_self ..)

namespace Alike

variable {p : Pairing} {t : State} {kept' : List HeapRef}

/-- Every state is like itself, if it is what is asked of the first. -/
theorem refl (p : Pairing) (kept : List HeapRef) (s : State)
    (hsound : p.intact → s.heap.Sound (s.roots kept))
    (haccounts : ∀ active ∈ p.active, p.left.Accounts active s.calls s.depth) :
    s.Alike p kept s where
  heap := .refl p.free p.whole hsound
  frame := rfl
  depth := rfl
  calls := rfl
  log := rfl
  notices := rfl
  held := rfl
  moments _ := rfl
  accounting _ := rfl
  accounts := haccounts

theorem owners_eq (ha : s.Alike p kept t) : s.owners = t.owners := by
  rw [owners, owners, ha.frame, ha.held]

/-- Something else is at hand, which is reached. -/
theorem keep (ha : s.Alike p kept t) (hk : ∀ r ∈ kept', s.heap.Reachable (s.roots kept) r) :
    s.Alike p kept' t :=
  { ha with
    heap := ha.heap.shrink fun r hr ↦
      (List.mem_append.mp hr).elim (hk r) reachable_of_mem_owners }

theorem mono (ha : s.Alike p kept t) (hk : kept' ⊆ kept) : s.Alike p kept' t :=
  ha.keep fun _ hr ↦ reachable_of_mem (hk hr)

/-- What is held is at hand whenever it is needed. -/
theorem recalled (ha : s.Alike p kept t) {x : Holder} (hx : x ∈ s.held) :
    s.Alike p (refs x ++ kept) t :=
  ha.keep fun r hr ↦ by
    rcases List.mem_append.mp hr with hr | hr
    · exact reachable_of_mem_owners (List.mem_cons_of_mem _ (List.mem_flatMap.mpr ⟨x, hx, hr⟩))
    · exact reachable_of_mem hr

/-- Something at hand is held. -/
theorem hold (ha : s.Alike p kept t) {x : Holder} (hx : refs x ⊆ kept) :
    State.Alike p kept { s with held := x :: s.held } { t with held := x :: t.held } :=
  { ha with
    heap := ha.heap.shrink fun r hr ↦ .root (by
      have : x.references ⊆ kept := hx
      simp only [roots, owners, List.flatMap_cons] at hr ⊢
      grind)
    held := congrArg (x :: ·) ha.held }

/-- What is no longer held is at hand again. -/
theorem release (ha : s.Alike p kept t) {x : Holder} {outer outer' : List Holder}
    (hs : s.held = x :: outer) (ho : outer = outer') :
    State.Alike p (refs x ++ kept) { s with held := outer } { t with held := outer' } :=
  { ha with
    heap := ha.heap.shrink fun r hr ↦ .root (by
      have : refs x = x.references := rfl
      simp only [roots, owners, hs, List.flatMap_cons, this] at hr ⊢
      grind)
    held := ho }

theorem forget (ha : s.Alike p kept t) : s.Alike p [] t := ha.mono (List.nil_subset _)

/-- Heaps that are alike take the place of the old ones. -/
theorem withHeap (ha : s.Alike p kept t) {h h' : Heap}
    (hh : h.Matched p.free p.whole p.intact (s.roots kept') h') :
    State.Alike p kept' { s with heap := h } { t with heap := h' } :=
  { ha with heap := hh }

end Alike

end State

/-! ### Collecting -/

namespace Heap

variable {h : Heap} {owners : List HeapRef}

theorem cell?_collect_uses (h : Heap) (owners : List HeapRef) (r : HeapRef) (c : Cell) :
    (h.collect (h.uses owners)).2.cell? r = some c ↔ h.cell? r = some c ∧ h.Reachable owners r :=
  cell?_collect (fun r _ ↦ count_uses h owners r) r c

/-- What is reached stays as it is. -/
theorem cell?_collect_of_reachable {r : HeapRef} (hr : h.Reachable owners r) :
    (h.collect (h.uses owners)).2.cell? r = h.cell? r := by
  apply Option.ext
  intro c
  rw [cell?_collect_uses]
  simp [hr]

/-- Nothing is reached that was not before. -/
theorem reachable_collect {r : HeapRef} :
    (h.collect (h.uses owners)).2.Reachable owners r ↔ h.Reachable owners r := by
  constructor
  · intro hr
    induction hr with
    | root hr => exact .root hr
    | @step a b _ hab ih =>
      refine .step ih ((refers_congr ?_).mp hab)
      rw [references_eq, references_eq, cell?_collect_of_reachable ih]
  · intro hr
    induction hr with
    | root hr => exact .root hr
    | @step a b ha hab ih =>
      refine .step ih ((refers_congr ?_).mp hab)
      rw [references_eq, references_eq, cell?_collect_of_reachable ha]

/-- What is not reached is gone. -/
theorem cell?_collect_of_not_reachable {r : HeapRef} (hr : ¬ h.Reachable owners r) :
    (h.collect (h.uses owners)).2.cell? r = none := by
  apply Option.ext
  intro c
  rw [cell?_collect_uses]
  simp [hr]

/-- What a collection leaves is sound. -/
theorem Sound.collect (hs : h.Sound owners) : (h.collect (h.uses owners)).2.Sound owners := by
  have hholds {r : HeapRef} (hr : h.Reachable owners r) :
      (h.collect (h.uses owners)).2.holds r = true := by
    rw [holds_eq, cell?_collect_of_reachable hr, ← holds_eq]
    exact hs.holds hr
  constructor
  case roots => exact fun r hr ↦ hholds (.root hr)
  case fits => exact fun r c hc ↦ hs.fits r c ((cell?_collect_uses ..).mp hc).1
  case closed =>
    intro r c hc x hx
    obtain ⟨hbefore, hr⟩ := (cell?_collect_uses ..).mp hc
    exact hholds (hr.next ((references_of_cell? hbefore).symm ▸ hx))

namespace Alike

variable {free whole : Prop} {h' : Heap}

/-- What the owners reach stays, so the first heap is alike to the second after a collection. -/
theorem collect_left (ha : h.Alike free whole owners h') (hw : ¬ whole) :
    (h.collect (h.uses owners)).2.Alike free whole owners h' where
  frames := by simp [collect, restrict, ha.frames]
  objects := by simp [collect, restrict, ha.objects]
  arrays := by simp [collect, restrict, ha.arrays]
  functions := by simp [collect, restrict, ha.functions]
  cells r hr := by
    have hr := reachable_collect.mp (hr.resolve_left hw)
    rw [cell?_collect_of_reachable hr]
    exact ha.cells r (.inr hr)

theorem collect_right (ha : h.Alike free whole owners h') (hw : ¬ whole) :
    h.Alike free whole owners (h'.collect (h'.uses owners)).2 where
  frames := by simp [collect, restrict, ha.frames]
  objects := by simp [collect, restrict, ha.objects]
  arrays := by simp [collect, restrict, ha.arrays]
  functions := by simp [collect, restrict, ha.functions]
  cells r hr := by
    have hr := hr.resolve_left hw
    rw [cell?_collect_of_reachable ((ha.reachable_iff fun s hs ↦ .root hs).mp hr)]
    exact ha.cells r (.inr hr)

/-- Collections of alike heaps remove the same things. -/
theorem collect_both (ha : h.Alike free whole owners h') (hw : whole) :
    (h.collect (h.uses owners)).1 = (h'.collect (h'.uses owners)).1 ∧
      (h.collect (h.uses owners)).2.Alike free whole owners (h'.collect (h'.uses owners)).2 := by
  have hreach (r : HeapRef) : h.Reachable owners r ↔ h'.Reachable owners r :=
    ha.reachable_iff fun s hs ↦ .root hs
  have hholds (r : HeapRef) : h.holds r = h'.holds r := by
    have hc := ha.cells r (.inl hw)
    rw [holds_eq, holds_eq]
    generalize h.cell? r = c, h'.cell? r = c' at hc ⊢
    cases hc <;> rfl
  refine ⟨?_, ?_, ?_, ?_, ?_, ?_⟩
  · rw [fst_collect fun r _ ↦ count_uses h owners r, fst_collect fun r _ ↦ count_uses h' owners r]
    simp only [hreach, hholds]
  · simp [collect, restrict, ha.frames]
  · simp [collect, restrict, ha.objects]
  · simp [collect, restrict, ha.arrays]
  · simp [collect, restrict, ha.functions]
  · intro r _
    by_cases hr : h.Reachable owners r
    · rw [cell?_collect_of_reachable hr, cell?_collect_of_reachable ((hreach r).mp hr)]
      exact ha.cells r (.inl hw)
    · rw [cell?_collect_of_not_reachable hr, cell?_collect_of_not_reachable (mt (hreach r).mpr hr)]
      exact .none

end Alike

namespace Matched

variable {free whole intact : Prop} {h' : Heap}

theorem collect_left (ha : h.Matched free whole intact owners h') (hw : ¬ whole) :
    (h.collect (h.uses owners)).2.Matched free whole intact owners h' :=
  ⟨ha.toAlike.collect_left hw, fun hi ↦ (ha.sound hi).collect⟩

theorem collect_right (ha : h.Matched free whole intact owners h') (hw : ¬ whole) :
    h.Matched free whole intact owners (h'.collect (h'.uses owners)).2 :=
  ⟨ha.toAlike.collect_right hw, ha.sound⟩

theorem collect_both (ha : h.Matched free whole intact owners h') (hw : whole) :
    (h.collect (h.uses owners)).1 = (h'.collect (h'.uses owners)).1 ∧
      (h.collect (h.uses owners)).2.Matched free whole intact owners
        (h'.collect (h'.uses owners)).2 :=
  (ha.toAlike.collect_both hw).imp_right fun hcollect ↦
    ⟨hcollect, fun hi ↦ (ha.sound hi).collect⟩

end Matched

end Heap

namespace State

@[simp] theorem held_passMoment (c : Config) (m : Moment) (s : State) :
    (s.passMoment c m).held = s.held := by
  rw [passMoment]
  split <;> rfl

namespace Alike

variable {p : Pairing} {s t : State} {kept : List HeapRef}

theorem booked (ha : s.Alike p kept t) : s.booked.Alike p kept t.booked :=
  { ha with
    accounting hw := by
      rw [State.booked, State.booked, ha.accounting hw, ha.heap.created_eq] }

theorem heap_owners (ha : s.Alike p [] t) :
    s.heap.Matched p.free p.whole p.intact s.owners t.heap :=
  ha.heap

theorem collect_left (ha : s.Alike p [] t) (hw : ¬ p.whole) : s.collect.Alike p [] t :=
  { ha with
    heap := ha.heap_owners.collect_left hw
    moments := fun h ↦ (hw h).elim
    accounting := fun h ↦ (hw h).elim }

theorem collect_right (ha : s.Alike p [] t) (hw : ¬ p.whole) : s.Alike p [] t.collect := by
  have hh := ha.heap_owners.collect_right hw
  rw [ha.owners_eq] at hh
  exact { ha with
    heap := by
      rw [State.collect, roots, List.nil_append, ha.owners_eq]
      exact hh
    moments := fun h ↦ (hw h).elim
    accounting := fun h ↦ (hw h).elim }

theorem collect_both (ha : s.Alike p [] t) (hw : p.whole) : s.collect.Alike p [] t.collect := by
  obtain ⟨hremoved, hh⟩ := ha.heap_owners.collect_both hw
  have hbooked := ha.booked.accounting hw
  exact { ha with
    heap := by
      rw [State.collect, State.collect, ← ha.owners_eq]
      exact hh
    accounting := fun _ ↦ by
      rw [State.collect, State.collect, ← ha.owners_eq]
      exact congrArg₂ Accounting.collectionEnded hbooked hremoved }

/-- A moment passes. Whether there is a collection in the one or the other evaluation makes no
difference, unless whole heaps are compared; then it happens in both or in none. -/
theorem passMoment (ha : s.Alike p [] t) (m : Moment) :
    (s.passMoment p.left m).Alike p [] (t.passMoment p.right m) := by
  have hb := ha.booked
  rw [State.passMoment, State.passMoment]
  by_cases hw : p.whole
  · simp only [← hb.moments hw, ← hb.accounting hw, ← p.collects_eq hw]
    split
    · have hc := hb.collect_both hw
      exact { hc with moments := fun h ↦ congrArg (· + 1) (hc.moments h) }
    · exact { hb with moments := fun h ↦ congrArg (· + 1) (hb.moments h) }
  · have hl : State.Alike p [] (if p.left.collects m s.booked.moments s.booked.accounting then
        s.booked.collect else s.booked) t.booked := by
      split
      · exact hb.collect_left hw
      · exact hb
    have hr := fun u (hu : State.Alike p [] u t.booked) ↦ show State.Alike p [] u
        (if p.right.collects m t.booked.moments t.booked.accounting then t.booked.collect
          else t.booked) by
      split
      · exact hu.collect_right hw
      · exact hu
    exact { hr _ hl with moments := fun h ↦ (hw h).elim }

end Alike

end State

end EcmaTree
