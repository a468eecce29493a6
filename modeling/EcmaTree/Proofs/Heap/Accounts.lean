import EcmaTree.Session.Workspace
import Mathlib

/-!
# Accounts

In whatever order things are made, changed, removed and collected, the accounts of the collector
agree with the heap: they count what there is, and the most there was since counting began. The work
of the collections that nobody asks for is linear in what was made. Such a collection waits for as
many new things as the last one left, so what it looks at is at most twice what was made in between.
-/

namespace EcmaTree

namespace Store

variable {α : Type}

theorem restrict_restrict (s : Store α) (keep keep' : Nat → Bool) :
    (s.restrict keep).restrict keep' = s.restrict fun i ↦ keep i && keep' i := by
  simp only [restrict, Array.mapIdx_mapIdx]
  congr 2
  funext i c
  by_cases hkeep : keep i <;> simp [hkeep]

theorem restrict_true (s : Store α) : s.restrict (fun _ ↦ true) = s := by
  simp only [restrict, if_true]
  congr 1
  exact Array.ext (Array.size_mapIdx ..) fun i _ _ ↦ Array.getElem_mapIdx ..

end Store

namespace Heap

variable {h h' : Heap}

/-- Making one thing. -/
inductive Makes (h : Heap) : Heap → Prop where
  | frame (f : Frame) : Makes h (h.newFrame f).2
  | object (ps : Properties) : Makes h (h.newObject ps).2
  | array (es : Array Value) : Makes h (h.newArray es).2
  | function (f : Function) : Makes h (h.newFunction f).2

/-- Changing one thing in place. -/
inductive Modifies (h : Heap) : Heap → Prop where
  | frame (id : FrameId) (f : Frame → Frame) : Modifies h (h.modifyFrame id f)
  | object (id : ObjectId) (f : Properties → Properties) : Modifies h (h.modifyObject id f)
  | array (id : ArrayId) (f : Array Value → Array Value) : Modifies h (h.modifyArray id f)
  | function (id : FunctionId) (f : Function → Function) : Modifies h (h.modifyFunction id f)

theorem length_cells (h : Heap) :
    h.cells.length = h.frames.indices.length + h.objects.indices.length +
      h.arrays.indices.length + h.functions.indices.length := by
  simp only [cells, List.length_append, List.length_map]

theorem Makes.length_cells_eq (hm : h.Makes h') : h'.cells.length = h.cells.length + 1 := by
  cases hm <;>
  · simp only [length_cells, newFrame, newObject, newArray, newFunction, Store.indices_push,
      List.length_append, List.length_singleton]
    omega

theorem Makes.created_eq (hm : h.Makes h') : h'.created = h.created + 1 := by
  cases hm <;>
  · simp only [created, newFrame, newObject, newArray, newFunction, Store.size_push]
    omega

theorem Modifies.length_cells_eq (hm : h.Modifies h') : h'.cells.length = h.cells.length := by
  cases hm <;>
    simp only [length_cells, modifyFrame, modifyObject, modifyArray, modifyFunction,
      Store.indices_modify]

theorem Modifies.created_eq (hm : h.Modifies h') : h'.created = h.created := by
  cases hm <;>
    simp only [created, modifyFrame, modifyObject, modifyArray, modifyFunction, Store.size_modify]

theorem created_restrict (h : Heap) (keep : HeapRef → Bool) :
    (h.restrict keep).created = h.created := by
  simp only [created, restrict, Store.size_restrict]

theorem length_cells_restrict_le (h : Heap) (keep : HeapRef → Bool) :
    (h.restrict keep).cells.length ≤ h.cells.length := by
  rw [cells_restrict]
  exact List.length_filter_le _ _

/-- What a collection removes and what it leaves is all that there was. -/
theorem length_cells_collect (h : Heap) (uses : Tally) :
    (h.collect uses).1 + (h.collect uses).2.cells.length = h.cells.length := by
  rw [collect, cells_restrict, unmarked, Nat.add_comm]
  exact (List.length_eq_length_filter_add _).symm

theorem restrict_restrict (h : Heap) (keep keep' : HeapRef → Bool) :
    (h.restrict keep).restrict keep' = h.restrict fun r ↦ keep r && keep' r := by
  simp only [restrict, Store.restrict_restrict]

theorem restrict_true (h : Heap) : h.restrict (fun _ ↦ true) = h := by
  simp only [restrict, Store.restrict_true]

/-- What nobody refers to is removed by keeping some things. -/
theorem exists_release_eq (h : Heap) (owners : List HeapRef) :
    ∃ keep, h.release owners = h.restrict keep := by
  fun_induction h.release owners with
  | case1 h => exact ⟨_, h.restrict_true.symm⟩
  | case2 h _ uses ih =>
    obtain ⟨keep, hkeep⟩ := ih
    exact ⟨_, hkeep.trans (h.restrict_restrict _ keep)⟩

end Heap

/-- A heap and the accounts of its collector, with what the accounts are to be held against. -/
structure Ledger where
  heap : Heap
  accounting : Accounting
  /-- How many things there were since counting began, the newest number first. -/
  counts : List Nat
  /-- How many things the collections that nobody asked for looked at. -/
  examined : Nat

namespace Ledger

variable {l m : Ledger}

/-- Nothing was made so far. -/
def start : Ledger := ⟨.empty, .start, [0], 0⟩

/-- The ledger after other things came to be in the heap. -/
def book (l : Ledger) (h : Heap) (a : Accounting) : Ledger :=
  { l with heap := h, accounting := a, counts := h.cells.length :: l.counts }

/-- One more thing was made. -/
def made (l : Ledger) (h : Heap) : Ledger := l.book h (l.accounting.made 1)

/-- Only some things were kept, without a collection. -/
def kept (l : Ledger) (keep : HeapRef → Bool) : Ledger :=
  let left := l.heap.restrict keep
  l.book left (l.accounting.gone (l.heap.cells.length - left.cells.length))

/-- Collects, given how often each thing is held. -/
def collect (l : Ledger) (uses : Tally) : Ledger :=
  let (removed, left) := l.heap.collect uses
  l.book left (l.accounting.collectionEnded removed)

/-- Collects if it is due. -/
def collectIfDue (l : Ledger) (uses : Tally) : Ledger :=
  if l.accounting.isDue then
    { l.collect uses with examined := l.examined + l.heap.cells.length }
  else l

/-- The counters begin anew. -/
def reset (l : Ledger) : Ledger :=
  { l with accounting := l.accounting.reset, counts := [l.heap.cells.length] }

/-- One thing that can happen. -/
inductive Event (l : Ledger) : Ledger → Prop where
  | made {h : Heap} (hm : l.heap.Makes h) : Event l (l.made h)
  | modified {h : Heap} (hm : l.heap.Modifies h) : Event l { l with heap := h }
  | kept (keep : HeapRef → Bool) : Event l (l.kept keep)
  | collect (uses : Tally) : Event l (l.collect uses)
  | collectIfDue (uses : Tally) : Event l (l.collectIfDue uses)
  | threshold (n : Nat) :
      Event l { l with accounting := { l.accounting with threshold := n } }
  | automatic (on : Bool) :
      Event l { l with accounting := { l.accounting with automatic := on } }
  | reset : Event l l.reset

/-- Any number of things that happen one after the other. -/
def Course : Ledger → Ledger → Prop := Relation.ReflTransGen Event

/-! ## What every event keeps -/

/-- The accounts agree with the heap. Twice what was made since the last collection is what the next
one may look at. -/
structure Balanced (l : Ledger) : Prop where
  live_eq : l.accounting.live = l.heap.cells.length
  mem_counts : l.heap.cells.length ∈ l.counts
  isGreatest : IsGreatest {n | n ∈ l.counts} l.accounting.peak
  live_le : l.accounting.live ≤ l.accounting.survivors + l.accounting.sinceCollection
  examined_le : l.examined + 2 * l.accounting.sinceCollection ≤ 2 * l.heap.created

theorem balanced_start : start.Balanced where
  live_eq := rfl
  mem_counts := List.mem_singleton_self 0
  isGreatest := ⟨List.mem_singleton_self 0, fun _ hn ↦ (List.mem_singleton.mp hn).le⟩
  live_le := le_rfl
  examined_le := le_rfl

theorem isGreatest_cons_max {counts : List Nat} {peak : Nat} (h : IsGreatest {n | n ∈ counts} peak)
    (n : Nat) : IsGreatest {m | m ∈ n :: counts} (max peak n) := by
  constructor
  · rcases Nat.le_total n peak with hn | hn
    · rw [Nat.max_eq_left hn]
      exact List.mem_cons_of_mem _ h.1
    · rw [Nat.max_eq_right hn]
      exact List.mem_cons_self
  · intro m hm
    obtain rfl | hm := List.mem_cons.mp hm
    · exact Nat.le_max_right _ _
    · exact (h.2 hm).trans (Nat.le_max_left _ _)

namespace Balanced

/-- There are never more things than at the peak. -/
theorem live_le_peak (hl : l.Balanced) : l.accounting.live ≤ l.accounting.peak := by
  rw [hl.live_eq]
  exact hl.isGreatest.2 hl.mem_counts

/-- The peak stays where it is while things only go away. -/
theorem isGreatest_cons (hl : l.Balanced) {n : Nat} (hn : n ≤ l.accounting.live) :
    IsGreatest {m | m ∈ n :: l.counts} l.accounting.peak := by
  have h := isGreatest_cons_max hl.isGreatest n
  rwa [Nat.max_eq_left (hn.trans hl.live_le_peak)] at h

theorem made (hl : l.Balanced) {h : Heap} (hm : l.heap.Makes h) : (l.made h).Balanced where
  live_eq := by
    change l.accounting.live + 1 = h.cells.length
    rw [hm.length_cells_eq, hl.live_eq]
  mem_counts := List.mem_cons_self
  isGreatest := by
    change IsGreatest {n | n ∈ h.cells.length :: l.counts}
      (max l.accounting.peak (l.accounting.live + 1))
    rw [hl.live_eq, ← hm.length_cells_eq]
    exact isGreatest_cons_max hl.isGreatest _
  live_le := Nat.add_le_add_right hl.live_le 1
  examined_le := by
    change l.examined + 2 * (l.accounting.sinceCollection + 1) ≤ 2 * h.created
    have := hl.examined_le
    rw [hm.created_eq]
    omega

theorem modified (hl : l.Balanced) {h : Heap} (hm : l.heap.Modifies h) :
    Balanced { l with heap := h } where
  live_eq := hl.live_eq.trans hm.length_cells_eq.symm
  mem_counts := by
    change h.cells.length ∈ l.counts
    rw [hm.length_cells_eq]
    exact hl.mem_counts
  isGreatest := hl.isGreatest
  live_le := hl.live_le
  examined_le := by
    change _ ≤ 2 * h.created
    rw [hm.created_eq]
    exact hl.examined_le

theorem kept (hl : l.Balanced) (keep : HeapRef → Bool) : (l.kept keep).Balanced := by
  have hle := l.heap.length_cells_restrict_le keep
  have hlive : l.accounting.live - (l.heap.cells.length - (l.heap.restrict keep).cells.length) =
      (l.heap.restrict keep).cells.length := by
    rw [hl.live_eq]
    omega
  exact {
    live_eq := hlive
    mem_counts := List.mem_cons_self
    isGreatest := hl.isGreatest_cons (hl.live_eq ▸ hle)
    live_le := (Nat.sub_le _ _).trans hl.live_le
    examined_le := by
      change _ ≤ 2 * (l.heap.restrict keep).created
      rw [Heap.created_restrict]
      exact hl.examined_le }

/-- A collection may look at all there is: what is examined by then pays for it. -/
theorem collect (hl : l.Balanced) (uses : Tally) {examined : Nat}
    (hexamined : examined ≤ 2 * l.heap.created) :
    Balanced { l.collect uses with examined := examined } := by
  have hcells := l.heap.length_cells_collect uses
  have hlive : l.accounting.live - (l.heap.collect uses).1 =
      (l.heap.collect uses).2.cells.length := by
    rw [hl.live_eq]
    omega
  exact {
    live_eq := hlive
    mem_counts := List.mem_cons_self
    isGreatest := hl.isGreatest_cons (hlive ▸ Nat.sub_le _ _)
    live_le := le_rfl
    examined_le := by
      change examined + 2 * 0 ≤ 2 * (l.heap.restrict _).created
      rw [Heap.created_restrict]
      exact hexamined }

/-- A collection that is due looks at no more than twice what was made since the last one: as many
things were made as that one left, and nothing else is there. -/
theorem length_cells_le (hl : l.Balanced) (hdue : l.accounting.isDue = true) :
    l.heap.cells.length ≤ 2 * l.accounting.sinceCollection := by
  rw [Accounting.isDue, Bool.and_eq_true, decide_eq_true_eq] at hdue
  have hsurvivors := (Nat.le_max_right _ _).trans hdue.2
  have := hl.live_le
  rw [← hl.live_eq]
  omega

theorem collectIfDue (hl : l.Balanced) (uses : Tally) : (l.collectIfDue uses).Balanced := by
  rw [Ledger.collectIfDue]
  split
  · next hdue =>
    refine hl.collect uses ?_
    have := hl.length_cells_le hdue
    have := hl.examined_le
    omega
  · exact hl

theorem reset (hl : l.Balanced) : l.reset.Balanced where
  live_eq := hl.live_eq
  mem_counts := List.mem_singleton_self _
  isGreatest := by
    change IsGreatest {n | n ∈ [l.heap.cells.length]} l.accounting.live
    rw [hl.live_eq]
    exact ⟨List.mem_singleton_self _, fun _ hn ↦ (List.mem_singleton.mp hn).le⟩
  live_le := hl.live_le
  examined_le := hl.examined_le

theorem event (hl : l.Balanced) (h : l.Event m) : m.Balanced := by
  cases h with
  | made hm => exact hl.made hm
  | modified hm => exact hl.modified hm
  | kept keep => exact hl.kept keep
  | collect uses =>
    exact hl.collect uses (Nat.le_of_add_right_le hl.examined_le)
  | collectIfDue uses => exact hl.collectIfDue uses
  | threshold | automatic => exact ⟨hl.1, hl.2, hl.3, hl.4, hl.5⟩
  | reset => exact hl.reset

theorem course (hl : l.Balanced) (h : l.Course m) : m.Balanced := by
  induction h with
  | refl => exact hl
  | tail _ he ih => exact ih.event he

end Balanced

end Ledger

/-! ## What is booked -/

/-- What happened between two heaps is booked, and no collection was among it that nobody asked
for. -/
def Booked (h : Heap) (a : Accounting) (h' : Heap) (a' : Accounting) : Prop :=
  ∀ counts examined, ∃ counts',
    Ledger.Course ⟨h, a, counts, examined⟩ ⟨h', a', counts', examined⟩

namespace Booked

variable {h h' h'' : Heap} {a a' a'' : Accounting}

theorem refl (h : Heap) (a : Accounting) : Booked h a h a := fun counts _ ↦ ⟨counts, .refl⟩

theorem trans (hb : Booked h a h' a') (hb' : Booked h' a' h'' a'') : Booked h a h'' a'' := by
  intro counts examined
  obtain ⟨counts', hc⟩ := hb counts examined
  obtain ⟨counts'', hc'⟩ := hb' counts' examined
  exact ⟨counts'', Relation.ReflTransGen.trans hc hc'⟩

theorem makes (hm : h.Makes h') (a : Accounting) : Booked h a h' (a.made 1) :=
  fun _ _ ↦ ⟨_, .single (.made hm)⟩

theorem modifies (hm : h.Modifies h') (a : Accounting) : Booked h a h' a :=
  fun counts _ ↦ ⟨counts, .single (.modified hm)⟩

theorem restrict (h : Heap) (a : Accounting) (keep : HeapRef → Bool) :
    Booked h a (h.restrict keep) (a.gone (h.cells.length - (h.restrict keep).cells.length)) :=
  fun _ _ ↦ ⟨_, .single (.kept keep)⟩

theorem assign (h : Heap) (a : Accounting) (id : FrameId) (name : Text) (v : Value) :
    Booked h a (h.assign id name v).2 a := by
  rw [Heap.assign]
  split
  · exact refl h a
  · split
    · exact refl h a
    · split
      · exact refl h a
      · exact modifies (.frame _ _) a

end Booked

namespace ValueSpec

/-- What is let go of goes away, and all else stays. -/
def Scope.Releases (scope : Scope) : Prop :=
  ∀ inUse h, ∃ keep, scope.tidy inUse h = h.restrict keep

/-- Whatever is made is booked. -/
def Build.Books {α : Type} (m : Build α) : Prop :=
  ∀ b : Building, Booked b.heap b.accounting (m b).2.heap (m b).2.accounting

namespace Build.Books

variable {α β : Type} {scope : Scope}

theorem pure (a : α) : Build.Books (Pure.pure a) := fun b ↦ .refl b.heap b.accounting

theorem bind {m : Build α} {f : α → Build β} (hm : m.Books) (hf : ∀ a, (f a).Books) :
    (m >>= f).Books := fun b ↦ (hm b).trans (hf _ _)

theorem create {f : Heap → α × Heap} (hf : ∀ h : Heap, h.Makes (f h).2) :
    (ValueSpec.create f).Books := fun b ↦ .makes (hf b.heap) b.accounting

theorem tidy (hs : scope.Releases) (inUse : List HeapRef) : (ValueSpec.tidy scope inUse).Books := by
  intro b
  obtain ⟨keep, hkeep⟩ := hs (inUse ++ b.numbered.filterMap fun p ↦ p.2.ref?) b.heap
  rw [ValueSpec.tidy, hkeep]
  exact .restrict b.heap b.accounting keep

theorem register (hs : scope.Releases) (inUse : List HeapRef) (id : Option Nat) (v : Value) :
    (ValueSpec.register scope inUse id v).Books := by
  cases id with
  | none => exact pure ()
  | some n =>
    intro b
    rw [ValueSpec.register]
    dsimp only
    split
    · exact tidy hs inUse { b with numbered := (n, v) :: b.numbered.filter fun p ↦ p.1 != n }
    · exact .refl b.heap b.accounting

theorem setProperty (hs : scope.Releases) (inUse : List HeapRef) (id : ObjectId) (key : Text)
    (v : Value) : (ValueSpec.setProperty scope inUse id key v).Books := by
  intro b
  have hchanged : Booked b.heap b.accounting (b.heap.modifyObject id (·.insert key v))
      b.accounting := .modifies (.object id _) b.accounting
  rw [ValueSpec.setProperty]
  split
  · exact hchanged.trans (tidy hs inUse { b with heap := b.heap.modifyObject id (·.insert key v) })
  · exact hchanged

end Build.Books

variable {scope : Scope}

mutual

theorem build_books (hs : scope.Releases) (inUse : List HeapRef) :
    ∀ spec, (build scope inUse spec).Books
  | undefined | null | bool _ | number _ | text _ => .pure _
  | array id elements => by
    rw [build]
    exact .bind (.create fun _ ↦ .array _) fun _ ↦ .bind (.register hs _ id _) fun _ ↦
      .bind (fillArray_books hs _ _ elements) fun _ ↦ .pure _
  | object id members => by
    rw [build]
    exact .bind (.create fun _ ↦ .object _) fun _ ↦ .bind (.register hs _ id _) fun _ ↦
      .bind (fillObject_books hs _ _ members) fun _ ↦ .pure _
  | host id function name => by
    rw [build]
    exact .bind (.create fun _ ↦ .function _) fun _ ↦ .bind (.register hs _ id _) fun _ ↦ .pure _
  | numbered id => fun b ↦ .refl b.heap b.accounting
  | kept name | bound name => by
    rw [build]
    exact .pure _

theorem fillArray_books (hs : scope.Releases) (inUse : List HeapRef) (id : ArrayId) :
    ∀ specs, (fillArray scope inUse id specs).Books
  | [] => .pure _
  | spec :: rest => by
    rw [fillArray]
    exact .bind (build_books hs inUse spec) fun _ ↦
      .bind (fun b ↦ .modifies (.array id _) b.accounting) fun _ ↦ fillArray_books hs inUse id rest

theorem fillObject_books (hs : scope.Releases) (inUse : List HeapRef) (id : ObjectId) :
    ∀ members, (fillObject scope inUse id members).Books
  | [] => .pure _
  | (key, spec) :: rest => by
    rw [fillObject]
    exact .bind (build_books hs inUse spec) fun _ ↦ .bind (.setProperty hs inUse id key _)
      fun _ ↦ fillObject_books hs inUse id rest

end

theorem buildBindings_books (hs : scope.Releases) (inUse : List HeapRef)
    (bindings : List (Text × ValueSpec)) : (buildBindings scope inUse bindings).Books := by
  induction bindings generalizing inUse with
  | nil => exact .pure _
  | cons binding rest ih =>
    exact .bind (build_books hs inUse binding.2) fun _ ↦ .bind (ih _) fun _ ↦ .pure _

end ValueSpec

theorem CompletionSpec.build_books {scope : ValueSpec.Scope} (hs : scope.Releases)
    (c : CompletionSpec) : (c.build scope).Books := by
  cases c with
  | normal value =>
    cases value with
    | none => exact .pure _
    | some value => exact .bind (ValueSpec.build_books hs [] value) fun _ ↦ .pure _
  | returned value => exact .bind (ValueSpec.build_books hs [] value) fun _ ↦ .pure _
  | broke | continued => exact .pure _

namespace Workspace

variable {w : Workspace} {α : Type}

theorem releases_scope (w : Workspace) : w.scope.Releases :=
  fun inUse h ↦ h.exists_release_eq (w.owners ++ inUse)

/-- What leads from one workspace to another is booked. -/
def Books (w w' : Workspace) : Prop := Booked w.heap w.accounting w'.heap w'.accounting

theorem make_books (w : Workspace) {m : ValueSpec.Scope → ValueSpec.Build α}
    (hm : (m w.scope).Books) : w.Books (w.make m).2 := hm ⟨w.heap, w.accounting, []⟩

theorem make_value_books (w : Workspace) (value : ValueSpec) :
    w.Books (w.make (value.build · [])).2 :=
  w.make_books (ValueSpec.build_books w.releases_scope [] value)

theorem settle_books (w : Workspace) : w.Books w.settle := by
  obtain ⟨keep, hkeep⟩ := w.heap.exists_release_eq w.owners
  rw [Books, settle, hkeep]
  exact .restrict w.heap w.accounting keep

theorem onFrame_books (w : Workspace) (id : FrameId) (x : FrameStep) :
    w.Books (w.onFrame id x).2 := by
  cases x with
  | child name => exact .makes (.frame _) _
  | sibling name => exact .makes (.frame _) _
  | define name value kind =>
    refine (w.make_value_books value).trans ?_
    exact .modifies (.frame id (·.define ⟨name, kind, _⟩)) _
  | assign name value =>
    refine (w.make_value_books value).trans ?_
    exact .assign _ _ id name _
  | setReceiver value =>
    refine (w.make_value_books value).trans ?_
    exact .modifies (.frame id fun f ↦ { f with receiver := some _ }) _
  | setSignal signal =>
    have hmake : w.Books (w.make signal.build).2 :=
      w.make_books (CompletionSpec.build_books w.releases_scope signal)
    refine hmake.trans ?_
    exact .modifies (.frame id fun f ↦ { f with signal := some _ }) _
  | closure name => exact .makes (.function _) _
  | get | has | findLocal | lookup | depth | bindings | receiver | signal => exact .refl _ _

theorem clear_books (w : Workspace) (v : Option Value) : w.Books (w.clear v).2 := by
  unfold clear
  split
  · exact .modifies (.object _ _) _
  · exact .modifies (.array _ _) _
  · exact .refl _ _

theorem copy_books (w : Workspace) (name : Text) (v : Option Value) :
    w.Books (w.copy name v).2 := by
  unfold copy
  split
  · exact .makes (.object _) _
  · exact .makes (.array _) _
  · exact .refl _ _

/-- How many things a step looks at in a collection that nobody asked for. -/
def examines (w : Workspace) : HeapStep → Nat
  | .collectIfDue => if w.accounting.isDue then w.heap.cells.length else 0
  | _ => 0

/-- What a step does to the heap can happen to a ledger, and what the step examines is added. -/
theorem exists_course_perform (w : Workspace) (x : HeapStep) (counts : List Nat) (examined : Nat) :
    ∃ counts', Ledger.Course ⟨w.heap, w.accounting, counts, examined⟩
      ⟨(w.perform x).2.heap, (w.perform x).2.accounting, counts', examined + w.examines x⟩ := by
  have hbooked {x : HeapStep} (hb : w.Books (w.perform x).2) := hb counts examined
  cases x with
  | collectIfDue =>
    have hcourse : Ledger.Course ⟨w.heap, w.accounting, counts, examined⟩
        (Ledger.collectIfDue ⟨w.heap, w.accounting, counts, examined⟩ (w.heap.uses w.owners)) :=
      .single (.collectIfDue _)
    rw [Ledger.collectIfDue] at hcourse
    rw [perform, examines]
    split
    · next hdue =>
      rw [if_pos hdue] at hcourse
      exact ⟨_, hcourse⟩
    · next hdue =>
      rw [if_neg hdue] at hcourse
      exact ⟨_, hcourse⟩
  | collect => exact ⟨_, .single (.collect (w.heap.uses w.owners))⟩
  | setThreshold n => exact ⟨_, .single (.threshold n)⟩
  | setAutomatic on => exact ⟨_, .single (.automatic on)⟩
  | resetAccounting => exact ⟨_, .single .reset⟩
  | global name bindings =>
    apply hbooked
    have hmake : w.Books (w.make (ValueSpec.buildBindings · [] bindings)).2 :=
      w.make_books (ValueSpec.buildBindings_books w.releases_scope [] bindings)
    exact hmake.trans (.makes (.frame _) _)
  | frame name => exact hbooked (.makes (.frame _) _)
  | onFrame frame step =>
    apply hbooked
    rw [perform]
    split
    · exact w.onFrame_books _ step
    · exact .refl _ _
  | keep name value => exact hbooked (w.make_value_books value)
  | put holder key value =>
    apply hbooked
    rw [perform]
    split
    · next id _ =>
      refine (w.make_value_books value).trans ?_
      exact .modifies (.object id (·.insert key _)) _
    · exact .refl _ _
  | append holder value =>
    apply hbooked
    rw [perform]
    split
    · next id _ =>
      refine (w.make_value_books value).trans ?_
      exact .modifies (.array id (·.push _)) _
    · exact .refl _ _
  | clear holder => exact hbooked (w.clear_books _)
  | copy holder name => exact hbooked (w.copy_books name _)
  | «show» name =>
    apply hbooked
    rw [perform]
    split <;> exact .refl _ _
  | drop name => exact hbooked (.refl _ _)

theorem exists_course_step (w : Workspace) (x : HeapStep) (counts : List Nat) (examined : Nat) :
    ∃ counts', Ledger.Course ⟨w.heap, w.accounting, counts, examined⟩
      ⟨(w.step x).2.heap, (w.step x).2.accounting, counts', examined + w.examines x⟩ := by
  obtain ⟨counts', hperform⟩ := w.exists_course_perform x counts examined
  obtain ⟨counts'', hsettle⟩ := (w.perform x).2.settle_books counts' (examined + w.examines x)
  exact ⟨counts'', Relation.ReflTransGen.trans hperform hsettle⟩

/-- The workspace after steps, and how many things were examined besides those before. -/
def run : List HeapStep → Workspace × Nat → Workspace × Nat
  | [], p => p
  | x :: rest, (w, examined) => run rest ((w.step x).2, examined + w.examines x)

theorem exists_course_run (steps : List HeapStep) (w : Workspace) (counts : List Nat)
    (examined : Nat) :
    ∃ counts', Ledger.Course ⟨w.heap, w.accounting, counts, examined⟩
      ⟨(run steps (w, examined)).1.heap, (run steps (w, examined)).1.accounting, counts',
        (run steps (w, examined)).2⟩ := by
  induction steps generalizing w counts examined with
  | nil => exact ⟨counts, .refl⟩
  | cons x rest ih =>
    obtain ⟨counts', hstep⟩ := w.exists_course_step x counts examined
    obtain ⟨counts'', hrest⟩ := ih (w.step x).2 counts' (examined + w.examines x)
    exact ⟨counts'', Relation.ReflTransGen.trans hstep hrest⟩

end Workspace

/-- In whatever order things happen, there are as many things as the accounts say, and the peak is
the most there were since counting began. The collections that nobody asked for looked at no more
than twice as many things as were ever made. Whatever a host does with a workspace is such a course
of things that happen. -/
theorem accounts_balanced :
    (∀ l, Ledger.start.Course l →
      l.accounting.live = l.heap.cells.length ∧ l.accounting.live ≤ l.accounting.peak ∧
        IsGreatest {n | n ∈ l.counts} l.accounting.peak ∧ l.examined ≤ 2 * l.heap.created) ∧
    ∀ steps : List HeapStep, ∃ l, Ledger.start.Course l ∧
      l.heap = (Workspace.run steps (.empty, 0)).1.heap ∧
      l.accounting = (Workspace.run steps (.empty, 0)).1.accounting ∧
      l.examined = (Workspace.run steps (.empty, 0)).2 := by
  constructor
  · intro l hcourse
    have hl := Ledger.balanced_start.course hcourse
    exact ⟨hl.live_eq, hl.live_le_peak, hl.isGreatest, Nat.le_of_add_right_le hl.examined_le⟩
  · intro steps
    obtain ⟨counts, hcourse⟩ := Workspace.exists_course_run steps .empty [0] 0
    exact ⟨_, hcourse, rfl, rfl, rfl⟩

/-- A host that makes two objects and lets go of one. Then the collection is due. -/
def Workspace.twoObjects : List HeapStep :=
  [.setThreshold 2, .keep "a" (.object none []), .keep "b" (.object none []), .drop "a",
    .collectIfDue]

theorem accounts_balanced_twoObjects :
    let ran := Workspace.run Workspace.twoObjects (.empty, 0)
    (ran.2 = 1 ∧ ran.1.accounting.live = 1 ∧ ran.1.accounting.peak = 2 ∧
      ran.1.accounting.collections = 1) ∧
    ∃ l, Ledger.start.Course l ∧ l.accounting = ran.1.accounting ∧ l.heap = ran.1.heap ∧
      IsGreatest {n | n ∈ l.counts} 2 ∧ l.examined = 1 ∧ 1 ≤ 2 * l.heap.created := by
  intro ran
  have hran : ran.2 = 1 ∧ ran.1.accounting.live = 1 ∧ ran.1.accounting.peak = 2 ∧
      ran.1.accounting.collections = 1 := by
    cbv
  obtain ⟨l, hcourse, hheap, haccounting, hexamined⟩ := accounts_balanced.2 Workspace.twoObjects
  obtain ⟨-, -, hpeak, hle⟩ := accounts_balanced.1 l hcourse
  refine ⟨hran, l, hcourse, haccounting, hheap, ?_, hexamined.trans hran.1, ?_⟩
  · rwa [haccounting, hran.2.2.1] at hpeak
  · rwa [hexamined, hran.1] at hle

end EcmaTree
