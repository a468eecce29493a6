import EcmaTree.Proofs.Alike.Tree
import EcmaTree.Proofs.Heap.Soundness

/-!
# Alike heaps

Two heaps are alike from some roots when they hold the same things wherever these roots reach: the
same frames, objects and arrays, and functions whose code is alike. What lies elsewhere does not
matter, so one of the heaps may have lost it to a collection. With `whole` the heaps hold the same
everywhere.

Every operation on the heap keeps heaps alike, if it stores only references that the roots reach.
-/

namespace EcmaTree

/-- Functions that are the same but for the code, which is alike. -/
inductive Function.Alike (free : Prop) : Function → Function → Prop where
  | closure {c c' : FunctionNode} (name : Text) (frame : FrameId) (hc : c.Alike free c') :
      Function.Alike free ⟨name, .closure c frame⟩ ⟨name, .closure c' frame⟩
  | captured (name : Text) (frame : FrameId) :
      Function.Alike free ⟨name, .captured frame⟩ ⟨name, .captured frame⟩
  | host (name : Text) (f : HostFunction) : Function.Alike free ⟨name, .host f⟩ ⟨name, .host f⟩

namespace Function.Alike

variable {free : Prop} {f f' : Function}

theorem refl (free : Prop) (f : Function) : f.Alike free f := by
  rcases f with ⟨name, c | p | g⟩
  · exact .closure name _ (.refl free c)
  · exact .captured name p
  · exact .host name g

theorem name_eq (h : f.Alike free f') : f.name = f'.name := by
  cases h <;> rfl

theorem references_eq (h : f.Alike free f') : f.references = f'.references := by
  cases h <;> rfl

/-- Alike functions get the same new name, or keep theirs. -/
theorem rename (h : f.Alike free f') (name : Text) :
    (if f.name.isEmpty then { f with name := name } else f).Alike free
      (if f'.name.isEmpty then { f' with name := name } else f') := by
  cases h with
  | closure n p hc =>
    by_cases hn : n.isEmpty
    · simpa [hn] using .closure name p hc
    · simpa [hn] using .closure n p hc
  | captured n p =>
    by_cases hn : n.isEmpty
    · simpa [hn] using .captured name p
    · simpa [hn] using .captured n p
  | host n g =>
    by_cases hn : n.isEmpty
    · simpa [hn] using .host name g
    · simpa [hn] using .host n g

end Function.Alike

/-- Things that are the same but for the code of functions, which is alike. -/
inductive Cell.Alike (free : Prop) : Cell → Cell → Prop where
  | frame (f : Frame) : Cell.Alike free (.frame f) (.frame f)
  | object (ps : Properties) : Cell.Alike free (.object ps) (.object ps)
  | array (es : Array Value) : Cell.Alike free (.array es) (.array es)
  | function {f f' : Function} (hf : f.Alike free f') : Cell.Alike free (.function f) (.function f')

theorem Cell.Alike.refl (free : Prop) (c : Cell) : c.Alike free c := by
  cases c with
  | frame f => exact .frame f
  | object ps => exact .object ps
  | array es => exact .array es
  | function f => exact .function (.refl free f)

theorem Cell.Alike.references_eq {free : Prop} {c c' : Cell} (h : c.Alike free c') :
    c.references = c'.references := by
  cases h with
  | frame | object | array => rfl
  | function hf => exact hf.references_eq

@[simp] theorem Cell.alike_frame {free : Prop} {f g : Frame} :
    Cell.Alike free (.frame f) (.frame g) ↔ f = g := by
  constructor
  · rintro ⟨⟩
    rfl
  · rintro rfl
    exact .frame f

@[simp] theorem Cell.alike_object {free : Prop} {ps qs : Properties} :
    Cell.Alike free (.object ps) (.object qs) ↔ ps = qs := by
  constructor
  · rintro ⟨⟩
    rfl
  · rintro rfl
    exact .object ps

@[simp] theorem Cell.alike_array {free : Prop} {es fs : Array Value} :
    Cell.Alike free (.array es) (.array fs) ↔ es = fs := by
  constructor
  · rintro ⟨⟩
    rfl
  · rintro rfl
    exact .array es

@[simp] theorem Cell.alike_function {free : Prop} {f g : Function} :
    Cell.Alike free (.function f) (.function g) ↔ f.Alike free g := by
  constructor
  · rintro ⟨⟩
    assumption
  · exact .function

/-- Where the roots of a comparison reach, or anywhere if whole heaps are compared. -/
def Heap.Compared (whole : Prop) (h : Heap) (roots : List HeapRef) (r : HeapRef) : Prop :=
  whole ∨ h.Reachable roots r

/-- Heaps that gave away as many references, and hold alike things where they are compared. -/
structure Heap.Alike (free whole : Prop) (roots : List HeapRef) (h h' : Heap) : Prop where
  frames : h.frames.size = h'.frames.size
  objects : h.objects.size = h'.objects.size
  arrays : h.arrays.size = h'.arrays.size
  functions : h.functions.size = h'.functions.size
  cells : ∀ r, h.Compared whole roots r →
    Option.Rel (Cell.Alike free) (h.cell? r) (h'.cell? r)

namespace Heap.Alike

variable {free whole : Prop} {roots roots' : List HeapRef} {h h' g g' : Heap}

theorem refl (free whole : Prop) (roots : List HeapRef) (h : Heap) :
    h.Alike free whole roots h where
  frames := rfl
  objects := rfl
  arrays := rfl
  functions := rfl
  cells r _ := by
    cases h.cell? r with
    | none => exact .none
    | some c => exact .some (.refl free c)

theorem references_eq (ha : h.Alike free whole roots h') {r : HeapRef}
    (hr : h.Compared whole roots r) : h.references r = h'.references r := by
  have hc := ha.cells r hr
  rw [Heap.references_eq, Heap.references_eq]
  generalize h.cell? r = c, h'.cell? r = c' at hc ⊢
  cases hc with
  | none => rfl
  | some hc => exact hc.references_eq

theorem created_eq (ha : h.Alike free whole roots h') : h.created = h'.created := by
  rw [created, created, ha.frames, ha.objects, ha.arrays, ha.functions]

/-- From compared roots the same can be reached in both heaps. -/
theorem reachable_iff (ha : h.Alike free whole roots h')
    (hsub : ∀ r ∈ roots', h.Reachable roots r) {r : HeapRef} :
    h.Reachable roots' r ↔ h'.Reachable roots' r := by
  constructor
  · intro hr
    induction hr with
    | root hr => exact .root hr
    | @step a b hra hab ih =>
      exact .step ih ((refers_congr (ha.references_eq (.inr (hra.trans hsub)))).mp hab)
  · intro hr
    induction hr with
    | root hr => exact .root hr
    | @step a b _ hab ih =>
      exact .step ih ((refers_congr (ha.references_eq (.inr (ih.trans hsub)))).mpr hab)

/-- Fewer roots reach less, so less is compared. -/
theorem shrink (ha : h.Alike free whole roots h') (hsub : ∀ r ∈ roots', h.Reachable roots r) :
    h.Alike free whole roots' h' where
  frames := ha.frames
  objects := ha.objects
  arrays := ha.arrays
  functions := ha.functions
  cells r hr := ha.cells r (hr.imp_right fun hr ↦ hr.trans hsub)

/-- A change of one thing keeps heaps alike, if it stores alike things that refer only to what the
roots reach. The new thing can then be a root itself. -/
theorem store (ha : h.Alike free whole roots h') {r : HeapRef} {c c' : Option Cell}
    (hframes : g.frames.size = g'.frames.size) (hobjects : g.objects.size = g'.objects.size)
    (harrays : g.arrays.size = g'.arrays.size)
    (hfunctions : g.functions.size = g'.functions.size)
    (hg : ∀ s, g.cell? s = if s = r then c else h.cell? s)
    (hg' : ∀ s, g'.cell? s = if s = r then c' else h'.cell? s)
    (hc : Option.Rel (Cell.Alike free) c c')
    (hrefs : ∀ d, c = some d → ∀ x ∈ d.references, h.Reachable roots x) :
    g.Alike free whole (r :: roots) g' := by
  refine ⟨hframes, hobjects, harrays, hfunctions, ?_⟩
  intro s hs
  rw [hg, hg']
  by_cases hsr : s = r
  · rw [if_pos hsr, if_pos hsr]
    exact hc
  · rw [if_neg hsr, if_neg hsr]
    exact ha.cells s (hs.imp_right fun hs ↦ (reachable_store hg hrefs hs).resolve_left hsr)

/-! ### What is stored in both -/

theorem frame?_eq (ha : h.Alike free whole roots h') {id : FrameId}
    (hr : h.Compared whole roots (.frame id)) : h.frame? id = h'.frame? id := by
  have hc := ha.cells _ hr
  rw [cell?_frame, cell?_frame] at hc
  generalize h.frame? id = f, h'.frame? id = f' at hc ⊢
  cases f <;> cases f' <;> simp_all

theorem objects_eq (ha : h.Alike free whole roots h') {id : ObjectId}
    (hr : h.Compared whole roots (.object id)) :
    h.objects.get? id.index = h'.objects.get? id.index := by
  have hc := ha.cells _ hr
  rw [cell?_object, cell?_object] at hc
  generalize h.objects.get? id.index = o, h'.objects.get? id.index = o' at hc ⊢
  cases o <;> cases o' <;> simp_all

theorem arrays_eq (ha : h.Alike free whole roots h') {id : ArrayId}
    (hr : h.Compared whole roots (.array id)) :
    h.arrays.get? id.index = h'.arrays.get? id.index := by
  have hc := ha.cells _ hr
  rw [cell?_array, cell?_array] at hc
  generalize h.arrays.get? id.index = a, h'.arrays.get? id.index = a' at hc ⊢
  cases a <;> cases a' <;> simp_all

theorem function?_rel (ha : h.Alike free whole roots h') {id : FunctionId}
    (hr : h.Compared whole roots (.function id)) :
    Option.Rel (Function.Alike free) (h.function? id) (h'.function? id) := by
  have hc := ha.cells _ hr
  rw [cell?_function, cell?_function] at hc
  generalize h.function? id = f, h'.function? id = f' at hc ⊢
  cases f <;> cases f' <;> simp_all

end Heap.Alike

/-- Alike heaps, the first of which is sound if it has to be `intact`. -/
structure Heap.Matched (free whole intact : Prop) (roots : List HeapRef) (h h' : Heap) : Prop
    extends Heap.Alike free whole roots h h' where
  sound (hi : intact) : h.Sound roots

namespace Heap.Matched

variable {free whole intact : Prop} {roots roots' : List HeapRef} {h h' g g' : Heap} {s : HeapRef}

theorem refl (free whole : Prop) (hs : intact → h.Sound roots) :
    h.Matched free whole intact roots h :=
  ⟨.refl free whole roots h, hs⟩

theorem shrink (ha : h.Matched free whole intact roots h')
    (hsub : ∀ r ∈ roots', h.Reachable roots r) : h.Matched free whole intact roots' h' :=
  ⟨ha.toAlike.shrink hsub, fun hi ↦ (ha.sound hi).shrink hsub⟩

/-- A change of one thing keeps heaps matched, if it stores alike things that fit and refer only to
what the roots reach. The new thing can then be a root itself. -/
theorem store (ha : h.Matched free whole intact roots h') {r : HeapRef} {c c' : Option Cell}
    (hframes : g.frames.size = g'.frames.size) (hobjects : g.objects.size = g'.objects.size)
    (harrays : g.arrays.size = g'.arrays.size)
    (hfunctions : g.functions.size = g'.functions.size)
    (hg : ∀ s, g.cell? s = if s = r then c else h.cell? s)
    (hg' : ∀ s, g'.cell? s = if s = r then c' else h'.cell? s)
    (hc : Option.Rel (Cell.Alike free) c c')
    (hrefs : ∀ d, c = some d → ∀ x ∈ d.references, h.Reachable roots x)
    (hfits : intact → ∃ d, c = some d ∧ d.Fits r) :
    g.Matched free whole intact (r :: roots) g' where
  toAlike := ha.toAlike.store hframes hobjects harrays hfunctions hg hg' hc hrefs
  sound hi := by
    obtain ⟨d, rfl, hd⟩ := hfits hi
    exact (ha.sound hi).store hg hd (hrefs d rfl)

/-! ### New things -/

theorem newFrame (ha : h.Matched free whole intact roots h') (f : Frame)
    (hf : ∀ r ∈ f.references, h.Reachable roots r) :
    (h.newFrame f).1 = (h'.newFrame f).1 ∧
      (h.newFrame f).2.Matched free whole intact (.frame (h.newFrame f).1 :: roots)
        (h'.newFrame f).2 := by
  have hid : (h.newFrame f).1 = (h'.newFrame f).1 := by simp [Heap.newFrame, ha.frames]
  have hsize : (h.newFrame f).2.frames.size = (h'.newFrame f).2.frames.size := by
    simp [Heap.newFrame, ha.frames]
  refine ⟨hid, ha.store hsize ha.objects ha.arrays ha.functions (h.cell?_newFrame f) ?_
    (.some (.frame f)) ?_ fun hi ↦ ⟨_, rfl, Cell.fits_frame.mpr fun q hq ↦ ?_⟩⟩
  · rw [hid]
    exact h'.cell?_newFrame f
  · rintro _ ⟨⟩
    exact hf
  · have hparent : .frame q ∈ f.references := Frame.mem_references.mpr (.inl ⟨q, hq, rfl⟩)
    obtain ⟨g, hg, _⟩ := (ha.sound hi).exists_frame ((ha.sound hi).holds (hf _ hparent))
    exact Store.lt_size_of_get?_eq_some hg

theorem newChild (ha : h.Matched free whole intact roots h') (id : FrameId)
    (hid : h.Reachable roots (.frame id)) :
    (h.newChild id).1 = (h'.newChild id).1 ∧
      (h.newChild id).2.Matched free whole intact (.frame (h.newChild id).1 :: roots)
        (h'.newChild id).2 :=
  ha.newFrame (.ofParent (some id)) fun r hr ↦ by
    obtain rfl : r = .frame id := by simpa [Frame.ofParent, Frame.references] using hr
    exact hid

theorem newObject (ha : h.Matched free whole intact roots h') (ps : Properties)
    (hps : ∀ r ∈ ps.values.filterMap Value.ref?, h.Reachable roots r) :
    (h.newObject ps).1 = (h'.newObject ps).1 ∧
      (h.newObject ps).2.Matched free whole intact (.object (h.newObject ps).1 :: roots)
        (h'.newObject ps).2 := by
  have hid : (h.newObject ps).1 = (h'.newObject ps).1 := by simp [Heap.newObject, ha.objects]
  have hsize : (h.newObject ps).2.objects.size = (h'.newObject ps).2.objects.size := by
    simp [Heap.newObject, ha.objects]
  refine ⟨hid, ha.store ha.frames hsize ha.arrays ha.functions (h.cell?_newObject ps) ?_
    (.some (.object ps)) ?_ fun _ ↦ ⟨_, rfl, Cell.fits_object⟩⟩
  · rw [hid]
    exact h'.cell?_newObject ps
  · rintro _ ⟨⟩
    exact hps

theorem newArray (ha : h.Matched free whole intact roots h') (es : Array Value)
    (hes : ∀ r ∈ es.toList.filterMap Value.ref?, h.Reachable roots r) :
    (h.newArray es).1 = (h'.newArray es).1 ∧
      (h.newArray es).2.Matched free whole intact (.array (h.newArray es).1 :: roots)
        (h'.newArray es).2 := by
  have hid : (h.newArray es).1 = (h'.newArray es).1 := by simp [Heap.newArray, ha.arrays]
  have hsize : (h.newArray es).2.arrays.size = (h'.newArray es).2.arrays.size := by
    simp [Heap.newArray, ha.arrays]
  refine ⟨hid, ha.store ha.frames ha.objects hsize ha.functions (h.cell?_newArray es) ?_
    (.some (.array es)) ?_ fun _ ↦ ⟨_, rfl, Cell.fits_array⟩⟩
  · rw [hid]
    exact h'.cell?_newArray es
  · rintro _ ⟨⟩
    exact hes

theorem newFunction (ha : h.Matched free whole intact roots h') {f f' : Function}
    (hf : f.Alike free f') (hr : ∀ r ∈ f.references, h.Reachable roots r) :
    (h.newFunction f).1 = (h'.newFunction f').1 ∧
      (h.newFunction f).2.Matched free whole intact (.function (h.newFunction f).1 :: roots)
        (h'.newFunction f').2 := by
  have hid : (h.newFunction f).1 = (h'.newFunction f').1 := by
    simp [Heap.newFunction, ha.functions]
  have hsize : (h.newFunction f).2.functions.size = (h'.newFunction f').2.functions.size := by
    simp [Heap.newFunction, ha.functions]
  refine ⟨hid, ha.store ha.frames ha.objects ha.arrays hsize (h.cell?_newFunction f) ?_
    (.some (.function hf)) ?_ fun _ ↦ ⟨_, rfl, Cell.fits_function⟩⟩
  · rw [hid]
    exact h'.cell?_newFunction f'
  · rintro _ ⟨⟩
    exact hr

/-! ### Changed things -/

/-- A root that the others reach is none that matters. -/
theorem of_cons (ha : h.Matched free whole intact (s :: roots) h') :
    h.Matched free whole intact roots h' :=
  ha.shrink fun _ hr ↦ .root (List.mem_cons_of_mem _ hr)

theorem modifyFrame (ha : h.Matched free whole intact roots h') (id : FrameId) (c : Frame → Frame)
    (hid : h.Reachable roots (.frame id))
    (hc : ∀ f, h.frame? id = some f → ∀ r ∈ (c f).references, h.Reachable roots r)
    (hparent : ∀ f, (c f).parent = f.parent) :
    (h.modifyFrame id c).Matched free whole intact roots (h'.modifyFrame id c) := by
  have hsize : (h.modifyFrame id c).frames.size = (h'.modifyFrame id c).frames.size := by
    simpa [Heap.modifyFrame] using ha.frames
  refine of_cons (s := .frame id) (ha.store hsize ha.objects ha.arrays ha.functions
    (h.cell?_modifyFrame id c) (h'.cell?_modifyFrame id c) ?_ ?_ fun hi ↦ ?_)
  · rw [← ha.frame?_eq (.inr hid)]
    cases h.frame? id with
    | none => exact .none
    | some f => exact .some (.frame _)
  · intro d hd
    obtain ⟨f, hf, rfl⟩ := Option.map_eq_some_iff.mp hd
    exact hc f hf
  · obtain ⟨f, hf, holder⟩ := (ha.sound hi).exists_frame ((ha.sound hi).holds hid)
    exact ⟨.frame (c f), by rw [hf]; rfl, Cell.fits_frame.mpr (hparent f ▸ holder)⟩

theorem modifyObject (ha : h.Matched free whole intact roots h') (id : ObjectId)
    (c : Properties → Properties) (hid : h.Reachable roots (.object id))
    (hc : ∀ ps, h.objects.get? id.index = some ps →
      ∀ r ∈ (c ps).values.filterMap Value.ref?, h.Reachable roots r) :
    (h.modifyObject id c).Matched free whole intact roots (h'.modifyObject id c) := by
  have hsize : (h.modifyObject id c).objects.size = (h'.modifyObject id c).objects.size := by
    simpa [Heap.modifyObject] using ha.objects
  refine of_cons (s := .object id) (ha.store ha.frames hsize ha.arrays ha.functions
    (h.cell?_modifyObject id c) (h'.cell?_modifyObject id c) ?_ ?_ fun hi ↦ ?_)
  · rw [← ha.objects_eq (.inr hid)]
    cases h.objects.get? id.index with
    | none => exact .none
    | some ps => exact .some (.object _)
  · intro d hd
    obtain ⟨ps, hps, rfl⟩ := Option.map_eq_some_iff.mp hd
    exact hc ps hps
  · obtain ⟨ps, hps⟩ := Option.isSome_iff_exists.mp ((ha.sound hi).holds hid)
    exact ⟨.object (c ps), by rw [hps]; rfl, Cell.fits_object⟩

theorem modifyArray (ha : h.Matched free whole intact roots h') (id : ArrayId)
    (c : Array Value → Array Value) (hid : h.Reachable roots (.array id))
    (hc : ∀ es, h.arrays.get? id.index = some es →
      ∀ r ∈ (c es).toList.filterMap Value.ref?, h.Reachable roots r) :
    (h.modifyArray id c).Matched free whole intact roots (h'.modifyArray id c) := by
  have hsize : (h.modifyArray id c).arrays.size = (h'.modifyArray id c).arrays.size := by
    simpa [Heap.modifyArray] using ha.arrays
  refine of_cons (s := .array id) (ha.store ha.frames ha.objects hsize ha.functions
    (h.cell?_modifyArray id c) (h'.cell?_modifyArray id c) ?_ ?_ fun hi ↦ ?_)
  · rw [← ha.arrays_eq (.inr hid)]
    cases h.arrays.get? id.index with
    | none => exact .none
    | some es => exact .some (.array _)
  · intro d hd
    obtain ⟨es, hes, rfl⟩ := Option.map_eq_some_iff.mp hd
    exact hc es hes
  · obtain ⟨es, hes⟩ := Option.isSome_iff_exists.mp ((ha.sound hi).holds hid)
    exact ⟨.array (c es), by rw [hes]; rfl, Cell.fits_array⟩

theorem nameFunction (ha : h.Matched free whole intact roots h') (id : FunctionId) (name : Text)
    (hid : h.Reachable roots (.function id)) :
    (h.nameFunction id name).Matched free whole intact roots (h'.nameFunction id name) := by
  have hsize : (h.nameFunction id name).functions.size =
      (h'.nameFunction id name).functions.size := by
    simpa [Heap.nameFunction, Heap.modifyFunction] using ha.functions
  refine of_cons (s := .function id) (ha.store ha.frames ha.objects ha.arrays hsize
    (h.cell?_modifyFunction id _) (h'.cell?_modifyFunction id _) ?_ ?_ fun hi ↦ ?_)
  · have hf := ha.function?_rel (.inr hid)
    generalize h.function? id = f, h'.function? id = f' at hf ⊢
    cases hf with
    | none => exact .none
    | some hf => exact .some (.function (hf.rename name))
  · intro d hd x hx
    obtain ⟨f, hf, rfl⟩ := Option.map_eq_some_iff.mp hd
    refine hid.next ?_
    rw [Heap.references_eq, cell?_function, hf]
    rw [Function.comp_apply] at hx
    split at hx <;> exact hx
  · obtain ⟨f, hf⟩ : ∃ f, h.function? id = some f :=
      Option.isSome_iff_exists.mp ((ha.sound hi).holds hid)
    exact ⟨.function _, by rw [hf]; rfl, Cell.fits_function⟩

end Heap.Matched

end EcmaTree
