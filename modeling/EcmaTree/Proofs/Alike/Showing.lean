import EcmaTree.Evaluation.Error
import EcmaTree.Proofs.Alike.Reading
import EcmaTree.Session.Interpreter

/-!
# Showing alike heaps

Documents, snapshots and error messages show a value with everything it refers to. From a value that
the roots reach they are the same in alike heaps. A document that is read builds the same value in
both.
-/

namespace EcmaTree.Heap.Alike

variable {free whole : Prop} {roots : List HeapRef} {h h' : Heap}

/-! ### Documents -/

theorem documentWithin_eq (ha : h.Alike free whole roots h') {arrays objects : List Nat} {v : Value}
    (hv : h.Reaches roots v) :
    h.documentWithin arrays objects v = h'.documentWithin arrays objects v := by
  induction arrays, objects, v using documentWithin.induct (h := h) with
  | case1 | case2 | case3 | case4 | case5 | case6 | case7 | case8 => simp [documentWithin]
  | case9 arrays objects id hm => simp [documentWithin, hm]
  | case10 arrays objects id hm hc =>
    have hc' := (ha.arrays_eq (.inr (reaches_array.mp hv))).symm.trans hc
    rw [documentWithin, documentWithin]
    simp only [hm, ↓reduceDIte]
    split <;> split <;> simp_all
  | case11 arrays objects id hm es hc ih =>
    have hc' := (ha.arrays_eq (.inr (reaches_array.mp hv))).symm.trans hc
    have hes := reaches_element (reaches_array.mp hv)
    rw [elements, hc] at hes
    rw [documentWithin, documentWithin]
    simp only [hm, ↓reduceDIte]
    split
    · simp_all
    · next es₁ h₁ =>
      split
      · simp_all
      · next es₂ h₂ =>
        obtain rfl : es = es₁ := Option.some.inj (hc.symm.trans h₁)
        obtain rfl : es = es₂ := Option.some.inj (hc'.symm.trans h₂)
        exact congrArg Json.array (List.map_congr_left fun v hv ↦ ih v (hes v hv))
  | case12 arrays objects id hm => simp [documentWithin, hm]
  | case13 arrays objects id hm hc =>
    have hc' := (ha.objects_eq (.inr (reaches_object.mp hv))).symm.trans hc
    rw [documentWithin, documentWithin]
    simp only [hm, ↓reduceDIte]
    split <;> split <;> simp_all
  | case14 arrays objects id hm ps hc ih =>
    have hc' := (ha.objects_eq (.inr (reaches_object.mp hv))).symm.trans hc
    have hps := reaches_property (reaches_object.mp hv)
    rw [properties, hc] at hps
    rw [documentWithin, documentWithin]
    simp only [hm, ↓reduceDIte]
    split
    · simp_all
    · next ps₁ h₁ =>
      split
      · simp_all
      · next ps₂ h₂ =>
        obtain rfl : ps = ps₁ := Option.some.inj (hc.symm.trans h₁)
        obtain rfl : ps = ps₂ := Option.some.inj (hc'.symm.trans h₂)
        refine congrArg Json.object (List.map_congr_left fun p hp ↦ ?_)
        rw [ih p (hps p.2 (List.mem_map_of_mem (List.mem_of_mem_filter hp)))]

theorem jsonText_eq (ha : h.Alike free whole roots h') {v : Value} (hv : h.Reaches roots v) :
    h.jsonText v = h'.jsonText v := by
  rw [jsonText, jsonText, document, document, ha.documentWithin_eq hv]

/-! ### Snapshots -/

private theorem mapM_congr {m : Type → Type} [Monad m] [LawfulMonad m] {α β : Type}
    {f g : α → m β} {l : List α} (hfg : ∀ x ∈ l, f x = g x) : l.mapM f = l.mapM g := by
  induction l with
  | nil => rfl
  | cons x rest ih =>
    rw [List.mapM_cons, List.mapM_cons, hfg x (List.mem_cons_self ..),
      ih fun y hy ↦ hfg y (List.mem_cons_of_mem _ hy)]

theorem walk_eq (ha : h.Alike free whole roots h') (depth : Nat) {v : Value}
    (hv : h.Reaches roots v) : h.walk depth v = h'.walk depth v := by
  induction depth generalizing v with
  | zero => rfl
  | succ depth ih =>
    cases v with
    | array id =>
      have hes := reaches_element (reaches_array.mp hv)
      have hitems := mapM_congr fun w hw ↦ ih (hes w hw)
      simp only [walk, ← ha.elements_eq (reaches_array.mp hv), hitems]
    | object id =>
      have hps := reaches_property (reaches_object.mp hv)
      have hitems := mapM_congr (m := StateM Numbering) (l := (h.properties id).toList)
        (f := fun p ↦ do return (p.1, ← h.walk depth p.2))
        (g := fun p ↦ do return (p.1, ← h'.walk depth p.2))
        fun p hp ↦ by rw [ih (hps p.2 (List.mem_map_of_mem hp))]
      simp only [walk, ← ha.properties_eq (reaches_object.mp hv), hitems]
    | function f => simp only [walk, ha.functionName_eq hv, ha.functionForm_eq hv]
    | undefined | null | bool | number | text => rfl

theorem snapshot_eq (ha : h.Alike free whole roots h') {v : Value} (hv : h.Reaches roots v) :
    h.snapshot v = h'.snapshot v := by
  rw [snapshot, snapshot, ha.arrays, ha.objects, ha.walk_eq _ hv]

theorem snapshots_eq (ha : h.Alike free whole roots h') {vs : List Value}
    (hvs : h.ReachesAll roots vs) : h.snapshots vs = h'.snapshots vs := by
  rw [snapshots, snapshots, ha.arrays, ha.objects, mapM_congr fun v hv ↦ ha.walk_eq _ (hvs v hv)]

theorem bindingSnapshot_eq (ha : h.Alike free whole roots h') {b : Binding}
    (hb : h.Reaches roots b.value) : h.bindingSnapshot b = h'.bindingSnapshot b := by
  rw [bindingSnapshot, bindingSnapshot, ha.snapshot_eq hb]

theorem bindingSnapshots_eq (ha : h.Alike free whole roots h') {id : FrameId}
    (hid : h.Reachable roots (.frame id)) : h.bindingSnapshots id = h'.bindingSnapshots id := by
  rw [bindingSnapshots, bindingSnapshots, ← ha.frame?_eq (.inr hid)]
  cases hf : h.frame? id with
  | none => rfl
  | some f =>
    refine List.map_congr_left fun b hb ↦ ha.bindingSnapshot_eq ?_
    exact reaches_binding hid hf (List.mem_reverse.mp hb)

theorem completionSnapshot_eq (ha : h.Alike free whole roots h') {c : Completion}
    (hc : h.ReachesAll roots c.value?.toList) :
    h.completionSnapshot c = h'.completionSnapshot c := by
  rw [completionSnapshot, completionSnapshot]
  cases hv : c.value? with
  | none => rw [Option.map_none, Option.map_none]
  | some v => rw [Option.map_some, Option.map_some, ha.snapshot_eq (hc v (by simp [hv]))]

/-! ### Errors -/

theorem errorParts?_eq (ha : h.Alike free whole roots h') {v : Value} (hv : h.Reaches roots v) :
    h.errorParts? v = h'.errorParts? v := by
  cases v with
  | object id => simp only [errorParts?, property, ha.properties_eq (reaches_object.mp hv)]
  | _ => rfl

theorem isError_eq (ha : h.Alike free whole roots h') {v : Value} (hv : h.Reaches roots v) :
    h.isError v = h'.isError v :=
  congrArg Option.isSome (ha.errorParts?_eq hv)

theorem thrownText_eq (ha : h.Alike free whole roots h') {v : Value} (hv : h.Reaches roots v) :
    h.thrownText v = h'.thrownText v := by
  cases v with
  | object | array => exact ha.jsonText_eq hv
  | _ => exact ha.toText_eq hv

theorem thrown_eq (ha : h.Alike free whole roots h') {v : Value} (hv : h.Reaches roots v)
    (calls : CallTrace) (origin : Span) : h.thrown v calls origin = h'.thrown v calls origin := by
  rw [thrown, thrown, uncaughtMessage, uncaughtMessage, ha.errorParts?_eq hv, ha.thrownText_eq hv]

theorem reportHeading_eq (ha : h.Alike free whole roots h') {v : Value} (hv : h.Reaches roots v) :
    Interpreter.reportHeading h v = Interpreter.reportHeading h' v := by
  rw [Interpreter.reportHeading, Interpreter.reportHeading, ha.errorParts?_eq hv,
    ha.thrownText_eq hv]

end EcmaTree.Heap.Alike
