import EcmaTree.Proofs.Alike.Members

/-!
# Alike methods

The methods of arrays and texts are alike for the same receiver and the same arguments. Those with a
callback are so if calls are.
-/

namespace EcmaTree

open Carries

/-- Evaluators whose evaluations of alike nodes are alike. -/
structure Evaluator.Alike (p : Pairing) (r r' : Evaluator) : Prop where
  left : r.config = p.left
  right : r'.config = p.right
  rounds : r.rounds = r'.rounds ∨ p.short ∧ r.rounds ≤ r'.rounds
  expr {e e' : Expr} {kept : List HeapRef} (he : e.Alike p.free e') :
    Eval.Alike p kept [] (r.expr e) (r'.expr e')
  stmt {s s' : Stmt} {kept : List HeapRef} (hs : s.Alike p.free s') :
    Eval.Alike p kept [] (r.stmt s) (r'.stmt s')
  call {f this : Value} {args : List Value} {kept : List HeapRef}
    (hf : refs f ⊆ kept) (hargs : refs args ⊆ kept) (hthis : refs this ⊆ kept) :
    Eval.Alike p kept [] (r.call f args this) (r'.call f args this)
  /-- An expression with a value is not unsupported. -/
  resolved {e : Expr} {v : Value} (he : (r.expr e).Yields v) : e.Resolved
  expr_stops (type : Text) (span : Span) : (r.expr (.unsupported type span)).Stops
  stmt_stops (type : Text) (span : Span) : (r.stmt (.unsupported type span)).Stops

theorem refs_argument (args : List Value) (i : Nat) : refs (argument args i) ⊆ refs args := by
  rw [argument, List.getD_eq_getElem?_getD]
  cases hv : args[i]? with
  | none => exact List.nil_subset _
  | some v => exact refs_subset_of_mem (List.mem_of_getElem? hv)

grind_pattern refs_argument => argument args i

namespace Eval.Alike

variable {p : Pairing} {kept : List HeapRef} {args : List Value} {id : ArrayId}

theorem relativeIndex {v : Value} (length fallback : Nat) (hv : refs v ⊆ kept) :
    Alike p kept kept (Eval.readHeap (·.relativeIndex v length fallback))
      (Eval.readHeap (·.relativeIndex v length fallback)) :=
  readHeap fun _ _ _ ha hk ↦ ⟨ha.relativeIndex_eq (Heap.reaches_of_subset hk hv) _ _, nofun⟩

theorem clampedIndex {v : Value} (length fallback : Nat) (hv : refs v ⊆ kept) :
    Alike p kept kept (Eval.readHeap (·.clampedIndex v length fallback))
      (Eval.readHeap (·.clampedIndex v length fallback)) :=
  readHeap fun _ _ _ ha hk ↦ ⟨ha.clampedIndex_eq (Heap.reaches_of_subset hk hv) _ _, nofun⟩

theorem runPush (hid : .array id ∈ kept) (hargs : refs args ⊆ kept) :
    Alike p kept [] (ArrayMethod.runPush id args) (ArrayMethod.runPush id args) := by
  refine bind (modifyArray (fun es ↦ ?_) hid) fun _ _ ↦ bind (elements hid) fun es _ ↦
    finish (List.nil_subset _)
  simp only [refs_array, Array.toList_appendList, refs_append]
  grind

theorem runPop (hid : .array id ∈ kept) :
    Alike p kept [] (ArrayMethod.runPop id) (ArrayMethod.runPop id) := by
  refine bind (elements hid) fun es _ ↦ bind (modifyArray (fun fs ↦ ?_) (by grind)) fun _ _ ↦
    finish ?_
  · rw [refs_array, Array.toList_pop]
    exact List.subset_append_of_subset_left _ (refs_mono (List.dropLast_subset _))
  · rw [Array.back?_eq_getElem?, refs_getD]
    grind [refs_getElem? es (es.size - 1)]

theorem runShift (hid : .array id ∈ kept) :
    Alike p kept [] (ArrayMethod.runShift id) (ArrayMethod.runShift id) := by
  refine bind (elements hid) fun es _ ↦ bind (modifyArray (fun fs ↦ ?_) (by grind)) fun _ _ ↦
    finish ?_
  · exact List.subset_append_of_subset_left _ (refs_extract ..)
  · grind [refs_getElem? es 0]

theorem runUnshift (hid : .array id ∈ kept) (hargs : refs args ⊆ kept) :
    Alike p kept [] (ArrayMethod.runUnshift id args) (ArrayMethod.runUnshift id args) := by
  refine bind (modifyArray (fun es ↦ ?_) hid) fun _ _ ↦ bind (elements hid) fun es _ ↦
    finish (List.nil_subset _)
  simp only [refs_array, Array.toList_append, refs_append]
  grind

theorem runSlice (hid : .array id ∈ kept) (hargs : refs args ⊆ kept) :
    Alike p kept [] (ArrayMethod.runSlice id args) (ArrayMethod.runSlice id args) := by
  refine bind (elements hid) fun es _ ↦ bind (relativeIndex _ _ (by grind)) fun i _ ↦
    bind (relativeIndex _ _ (by grind)) fun j _ ↦ mono_right (newArray ?_) (List.nil_subset _)
  grind [refs_extract es i j]

theorem runJoin (hid : .array id ∈ kept) (hargs : refs args ⊆ kept) :
    Alike p kept [] (ArrayMethod.runJoin id args) (ArrayMethod.runJoin id args) := by
  have hjoin (separator : Text) : Alike p kept kept (Eval.readHeap (·.join id separator))
      (Eval.readHeap (·.join id separator)) :=
    readHeap fun _ _ _ ha hk ↦ ⟨ha.join_eq (hk _ hid) _, nofun⟩
  unfold ArrayMethod.runJoin
  dsimp only
  split
  · exact afterPure (bind (hjoin _) fun _ _ ↦ finish (List.nil_subset _))
  · exact bind (textOf (by grind)) fun separator _ ↦ bind (hjoin _) fun _ _ ↦
      finish (List.nil_subset _)

theorem runIndexOf (hid : .array id ∈ kept) (hargs : refs args ⊆ kept) :
    Alike p kept [] (ArrayMethod.runIndexOf id args) (ArrayMethod.runIndexOf id args) := by
  refine bind (elements hid) fun es _ ↦ bind (relativeIndex _ _ (by grind)) fun i _ ↦ finish ?_
  split <;> exact List.nil_subset _

theorem runIncludes (hid : .array id ∈ kept) :
    Alike p kept [] (ArrayMethod.runIncludes id args) (ArrayMethod.runIncludes id args) :=
  bind (elements hid) fun _ _ ↦ finish (List.nil_subset _)

theorem runReverse (hid : .array id ∈ kept) :
    Alike p kept [] (ArrayMethod.runReverse id) (ArrayMethod.runReverse id) := by
  refine bind (modifyArray (fun es ↦ ?_) hid) fun _ _ ↦ finish (by grind)
  refine List.subset_append_of_subset_left _ (subset_refs_array fun v hv ↦ ?_)
  exact refs_subset_of_mem_array (Array.mem_reverse.mp hv)

/-- An array with an argument behind it, or with the elements of one that is an array. -/
private def concatOne (h : Heap) (all : Array Value) (arg : Value) : Array Value :=
  match arg with
  | .array other => all ++ h.elements other
  | v => all.push v

private theorem concat_eq {h h' : Heap} {roots : List HeapRef}
    (ha : h.Alike p.free p.whole roots h') {es : Array Value}
    (hargs : ∀ r ∈ refs args, h.Reachable roots r) (hes : ∀ r ∈ refs es, h.Reachable roots r) :
    args.foldl (concatOne h) es = args.foldl (concatOne h') es ∧
      ∀ r ∈ refs (args.foldl (concatOne h) es), h.Reachable roots r := by
  induction args generalizing es with
  | nil => exact ⟨rfl, hes⟩
  | cons arg rest ih =>
    have hone : concatOne h es arg = concatOne h' es arg ∧
        ∀ r ∈ refs (concatOne h es arg), h.Reachable roots r := by
      cases arg with
      | array other =>
        have hother : h.Reachable roots (.array other) := hargs _ (by simp)
        have := Heap.reachable_of_reachesAll (Heap.reaches_element hother)
        refine ⟨congrArg (es ++ ·) (ha.elements_eq hother), ?_⟩
        simp only [concatOne, refs_array, Array.toList_append, refs_append]
        grind
      | _ =>
        refine ⟨rfl, ?_⟩
        simp only [concatOne, refs_array, Array.toList_push, refs_append]
        grind
    rw [List.foldl_cons, List.foldl_cons, ← hone.1]
    exact ih (fun r hr ↦ hargs r (by simp [hr])) hone.2

theorem runConcat (hid : .array id ∈ kept) (hargs : refs args ⊆ kept) :
    Alike p kept [] (ArrayMethod.runConcat id args) (ArrayMethod.runConcat id args) := by
  refine bind (elements hid) fun es _ ↦ ?_
  have hconcat : Alike p (refs es ++ kept) (refs es ++ kept)
      (Eval.readHeap fun h ↦ args.foldl (concatOne h) es)
      (Eval.readHeap fun h ↦ args.foldl (concatOne h) es) :=
    readHeap fun h h' roots ha hk ↦ concat_eq ha (by grind) (by grind)
  exact bind hconcat fun fs _ ↦ mono_right (newArray (by grind)) (List.nil_subset _)

/-! ### Callbacks -/

/-- Visits are alike while the array and the callback are held, which puts both back at hand each
time. -/
theorem overIndices {σ : Type} [Carries σ] {x : Holder} (hid : .array id ∈ refs x)
    {visit visit' : σ → Nat → Value → Eval σ}
    (hvisit : ∀ result i element {kept : List HeapRef}, refs result ⊆ kept → refs element ⊆ kept →
      refs x ⊆ kept → Alike p kept [] (visit result i element) (visit' result i element))
    (indices : List Nat) (result : σ) {s t : State} (hx : x ∈ s.held)
    (h : s.Alike p (refs result) t) :
    (Eval.overIndices id visit indices result s).Alike p s.held []
      (Eval.overIndices id visit' indices result t) := by
  induction indices generalizing result s t with
  | nil => exact .done _ (h.mono (by grind)) rfl
  | cons i rest ih =>
    have h := h.recalled hx
    refine (elements (by grind) s t h).bind fun es u v _ hu h ↦ ?_
    cases hv : es[i]? with
    | none => exact .done _ (h.mono (by grind)) hu
    | some element =>
      have hes : refs element ⊆ refs es :=
        refs_subset_of_mem_array (Array.mem_of_getElem? hv)
      have hone := hvisit result i element (by grind) (by grind) (by grind) u v h
      rw [hu] at hone
      refine hone.bind fun next w z _ hw h ↦ ?_
      rw [← hw] at hx ⊢
      exact ih next hx (h.mono (by grind))

theorem forCallback {σ : Type} [Carries σ] {callback : Value} {start : σ} (indices : List Nat)
    {visit visit' : σ → Nat → Value → Eval σ}
    (hvisit : ∀ result i element {kept : List HeapRef}, refs result ⊆ kept → refs element ⊆ kept →
      .array id ∈ kept → refs callback ⊆ kept →
      Alike p kept [] (visit result i element) (visit' result i element))
    (hid : .array id ∈ kept) (hcallback : refs callback ⊆ kept) (hstart : refs start ⊆ kept) :
    Alike p kept [] (Eval.forCallback id callback indices start visit)
      (Eval.forCallback id callback indices start visit') := by
  let x : Holder := .values [.array id, callback]
  have hx : refs x = .array id :: refs callback := by simp [x]
  have hin (s t : State) (hheld : x ∈ s.held) (h : s.Alike p kept t) :
      (Eval.overIndices id visit indices start s).Alike p s.held []
        (Eval.overIndices id visit' indices start t) :=
    overIndices (by grind) (fun result i element kept hr he hk ↦
      hvisit result i element hr he (by grind) (by grind)) indices start hheld (h.mono hstart)
  exact mono_right (holdingWithin hin (by grind)) (List.nil_subset _)

variable {callback receiver : Value} {r r' : Evaluator}

theorem runMap (hr : r.Alike p r') (hid : .array id ∈ kept) (hcallback : refs callback ⊆ kept) :
    Alike p kept [] (ArrayMethod.runMap r id callback) (ArrayMethod.runMap r' id callback) := by
  refine bind (elements hid) fun es _ ↦
    bind (forCallback _ (fun results i element k _ _ _ _ ↦ ?_) (by grind) (by grind) (by grind))
      fun results _ ↦ mono_right (newArray (by grind)) (List.nil_subset _)
  refine bind (holding (hr.call (by grind) (by grind) (by grind)) (by grind)) fun result _ ↦
    finish ?_
  simp only [refs_array, Array.toList_push, refs_append]
  grind

theorem runFilter (hr : r.Alike p r') (hid : .array id ∈ kept) (hcallback : refs callback ⊆ kept) :
    Alike p kept [] (ArrayMethod.runFilter r id callback)
      (ArrayMethod.runFilter r' id callback) := by
  refine bind (elements hid) fun es _ ↦
    bind (forCallback _ (fun results i element k _ _ _ _ ↦ ?_) (by grind) (by grind) (by grind))
      fun results _ ↦ mono_right (newArray (by grind)) (List.nil_subset _)
  refine bind (holding (holding (hr.call (by grind) (by grind) (by grind)) (by grind)) (by grind))
    fun verdict _ ↦ finish ?_
  split
  · simp only [refs_array, Array.toList_push, refs_append]
    grind
  · grind

theorem runForEach (hr : r.Alike p r') (hid : .array id ∈ kept) (hcallback : refs callback ⊆ kept) :
    Alike p kept [] (ArrayMethod.runForEach r id callback)
      (ArrayMethod.runForEach r' id callback) := by
  refine bind (elements hid) fun es _ ↦
    bind (forCallback _ (fun _ i element k _ _ _ _ ↦ ?_) (by grind) (by grind) (by grind))
      fun _ _ ↦ finish (List.nil_subset _)
  exact bind (hr.call (by grind) (by grind) (by grind)) fun _ _ ↦ finish (List.nil_subset _)

theorem runReduce (hr : r.Alike p r') (hid : .array id ∈ kept) (hargs : refs args ⊆ kept) :
    Alike p kept [] (ArrayMethod.runReduce r id args) (ArrayMethod.runReduce r' id args) := by
  unfold ArrayMethod.runReduce
  dsimp only
  split
  · exact bind (textOf (by grind)) fun _ _ ↦ raiseBare _
  · refine bind (elements hid) fun es _ ↦ ?_
    split
    · next first _ hfirst =>
      have := refs_subset_of_mem (List.mem_of_getElem? hfirst)
      exact forCallback _ (fun result i element k _ _ _ _ ↦
        hr.call (by grind) (by simp [*]) (List.nil_subset _)) (by grind) (by grind) (by grind)
    · next first _ hfirst =>
      have := refs_subset_of_mem_array (Array.mem_of_getElem? hfirst)
      exact forCallback _ (fun result i element k _ _ _ _ ↦
        hr.call (by grind) (by simp [*]) (List.nil_subset _)) (by grind) (by grind) (by grind)
    · exact raiseBare _

theorem runArrayMethod (hr : r.Alike p r') (m : ArrayMethod) (hreceiver : refs receiver ⊆ kept)
    (hargs : refs args ⊆ kept) :
    Alike p kept [] (m.run r receiver args) (m.run r' receiver args) := by
  cases receiver with
  | array id =>
    have hid : .array id ∈ kept := hreceiver (List.mem_singleton.mpr rfl)
    have hcallback : refs (argument args 0) ⊆ kept :=
      List.Subset.trans (refs_argument args 0) hargs
    cases m with
    | push => exact runPush hid hargs
    | pop => exact runPop hid
    | shift => exact runShift hid
    | unshift => exact runUnshift hid hargs
    | slice => exact runSlice hid hargs
    | join => exact runJoin hid hargs
    | indexOf => exact runIndexOf hid hargs
    | includes => exact runIncludes hid
    | reverse => exact runReverse hid
    | concat => exact runConcat hid hargs
    | map => exact runMap hr hid hcallback
    | filter => exact runFilter hr hid hcallback
    | forEach => exact runForEach hr hid hcallback
    | reduce => exact runReduce hr hid hargs
  | _ => exact raiseBare _

theorem runTextMethod (m : TextMethod) (hreceiver : refs receiver ⊆ kept)
    (hargs : refs args ⊆ kept) :
    Alike p kept [] (m.run receiver args) (m.run receiver args) := by
  unfold TextMethod.run
  split
  · exact raiseBare _
  refine bind (textOf hreceiver) fun t _ ↦ ?_
  cases m with
  | charAt =>
    cases args with
    | nil => exact afterPure (finish (List.nil_subset _))
    | cons v rest =>
      refine bind (map (numberOf (by grind)) fun n ↦ ?_) fun _ _ ↦ finish (List.nil_subset _)
      cases n.exactIndex? <;> exact List.nil_subset _
  | indexOf =>
    refine bind (textOf (by grind)) fun needle _ ↦
      bind (clampedIndex _ _ (by grind)) fun start _ ↦ finish ?_
    split <;> exact List.nil_subset _
  | slice =>
    exact bind (relativeIndex _ _ (by grind)) fun _ _ ↦
      bind (relativeIndex _ _ (by grind)) fun _ _ ↦ finish (List.nil_subset _)
  | substring =>
    exact bind (clampedIndex _ _ (by grind)) fun _ _ ↦
      bind (clampedIndex _ _ (by grind)) fun _ _ ↦ finish (List.nil_subset _)
  | toUpperCase | toLowerCase | trim => exact finish (List.nil_subset _)
  | split =>
    change Alike p _ _ (TextMethod.runSplit t args) (TextMethod.runSplit t args)
    unfold TextMethod.runSplit
    split
    · exact mono_right (newArray (by grind)) (List.nil_subset _)
    · refine bind (textOf (by grind)) fun separator _ ↦
        mono_right (newArray (subset_refs_array fun v hv ↦ ?_)) (List.nil_subset _)
      obtain ⟨part, _, rfl⟩ := List.mem_map.mp (List.mem_toArray.mp hv)
      exact List.nil_subset _

end Eval.Alike

end EcmaTree
