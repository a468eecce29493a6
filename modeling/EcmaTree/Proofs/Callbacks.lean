import EcmaTree.Proofs.Guarded
import EcmaTree.Proofs.Unwinding

/-!
# Methods with a callback

The rules by which the methods with a callback walk an array, stated over the list of the calls that
they make. The callback may do anything to the state, the array included: each call is for the next
index, as long as the array had that index at the entry and has it now, and passes the element that
is stored there just before the call. What a method makes of the calls is a parameter of the rules.
-/

namespace EcmaTree

/-- A call of a callback: the index and the element that it is for, the arguments and the state that
it is made with, and how it ends. -/
structure CallbackCall where
  index : Nat
  element : Value
  args : List Value
  state : State
  outcome : Outcome Value

namespace CallbackCall

/-- The call ended with a result. -/
def Returns (c : CallbackCall) : Prop := ∃ v t, c.outcome = .done v t

/-- The result of a call that ended with one. -/
def value (c : CallbackCall) : Value :=
  match c.outcome with
  | .done v _ => v
  | .thrown .. | .faulted .. | .exhausted _ => .undefined

/-- The state that calls leave one after the other. -/
def stateAfter (s : State) (calls : List CallbackCall) : State :=
  calls.foldl (fun _ c ↦ c.outcome.state) s

/-- The result of the last call; the initial value before the first. -/
def accumulated (initial : Value) (calls : List CallbackCall) : Value :=
  calls.foldl (fun _ c ↦ c.value) initial

/-- The results of all calls in order. -/
def results (calls : List CallbackCall) : Array Value := (calls.map value).toArray

/-- The elements, in order, of the calls that returned something true. -/
def kept (calls : List CallbackCall) : Array Value :=
  ((calls.filter fun c ↦ c.value.truthy).map element).toArray

end CallbackCall

open CallbackCall

/-- What the methods with a callback differ in. -/
structure Walk where
  /-- The first index that is visited. -/
  first : Nat
  /-- The arguments before the element, given the calls so far. -/
  front : List CallbackCall → List Value
  /-- What is held during the call for an element besides the array and the callback. -/
  holds : List CallbackCall → Value → List Holder
  /-- How the method ends when all of its calls returned. -/
  finish : List CallbackCall → State → Outcome Value → Prop

namespace Walk

section Rules

variable (w : Walk) (r : Evaluator) (id : ArrayId) (callback : Value) (s : State)

/-- A call is the next one after others, in a walk that began in a state. -/
structure Next (calls : List CallbackCall) (c : CallbackCall) : Prop where
  index_eq : c.index = w.first + calls.length
  lt_entry : c.index < (s.heap.elements id).size
  lt_size : c.index < (c.state.heap.elements id).size
  element_eq : (c.state.heap.elements id)[c.index] = c.element
  args_eq : c.args = w.front calls ++ [c.element, .ofNat c.index, .array id]
  state_eq : c.state = { stateAfter s calls with
    held := w.holds calls c.element ++ .values [.array id, callback] :: s.held }
  outcome_eq : c.outcome = r.call callback c.args .undefined c.state

/-- The calls of a walk that began in a state. After one that did not return there is none. -/
inductive Calls : List CallbackCall → Prop where
  | nil : Calls []
  | snoc {calls : List CallbackCall} {c : CallbackCall} (hcalls : Calls calls)
      (hreturn : ∀ c ∈ calls, c.Returns) (hnext : w.Next r id callback s calls c) :
      Calls (calls ++ [c])

/-- How a walk ends with its calls. -/
inductive Concludes (calls : List CallbackCall) : Outcome Value → Prop where
  /-- All calls returned, and the next index is past the end that the array had at the entry, or
  past the end that it has now. -/
  | over {o : Outcome Value} (hreturn : ∀ c ∈ calls, c.Returns)
      (hend : (s.heap.elements id).size ≤ w.first + calls.length ∨
        ((stateAfter s calls).heap.elements id).size ≤ w.first + calls.length)
      (hfinish : w.finish calls { stateAfter s calls with held := s.held } o) : Concludes calls o
  /-- The last call did not return, and the method ends as it did. -/
  | stopped {c : CallbackCall} (hlast : calls.getLast? = some c) (hstops : c.outcome.Stops) :
      Concludes calls (c.outcome.mapState fun t ↦ { t with held := s.held })

/-- How a method ends that walks an array with a callback. -/
def Ends (o : Outcome Value) : Prop :=
  ∃ calls, w.Calls r id callback s calls ∧ w.Concludes id s calls o

end Rules

end Walk

/-! ## The methods -/

/-- Ends with an array that was not there before and has the given elements. -/
inductive MakesArray (es : Array Value) (t : State) : Outcome Value → Prop where
  | intro {a : ArrayId} {h : Heap} (hfresh : t.heap.arrays.get? a.index = none)
      (hnew : t.heap.newArray es = (a, h)) (helements : h.elements a = es) :
      MakesArray es t (.done (.array a) { t with heap := h })

namespace Walk

/-- One result for each call. -/
def map : Walk where
  first := 0
  front _ := []
  holds calls _ := [.elements (results calls)]
  finish calls := MakesArray (results calls)

/-- The elements that the callback returned something true for. -/
def filter : Walk where
  first := 0
  front _ := []
  holds calls element := [.values [element], .elements (kept calls)]
  finish calls := MakesArray (kept calls)

/-- The calls alone. -/
def forEach : Walk where
  first := 0
  front _ := []
  holds _ _ := []
  finish _ t o := o = .done .undefined t

/-- The fold of the calls from an initial value: each call is given the result of the one before. -/
def fold (first : Nat) (initial : Value) : Walk where
  first := first
  front calls := [accumulated initial calls]
  holds _ _ := []
  finish calls t o := o = .done (accumulated initial calls) t

end Walk

/-- How a fold ends. Its initial value is the second argument if there is one and the first element
otherwise, which is not visited then. -/
inductive Folds (r : Evaluator) (id : ArrayId) (args : List Value) (s : State) :
    Outcome Value → Prop where
  | notFunction {o : Outcome Value} (hcallback : (argument args 0).isFunction = false)
      (herror : Eval.raiseBare (.notCallable (s.heap.toText (argument args 0))) s = o) :
      Folds r id args s o
  | empty {o : Outcome Value} (hcallback : (argument args 0).isFunction = true)
      (hinitial : args[1]? = none) (hempty : s.heap.elements id = #[])
      (herror : Eval.raiseBare .emptyReduce s = o) : Folds r id args s o
  | initial {v : Value} {o : Outcome Value} (hcallback : (argument args 0).isFunction = true)
      (hinitial : args[1]? = some v) (hfold : (Walk.fold 0 v).Ends r id (argument args 0) s o) :
      Folds r id args s o
  | first {v : Value} {o : Outcome Value} (hcallback : (argument args 0).isFunction = true)
      (hinitial : args[1]? = none) (hfirst : (s.heap.elements id)[0]? = some v)
      (hfold : (Walk.fold 1 v).Ends r id (argument args 0) s o) : Folds r id args s o

/-! ## The loop over the indices follows the rules -/

/-- Changes the result of an evaluation that has one. -/
def Outcome.map {α β : Type} (f : α → β) : Outcome α → Outcome β
  | done a s => done (f a) s
  | thrown e s => thrown e s
  | faulted e s => faulted e s
  | exhausted s => exhausted s

@[simp] theorem Outcome.state_map {α β : Type} (f : α → β) (o : Outcome α) :
    (o.map f).state = o.state := by
  cases o <;> rfl

theorem Outcome.mapState_held {α : Type} {o : Outcome α} {held : List Holder}
    (h : o.state.held = held) : (o.mapState fun t ↦ { t with held := held }) = o := by
  subst h
  cases o <;> rfl

theorem CallbackCall.returns_or_stops (c : CallbackCall) : c.Returns ∨ c.outcome.Stops := by
  by_cases h : c.Returns
  · exact .inl h
  · exact .inr fun v t hc ↦ h ⟨v, t, hc⟩

theorem CallbackCall.returns_of_snoc {calls : List CallbackCall} {c : CallbackCall}
    (hreturn : ∀ d ∈ calls, d.Returns) (hc : c.Returns) : ∀ d ∈ calls ++ [c], d.Returns := by
  intro d hd
  rcases List.mem_append.mp hd with hd | hd
  · exact hreturn d hd
  · exact List.mem_singleton.mp hd ▸ hc

@[simp] theorem CallbackCall.stateAfter_snoc (s : State) (calls : List CallbackCall)
    (c : CallbackCall) : stateAfter s (calls ++ [c]) = c.outcome.state := by
  simp [stateAfter]

namespace Walk

open Eval

variable {w : Walk} {r : Evaluator} {id : ArrayId} {callback : Value} {s : State}
  {calls : List CallbackCall} {c : CallbackCall} {o : Outcome Value}

/-- The state between the calls of a walk. -/
def between (id : ArrayId) (callback : Value) (s : State) (calls : List CallbackCall) : State :=
  { stateAfter s calls with held := .values [.array id, callback] :: s.held }

/-- The call for an index and an element. -/
def callOf (w : Walk) (r : Evaluator) (id : ArrayId) (callback : Value) (calls : List CallbackCall)
    (i : Nat) (element : Value) (u : State) : CallbackCall :=
  let args := w.front calls ++ [element, .ofNat i, .array id]
  let state := { u with held := w.holds calls element ++ u.held }
  ⟨i, element, args, state, r.call callback args .undefined state⟩

/-- A visit makes the call for its index, and what it collects is a function of the calls. -/
def Visits {σ : Type} (w : Walk) (r : Evaluator) (id : ArrayId) (callback : Value)
    (collected : List CallbackCall → σ) (visit : σ → Nat → Value → Eval σ) : Prop :=
  ∀ calls i element u,
    let c := w.callOf r id callback calls i element u
    visit (collected calls) i element u =
      (c.outcome.map fun _ ↦ collected (calls ++ [c])).mapState fun t ↦ { t with held := u.held }

theorem Next.element? (h : w.Next r id callback s calls c) :
    ((between id callback s calls).heap.elements id)[w.first + calls.length]? = some c.element := by
  have helement := Array.getElem?_eq_some_iff.mpr ⟨h.lt_size, h.element_eq⟩
  rwa [h.state_eq, h.index_eq] at helement

theorem Next.eq_callOf (h : w.Next r id callback s calls c) :
    c = w.callOf r id callback calls (w.first + calls.length) c.element
      (between id callback s calls) := by
  obtain ⟨index, element, args, state, outcome⟩ := c
  obtain ⟨hindex, -, -, -, hargs, hstate, houtcome⟩ := h
  dsimp only at hindex hargs hstate houtcome
  subst hindex hargs hstate houtcome
  rfl

theorem exists_next (hentry : w.first + calls.length < (s.heap.elements id).size)
    (hnow : w.first + calls.length < ((stateAfter s calls).heap.elements id).size) :
    ∃ c, w.Next r id callback s calls c :=
  ⟨w.callOf r id callback calls (w.first + calls.length)
      ((stateAfter s calls).heap.elements id)[w.first + calls.length]
      (between id callback s calls),
    rfl, hentry, hnow, rfl, rfl, rfl, rfl⟩

/-- The calls are for the indices from the first one on, without a gap or a repetition. -/
theorem Calls.indices (h : w.Calls r id callback s calls) :
    calls.map CallbackCall.index = List.range' w.first calls.length := by
  induction h with
  | nil => rfl
  | snoc _ _ hnext ih =>
    rw [List.map_append, ih, List.length_append, List.map_singleton, hnext.index_eq,
      List.length_singleton, List.range'_1_concat]

variable {σ : Type} {collected : List CallbackCall → σ} {visit : σ → Nat → Value → Eval σ}

/-- The loop over the indices that are left after some calls. -/
def rest (w : Walk) (id : ArrayId) (callback : Value) (s : State)
    (collected : List CallbackCall → σ) (visit : σ → Nat → Value → Eval σ)
    (calls : List CallbackCall) : Outcome σ :=
  overIndices id visit
    (List.range' (w.first + calls.length)
      ((s.heap.elements id).size - (w.first + calls.length)))
    (collected calls) (between id callback s calls)

/-- The loop begins with the next call, and goes on after it if it returns. -/
theorem Visits.rest_eq (hvisit : w.Visits r id callback collected visit)
    (hnext : w.Next r id callback s calls c) :
    w.rest id callback s collected visit calls =
      match c.outcome with
      | .done .. => w.rest id callback s collected visit (calls ++ [c])
      | .thrown e t => .thrown e { t with held := (between id callback s calls).held }
      | .faulted e t => .faulted e { t with held := (between id callback s calls).held }
      | .exhausted t => .exhausted { t with held := (between id callback s calls).held } := by
  have hlt : w.first + calls.length < (s.heap.elements id).size := hnext.index_eq ▸ hnext.lt_entry
  have hcount : (s.heap.elements id).size - (w.first + calls.length) =
      (s.heap.elements id).size - (w.first + (calls ++ [c]).length) + 1 := by
    rw [List.length_append, List.length_singleton]
    omega
  have hvisited := hvisit calls (w.first + calls.length) c.element (between id callback s calls)
  rw [← hnext.eq_callOf] at hvisited
  rw [rest, hcount, List.range'_succ, overIndices, bind_apply]
  simp only [Eval.elements, readHeap, hnext.element?, bind_apply, hvisited]
  cases houtcome : c.outcome with
  | done v t =>
    simp [rest, Outcome.map, Outcome.mapState, between, houtcome, Nat.add_assoc, Outcome.state]
  | thrown | faulted | exhausted => rfl

/-- The loop goes on from where the calls so far have left it. -/
theorem Visits.rest_eq_of_calls (hvisit : w.Visits r id callback collected visit)
    (hcalls : w.Calls r id callback s calls) (hreturn : ∀ c ∈ calls, c.Returns) :
    w.rest id callback s collected visit [] = w.rest id callback s collected visit calls := by
  induction hcalls with
  | nil => rfl
  | @snoc calls c hcalls hearlier hnext ih =>
    obtain ⟨v, t, hc⟩ := hreturn c (by simp)
    rw [ih hearlier, hvisit.rest_eq hnext, hc]

/-- Nothing is left when the next index is past one of the two ends. -/
theorem rest_eq_of_le (collected : List CallbackCall → σ) (visit : σ → Nat → Value → Eval σ)
    (hend : (s.heap.elements id).size ≤ w.first + calls.length ∨
      ((stateAfter s calls).heap.elements id).size ≤ w.first + calls.length) :
    w.rest id callback s collected visit calls =
      .done (collected calls) (between id callback s calls) := by
  rw [rest]
  rcases Nat.eq_zero_or_pos ((s.heap.elements id).size - (w.first + calls.length)) with hzero | hpos
  · rw [hzero]
    rfl
  · have hnone : ((stateAfter s calls).heap.elements id)[w.first + calls.length]? = none :=
      Array.getElem?_eq_none (hend.resolve_left (by omega))
    rw [← Nat.sub_add_cancel hpos, List.range'_succ, overIndices, bind_apply]
    simp only [Eval.elements, readHeap, between, hnone]
    rfl

/-- The rules leave a walk one end at most, which is that of the loop. -/
theorem Visits.eq_of_concludes {finishing : σ → Eval Value}
    (hvisit : w.Visits r id callback collected visit)
    (hfinish : ∀ calls t o, finishing (collected calls) t = o ↔ w.finish calls t o)
    (hcalls : w.Calls r id callback s calls) (hend : w.Concludes id s calls o) :
    (forCallback id callback (List.range' w.first ((s.heap.elements id).size - w.first))
      (collected []) visit >>= finishing) s = o := by
  have hloop : forCallback id callback
      (List.range' w.first ((s.heap.elements id).size - w.first)) (collected []) visit s =
      (w.rest id callback s collected visit []).mapState fun t ↦ { t with held := s.held } := rfl
  rw [bind_apply, hloop]
  cases hend with
  | «over» hreturn hend hfinal =>
    rw [hvisit.rest_eq_of_calls hcalls hreturn, rest_eq_of_le _ _ hend]
    exact (hfinish _ _ _).mpr hfinal
  | @stopped c hlast hstops =>
    cases hcalls with
    | nil => cases hlast
    | @snoc calls d hcalls hearlier hnext =>
      obtain rfl : d = c := by simpa using hlast
      rw [hvisit.rest_eq_of_calls hcalls hearlier, hvisit.rest_eq hnext]
      cases houtcome : d.outcome with
      | done v t => exact absurd houtcome (hstops v t)
      | thrown | faulted | exhausted => rfl

/-- Calls that all returned can be continued to an end, in no more steps than there are indices
left. -/
theorem Calls.exists_concludes (hfinish : ∀ calls t, ∃ o, w.finish calls t o) (n : Nat)
    (hcalls : w.Calls r id callback s calls) (hreturn : ∀ c ∈ calls, c.Returns)
    (hn : (s.heap.elements id).size ≤ w.first + calls.length + n) :
    ∃ calls' o, w.Calls r id callback s calls' ∧ w.Concludes id s calls' o := by
  induction n generalizing calls with
  | zero =>
    obtain ⟨o, ho⟩ := hfinish calls { stateAfter s calls with held := s.held }
    exact ⟨calls, o, hcalls, .over hreturn (.inl hn) ho⟩
  | succ n ih =>
    obtain ⟨o, ho⟩ := hfinish calls { stateAfter s calls with held := s.held }
    by_cases hend : (s.heap.elements id).size ≤ w.first + calls.length ∨
        ((stateAfter s calls).heap.elements id).size ≤ w.first + calls.length
    · exact ⟨calls, o, hcalls, .over hreturn hend ho⟩
    · rw [not_or, Nat.not_le, Nat.not_le] at hend
      obtain ⟨c, hnext⟩ : ∃ c, w.Next r id callback s calls c := exists_next hend.1 hend.2
      have hsnoc := hcalls.snoc hreturn hnext
      rcases c.returns_or_stops with hc | hc
      · exact ih hsnoc (returns_of_snoc hreturn hc) (by simp; omega)
      · exact ⟨_, _, hsnoc, .stopped List.getLast?_concat hc⟩

/-- A loop that calls the callback, and an evaluation that follows it, end as the walk does. -/
theorem Visits.eq_iff_ends (hvisit : w.Visits r id callback collected visit)
    (finishing : σ → Eval Value)
    (hfinish : ∀ calls t o, finishing (collected calls) t = o ↔ w.finish calls t o) :
    (forCallback id callback (List.range' w.first ((s.heap.elements id).size - w.first))
      (collected []) visit >>= finishing) s = o ↔ w.Ends r id callback s o := by
  constructor
  · intro ho
    have hends (calls : List CallbackCall) (t : State) : ∃ o, w.finish calls t o :=
      ⟨_, (hfinish calls t _).mp rfl⟩
    have hnil : w.Calls r id callback s [] := .nil
    obtain ⟨calls, o', hcalls, hend⟩ :=
      hnil.exists_concludes hends (s.heap.elements id).size (List.forall_mem_nil _)
        (by omega)
    rw [← ho, hvisit.eq_of_concludes hfinish hcalls hend]
    exact ⟨calls, hcalls, hend⟩
  · rintro ⟨calls, hcalls, hend⟩
    exact hvisit.eq_of_concludes hfinish hcalls hend

end Walk

/-! ## The methods follow the rules -/

theorem makesArray_iff {es : Array Value} {t : State} {o : Outcome Value} :
    Eval.newArray es t = o ↔ MakesArray es t o := by
  constructor
  · rintro rfl
    have hfresh : t.heap.arrays.get? t.heap.arrays.size = none :=
      Option.eq_none_iff_forall_not_mem.mpr fun es hes ↦
        absurd (Store.lt_size_of_get?_eq_some hes) (Nat.lt_irrefl _)
    exact .intro hfresh rfl (by simp [Heap.elements, Store.get?_push])
  · rintro ⟨-, hnew, -⟩
    rw [Eval.newArray, Eval.updateHeap, hnew]

/-- However a call ends, what is held is as before. -/
def Evaluator.Releases (r : Evaluator) : Prop :=
  ∀ f args receiver t, (r.call f args receiver t).state.held = t.held

theorem Config.level_releases (c : Config) (n : Nat) : (c.level n).Releases :=
  fun f args receiver t ↦ ((c.level_courses n).call f args receiver t).unwound.held

namespace ArrayMethod

open Eval

variable {r : Evaluator} {id : ArrayId} {callback : Value} {args : List Value} {s : State}
  {o : Outcome Value}

/-- A method begins with the elements of its receiver. -/
theorem elements_bind_apply {α : Type} (f : Array Value → Eval α) :
    (elements id >>= f) s = f (s.heap.elements id) s := rfl

theorem runMap_eq_iff : runMap r id callback s = o ↔ Walk.map.Ends r id callback s o := by
  have hvisit : Walk.map.Visits r id callback results fun results i element ↦ do
      let result ← holding (.elements results) <|
        r.call callback [element, .ofNat i, .array id] .undefined
      return results.push result := by
    intro calls i element u
    simp only [bind_apply, holding, Walk.callOf, Walk.map, List.nil_append, List.cons_append]
    generalize r.call callback _ _ _ = o
    cases o with
    | done v t => simp [results, value, Outcome.map, Outcome.mapState, pure_apply]
    | thrown | faulted | exhausted => rfl
  rw [← hvisit.eq_iff_ends newArray fun _ _ _ ↦ makesArray_iff, runMap, elements_bind_apply,
    List.range_eq_range']
  rfl

theorem runFilter_eq_iff : runFilter r id callback s = o ↔ Walk.filter.Ends r id callback s o := by
  have hvisit : Walk.filter.Visits r id callback kept fun results i element ↦ do
      let verdict ← holding (.elements results) <| holding (.values [element]) <|
        r.call callback [element, .ofNat i, .array id] .undefined
      return if verdict.truthy then results.push element else results := by
    intro calls i element u
    simp only [bind_apply, holding, Walk.callOf, Walk.filter, List.nil_append, List.cons_append]
    generalize r.call callback _ _ _ = o
    cases o with
    | done v t =>
      by_cases hv : v.truthy <;>
        simp [kept, value, hv, Outcome.map, Outcome.mapState, pure_apply]
    | thrown | faulted | exhausted => rfl
  rw [← hvisit.eq_iff_ends newArray fun _ _ _ ↦ makesArray_iff, runFilter, elements_bind_apply,
    List.range_eq_range']
  rfl

theorem runForEach_eq_iff (hr : r.Releases) :
    runForEach r id callback s = o ↔ Walk.forEach.Ends r id callback s o := by
  have hvisit : Walk.forEach.Visits r id callback (fun _ ↦ ()) fun _ i element ↦
      r.call callback [element, .ofNat i, .array id] .undefined >>= fun _ ↦ pure () := by
    intro calls i element u
    have hheld := hr callback [element, .ofNat i, .array id] .undefined u
    simp only [bind_apply, Walk.callOf, Walk.forEach, List.nil_append]
    generalize r.call callback _ _ _ = o at hheld
    rw [Outcome.mapState_held (by rw [Outcome.state_map, hheld])]
    cases o <;> rfl
  rw [← hvisit.eq_iff_ends (fun _ ↦ pure .undefined) fun _ _ _ ↦ eq_comm, runForEach,
    elements_bind_apply, List.range_eq_range']
  rfl

/-- A fold from an initial value, without what is checked before. -/
theorem fold_eq_iff (hr : r.Releases) (first : Nat) (initial : Value) :
    forCallback id callback (List.range' first ((s.heap.elements id).size - first)) initial
        (fun result i element ↦ r.call callback [result, element, .ofNat i, .array id] .undefined)
        s = o ↔
      (Walk.fold first initial).Ends r id callback s o := by
  have hvisit : (Walk.fold first initial).Visits r id callback (accumulated initial)
      fun result i element ↦
        r.call callback [result, element, .ofNat i, .array id] .undefined := by
    intro calls i element u
    have hheld := hr callback [accumulated initial calls, element, .ofNat i, .array id] .undefined u
    simp only [Walk.callOf, Walk.fold, List.nil_append, List.cons_append]
    generalize r.call callback _ _ _ = o at hheld
    rw [Outcome.mapState_held (by rw [Outcome.state_map, hheld])]
    cases o <;> simp [Outcome.map, accumulated, value]
  rw [← hvisit.eq_iff_ends pure fun _ _ _ ↦ eq_comm, bind_pure]
  rfl

theorem runReduce_eq_iff (hr : r.Releases) : runReduce r id args s = o ↔ Folds r id args s o := by
  rw [runReduce]
  cases hcallback : (argument args 0).isFunction with
  | false =>
    refine ⟨.notFunction hcallback, fun h ↦ ?_⟩
    cases h with
    | notFunction _ herror => exact herror
    | _ => simp_all
  | true =>
    rw [Bool.not_true, if_neg Bool.false_ne_true, elements_bind_apply]
    cases hinitial : args[1]? with
    | some v =>
      dsimp only
      rw [List.range_eq_range', ← Nat.sub_zero (s.heap.elements id).size, fold_eq_iff hr 0 v]
      refine ⟨.initial hcallback hinitial, fun h ↦ ?_⟩
      cases h <;> simp_all
    | none =>
      cases hfirst : (s.heap.elements id)[0]? with
      | some v =>
        dsimp only
        rw [fold_eq_iff hr 1 v]
        refine ⟨.first hcallback hinitial hfirst, fun h ↦ ?_⟩
        cases h <;> simp_all
      | none =>
        have hempty : s.heap.elements id = #[] := by simpa using hfirst
        refine ⟨.empty hcallback hinitial hempty, fun h ↦ ?_⟩
        cases h with
        | empty _ _ _ herror => exact herror
        | _ => simp_all

end ArrayMethod

/-- However the callback changes the array, the methods end as their walks do: with calls for the
indices in order, each with the element found there, and with what the method makes of them; the
first call that does not return ends the method. -/
theorem callbacks_in_turn (c : Config) (n : Nat) (id : ArrayId) (args : List Value) (s : State)
    (o : Outcome Value) :
    (ArrayMethod.run (c.level n) .map (.array id) args s = o ↔
        Walk.map.Ends (c.level n) id (argument args 0) s o) ∧
      (ArrayMethod.run (c.level n) .filter (.array id) args s = o ↔
        Walk.filter.Ends (c.level n) id (argument args 0) s o) ∧
      (ArrayMethod.run (c.level n) .forEach (.array id) args s = o ↔
        Walk.forEach.Ends (c.level n) id (argument args 0) s o) ∧
      (ArrayMethod.run (c.level n) .reduce (.array id) args s = o ↔
        Folds (c.level n) id args s o) :=
  have hr := c.level_releases n
  ⟨ArrayMethod.runMap_eq_iff, ArrayMethod.runFilter_eq_iff, ArrayMethod.runForEach_eq_iff hr,
    ArrayMethod.runReduce_eq_iff hr⟩

end EcmaTree
