import EcmaTree.Proofs.Reached

/-!
# The depth of calls

The call trace lists what is active, the counter counts the calls among it, and there are never more
of them than may be active, in every state that a session comes to. A call runs its function if
there is room for one more. If there is none it makes an error and throws it, and nothing else
changes.
-/

namespace EcmaTree

/-- The trace has an entry for each active call and each active program, the innermost first, and
only the outermost can be a program. The calls among them are counted. There are never too many, and
inside of a call there is at least one. -/
structure State.Counts (c : Config) (active : List Activation) (s : State) : Prop where
  calls_eq : s.calls = active.map Activation.entry
  length_eq : s.calls.length =
    active.countP Activation.isCall + active.countP Activation.isProgram
  isCall_of_inner : ∀ a ∈ active.dropLast, a.isCall = true
  depth_eq : s.depth = active.countP Activation.isCall
  depth_le : s.depth ≤ c.maxDepth
  depth_pos {entry : CallFrame} {outer : List Activation} (h : active = .call entry :: outer) :
    1 ≤ s.depth

/-- What says that a call would be one too many. -/
def Heap.depthError (active : List Activation) : Properties :=
  let message : Text := "Maximum call stack size exceeded"
  errorProperties .rangeError message
    (Report.stack "RangeError" message (active.map Activation.entry))

/-- The error of a call that would be one too many was thrown, with what is active in its stack and
on its trace, and everything that there was before is as it was. -/
structure Thrown.Refuses (e : Thrown) (site : Span) (active : List Activation) (h h' : Heap) :
    Prop where
  value_eq : ∃ id, e.value = .object id ∧ h'.objects.get? id.index = some (Heap.depthError active)
  calls_eq : e.calls = active.map Activation.entry
  origin_eq : e.origin = site
  unchanged (r : HeapRef) (hr : h.holds r = true) : h'.cell? r = h.cell? r

namespace State

variable {c : Config} {active : List Activation} {s : State}

theorem counts_of_accounts (h : c.Accounts active s.calls s.depth) : s.Counts c active where
  calls_eq := h.calls_eq
  length_eq := by
    rw [h.calls_eq, List.length_map, List.length_eq_countP_add_countP Activation.isCall]
    congr 2
    funext a
    cases a <;> rfl
  isCall_of_inner := h.isCall_of_inner
  depth_eq := h.depth_eq
  depth_le := h.depth_le
  depth_pos := by
    rintro entry outer rfl
    rw [h.depth_eq, List.countP_cons_of_pos rfl]
    exact Nat.le_add_left ..

theorem Counts.accounts (h : s.Counts c active) : c.Accounts active s.calls s.depth :=
  ⟨h.calls_eq, h.depth_eq, h.depth_le, h.isCall_of_inner⟩

end State

namespace Evaluator

variable {r : Evaluator} {f : FunctionRef} {args : List Value} {receiver : Value} {site : Span}
  {active : List Activation} {s : State}

/-- The state in which a called function begins. -/
def inside (r : Evaluator) (f : FunctionRef) (args : List Value) (receiver : Value) (site : Span)
    (s : State) : State :=
  { s with
    depth := s.depth + 1
    calls := r.config.callFrame (s.heap.functionName f) site :: s.calls
    held := .values (.function f :: receiver :: args) :: s.held }

theorem callFunction_of_lt (h : s.depth < r.config.maxDepth) :
    r.callFunction f args receiver site s =
      (r.apply f args receiver (r.inside f args receiver site s)).mapState fun t ↦
        { t with depth := s.depth, calls := s.calls, held := s.held } := by
  simp only [callFunction, Eval.bind_apply, Eval.readHeap, Eval.holding, Config.inCall, if_pos h,
    Eval.deeper, Eval.withCallFrame, Outcome.mapState_mapState, inside]
  rfl

theorem callFunction_of_not_lt (h : ¬ s.depth < r.config.maxDepth) :
    r.callFunction f args receiver site s = Eval.raise .callDepth site s := by
  simp only [callFunction, Eval.bind_apply, Eval.readHeap, Eval.holding, Config.inCall, if_neg h]
  rfl

/-- A call that would be one too many throws its error, whatever is called. -/
theorem exists_refuses (hs : s.Counts r.config active) (h : ¬ s.depth < r.config.maxDepth) :
    ∃ e g, r.callFunction f args receiver site s = .thrown e { s with heap := g } ∧
      e.Refuses site active s.heap g := by
  have hstack : Heap.errorProperties .rangeError "Maximum call stack size exceeded"
      (Report.stack "RangeError" "Maximum call stack size exceeded" s.calls) =
        Heap.depthError active := by
    rw [hs.calls_eq]
    rfl
  let made := s.heap.newObject (Heap.depthError active)
  refine ⟨made.2.thrown (.object made.1) s.calls site, made.2, ?_, ?_⟩
  · rw [callFunction_of_not_lt h]
    simp only [made, ← hstack]
    rfl
  · have hcell (x : HeapRef) : made.2.cell? x = if x = .object made.1 then
        some (.object (Heap.depthError active)) else s.heap.cell? x :=
      s.heap.cell?_newObject (Heap.depthError active) x
    constructor
    case value_eq =>
      refine ⟨made.1, rfl, ?_⟩
      have hnew := hcell (.object made.1)
      rw [if_pos rfl, Heap.cell?_object] at hnew
      obtain ⟨ps, hps, heq⟩ := Option.map_eq_some_iff.mp hnew
      cases heq
      exact hps
    case calls_eq => exact hs.calls_eq
    case origin_eq => rfl
    case unchanged =>
      intro x hx
      -- what is there already is not the object that is made
      have hne : x ≠ .object made.1 := by
        rintro rfl
        obtain ⟨ps, hps⟩ := Option.isSome_iff_exists.mp hx
        exact (Store.lt_size_of_get?_eq_some hps).false
      rw [hcell, if_neg hne]

/-- A called function begins with the call counted and on the trace. -/
theorem counts_inside (hs : s.Counts r.config active) (h : s.depth < r.config.maxDepth) :
    (r.inside f args receiver site s).Counts r.config
      (.call (r.config.callFrame (s.heap.functionName f) site) :: active) :=
  State.counts_of_accounts (hs.accounts.call h _)

end Evaluator

/-- In every state that a session comes to, while it evaluates something and after that, the trace
and the counter account for what is active, and no more calls are active than may be. In each such
state a call runs its function if there is room for one more, as one more active call, after which
the trace and the counter are as before. If there is none, it runs nothing, throws the error of a
call that would be one too many, and changes nothing that there was before. -/
theorem Session.calls_counted {c : Config} {s : Session} (hs : s.Reached c) :
    s.Passes (fun active _ t ↦ t.Counts c active) ∧
      ∀ (r : Evaluator) (f : FunctionRef) (args : List Value) (receiver : Value) (site : Span)
        (active : List Activation) (t : State), r.config = c → t.Counts c active →
        (active.countP Activation.isCall < c.maxDepth →
          let entry := c.callFrame (t.heap.functionName f) site
          (r.inside f args receiver site t).Counts c (.call entry :: active) ∧
            r.callFunction f args receiver site t =
              (r.apply f args receiver (r.inside f args receiver site t)).mapState fun u ↦
                { u with depth := t.depth, calls := t.calls, held := t.held }) ∧
        (active.countP Activation.isCall = c.maxDepth →
          ∃ e h, r.callFunction f args receiver site t = .thrown e { t with heap := h } ∧
            e.Refuses site active t.heap h) := by
  obtain ⟨t, ha⟩ := hs.exists_alike
  refine ⟨ha.passes fun active kept u hu _ ↦ State.counts_of_accounts hu, ?_⟩
  rintro r f args receiver site active u rfl hu
  constructor
  · intro hlt
    rw [← hu.depth_eq] at hlt
    exact ⟨Evaluator.counts_inside hu hlt, Evaluator.callFunction_of_lt hlt⟩
  · intro heq
    rw [← hu.depth_eq] at heq
    exact Evaluator.exists_refuses hu heq.not_lt

/-- Where two calls may be active, a third one throws inside of two functions that a program called,
and runs inside of one. -/
theorem Session.calls_counted_noRoom :
    let c := { Config.standard with maxDepth := 2 }
    let s := Session.start c .start []
    let program := c.callFrame programName .nowhere
    let f := c.callFrame "f" .nowhere
    let g := c.callFrame "g" .nowhere
    let full := { s.interpreter.state with depth := 2, calls := [g, f, program] }
    let room := { s.interpreter.state with depth := 1, calls := [f, program] }
    let push : FunctionRef := .builtin (.array .push)
    s.Reached c ∧ full.Counts c [.call g, .call f, .program program] ∧
      (∃ e h, (c.level 1).callFunction push [] .undefined .nowhere full =
          .thrown e { full with heap := h } ∧
        e.Refuses .nowhere [.call g, .call f, .program program] full.heap h) ∧
      room.Counts c [.call f, .program program] ∧
      ((c.level 1).inside push [] .undefined .nowhere room).Counts c
        [.call (c.callFrame "push" .nowhere), .call f, .program program] := by
  intro c s program f g full room push
  have hs : s.Reached c := .start .start []
  obtain ⟨-, hcalls⟩ := Session.calls_counted hs
  have hprogram := (Config.Accounts.nil c).program program
  have hroom : room.Counts c [.call f, .program program] :=
    State.counts_of_accounts (hprogram.call (by decide) f)
  have hfull : full.Counts c [.call g, .call f, .program program] :=
    State.counts_of_accounts ((hprogram.call (by decide) f).call (by decide) g)
  have hthrows := (hcalls (c.level 1) push [] .undefined .nowhere _ full rfl hfull).2 rfl
  have hruns := (hcalls (c.level 1) push [] .undefined .nowhere _ room rfl hroom).1 (by decide)
  exact ⟨hs, hfull, hthrows, hroom, hruns.1⟩

end EcmaTree
