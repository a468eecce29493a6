import EcmaTree.Proofs.Limits.Strict

/-!
# Agreement of calls

Calls agree, be it of the program's own functions, of methods with a callback, or of the host, if
the evaluations inside them do.
-/

namespace EcmaTree.Evaluator.Agrees

open Eval.Agrees

variable {e : Fault} {r r' : Evaluator}

/-! ### Methods and host -/

theorem arrayMethod (h : r.Agrees e r') (m : ArrayMethod) (receiver : Value) (args : List Value) :
    Eval.Agrees e (m.run r receiver args) (m.run r' receiver args) := by
  cases receiver with
  | array id =>
    cases m with
    | map =>
      exact (same _).bind fun _ ↦
        (forCallback fun _ _ _ ↦ (h.call _ _ _).holding.bind fun _ ↦ same _).bind
          fun _ ↦ same _
    | filter =>
      exact (same _).bind fun _ ↦
        (forCallback fun _ _ _ ↦ (h.call _ _ _).holding.holding.bind fun _ ↦ same _).bind
          fun _ ↦ same _
    | forEach =>
      exact (same _).bind fun _ ↦
        (forCallback fun _ _ _ ↦ (h.call _ _ _).bind fun _ ↦ same _).bind fun _ ↦ same _
    | reduce =>
      change Eval.Agrees e (ArrayMethod.runReduce r id args) (ArrayMethod.runReduce r' id args)
      unfold ArrayMethod.runReduce
      dsimp only
      split
      · exact same _
      · refine (same _).bind fun es ↦ ?_
        split
        · exact forCallback fun _ _ _ ↦ h.call _ _ _
        · exact forCallback fun _ _ _ ↦ h.call _ _ _
        · exact same _
    | _ => exact same _
  | _ => exact same _

theorem hostAction (h : r.Agrees e r') (hand : Hand) (action : HostAction) :
    Eval.Agrees e (action.run r hand) (action.run r' hand) := by
  cases action with
  | call => exact h.call _ _ _
  | _ => exact same _

theorem hostCode (h : r.Agrees e r') (f : HostFunction) (code : HostCode) (hand : Hand) :
    Eval.Agrees e (code.run r f hand) (code.run r' f hand) := by
  induction code generalizing hand with
  | done => exact same _
  | act action next ih =>
    rw [HostCode.run, HostCode.run, h.passMoment_eq]
    exact (same _).bind fun _ ↦ (h.hostAction hand action).holding.bind fun v ↦ ih _
  | attempt action next caught ih ihCaught =>
    rw [HostCode.run, HostCode.run, h.passMoment_eq]
    refine (same _).bind fun _ ↦ (h.hostAction hand action).catching.holding.bind fun result ↦ ?_
    cases result with
    | ok v => exact ih _
    | error t => exact ihCaught _
  | look vs next ih => exact (same _).bind fun _ ↦ (same _).bind fun _ ↦ ih _ _ _

theorem hostFunction (h : r.Agrees e r') (f : HostFunction) (receiver : Value)
    (args : List Value) : Eval.Agrees e (f.run r receiver args) (f.run r' receiver args) := by
  cases f with
  | apply =>
    simp only [HostFunction.run]
    split
    · exact (same _).bind fun _ ↦ h.call _ _ _
    · exact (same _).bind fun _ ↦ h.call _ _ _
  | other n =>
    change Eval.Agrees e ((r.config.others n args.length).run r (.other n) ⟨receiver, args, []⟩)
      ((r'.config.others n args.length).run r' (.other n) ⟨receiver, args, []⟩)
    rw [h.config.others_eq]
    exact h.hostCode _ _ _
  | _ => exact same _

theorem hostCall (h : r.Agrees e r') (f : HostFunction) (args : List Value) (receiver : Value) :
    Eval.Agrees e (r.hostCall f args receiver) (r'.hostCall f args receiver) := by
  simp only [Evaluator.hostCall, h.passMoment_eq]
  exact (same _).bind fun _ ↦ (h.hostFunction f receiver args).bind fun _ ↦ same _

/-! ### Functions -/

theorem statements (h : r.Agrees e r') (body : List Stmt) (last : Option Value) :
    Eval.Agrees e (r.statements body last) (r'.statements body last) := by
  induction body generalizing last with
  | nil => exact same _
  | cons s rest ih =>
    refine (h.stmt s).holding.bind fun c ↦ ?_
    split
    · exact same _
    · exact ih _

theorem body (h : r.Agrees e r') (code : FunctionNode) :
    Eval.Agrees e (r.body code) (r'.body code) := by
  rw [Evaluator.body, Evaluator.body]
  cases code.body with
  | concise result => exact h.expr result
  | statements body => exact (h.statements body none).bind fun c ↦ by cases c <;> exact same _

theorem closure (h : r.Agrees e r') (self : FunctionRef) (code : FunctionNode) (scope : FrameId)
    (args : List Value) (receiver : Value) :
    Eval.Agrees e (r.closure self code scope args receiver)
      (r'.closure self code scope args receiver) :=
  fun _ ↦ (h.body code).inFrame _ _

theorem apply (h : r.Agrees e r') (f : FunctionRef) (args : List Value) (receiver : Value) :
    Eval.Agrees e (r.apply f args receiver) (r'.apply f args receiver) := by
  unfold Evaluator.apply
  rcases f with id | m | m
  · refine (same _).bind fun f ↦ ?_
    split
    · exact h.hostCall _ _ _
    · exact (h.closure _ _ _ _ _).bind fun v ↦ by
        rw [h.passMoment_eq]
        exact same _
    · exact same _
    · exact same _
  · exact h.arrayMethod _ _ _
  · exact same _

/-- A call for which there is room in the first configuration. -/
theorem callFunction_apply {f : FunctionRef} {args : List Value} {receiver : Value} {site : Span}
    {s : State} (hs : s.depth < r.config.maxDepth) :
    r.callFunction f args receiver site s =
      Eval.holding (.values (.function f :: receiver :: args)) (Eval.deeper (Eval.withCallFrame
        (r.config.callFrame (s.heap.functionName f) site) (r.apply f args receiver))) s :=
  congrArg (Outcome.mapState _) (if_pos hs)

/-- Strict calls agree with calls where there is as much room, or more. -/
theorem strictFunction (h : r.Agrees e r') (f : FunctionRef) (args : List Value)
    (receiver : Value) (site : Span) :
    Eval.Agrees e (r.strictFunction e f args receiver site)
      (r'.callFunction f args receiver site) := by
  intro s
  rw [Evaluator.strictFunction, Eval.bind_apply, Eval.read]
  dsimp only
  split
  · next hs =>
    rw [callFunction_apply hs, callFunction_apply (Nat.lt_of_lt_of_le hs h.config.maxDepth_le),
      h.callFrame_eq]
    exact ((h.apply f args receiver).withCallFrame _).deeper.holding s
  · exact .inl ⟨s, rfl⟩

theorem strictCall (h : r.Agrees e r') (callee : Value) (args : List Value) (receiver : Value) :
    Eval.Agrees e (r.strictCall e callee args receiver) (r'.callValue callee args receiver) := by
  cases callee with
  | function f => exact h.strictFunction _ _ _ _
  | _ => exact same _

end EcmaTree.Evaluator.Agrees
