import EcmaTree.Evaluation.Statements
import Mathlib.Tactic.Common

/-!
# Agreement up to a fault

Two evaluations agree up to a fault when the second one does what the first one does, in every state
in which the first one does not end with that fault. No handler sees a fault, so every construct
that evaluations are made of keeps the agreement of its parts.
-/

namespace EcmaTree

/-- The second evaluation does what the first one does, unless that ends with the fault. -/
def Eval.Agrees {α : Type} (e : Fault) (m m' : Eval α) : Prop :=
  ∀ s, (∃ t, m s = .faulted e t) ∨ m' s = m s

namespace Eval.Agrees

variable {e : Fault} {α β σ : Type} {m m' : Eval α}

theorem same (m : Eval α) : Agrees e m m := fun _ ↦ .inr rfl

theorem bind {f f' : α → Eval β} (hm : Agrees e m m') (hf : ∀ a, Agrees e (f a) (f' a)) :
    Agrees e (m >>= f) (m' >>= f') := by
  intro s
  rw [bind_apply, bind_apply]
  rcases hm s with ⟨t, hs⟩ | hs
  · exact .inl ⟨t, by rw [hs]⟩
  · rw [hs]
    cases m s with
    | done a t => exact hf a t
    | thrown | faulted | exhausted => exact .inr rfl

theorem map (f : α → β) (hm : Agrees e m m') : Agrees e (f <$> m) (f <$> m') := by
  rw [map_eq_pure_bind, map_eq_pure_bind]
  exact hm.bind fun _ ↦ same _

theorem catching (hm : Agrees e m m') : Agrees e (Eval.catching m) (Eval.catching m') := by
  intro s
  rw [Eval.catching, Eval.catching]
  rcases hm s with ⟨t, hs⟩ | hs
  · exact .inl ⟨t, by rw [hs]⟩
  · exact .inr (by rw [hs])

/-- A scope changes the state before and after what is inside it. -/
theorem scope (hm : Agrees e m m') (enter : State → State) (leave : State → State → State) :
    Agrees e (fun s ↦ (m (enter s)).mapState (leave s)) fun s ↦
      (m' (enter s)).mapState (leave s) := by
  intro s
  rcases hm (enter s) with ⟨t, hs⟩ | hs
  · exact .inl ⟨leave s t, congrArg (Outcome.mapState (leave s)) hs⟩
  · exact .inr (congrArg (Outcome.mapState (leave s)) hs)

theorem holding {x : Holder} (hm : Agrees e m m') :
    Agrees e (Eval.holding x m) (Eval.holding x m') :=
  hm.scope _ _

theorem inFrame (id : FrameId) (hm : Agrees e m m') :
    Agrees e (Eval.inFrame id m) (Eval.inFrame id m') :=
  fun s ↦ hm.holding.scope (fun s ↦ { s with frame := id })
    (fun s t ↦ { t with frame := s.frame }) s

theorem inChild (hm : Agrees e m m') : Agrees e (Eval.inChild m) (Eval.inChild m') :=
  fun _ ↦ hm.inFrame _ _

theorem withCallFrame (entry : CallFrame) (hm : Agrees e m m') :
    Agrees e (Eval.withCallFrame entry m) (Eval.withCallFrame entry m') :=
  hm.scope _ _

theorem deeper (hm : Agrees e m m') : Agrees e (Eval.deeper m) (Eval.deeper m') :=
  hm.scope _ _

theorem iterate {round round' : σ → Eval (Round σ β)} (h : ∀ x, Agrees e (round x) (round' x))
    (n : Nat) (x : σ) : Agrees e (Eval.iterate round n x) (Eval.iterate round' n x) := by
  induction n generalizing x with
  | zero => exact same _
  | succ n ih =>
    refine (h x).bind fun result ↦ ?_
    cases result with
    | again y => exact ih y
    | «over» b => exact same _

theorem overIndices {id : ArrayId} {visit visit' : σ → Nat → Value → Eval σ}
    (h : ∀ x i v, Agrees e (visit x i v) (visit' x i v)) (indices : List Nat) (start : σ) :
    Agrees e (Eval.overIndices id visit indices start)
      (Eval.overIndices id visit' indices start) := by
  induction indices generalizing start with
  | nil => exact same _
  | cons i rest ih =>
    refine (same _).bind fun es ↦ ?_
    split
    · exact same _
    · exact (h _ _ _).bind ih

theorem forCallback {id : ArrayId} {callback : Value} {indices : List Nat} {start : σ}
    {visit visit' : σ → Nat → Value → Eval σ} (h : ∀ x i v, Agrees e (visit x i v) (visit' x i v)) :
    Agrees e (Eval.forCallback id callback indices start visit)
      (Eval.forCallback id callback indices start visit') :=
  (overIndices h indices start).holding

end Eval.Agrees

/-- The second configuration allows for at least as many active calls, and agrees with the first one
on everything but the limit and what a name without a binding means. -/
structure Config.Widens (c c' : Config) : Prop where
  maxDepth_le : c.maxDepth ≤ c'.maxDepth
  source_eq : c'.source = c.source
  collects_eq : c'.collects = c.collects
  others_eq : c'.others = c.others

/-- Evaluators that agree on everything inside a node, in configurations of which the second is the
wider one. -/
structure Evaluator.Agrees (e : Fault) (r r' : Evaluator) : Prop where
  config : r.config.Widens r'.config
  rounds_eq : r'.rounds = r.rounds
  expr (x : Expr) : Eval.Agrees e (r.expr x) (r'.expr x)
  stmt (x : Stmt) : Eval.Agrees e (r.stmt x) (r'.stmt x)
  call (f : Value) (args : List Value) (this : Value) :
    Eval.Agrees e (r.call f args this) (r'.call f args this)

namespace Evaluator.Agrees

open Eval.Agrees

variable {e : Fault} {r r' : Evaluator}

theorem callFrame_eq (h : r.Agrees e r') (name : Text) (site : Span) :
    r'.config.callFrame name site = r.config.callFrame name site := by
  rw [Config.callFrame, Config.callFrame, h.config.source_eq]

/-- A moment that passes does not depend on the limits. -/
theorem passMoment_eq (h : r.Agrees e r') (m : Moment) (vs : List Value) :
    r'.passMoment m vs = r.passMoment m vs := by
  have hstate (s : State) : s.passMoment r'.config m = s.passMoment r.config m := by
    rw [State.passMoment, State.passMoment, h.config.collects_eq]
  rw [Evaluator.passMoment, Evaluator.passMoment, funext hstate]

end Evaluator.Agrees

end EcmaTree
