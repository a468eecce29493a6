import EcmaTree.Evaluation.Statements
import Mathlib.Tactic.Common

/-!
# Results of evaluations

The results that an evaluation can have, in whatever state it begins, and where the result of a
composed evaluation comes from.
-/

namespace EcmaTree

theorem Outcome.mapState_id {α : Type} (o : Outcome α) : o.mapState id = o := by
  cases o <;> rfl

@[simp] theorem Outcome.mapState_mapState {α : Type} (f g : State → State) (o : Outcome α) :
    (o.mapState f).mapState g = o.mapState (g ∘ f) := by
  cases o <;> rfl

/-- An outcome keeps its result when the state it leaves is changed. -/
theorem Outcome.eq_done_of_mapState {α : Type} {f : State → State} {o : Outcome α} {a : α}
    {t : State} (h : o.mapState f = .done a t) : ∃ u, o = .done a u := by
  cases o with
  | done b u =>
    cases h
    exact ⟨u, rfl⟩
  | thrown | faulted | exhausted => cases h

namespace Eval

variable {α β : Type}

/-- An evaluation can have a result. -/
def Yields (m : Eval α) (a : α) : Prop := ∃ s t, m s = .done a t

/-- Where a sequence has a result, its first part has one, and the rest goes on from there. -/
theorem exists_of_bind_eq_done {m : Eval α} {f : α → Eval β} {s t : State} {b : β}
    (h : (m >>= f) s = .done b t) : ∃ a u, m s = .done a u ∧ f a u = .done b t := by
  rw [bind_apply] at h
  cases hm : m s with
  | done a u => exact ⟨a, u, rfl, by simpa [hm] using h⟩
  | thrown | faulted | exhausted => simp [hm] at h

namespace Yields

variable {m : Eval α} {a : α}

theorem of_pure {b : α} (h : (pure a : Eval α).Yields b) : b = a := by
  obtain ⟨s, t, h⟩ := h
  cases h
  rfl

theorem of_bind {f : α → Eval β} {b : β} (h : (m >>= f).Yields b) :
    ∃ a, m.Yields a ∧ (f a).Yields b := by
  obtain ⟨s, t, h⟩ := h
  obtain ⟨a, u, hm, h⟩ := exists_of_bind_eq_done h
  exact ⟨a, ⟨s, u, hm⟩, u, t, h⟩

theorem of_holding {x : Holder} (h : (Eval.holding x m).Yields a) : m.Yields a := by
  obtain ⟨s, t, h⟩ := h
  obtain ⟨u, h⟩ := Outcome.eq_done_of_mapState h
  exact ⟨_, u, h⟩

theorem of_inFrame {id : FrameId} (h : (Eval.inFrame id m).Yields a) : m.Yields a := by
  obtain ⟨s, t, h⟩ := h
  obtain ⟨u, h⟩ := Outcome.eq_done_of_mapState h
  exact of_holding ⟨_, u, h⟩

theorem of_inChild (h : (Eval.inChild m).Yields a) : m.Yields a := by
  obtain ⟨s, t, h⟩ := h
  exact of_inFrame ⟨_, t, h⟩

/-- What was caught is a result of the evaluation, or something that it threw. -/
theorem of_catching (h : (Eval.catching m).Yields (.ok a)) : m.Yields a := by
  obtain ⟨s, t, h⟩ := h
  rw [Eval.catching] at h
  cases hm : m s with
  | done b u =>
    rw [hm] at h
    cases h
    exact ⟨s, t, hm⟩
  | thrown | faulted | exhausted =>
    rw [hm] at h
    cases h

/-- The result of a loop is that of its last round. -/
theorem of_iterate {σ : Type} {round : σ → Eval (Round σ β)} {n : Nat} {x : σ} {b : β}
    (h : (Eval.iterate round n x).Yields b) : ∃ y, (round y).Yields (.over b) := by
  induction n generalizing x with
  | zero =>
    obtain ⟨s, t, h⟩ := h
    cases h
  | succ n ih =>
    obtain ⟨result, hr, h⟩ := h.of_bind
    cases result with
    | again y => exact ih h
    | «over» c =>
      obtain rfl := h.of_pure
      exact ⟨x, hr⟩

end Yields

end Eval

/-- The cases that a switch runs on from are cases of the switch. -/
theorem Evaluator.mem_of_selectCase (r : Evaluator) {v : Value}
    {cases fallback chosen : List SwitchCase}
    (h : (r.selectCase v cases fallback).Yields chosen) {case : SwitchCase} (hc : case ∈ chosen) :
    case ∈ cases ∨ case ∈ fallback := by
  induction cases generalizing fallback with
  | nil =>
    obtain rfl := h.of_pure
    exact .inr hc
  | cons first rest ih =>
    rw [Evaluator.selectCase] at h
    split at h
    · rcases ih h with hr | hf
      · exact .inl (.tail _ hr)
      · exact .inl hf
    · obtain ⟨w, _, h⟩ := h.of_bind
      split at h
      · obtain rfl := h.of_pure
        exact .inl hc
      · exact (ih h).imp_left (.tail _)

end EcmaTree
