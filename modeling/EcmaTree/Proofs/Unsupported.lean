import EcmaTree.Session.Interpreter
import EcmaTree.Proofs.Alike.Level

/-!
# Unsupported nodes

An unsupported node matters only when it is reached, and nothing that reaches one has a result. So a
program that ends with a value or an uncaught one ends in the same way with any other nodes in the
place of its unsupported ones.
-/

namespace EcmaTree

open Carries

/-- States that are the same, except that the code of functions may have other nodes in the second
where it has unsupported ones in the first. -/
structure State.Replaced (s t : State) : Prop where
  heap : s.heap.Alike True True [] t.heap
  rest : t = { s with heap := t.heap }

/-- One configuration runs both programs. Whole heaps are compared, and the second program may have
more levels. -/
def Pairing.replacing (c : Config) : Pairing := .same c True True True id

namespace State.Replaced

variable {c : Config} {s t : State} {kept : List HeapRef}

theorem refl (s : State) : s.Replaced s := ⟨.refl .., rfl⟩

/-- Where whole heaps are compared, it does not matter from where. -/
theorem alike (h : s.Replaced t) : s.Alike (.replacing c) kept t := by
  obtain ⟨heap, rest⟩ := h
  rw [rest]
  exact { State.Alike.refl (.replacing c) kept s False.elim nofun with
    heap := { heap with
      cells := fun r _ ↦ heap.cells r (.inl trivial)
      sound := False.elim } }

theorem of_alike (h : s.Alike (.replacing c) kept t) : s.Replaced t where
  heap := { h.heap with cells := fun r _ ↦ h.heap.cells r (.inl trivial) }
  rest := by
    cases s
    cases t
    simp only [mk.injEq, true_and]
    exact ⟨h.frame.symm, h.depth.symm, h.calls.symm, h.log.symm, h.notices.symm, h.held.symm,
      (h.moments trivial).symm, (h.accounting trivial).symm⟩

end State.Replaced

/-- A run that ends with a value or with what was thrown and not handled. -/
inductive RunResult.Completes : RunResult → Prop where
  | value (v : Value) : Completes (.value v)
  | uncaught (t : Thrown) : Completes (.uncaught t)

instance : DecidablePred RunResult.Completes
  | .value v => isTrue (.value v)
  | .uncaught t => isTrue (.uncaught t)
  | .faulted _ | .exhausted => isFalse nofun

namespace Interpreter

/-- A program that completes does so in the same way, with the same value or the same uncaught one,
whatever stands in the place of its unsupported nodes and of those in the functions of the state
that it begins with. The states it leaves are the same but for such nodes. -/
theorem run_replaced (i : Interpreter) {t : State} (ht : i.state.Replaced t) {p q : Program}
    (hq : p.Alike True q) {level higher : Nat} (hlevel : level ≤ higher) (held : List Value)
    (hp : (i.run level p held).1.Completes) :
    ((i.withState t).run higher q held).1 = (i.run level p held).1 ∧
      ((i.withState t).run higher q held).2.uncaught = (i.run level p held).2.uncaught ∧
      (i.run level p held).2.state.Replaced ((i.withState t).run higher q held).2.state := by
  have hr {a : Activation} : (i.config.level level).Alike
      ((Pairing.replacing i.config).entered a) (i.config.level higher) :=
    Pairing.level_alike _ (.inr ⟨trivial, hlevel⟩)
  have hrun : Eval.Alike (.replacing i.config) (refs held) (refs held)
      (Eval.holding (.values held) ((i.config.level level).program p))
      (Eval.holding (.values held) ((i.config.level higher).program q)) :=
    .mono_right (.holding (Evaluator.Alike.program hq nofun hr))
  have ho := hrun i.state t ht.alike
  simp only [run, withState] at hp ⊢
  generalize Eval.holding (.values held) ((i.config.level level).program p) i.state = o,
    Eval.holding (.values held) ((i.config.level higher).program q) t = o' at hp ho ⊢
  cases ho with
  | done v h => exact ⟨rfl, rfl, .of_alike h⟩
  | thrown e h => exact ⟨rfl, rfl, .of_alike h⟩
  | faulted | exhausted | free | short => cases hp

/-- A program that makes a function and takes neither the branch nor the call of it that would reach
the given statement. -/
def unreaching (s : Stmt) : Program where
  body := [.function ⟨.declaration, "f", [], .statements [s], .nowhere⟩ .nowhere,
    .conditional (.bool false .nowhere) s none .nowhere, .expression (.number 1 .nowhere) .nowhere]
  span := .nowhere

/-- Runs that program, in a heap with nothing in it. -/
def runPast (level : Nat) (s : Stmt) : RunResult × Interpreter :=
  (start .standard .empty .start []).run level (unreaching s) []

theorem runPast_unsupported :
    (runPast 9 (.unsupported "WithStatement" .nowhere)).1.Completes ∧
      (runPast 10 (.throwing (.text "reached" .nowhere) .nowhere)).1 =
        (runPast 9 (.unsupported "WithStatement" .nowhere)).1 := by
  have hp : (runPast 9 (.unsupported "WithStatement" .nowhere)).1.Completes := by
    decide +kernel
  have hq : (unreaching (.unsupported "WithStatement" .nowhere)).Alike True
      (unreaching (.throwing (.text "reached" .nowhere) .nowhere)) :=
    ⟨.cons (.function _ (.mk _ _ _ _ (.statements (.cons (.unsupported (.inl trivial)) .nil))))
      (.cons (.conditional _ (.bool ..) (.unsupported (.inl trivial)) .none)
        (.cons (.expression _ (.number ..)) .nil)), rfl⟩
  exact ⟨hp, (run_replaced _ (.refl _) hq (Nat.le_succ 9) [] hp).1⟩

end Interpreter

end EcmaTree
