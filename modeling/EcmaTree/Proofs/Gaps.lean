import EcmaTree.Proofs.Discipline.Guarding
import EcmaTree.Proofs.Discipline.Level
import EcmaTree.Session.Interpreter

/-!
# Evaluation without gaps

Evaluation can go past every part of a node that may be absent, but for an argument of a call and an
item of a sequence. Where all of these are there, in what is evaluated and in the code of all
functions, no evaluation finds a node to be absent.
-/

namespace EcmaTree

/-- The discipline of code without gaps, in which only code of the host makes the fault of an absent
node. -/
def Discipline.gapless (c : Config) : Discipline c :=
  .guarding (Part.Every Part.HasItems)
    (fun e ↦ e = .absent → ∃ number count, (c.others number count).Raises .absent) True
    (fun hx hy ↦ hx.of_mem hy) (fun _ hn h ↦ (hn h).elim) (fun hx hi ↦ (hi hx.1).elim)
    (fun he h ↦ ⟨_, _, h ▸ he⟩) fun _ _ ↦ trivial

/-- A break or continue is another fault. -/
theorem Discipline.contains_gapless (c : Config) (m : Eval Completion) (span : Span) :
    (Discipline.gapless c).Contains m span where
  broke _ := nofun
  continued _ := nofun

/-- No function of a heap has code with gaps. -/
def Heap.Gapless (h : Heap) : Prop :=
  h.functions.Codes fun code ↦ (Part.function code).Every Part.HasItems

theorem Config.program_gapless (c : Config) (level depth : Nat) {p : Program}
    (hp : ∀ s ∈ p.body, (Part.stmt s).Every Part.HasItems) :
    (Discipline.gapless c).Allows depth .still ((c.level level).program p) := by
  have hlevel := (Discipline.gapless c).level trivial
    (fun n code _ body _ ↦ Discipline.contains_gapless c _ code.span) level depth
  exact .program (fun s hs ↦ hlevel.1 (.stmt s) (hp s hs))
    fun s _ ↦ Discipline.contains_gapless c _ s.span

/-- A program without gaps that is run where no function has any never ends with the fault of an
absent node, unless code of the host makes it, and no function has gaps after it. -/
theorem Interpreter.run_gapless (i : Interpreter) (level : Nat) {p : Program} (held : List Value)
    (hp : ∀ s ∈ p.body, (Part.stmt s).Every Part.HasItems) (hheap : i.state.heap.Gapless) :
    ((i.run level p held).1 = .faulted .absent →
      ∃ number count, (i.config.others number count).Raises .absent) ∧
    (i.run level p held).2.state.heap.Gapless := by
  obtain ⟨hway, hend⟩ := (i.config.program_gapless level i.state.depth hp).holding
    (.values held) i.state rfl hheap
  have hcodes := hway.codes hheap
  rw [run]
  generalize Eval.holding (.values held) ((i.config.level level).program p) i.state = o
    at hend hcodes ⊢
  cases o with
  | done | thrown | exhausted => exact ⟨nofun, hcodes⟩
  | faulted e s => exact ⟨fun he ↦ hend (RunResult.faulted.inj he), hcodes⟩

end EcmaTree
