import EcmaTree.Proofs.Alike.Identity
import EcmaTree.Proofs.Frames.AppendOnly

/-!
# Watched evaluation

Watched evaluation looks at the state whenever something begins or ends: the evaluation of a node, a
call, or the function that a call runs. It knows what is active meanwhile, and ends with an alarm, a
fault that no handler sees, as soon as a state does not pass. If every state passes that accounts
for what is active and has a sound heap, the alarm never goes off, and watched evaluation is
evaluation.
-/

namespace EcmaTree

open Carries

/-- What is asked of a state, given what is active and what is at hand. -/
def Watch := List Activation → List HeapRef → State → Prop

namespace Watch

open Classical in
/-- Ends with the alarm unless the state passes at the beginning and at the end. -/
noncomputable def around (w : Watch) (alarm : Fault) (active : List Activation) {α : Type}
    [Carries α] (m : Eval α) : Eval α := fun s ↦
  if w active [] s ∧ w active (m s).references (m s).state then m s else .faulted alarm s

/-- Runs a function by an evaluator that knows of the call, and watches. -/
noncomputable def running (w : Watch) (alarm : Fault) (active : List Activation)
    (inside : List Activation → Evaluator) : Running := fun entry f args receiver ↦
  w.around alarm (.call entry :: active) ((inside (.call entry :: active)).apply f args receiver)

/-- Every state passes that accounts for what is active and has a sound heap. -/
def Admits (w : Watch) (c : Config) : Prop :=
  ∀ active kept (s : State), c.Accounts active s.calls s.depth → s.heap.Sound (s.roots kept) →
    w active kept s

end Watch

namespace Config

/-- Watched evaluation on a level, while something is active. -/
noncomputable def watched (c : Config) (w : Watch) (alarm : Fault) :
    Nat → List Activation → Evaluator
  | 0, _ => c.level 0
  | n + 1, active =>
    let r := c.watched w alarm n active
    let run := w.running alarm active (c.watched w alarm n)
    { config := c
      rounds := n + 1
      expr := fun e ↦ w.around alarm active (r.exprStepBy run e)
      stmt := fun s ↦ w.around alarm active (r.stmtStep s)
      call := fun callee args receiver ↦
        w.around alarm active (r.callValueBy run callee args receiver) }

/-- A watched run of a program, while nothing else is active. -/
noncomputable def watchedProgram (c : Config) (w : Watch) (alarm : Fault) (level : Nat)
    (q : Program) : Eval Value :=
  let entry := c.callFrame programName q.span
  w.around alarm [] ((c.watched w alarm level [.program entry]).program q)

end Config

/-- One configuration evaluates in both cases, with a sound heap and while something is active. -/
def Pairing.watching (c : Config) (active : List Activation) : Pairing :=
  { Pairing.same c False False True id with
    intact := True
    active := some active }

namespace Pairing

variable {c : Config} {active : List Activation}

theorem watching_exact (c : Config) (active : List Activation) :
    (Pairing.watching c active).Exact where
  free := rfl
  short := id
  whole := rfl

/-- What accounts for what is active and is sound can be compared with itself. -/
theorem watching_refl {s : State} {kept : List HeapRef} (hs : s.heap.Sound (s.roots kept))
    (ha : c.Accounts active s.calls s.depth) : s.Alike (.watching c active) kept s :=
  .refl _ kept s (fun _ ↦ hs) fun _ h ↦ Option.some.inj h ▸ ha

end Pairing

namespace Watch.Admits

variable {w : Watch} {c : Config} {active : List Activation} {alarm : Fault}

/-- A state that is compared with itself passes. -/
theorem passes (hw : w.Admits c) {s t : State} {kept : List HeapRef}
    (h : s.Alike (.watching c active) kept t) : w active kept s :=
  hw active kept s (h.accounts active rfl) (h.heap.sound trivial)

/-- Watching something does not make a difference. -/
theorem around (hw : w.Admits c) {α : Type} [Carries α] {kept : List HeapRef} {m m' : Eval α}
    (hm : Eval.Alike (.watching c active) kept [] m m') :
    Eval.Alike (.watching c active) kept [] m (w.around alarm active m') := by
  intro s t h
  have hp := Pairing.watching_exact c active
  have ho := hm s t h
  have hst : s = t := h.eq hp
  have hoo' : m s = m' t := ho.eq hp
  have hbegin : w active [] t := hst ▸ hw.passes h.forget
  have hend : w active (m' t).references (m' t).state := by
    rw [← hoo']
    exact hw.passes (ho.state id id)
  rw [Watch.around, if_pos ⟨hbegin, hend⟩]
  exact ho

/-- Watched evaluation is alike to evaluation, on each level and inside of whatever is active. -/
theorem level_watched (hw : w.Admits c) (n : Nat) (active : List Activation) :
    (c.level n).Alike (.watching c active) (c.watched w alarm n active) := by
  induction n generalizing active with
  | zero => exact Pairing.level_alike (.watching c active) (.inl rfl)
  | succ n ih =>
    have hr := ih active
    have hrun : Running.Alike (.watching c active) (c.level n).running
        (w.running alarm active (c.watched w alarm n)) :=
      fun entry _ f _ _ hf hargs hreceiver ↦
        hw.around ((ih (.call entry :: active)).apply f hf hargs hreceiver)
    exact {
      left := rfl
      right := rfl
      rounds := .inl rfl
      expr := fun {e e'} _ he ↦ by
        change Eval.Alike _ _ _ (c.expr (n + 1) e) _
        rw [Config.expr_succ, ← Evaluator.exprStepBy_running]
        exact hw.around (hr.exprStepBy hrun he)
      stmt := fun {s s'} _ hs ↦ by
        change Eval.Alike _ _ _ (c.stmt (n + 1) s) _
        rw [Config.stmt_succ]
        exact hw.around (hr.stmtStep hs)
      call := fun {f this args} _ hf hargs hthis ↦ by
        change Eval.Alike _ _ _ (c.call (n + 1) f args this) _
        rw [Config.call_succ, ← Evaluator.callValueBy_running]
        exact hw.around (hr.callValueBy hrun f hf hargs hthis)
      resolved := c.resolved_of_yields (n + 1)
      expr_stops := c.expr_unsupported_stops (n + 1)
      stmt_stops := c.stmt_unsupported_stops (n + 1) }

theorem program (hw : w.Admits c) (level : Nat) (q : Program) {kept : List HeapRef} :
    Eval.Alike (.watching c []) kept [] ((c.level level).program q)
      (c.watchedProgram w alarm level q) := by
  have hidle : ∀ active ∈ (Pairing.watching c []).active, active = [] :=
    fun _ h ↦ (Option.some.inj h).symm
  exact hw.around (Evaluator.Alike.program (.refl _ q) hidle (hw.level_watched level _))

end Watch.Admits

/-- Something is held in states that can be compared with themselves. -/
theorem Eval.Alike.holding_eq {α : Type} [Carries α] {c : Config} {active : List Activation}
    {kept : List HeapRef} {m m' : Eval α}
    (hm : Eval.Alike (.watching c active) kept [] m m') {x : Holder} (hx : refs x ⊆ kept)
    {s : State} (h : s.Alike (.watching c active) kept s) :
    Eval.holding x m' s = Eval.holding x m s := by
  have ho := (hm _ _ (h.hold hx)).eq (Pairing.watching_exact c active)
  rw [Eval.holding, Eval.holding, ho]

end EcmaTree
