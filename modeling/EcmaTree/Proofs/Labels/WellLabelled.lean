import EcmaTree.Proofs.Discipline.Guarding
import EcmaTree.Proofs.Discipline.Level
import EcmaTree.Proofs.Labels.Jumps
import EcmaTree.Session.Interpreter

/-!
# Well-labelled programs

In a well-labelled program every break and every continue stands inside of a construct that it is
meant for. No break or continue leaves a function of such a program, or the program itself.
-/

namespace EcmaTree

/-- What stands around a statement, in the same function or on the top level of a program. -/
structure Surroundings where
  /-- A loop or a switch. -/
  breakable : Bool
  /-- A loop. -/
  looping : Bool
  /-- The labels of statements. -/
  labels : List Text
  /-- The labels that are attached to loops, with nothing but labels in between. -/
  loopLabels : List Text

namespace Surroundings

/-- Nothing is around the body of a function or a program. -/
def nothing : Surroundings := ⟨false, false, [], []⟩

/-- Inside a statement with labels. -/
def labelled (a : Surroundings) (labels : List Text) : Surroundings :=
  { a with labels := a.labels ++ labels }

/-- Inside a loop that carries labels. -/
def inLoop (a : Surroundings) (own : List Text) : Surroundings :=
  { a with breakable := true, looping := true, loopLabels := a.loopLabels ++ own }

/-- Inside a switch. -/
def inSwitch (a : Surroundings) : Surroundings := { a with breakable := true }

/-- Something around is meant by a jump. -/
def allows (a : Surroundings) : Jump → Bool
  | .breaking none => a.breakable
  | .breaking (some l) => a.labels.contains l
  | .continuing none => a.looping
  | .continuing (some l) => a.loopLabels.contains l

end Surroundings

mutual

/-- Each break and continue of a statement stands inside of something that it is meant for, be that
inside the statement, which carries the labels `own`, or around it. -/
def Stmt.wellPlaced (a : Surroundings) (own : List Text) : Stmt → Bool
  | .labeled label body _ => body.wellPlaced (a.labelled [label]) (own ++ [label])
  | .whileLoop _ body _ | .doWhileLoop body _ _ => body.wellPlaced (a.inLoop own) []
  | .forLoop init _ _ body _ =>
    Stmt.wellPlacedOption (a.inLoop own) init && body.wellPlaced (a.inLoop own) []
  | .switch _ cases _ => SwitchCase.wellPlaced a.inSwitch cases
  | .breaking label _ => a.allows (.breaking label)
  | .continuing label _ => a.allows (.continuing label)
  | .block body _ => Stmt.wellPlacedAll a body
  | .conditional _ consequent alternate _ =>
    consequent.wellPlaced a [] && Stmt.wellPlacedOption a alternate
  | .guarded block handler finalizer _ =>
    Stmt.wellPlacedAll a block && Handler.wellPlaced a handler &&
      Stmt.wellPlacedFinalizer a finalizer
  | .declare .. | .function .. | .returned .. | .expression .. | .empty _ | .throwing ..
  | .unsupported .. => true

def Stmt.wellPlacedAll (a : Surroundings) : List Stmt → Bool
  | [] => true
  | s :: rest => s.wellPlaced a [] && Stmt.wellPlacedAll a rest

def Stmt.wellPlacedOption (a : Surroundings) : Option Stmt → Bool
  | none => true
  | some s => s.wellPlaced a []

def SwitchCase.wellPlaced (a : Surroundings) : List SwitchCase → Bool
  | [] => true
  | ⟨_, body⟩ :: rest => Stmt.wellPlacedAll a body && SwitchCase.wellPlaced a rest

def Handler.wellPlaced (a : Surroundings) : Option Handler → Bool
  | none => true
  | some ⟨_, body⟩ => Stmt.wellPlacedAll a body

def Stmt.wellPlacedFinalizer (a : Surroundings) : Option (List Stmt) → Bool
  | none => true
  | some body => Stmt.wellPlacedAll a body

end

/-- A function whose breaks and continues all stay inside of it. -/
def FunctionNode.wellPlaced (code : FunctionNode) : Bool :=
  match code.body with
  | .statements body => Stmt.wellPlacedAll .nothing body
  | .concise _ => true

/-- A node that is no function in which a break or continue is misplaced. -/
def Part.WellPlaced : Part → Prop
  | .function code => code.wellPlaced = true
  | .expr _ | .stmt _ => True

/-- A program is well-labelled if each break and continue of it, and of every function in it, stands
inside of something that it is meant for. -/
structure Program.WellLabelled (p : Program) : Prop where
  body : Stmt.wellPlacedAll .nothing p.body = true
  functions (s : Stmt) (hs : s ∈ p.body) : (Part.stmt s).Every Part.WellPlaced

/-- All functions of a heap are well-labelled. -/
def Heap.WellLabelled (h : Heap) : Prop :=
  h.functions.Codes fun code ↦ (Part.function code).Every Part.WellPlaced

/-! ### Jumps that leave -/

namespace Surroundings

variable {a : Surroundings} {own : List Text} {j : Jump}

theorem labelled_nil (a : Surroundings) : a.labelled [] = a := by
  rw [labelled, List.append_nil]

theorem labelled_labelled (a : Surroundings) (own : List Text) (label : Text) :
    (a.labelled own).labelled [label] = a.labelled (own ++ [label]) := by
  simp only [labelled, List.append_assoc]

theorem allows_of_leavesOther (h : (a.labelled own).allows j = true)
    (hj : j.leavesOther own = true) : a.allows j = true := by
  rcases j with (_ | l) | (_ | l)
  · exact h
  · simp only [allows, labelled, List.contains_append, Bool.or_eq_true] at h
    simp only [Jump.leavesOther, Bool.not_eq_true'] at hj
    exact h.resolve_right (Bool.eq_false_iff.mp hj)
  · exact h
  · exact h

theorem allows_of_leavesSwitch (h : (a.labelled own).inSwitch.allows j = true)
    (hj : j.leavesSwitch own = true) : a.allows j = true := by
  rcases j with (_ | l) | (_ | l)
  · cases hj
  · exact allows_of_leavesOther h hj
  · exact h
  · exact h

theorem allows_of_leavesLoop (h : ((a.labelled own).inLoop own).allows j = true)
    (hj : j.leavesLoop own = true) : a.allows j = true := by
  rcases j with (_ | l) | (_ | l)
  · cases hj
  · exact allows_of_leavesOther h hj
  · cases hj
  · simp only [allows, inLoop, labelled, List.contains_append, Bool.or_eq_true] at h
    simp only [Jump.leavesLoop, Jump.targets, Bool.not_eq_true'] at hj
    exact h.resolve_right (Bool.eq_false_iff.mp hj)

end Surroundings

open Surroundings in
mutual

/-- A jump that leaves a well-placed statement is meant for something around it. -/
theorem Stmt.allows_of_mem_jumps {a : Surroundings} {own : List Text} {j : Jump} :
    ∀ {s : Stmt}, s.wellPlaced (a.labelled own) own = true → j ∈ s.jumps own → a.allows j = true
  | .labeled label body _, h, hj => by
    rw [Stmt.wellPlaced, labelled_labelled] at h
    exact Stmt.allows_of_mem_jumps h hj
  | .whileLoop _ body _, h, hj | .doWhileLoop body _ _, h, hj => by
    obtain ⟨hj, hl⟩ := List.mem_filter.mp hj
    rw [Stmt.wellPlaced, ← labelled_nil (inLoop ..)] at h
    exact allows_of_leavesLoop (Stmt.allows_of_mem_jumps h hj) hl
  | .forLoop init _ _ body _, h, hj => by
    obtain ⟨hj, hl⟩ := List.mem_filter.mp hj
    rw [Stmt.wellPlaced, Bool.and_eq_true, ← labelled_nil (inLoop ..)] at h
    exact allows_of_leavesLoop (Stmt.allows_of_mem_jumps h.2 hj) hl
  | .switch _ cases _, h, hj => by
    obtain ⟨hj, hl⟩ := List.mem_filter.mp hj
    exact allows_of_leavesSwitch (SwitchCase.allows_of_mem_jumps h hj) hl
  | .breaking label _, h, hj => by
    obtain ⟨hj, hl⟩ := List.mem_filter.mp hj
    rw [List.mem_singleton.mp hj] at hl ⊢
    exact allows_of_leavesOther h hl
  | .continuing label _, h, hj => by
    rw [List.mem_singleton.mp hj]
    exact allows_of_leavesOther h (by cases label <;> rfl)
  | .block body _, h, hj => by
    obtain ⟨hj, hl⟩ := List.mem_filter.mp hj
    exact allows_of_leavesOther (Stmt.allows_of_mem_jumpsAll h hj) hl
  | .conditional _ consequent alternate _, h, hj => by
    obtain ⟨hj, hl⟩ := List.mem_filter.mp hj
    rw [Stmt.wellPlaced, Bool.and_eq_true] at h
    refine allows_of_leavesOther ?_ hl
    rcases List.mem_append.mp hj with hj | hj
    · exact Stmt.allows_of_mem_jumps (by rw [labelled_nil]; exact h.1) hj
    · exact Stmt.allows_of_mem_jumpsOption h.2 hj
  | .guarded block handler finalizer _, h, hj => by
    obtain ⟨hj, hl⟩ := List.mem_filter.mp hj
    rw [Stmt.wellPlaced, Bool.and_eq_true, Bool.and_eq_true] at h
    refine allows_of_leavesOther ?_ hl
    rcases List.mem_append.mp hj with hj | hj
    · rcases List.mem_append.mp hj with hj | hj
      · exact Stmt.allows_of_mem_jumpsAll h.1.1 hj
      · exact Handler.allows_of_mem_jumps h.1.2 hj
    · exact Stmt.allows_of_mem_jumpsFinalizer h.2 hj
  | .declare .., _, hj | .function .., _, hj | .returned .., _, hj | .expression .., _, hj
  | .empty _, _, hj | .throwing .., _, hj | .unsupported .., _, hj => nomatch hj

theorem Stmt.allows_of_mem_jumpsAll {a : Surroundings} {j : Jump} : ∀ {body : List Stmt},
    Stmt.wellPlacedAll a body = true → j ∈ Stmt.jumpsAll body → a.allows j = true
  | [], _, hj => nomatch hj
  | s :: rest, h, hj => by
    rw [Stmt.wellPlacedAll, Bool.and_eq_true] at h
    rcases List.mem_append.mp hj with hj | hj
    · exact Stmt.allows_of_mem_jumps (by rw [labelled_nil]; exact h.1) hj
    · exact Stmt.allows_of_mem_jumpsAll h.2 hj

theorem Stmt.allows_of_mem_jumpsOption {a : Surroundings} {j : Jump} : ∀ {o : Option Stmt},
    Stmt.wellPlacedOption a o = true → j ∈ Stmt.jumpsOption o → a.allows j = true
  | none, _, hj => nomatch hj
  | some s, h, hj => Stmt.allows_of_mem_jumps (by rw [labelled_nil]; exact h) hj

theorem SwitchCase.allows_of_mem_jumps {a : Surroundings} {j : Jump} :
    ∀ {cases : List SwitchCase}, SwitchCase.wellPlaced a cases = true →
      j ∈ SwitchCase.jumps cases → a.allows j = true
  | [], _, hj => nomatch hj
  | ⟨_, body⟩ :: rest, h, hj => by
    rw [SwitchCase.wellPlaced, Bool.and_eq_true] at h
    rcases List.mem_append.mp hj with hj | hj
    · exact Stmt.allows_of_mem_jumpsAll h.1 hj
    · exact SwitchCase.allows_of_mem_jumps h.2 hj

theorem Handler.allows_of_mem_jumps {a : Surroundings} {j : Jump} : ∀ {handler : Option Handler},
    Handler.wellPlaced a handler = true → j ∈ Handler.jumps handler → a.allows j = true
  | none, _, hj => nomatch hj
  | some ⟨_, _⟩, h, hj => Stmt.allows_of_mem_jumpsAll h hj

theorem Stmt.allows_of_mem_jumpsFinalizer {a : Surroundings} {j : Jump} :
    ∀ {finalizer : Option (List Stmt)}, Stmt.wellPlacedFinalizer a finalizer = true →
      j ∈ Stmt.jumpsFinalizer finalizer → a.allows j = true
  | none, _, hj => nomatch hj
  | some _, h, hj => Stmt.allows_of_mem_jumpsAll h hj

end

theorem Surroundings.not_nothing_allows (j : Jump) : Surroundings.nothing.allows j ≠ true := by
  rcases j with (_ | l) | (_ | l) <;> nofun

/-! ### Runs -/

/-- The discipline of well-labelled code, in which only code of the host makes faults of jumps. -/
def Discipline.wellLabelled (c : Config) : Discipline c :=
  .guarding (Part.Every Part.WellPlaced)
    (fun e ↦ e.isStray = false ∨ ∃ number count, (c.others number count).Raises e) True
    (fun hx hy ↦ hx.of_mem hy) (fun he _ ↦ .inl he) (fun _ _ ↦ .inl rfl)
    (fun he ↦ .inr ⟨_, _, he⟩) fun _ _ ↦ trivial

/-- No jump ends an evaluation that may end only with jumps that leave a well-placed body. -/
theorem Discipline.contains_of_wellPlaced {c : Config} (d : Discipline c) {js : List Jump}
    {m : Eval Completion} (hm : m.JumpsIn js)
    (hjs : ∀ j ∈ js, Surroundings.nothing.allows j = true) (span : Span) : d.Contains m span where
  broke h := (Surroundings.not_nothing_allows _ (hjs _ (hm _ _ h rfl))).elim
  continued h := (Surroundings.not_nothing_allows _ (hjs _ (hm _ _ h rfl))).elim

theorem Config.program_wellLabelled (c : Config) (level depth : Nat) {p : Program}
    (hp : p.WellLabelled) :
    (Discipline.wellLabelled c).Allows depth .still ((c.level level).program p) := by
  have hlevel := (Discipline.wellLabelled c).level trivial (fun n code hc body hbody ↦ by
    have hplaced : code.wellPlaced = true := hc.1
    rw [FunctionNode.wellPlaced, hbody] at hplaced
    exact Discipline.contains_of_wellPlaced _ ((c.level_jumps n).statements body none)
      (fun j hj ↦ Stmt.allows_of_mem_jumpsAll hplaced hj) code.span) level depth
  refine .program (fun s hs ↦ hlevel.1 (.stmt s) (hp.functions s hs)) fun s hs ↦ ?_
  exact Discipline.contains_of_wellPlaced _ (c.level_jumps level s)
    (fun j hj ↦ Stmt.allows_of_mem_jumpsAll hp.body (Stmt.mem_jumpsAll.mpr ⟨s, hs, hj⟩)) s.span

namespace Interpreter

/-- A well-labelled program that is run where all functions are well-labelled never ends with the
fault of a break or continue, unless code of the host makes one, and all functions are well-labelled
after it. A break or continue with which any statement ends is one inside of it, in the same
function, that no construct inside of it is meant by. -/
theorem label_discipline (i : Interpreter) (level : Nat) :
    (∀ p held, p.WellLabelled → i.state.heap.WellLabelled →
      (∀ e, (i.run level p held).1 = .faulted e → e.isStray = true →
        ∃ number count, (i.config.others number count).Raises e) ∧
      (i.run level p held).2.state.heap.WellLabelled) ∧
    ∀ s t completion u j, i.config.stmt level s t = .done completion u →
      completion.jump? = some j → j ∈ s.jumps [] := by
  refine ⟨fun p held hp hheap ↦ ?_, fun s t completion u j h hj ↦ ?_⟩
  · obtain ⟨hway, hend⟩ := (i.config.program_wellLabelled level i.state.depth hp).holding
      (.values held) i.state rfl hheap
    have hcodes := hway.codes hheap
    rw [run]
    generalize Eval.holding (.values held) ((i.config.level level).program p) i.state = o
      at hend hcodes ⊢
    cases o with
    | done | thrown | exhausted => exact ⟨nofun, hcodes⟩
    | faulted e s =>
      refine ⟨fun e' he hstray ↦ ?_, hcodes⟩
      obtain rfl := RunResult.faulted.inj he
      exact (hend.resolve_left (by rw [hstray]; nofun))
  · exact i.config.level_jumps level s completion j ⟨t, u, h⟩ hj

/-- A loop that is continued from a switch inside a labelled block, until its test fails, and a call
of a function that leaves a loop of its own. -/
def acrossSwitch : Program where
  body := [.declare .let [⟨"i", some (.number (.ofNat 0) .nowhere)⟩] .nowhere,
    .labeled "outer" (.whileLoop
      (.binary .less (.update .increment false (.identifier "i" .nowhere) .nowhere)
        (.number (.ofNat 2) .nowhere) .nowhere)
      (.labeled "inner" (.block
        [.switch (.null .nowhere)
            [⟨none, [.continuing (some "outer") .nowhere, .breaking none .nowhere]⟩] .nowhere,
          .breaking (some "inner") .nowhere] .nowhere) .nowhere) .nowhere) .nowhere,
    .function ⟨.declaration, "f", [], .statements
      [.forLoop none none none (.breaking none .nowhere) .nowhere,
        .returned (some (.identifier "i" .nowhere)) .nowhere], .nowhere⟩ .nowhere,
    .expression (.call (.identifier "f" .nowhere) [] .nowhere) .nowhere]
  span := .nowhere

/-- On no level does this program end with the fault of a break or continue. With enough levels it
ends with a value. -/
theorem label_discipline_acrossSwitch :
    acrossSwitch.WellLabelled ∧
      (∀ level e, ((start .standard .empty .start []).run level acrossSwitch []).1 = .faulted e →
        e.isStray = false) ∧
      ((start .standard .empty .start []).run 8 acrossSwitch []).1 =
        .value (.number (.ofNat 3)) := by
  have hp : acrossSwitch.WellLabelled := by
    refine ⟨by decide, ?_⟩
    simp [acrossSwitch, Part.every_iff_forall, Part.parts, Part.ofStmt, Part.ofExpr, Part.ofBody,
      Part.all, Part.ofOption, Part.present, Part.WellPlaced, FunctionNode.wellPlaced,
      Stmt.wellPlacedAll, Stmt.wellPlaced, Stmt.wellPlacedOption, Surroundings.allows,
      Surroundings.inLoop]
  have hheap : (start .standard .empty .start []).state.heap.WellLabelled := .empty
  refine ⟨hp, fun level e he ↦ ?_, by decide +kernel⟩
  by_contra hstray
  obtain ⟨_, _, hraise⟩ :=
    ((label_discipline _ level).1 _ [] hp hheap).1 e he (by simpa using hstray)
  cases hraise

end Interpreter

end EcmaTree
