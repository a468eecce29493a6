import EcmaTree.Evaluation.Level
import EcmaTree.Proofs.Results

/-!
# Jumps

The breaks and continues inside a statement that no construct inside it is meant by. A break or
continue with which an evaluation of the statement ends is one of these.
-/

namespace EcmaTree

/-- A break or a continue, with the label that it names. -/
inductive Jump where
  | breaking (label : Option Text)
  | continuing (label : Option Text)
deriving DecidableEq

namespace Jump

/-- A construct that carries `labels` is meant: the jump names one of them, or none at all. -/
def targets (labels : List Text) : Jump → Bool
  | breaking none | continuing none => true
  | breaking (some l) | continuing (some l) => labels.contains l

/-- The jump goes on from a loop. -/
def leavesLoop (labels : List Text) (j : Jump) : Bool := !j.targets labels

/-- The jump goes on from a switch. -/
def leavesSwitch (labels : List Text) : Jump → Bool
  | breaking label => !(breaking label).targets labels
  | continuing _ => true

/-- The jump goes on from a statement that is no loop and no switch. -/
def leavesOther (labels : List Text) : Jump → Bool
  | breaking (some l) => !labels.contains l
  | breaking none | continuing _ => true

@[simp] theorem leavesOther_nil (j : Jump) : j.leavesOther [] = true := by
  rcases j with (_ | l) | l <;> rfl

end Jump

mutual

/-- The jumps inside a statement that carries `labels` that leave the statement. Those inside of
functions have no meaning outside. -/
def Stmt.jumps (labels : List Text) : Stmt → List Jump
  | .labeled label body _ => body.jumps (labels ++ [label])
  | .whileLoop _ body _ | .doWhileLoop body _ _ | .forLoop _ _ _ body _ =>
    (body.jumps []).filter (·.leavesLoop labels)
  | .switch _ cases _ => (SwitchCase.jumps cases).filter (·.leavesSwitch labels)
  | .breaking label _ => [.breaking label].filter (·.leavesOther labels)
  | .continuing label _ => [.continuing label]
  | .block body _ => (Stmt.jumpsAll body).filter (·.leavesOther labels)
  | .conditional _ consequent alternate _ =>
    (consequent.jumps [] ++ Stmt.jumpsOption alternate).filter (·.leavesOther labels)
  | .guarded block handler finalizer _ =>
    (Stmt.jumpsAll block ++ Handler.jumps handler ++ Stmt.jumpsFinalizer finalizer).filter
      (·.leavesOther labels)
  | .declare .. | .function .. | .returned .. | .expression .. | .empty _ | .throwing ..
  | .unsupported .. => []

def Stmt.jumpsAll : List Stmt → List Jump
  | [] => []
  | s :: rest => s.jumps [] ++ Stmt.jumpsAll rest

def Stmt.jumpsOption : Option Stmt → List Jump
  | none => []
  | some s => s.jumps []

def SwitchCase.jumps : List SwitchCase → List Jump
  | [] => []
  | ⟨_, body⟩ :: rest => Stmt.jumpsAll body ++ SwitchCase.jumps rest

def Handler.jumps : Option Handler → List Jump
  | none => []
  | some ⟨_, body⟩ => Stmt.jumpsAll body

def Stmt.jumpsFinalizer : Option (List Stmt) → List Jump
  | none => []
  | some body => Stmt.jumpsAll body

end

theorem Stmt.mem_jumpsAll {j : Jump} {body : List Stmt} :
    j ∈ Stmt.jumpsAll body ↔ ∃ s ∈ body, j ∈ s.jumps [] := by
  induction body with
  | nil => simp [Stmt.jumpsAll]
  | cons s rest ih => simp [Stmt.jumpsAll, ih]

theorem SwitchCase.mem_jumps {j : Jump} {cases : List SwitchCase} :
    j ∈ SwitchCase.jumps cases ↔ ∃ c ∈ cases, j ∈ Stmt.jumpsAll c.body := by
  induction cases with
  | nil => simp [SwitchCase.jumps]
  | cons c rest ih =>
    obtain ⟨test, body⟩ := c
    simp [SwitchCase.jumps, ih]

theorem Handler.mem_jumps {j : Jump} {handler : Option Handler} :
    j ∈ Handler.jumps handler ↔ ∃ h, handler = some h ∧ j ∈ Stmt.jumpsAll h.body := by
  rcases handler with _ | ⟨param, body⟩ <;> simp [Handler.jumps]

/-- The jump that a completion is. -/
def Completion.jump? : Completion → Option Jump
  | broke label => some (.breaking label)
  | continued label => some (.continuing label)
  | normal _ | returned _ => none

namespace Completion

variable {completion : Completion} {j : Jump} {labels : List Text}

theorem targets_eq (h : completion.jump? = some j) :
    completion.targets labels = j.targets labels := by
  cases completion with
  | normal | returned => cases h
  | broke label | continued label =>
    obtain rfl := Option.some.inj h
    cases label <;> rfl

theorem leavesLoop_of_propagate (h : completion.jump? = some j)
    (ha : completion.loopAction labels = .propagate) : j.leavesLoop labels = true := by
  rw [Jump.leavesLoop, ← targets_eq h]
  cases completion with
  | normal | returned => cases h
  | broke label | continued label =>
    rw [loopAction] at ha
    split at ha
    · cases ha
    · next ht => simpa using ht

end Completion

/-- Whatever jump an evaluation ends with is in a list. -/
def Eval.JumpsIn (js : List Jump) (m : Eval Completion) : Prop :=
  ∀ completion j, m.Yields completion → completion.jump? = some j → j ∈ js

namespace Eval.JumpsIn

variable {js : List Jump} {m : Eval Completion}

theorem mono {js' : List Jump} (h : m.JumpsIn js) (hsub : ∀ j ∈ js, j ∈ js') : m.JumpsIn js' :=
  fun completion j hm hj ↦ hsub j (h completion j hm hj)

theorem pure {completion : Completion} (h : ∀ j, completion.jump? = some j → j ∈ js) :
    JumpsIn js (Pure.pure completion) := by
  intro result j hm hj
  rw [hm.of_pure] at hj
  exact h j hj

theorem normal (v : Option Value) : JumpsIn js (Pure.pure (.normal v)) := pure nofun

theorem returned (v : Value) : JumpsIn js (Pure.pure (.returned v)) := pure nofun

theorem bind {α : Type} {m : Eval α} {f : α → Eval Completion}
    (h : ∀ a, m.Yields a → (f a).JumpsIn js) : (m >>= f).JumpsIn js := by
  intro completion j hm hj
  obtain ⟨a, ha, hf⟩ := hm.of_bind
  exact h a ha completion j hf hj

theorem never (h : ∀ completion, ¬ m.Yields completion) : m.JumpsIn js :=
  fun completion _ hm _ ↦ (h completion hm).elim

theorem inChild (h : m.JumpsIn js) : (Eval.inChild m).JumpsIn js :=
  fun completion j hm ↦ h completion j hm.of_inChild

end Eval.JumpsIn

namespace Evaluator

open Eval.JumpsIn

variable {r : Evaluator}

/-- Whatever jump the evaluation of a statement ends with leaves the statement. -/
def Jumps (r : Evaluator) : Prop := ∀ s, (r.stmt s).JumpsIn (s.jumps [])

namespace Jumps

variable {js : List Jump} {labels : List Text} {s : Stmt}

/-! ### Lists of statements -/

theorem statements (hr : r.Jumps) (body : List Stmt) (last : Option Value) :
    (r.statements body last).JumpsIn (Stmt.jumpsAll body) := by
  induction body generalizing last with
  | nil => exact normal _
  | cons s rest ih =>
    rw [Evaluator.statements, Stmt.jumpsAll]
    refine bind fun completion hs ↦ ?_
    have hjump (j : Jump) (hj : completion.jump? = some j) : j ∈ s.jumps [] :=
      hr s completion j hs.of_holding hj
    split
    · exact bind fun _ _ ↦ pure fun j hj ↦ List.mem_append_left _ (hjump j hj)
    · exact (ih _).mono fun j hj ↦ List.mem_append_right _ hj

theorem scopedStatements (hr : r.Jumps) (body : List Stmt) :
    (r.scopedStatements body).JumpsIn (Stmt.jumpsAll body) :=
  inChild (hr.statements body none)

/-! ### Loops -/

theorem loopBody (hr : r.Jumps) (s : Stmt) : (r.loopBody s).JumpsIn (s.jumps []) := by
  unfold Evaluator.loopBody
  split
  · refine (hr.scopedStatements _).mono fun j hj ↦ ?_
    simpa [Stmt.jumps] using hj
  · refine inChild (bind fun completion hs ↦ ?_)
    have hjump : Eval.JumpsIn (s.jumps []) (Pure.pure completion) := pure (hr s completion · hs)
    dsimp only
    split
    · exact bind fun _ _ ↦ hjump
    · exact hjump

/-- A loop ends with a jump only if a round of it hands one on. -/
theorem loopRound (hr : r.Jumps) {last : Option Value}
    {next : Option Value → Eval (Round (Option Value) Completion)} {result : Completion} {j : Jump}
    (h : (r.loopRound s labels last next).Yields (.over result)) (hj : result.jump? = some j)
    (hnext : ∀ value, ¬ (next value).Yields (.over result)) :
    j ∈ (s.jumps []).filter (·.leavesLoop labels) := by
  obtain ⟨completion, hc, h⟩ := h.of_bind
  dsimp only at h
  split at h
  · exact (hnext _ h).elim
  · cases h.of_pure
    cases hj
  · next ha =>
    cases h.of_pure
    exact List.mem_filter.mpr ⟨hr.loopBody s _ j hc.of_holding hj,
      Completion.leavesLoop_of_propagate hj ha⟩

theorem whileLoop (hr : r.Jumps) (test : Expr) (s : Stmt) :
    (r.whileLoop test s labels).JumpsIn ((s.jumps []).filter (·.leavesLoop labels)) := by
  intro result j h hj
  obtain ⟨last, h⟩ := h.of_iterate
  obtain ⟨goesOn, _, h⟩ := h.of_bind
  split at h
  · exact hr.loopRound h hj fun value hv ↦ nomatch hv.of_pure
  · cases h.of_pure
    cases hj

theorem doWhileLoop (hr : r.Jumps) (s : Stmt) (test : Expr) :
    (r.doWhileLoop s test labels).JumpsIn ((s.jumps []).filter (·.leavesLoop labels)) := by
  intro result j h hj
  obtain ⟨last, h⟩ := h.of_iterate
  refine hr.loopRound h hj fun value hv ↦ ?_
  obtain ⟨goesOn, _, hv⟩ := hv.of_bind
  split at hv
  · cases hv.of_pure
  · cases hv.of_pure
    cases hj

theorem forLoop (hr : r.Jumps) (init : Option Stmt) (test update : Option Expr) (s : Stmt) :
    (r.forLoop init test update s labels).JumpsIn ((s.jumps []).filter (·.leavesLoop labels)) := by
  have hstep (own : Bool) (value : Option Value) (result : Completion) :
      ¬ (r.forStep own update value).Yields (.over result) := by
    have hupdate : ¬ (r.forStep false update value).Yields (.over result) := by
      intro h
      cases update with
      | none => cases h.of_pure
      | some e =>
        obtain ⟨_, _, h⟩ := h.of_bind
        cases h.of_pure
    cases own with
    | false => exact hupdate
    | true =>
      intro h
      obtain ⟨_, _, h⟩ := h.of_bind
      exact hupdate h
  have hrounds (own : Bool) : (r.forRounds own test update s labels).JumpsIn
      ((s.jumps []).filter (·.leavesLoop labels)) := by
    intro result j h hj
    obtain ⟨last, h⟩ := h.of_iterate
    obtain ⟨goesOn, _, h⟩ := h.of_bind
    split at h
    · exact hr.loopRound h hj fun value hv ↦ hstep own value result hv
    · cases h.of_pure
      cases hj
  have hloop (own : Bool) : (do
      if own then Evaluator.enterSibling
      r.forRounds own test update s labels).JumpsIn
        ((s.jumps []).filter (·.leavesLoop labels)) := by
    cases own with
    | false => exact hrounds _
    | true => exact bind fun _ _ ↦ hrounds _
  refine inChild ?_
  cases init with
  | none => exact hloop _
  | some i => exact bind fun _ _ ↦ hloop _

/-! ### Other statements -/

theorem declare (r : Evaluator) (kind : BindingKind) (declarators : List Declarator) :
    (r.declare kind declarators).JumpsIn js := by
  induction declarators with
  | nil => exact normal _
  | cons d rest ih => exact bind fun _ _ ↦ bind fun _ _ ↦ ih

/-- A switch goes on with a jump of one of its cases, unless that is a break that targets it. -/
theorem runCases (hr : r.Jumps) (cases : List SwitchCase) (last : Option Value) :
    (r.runCases labels cases last).JumpsIn
      ((SwitchCase.jumps cases).filter (·.leavesSwitch labels)) := by
  induction cases generalizing last with
  | nil => exact normal _
  | cons case rest ih =>
    obtain ⟨test, body⟩ := case
    rw [Evaluator.runCases, SwitchCase.jumps, List.filter_append]
    refine bind fun completion hc ↦ ?_
    have hbody (j : Jump) (hj : completion.jump? = some j) (hl : j.leavesSwitch labels = true) :
        Eval.JumpsIn ((Stmt.jumpsAll body).filter (·.leavesSwitch labels) ++
          (SwitchCase.jumps rest).filter (·.leavesSwitch labels)) (Pure.pure completion) := by
      refine pure fun j' hj' ↦ List.mem_append_left _ (List.mem_filter.mpr ?_)
      obtain rfl := Option.some.inj (hj'.symm.trans hj)
      exact ⟨hr.statements body none completion j' hc.of_holding hj, hl⟩
    cases completion with
    | normal => exact (ih _).mono fun j hj ↦ List.mem_append_right _ hj
    | returned => exact returned _
    | continued label => exact hbody (.continuing label) rfl rfl
    | broke label =>
      dsimp only
      split
      · exact normal _
      · next ht =>
        rw [Completion.targets_eq rfl, Bool.not_eq_true] at ht
        exact hbody (.breaking label) rfl (by rw [Jump.leavesSwitch, ht]; rfl)

theorem switch (hr : r.Jumps) (discriminant : Expr) (cases : List SwitchCase) :
    (r.switch discriminant cases labels).JumpsIn
      ((SwitchCase.jumps cases).filter (·.leavesSwitch labels)) := by
  refine bind fun v _ ↦ inChild (bind fun chosen hchosen ↦ (hr.runCases _ _).mono fun j hj ↦ ?_)
  obtain ⟨hj, hl⟩ := List.mem_filter.mp hj
  obtain ⟨case, hcase, hj⟩ := SwitchCase.mem_jumps.mp hj
  have hmem : case ∈ cases := (r.mem_of_selectCase hchosen hcase).resolve_right nofun
  exact List.mem_filter.mpr ⟨SwitchCase.mem_jumps.mpr ⟨case, hmem, hj⟩, hl⟩

/-- A break that names one of its labels ends a statement that is no loop and no switch. -/
theorem other (hr : r.Jumps)
    (hs : ∀ j ∈ s.jumps [], j.leavesOther labels = true → j ∈ s.jumps labels) :
    Eval.JumpsIn (s.jumps labels) (do
      match ← r.stmt s with
      | .broke (some label) =>
        if labels.contains label then return .normal none else return .broke (some label)
      | c => return c) := by
  refine bind fun completion hc result j h hj ↦ ?_
  have hjump (hj : completion.jump? = some j) : j ∈ s.jumps [] := hr s completion j hc hj
  split at h
  · next label =>
    split at h
    · cases h.of_pure
      cases hj
    · next hl =>
      cases h.of_pure
      refine hs j (hjump hj) ?_
      obtain rfl := Option.some.inj hj
      simpa [Jump.leavesOther] using hl
  · next hb =>
    cases h.of_pure
    refine hs j (hjump hj) ?_
    cases completion with
    | normal | returned => cases hj
    | continued =>
      obtain rfl := Option.some.inj hj
      rfl
    | broke label =>
      obtain rfl := Option.some.inj hj
      cases label with
      | none => rfl
      | some l => exact (hb l rfl).elim

theorem labeled (hr : r.Jumps) : ∀ (s : Stmt) (labels : List Text),
    (r.labeled s labels).JumpsIn (s.jumps labels)
  | .labeled label body _, labels => hr.labeled body (labels ++ [label])
  | .whileLoop test body _, _ => hr.whileLoop test body
  | .doWhileLoop body test _, _ => hr.doWhileLoop body test
  | .forLoop init test update body _, _ => hr.forLoop init test update body
  | .switch discriminant cases _, _ => hr.switch discriminant cases
  | .declare .., _ | .function .., _ | .returned .., _ | .expression .., _ | .block .., _
  | .empty _, _ | .conditional .., _ | .breaking .., _ | .continuing .., _ | .throwing .., _
  | .guarded .., _ | .unsupported .., _ => hr.other (by simp +contextual [Stmt.jumps])

/-- An abrupt end of the finalizer replaces the jump of the block or of the handler. -/
theorem guarded (hr : r.Jumps) (block : List Stmt) (handler : Option Handler)
    (finalizer : Option (List Stmt)) :
    (r.guarded block handler finalizer).JumpsIn
      (Stmt.jumpsAll block ++ Handler.jumps handler ++ Stmt.jumpsFinalizer finalizer) := by
  have houtcome (completion : Completion) (j : Jump)
      (h : (r.guardedOutcome block handler).Yields (.ok completion))
      (hj : completion.jump? = some j) : j ∈ Stmt.jumpsAll block ++ Handler.jumps handler := by
    obtain ⟨caught, hc, h⟩ := h.of_bind
    cases caught with
    | ok result =>
      cases h.of_pure
      exact List.mem_append_left _ (hr.scopedStatements block _ j hc.of_catching hj)
    | error t =>
      cases handler with
      | none => cases h.of_pure
      | some clause =>
        refine List.mem_append_right _ (Handler.mem_jumps.mpr ⟨clause, rfl, ?_⟩)
        have hhandle : (r.handle clause t).JumpsIn (Stmt.jumpsAll clause.body) := by
          refine inChild ?_
          dsimp only
          split
          · exact bind fun _ _ ↦ hr.statements _ _
          · exact hr.statements _ _
        exact hhandle completion j h.of_catching hj
  have hcleanup (completion : Completion) (outcome : Except Thrown Completion) (j : Jump)
      (h : (r.cleanup finalizer outcome).Yields completion) (hj : completion.jump? = some j) :
      j ∈ Stmt.jumpsFinalizer finalizer := by
    cases finalizer with
    | none =>
      rw [h.of_pure] at hj
      cases hj
    | some body => exact hr.scopedStatements body completion j h.of_holding hj
  refine bind fun outcome ho ↦ bind fun cleanup hc result j h hj ↦ ?_
  split at h
  · obtain rfl := h.of_pure
    exact List.mem_append_right _ (hcleanup result outcome j hc hj)
  · cases outcome with
    | ok completion =>
      obtain rfl := h.of_pure
      exact List.mem_append_left _ (houtcome result j ho hj)
    | error t =>
      obtain ⟨_, _, h⟩ := h
      cases h

theorem stmtStep (hr : r.Jumps) (s : Stmt) : (r.stmtStep s).JumpsIn (s.jumps []) := by
  have hfilter (js : List Jump) : js.filter (·.leavesOther []) = js :=
    List.filter_eq_self.mpr fun j _ ↦ j.leavesOther_nil
  cases s with
  | declare => exact declare r _ _
  | function => exact bind fun _ _ ↦ bind fun _ _ ↦ normal _
  | returned argument =>
    cases argument with
    | none => exact returned _
    | some e => exact bind fun _ _ ↦ returned _
  | expression => exact bind fun _ _ ↦ normal _
  | block body =>
    rw [Stmt.jumps, hfilter]
    exact hr.scopedStatements body
  | empty => exact normal _
  | conditional test consequent alternate =>
    rw [Stmt.jumps, hfilter]
    refine bind fun v _ ↦ ?_
    split
    · exact (hr consequent).mono fun j ↦ List.mem_append_left _
    · cases alternate with
      | none => exact normal _
      | some s => exact (hr s).mono fun j ↦ List.mem_append_right _
  | whileLoop test body => exact hr.whileLoop test body
  | doWhileLoop body test => exact hr.doWhileLoop body test
  | forLoop init test update body => exact hr.forLoop init test update body
  | switch discriminant cases => exact hr.switch discriminant cases
  | breaking label =>
    rw [Stmt.jumps, hfilter]
    exact pure fun j hj ↦ List.mem_singleton.mpr (Option.some.inj hj).symm
  | continuing label =>
    rw [Stmt.jumps]
    exact pure fun j hj ↦ List.mem_singleton.mpr (Option.some.inj hj).symm
  | labeled label body => exact hr.labeled body [label]
  | throwing =>
    refine bind fun _ _ ↦ bind fun _ _ ↦ never fun completion h ↦ ?_
    obtain ⟨_, _, h⟩ := h
    cases h
  | guarded block handler finalizer =>
    rw [Stmt.jumps, hfilter]
    exact hr.guarded block handler finalizer
  | unsupported =>
    refine never fun completion h ↦ ?_
    obtain ⟨_, _, h⟩ := h
    cases h

end Jumps

end Evaluator

/-- On every level a statement ends only with jumps that leave it. -/
theorem Config.level_jumps (c : Config) (n : Nat) : (c.level n).Jumps := by
  induction n with
  | zero =>
    intro s completion j h _
    obtain ⟨t, u, h⟩ := h
    change c.stmt 0 s t = _ at h
    rw [c.stmt_zero] at h
    cases h
  | succ n ih =>
    intro s
    change (c.stmt (n + 1) s).JumpsIn _
    rw [c.stmt_succ]
    exact ih.stmtStep s

end EcmaTree
