import EcmaTree.Proofs.Guarded

/-!
# How switches end

The rules by which a switch selects the case that it runs on from, and by which the bodies of the
cases make one ending. What the expressions and statements inside have as outcomes is a parameter of
the rules; evaluation follows them on every level.
-/

namespace EcmaTree

/-- The outcomes that expressions have in a state. -/
abbrev Valuations := Expr → State → Outcome Value → Prop

/-- Two ends without a result are the same, whatever the result would have been. -/
inductive Outcome.StopsAs {α β : Type} : Outcome α → Outcome β → Prop
  | thrown (e : Thrown) (s : State) : StopsAs (.thrown e s) (.thrown e s)
  | faulted (e : Fault) (s : State) : StopsAs (.faulted e s) (.faulted e s)
  | exhausted (s : State) : StopsAs (.exhausted s) (.exhausted s)

/-- The tests of cases are evaluated in order, and none strictly equals the value, which is held
meanwhile. A default clause has no test. -/
inductive Misses (Q : Valuations) (v : Value) : List SwitchCase → State → State → Prop
  | nil {s : State} : Misses Q v [] s s
  | default {body : List Stmt} {rest : List SwitchCase} {s t : State}
    (hrest : Misses Q v rest s t) :
      Misses Q v (⟨none, body⟩ :: rest) s t
  | test {test : Expr} {body : List Stmt} {rest : List SwitchCase} {w : Value} {s t u : State}
      (htest : Meanwhile (.values [v]) (Q test) s (.done w t)) (hw : v.strictEquals w = false)
      (hrest : Misses Q v rest t u) : Misses Q v (⟨some test, body⟩ :: rest) s u

/-- The cases that a switch runs on from. -/
inductive Selects (Q : Valuations) (v : Value) (cases : List SwitchCase) (s : State) :
    Outcome (List SwitchCase) → Prop
  /-- No test is evaluated after the first one that strictly equals the value. -/
  | found {before after : List SwitchCase} {test : Expr} {body : List Stmt} {w : Value}
    {t u : State}
      (hcases : cases = before ++ ⟨some test, body⟩ :: after) (hbefore : Misses Q v before s t)
      (htest : Meanwhile (.values [v]) (Q test) t (.done w u)) (hw : v.strictEquals w = true) :
      Selects Q v cases s (.done (⟨some test, body⟩ :: after) u)
  /-- The last default clause counts, and only if there is no such test. -/
  | default {before after : List SwitchCase} {body : List Stmt} {t : State}
      (hcases : cases = before ++ ⟨none, body⟩ :: after) (hlast : ∀ c ∈ after, c.test.isSome = true)
      (hmissed : Misses Q v cases s t) : Selects Q v cases s (.done (⟨none, body⟩ :: after) t)
  | nowhere {t : State} (hnone : ∀ c ∈ cases, c.test.isSome = true)
    (hmissed : Misses Q v cases s t) :
      Selects Q v cases s (.done [] t)
  | stop {before after : List SwitchCase} {test : Expr} {body : List Stmt} {t : State}
      {o : Outcome Value} {o' : Outcome (List SwitchCase)}
      (hcases : cases = before ++ ⟨some test, body⟩ :: after) (hbefore : Misses Q v before s t)
      (htest : Meanwhile (.values [v]) (Q test) t o) (ho : o.StopsAs o') : Selects Q v cases s o'

/-- How the bodies of cases end one after the other, with the value that they had so far. -/
inductive RunsOn (P : Endings) (labels : List Text) :
    List SwitchCase → Option Value → State → Outcome Completion → Prop
  | nil {last : Option Value} {s : State} : RunsOn P labels [] last s (.done (.normal last) s)
  | next {c : SwitchCase} {rest : List SwitchCase} {last value : Option Value} {s t : State}
      {o : Outcome Completion}
      (hbody : Meanwhile (.values last.toList) (InTurn P c.body none) s (.done (.normal value) t))
      (hrest : RunsOn P labels rest (value <|> last) t o) : RunsOn P labels (c :: rest) last s o
  /-- A break without a label, or with one of the switch, is for the switch. -/
  | left {c : SwitchCase} {rest : List SwitchCase} {last : Option Value} {label : Option Text}
      {s t : State}
      (hbody : Meanwhile (.values last.toList) (InTurn P c.body none) s (.done (.broke label) t))
      (hlabel : ∀ name, label = some name → name ∈ labels) :
      RunsOn P labels (c :: rest) last s (.done (.normal last) t)
  /-- Any other end but a normal one stays. -/
  | kept {c : SwitchCase} {rest : List SwitchCase} {last : Option Value} {s : State}
      {o : Outcome Completion}
      (hbody : Meanwhile (.values last.toList) (InTurn P c.body none) s o)
      (hnormal : ∀ value t, o ≠ .done (.normal value) t)
      (hbreak : ∀ label t, o = .done (.broke label) t → ∃ name ∉ labels, label = some name) :
      RunsOn P labels (c :: rest) last s o

/-- How a switch ends in its frame, given the value that is looked for. -/
inductive Chosen (P : Endings) (Q : Valuations) (cases : List SwitchCase) (labels : List Text)
    (v : Value) (s : State) : Outcome Completion → Prop
  | selected {chosen : List SwitchCase} {t : State} {o : Outcome Completion}
      (hchosen : Selects Q v cases s (.done chosen t)) (hrun : RunsOn P labels chosen none t o) :
      Chosen P Q cases labels v s o
  | unselected {o : Outcome (List SwitchCase)} {o' : Outcome Completion}
      (hchosen : Selects Q v cases s o) (ho : o.StopsAs o') : Chosen P Q cases labels v s o'

/-- How a switch ends. Its value is looked for in a fresh frame below the current one, which is held
meanwhile and is the current one again afterwards. -/
inductive Switched (P : Endings) (Q : Valuations) (discriminant : Expr) (cases : List SwitchCase)
    (labels : List Text) (s : State) : Outcome Completion → Prop
  | intro {v : Value} {t : State} {id : FrameId} {h : Heap} {o : Outcome Completion}
      (hvalue : Q discriminant s (.done v t)) (hfresh : t.heap.frame? id = none)
      (hnew : t.heap.newFrame (.ofParent (some t.frame)) = (id, h))
      (hinside : Chosen P Q cases labels v
        { t with heap := h, frame := id, held := .frame t.frame :: t.held } o) :
      Switched P Q discriminant cases labels s
        (o.mapState fun u ↦ { u with frame := t.frame, held := t.held })
  | stop {o : Outcome Value} {o' : Outcome Completion} (hvalue : Q discriminant s o)
      (ho : o.StopsAs o') : Switched P Q discriminant cases labels s o'

/-- A statement under labels, the outermost first. -/
def Stmt.under (labels : List (Text × Span)) (x : Stmt) : Stmt :=
  labels.foldr (fun l body ↦ .labeled l.1 body l.2) x

/-! ## Evaluation follows the rules -/

namespace SwitchCase

/-- The cases to run on from if none of them is found, once those at the front were tested. -/
def fallback (after : List SwitchCase) : List SwitchCase → List SwitchCase → List SwitchCase
  | [], cases => cases
  | c :: before, cases =>
    fallback after before (if c.test.isSome then cases else c :: (before ++ after))

variable {after before cases : List SwitchCase} {body : List Stmt}

theorem fallback_of_forall (hbefore : ∀ c ∈ before, c.test.isSome = true) :
    fallback after before cases = cases := by
  induction before generalizing cases with
  | nil => rfl
  | cons c before ih =>
    obtain ⟨hc, hrest⟩ := List.forall_mem_cons.mp hbefore
    rw [fallback, ih hrest, if_pos hc]

/-- The last default clause of those at the front is the one to run on from. -/
theorem fallback_append {last : List SwitchCase} (hlast : ∀ c ∈ last, c.test.isSome = true) :
    fallback after (before ++ ⟨none, body⟩ :: last) cases = ⟨none, body⟩ :: (last ++ after) := by
  induction before generalizing cases with
  | nil => exact fallback_of_forall hlast
  | cons c before ih => exact ih

/-- Some default clause is the last one, or there is none. -/
theorem exists_last_default (cases : List SwitchCase) :
    (∃ before body after, cases = before ++ ⟨none, body⟩ :: after ∧
      ∀ c ∈ after, c.test.isSome = true) ∨ ∀ c ∈ cases, c.test.isSome = true := by
  induction cases with
  | nil => exact .inr nofun
  | cons c rest ih =>
    rcases ih with ⟨before, body, after, rfl, hafter⟩ | hrest
    · exact .inl ⟨c :: before, body, after, rfl, hafter⟩
    · obtain ⟨_ | test, body⟩ := c
      · exact .inl ⟨[], body, rest, rfl, hrest⟩
      · exact .inr (List.forall_mem_cons.mpr ⟨rfl, hrest⟩)

end SwitchCase

namespace Evaluator

open Eval

variable {r : Evaluator} {v : Value} {cases : List SwitchCase} {s t : State}

/-- How expressions are evaluated by an evaluator. -/
def Values (r : Evaluator) : Valuations := fun e s o ↦ r.expr e s = o

theorem bind_eq_of_stopsAs {α β : Type} {m : Eval α} {f : α → Eval β} {o : Outcome β}
    (ho : (m s).StopsAs o) : (m >>= f) s = o := by
  rw [bind_apply]
  cases h : m s with
  | done a t =>
    rw [h] at ho
    cases ho
  | thrown | faulted | exhausted =>
    rw [h] at ho
    cases ho
    rfl

/-- After tests that miss, selection goes on with the cases that are left. -/
theorem selectCase_of_misses {before : List SwitchCase} (h : Misses r.Values v before s t)
    (after fallback : List SwitchCase) :
    r.selectCase v (before ++ after) fallback s =
      r.selectCase v after (SwitchCase.fallback after before fallback) t := by
  induction h generalizing fallback with
  | nil => rfl
  | default _ ih => exact ih _
  | test htest hw _ ih =>
    rw [List.cons_append, selectCase]
    dsimp only
    rw [bind_apply, holding_eq_iff.mpr htest]
    dsimp only
    rw [hw]
    exact ih _

theorem selectCase_eq_of_selects {o : Outcome (List SwitchCase)}
    (h : Selects r.Values v cases s o) :
    r.selectCase v cases [] s = o := by
  have hall {t : State} (hmissed : Misses r.Values v cases s t) :
      r.selectCase v cases [] s = .done (SwitchCase.fallback [] cases []) t := by
    have h := selectCase_of_misses hmissed [] []
    rwa [List.append_nil] at h
  cases h with
  | found hcases hbefore htest hw =>
    rw [hcases, selectCase_of_misses hbefore, selectCase]
    dsimp only
    rw [bind_apply, holding_eq_iff.mpr htest]
    dsimp only
    rw [hw]
    rfl
  | default hcases hlast hmissed =>
    rw [hall hmissed, hcases, SwitchCase.fallback_append hlast, List.append_nil]
  | nowhere hnone hmissed => rw [hall hmissed, SwitchCase.fallback_of_forall hnone]
  | stop hcases hbefore htest ho =>
    rw [hcases, selectCase_of_misses hbefore, selectCase]
    exact bind_eq_of_stopsAs (holding_eq_iff.mpr htest ▸ ho)

/-- No test strictly equals the value, or there is a first one that does or that ends without a
value. -/
theorem misses_or_exists_test (r : Evaluator) (v : Value) (cases : List SwitchCase) (s : State) :
    (∃ t, Misses r.Values v cases s t) ∨ ∃ before test body after t o,
      cases = before ++ ⟨some test, body⟩ :: after ∧ Misses r.Values v before s t ∧
        Meanwhile (.values [v]) (r.Values test) t o ∧
          ∀ w u, o = .done w u → v.strictEquals w = true := by
  induction cases generalizing s with
  | nil => exact .inl ⟨s, .nil⟩
  | cons c rest ih =>
    obtain ⟨_ | test, body⟩ := c
    · rcases ih s with ⟨t, hrest⟩ | ⟨before, test, body', after, t, o, rfl, hbefore, htest⟩
      · exact .inl ⟨t, .default hrest⟩
      · exact .inr ⟨_, test, body', after, t, o, rfl, .default hbefore, htest⟩
    · have htest := holding_eq_iff.mp (Eq.refl (holding (.values [v]) (r.expr test) s))
      by_cases hmiss : ∃ w u, holding (.values [v]) (r.expr test) s = .done w u ∧
          v.strictEquals w = false
      · obtain ⟨w, u, heq, hw⟩ := hmiss
        rw [heq] at htest
        rcases ih u with ⟨t, hrest⟩ | ⟨before, test', body', after, t, o, rfl, hbefore, htest'⟩
        · exact .inl ⟨t, .test htest hw hrest⟩
        · exact .inr ⟨_, test', body', after, t, o, rfl, .test htest hw hbefore, htest'⟩
      · refine .inr ⟨[], test, body, rest, s, _, rfl, .nil, htest, fun w u heq ↦ ?_⟩
        by_contra hw
        exact hmiss ⟨w, u, heq, Bool.eq_false_iff.mpr hw⟩

theorem exists_selects (r : Evaluator) (v : Value) (cases : List SwitchCase) (s : State) :
    ∃ o, Selects r.Values v cases s o := by
  rcases r.misses_or_exists_test v cases s with
    ⟨t, hmissed⟩ | ⟨before, test, body, after, t, o, hcases, hbefore, htest, ho⟩
  · rcases SwitchCase.exists_last_default cases with ⟨before, body, after, hcases, hlast⟩ | hnone
    · exact ⟨_, .default hcases hlast hmissed⟩
    · exact ⟨_, .nowhere hnone hmissed⟩
  · cases o with
    | done w u => exact ⟨_, .found hcases hbefore htest (ho w u rfl)⟩
    | thrown e u => exact ⟨_, .stop hcases hbefore htest (.thrown e u)⟩
    | faulted e u => exact ⟨_, .stop hcases hbefore htest (.faulted e u)⟩
    | exhausted u => exact ⟨_, .stop hcases hbefore htest (.exhausted u)⟩

theorem selectCase_eq_iff {o : Outcome (List SwitchCase)} :
    r.selectCase v cases [] s = o ↔ Selects r.Values v cases s o := by
  refine ⟨?_, selectCase_eq_of_selects⟩
  rintro rfl
  obtain ⟨o, ho⟩ := r.exists_selects v cases s
  rwa [selectCase_eq_of_selects ho]

variable {c : SwitchCase} {labels : List Text} {last : Option Value} {o : Outcome Completion}

theorem holding_statements_eq_iff {x : Holder} {body : List Stmt} :
    holding x (r.statements body none) s = o ↔ Meanwhile x (InTurn r.Ends body none) s o := by
  simp only [holding_eq_iff, Meanwhile, statements_eq_iff]

theorem targets_broke_iff {label : Option Text} :
    (Completion.broke label).targets labels = true ↔ ∀ name, label = some name → name ∈ labels := by
  rw [Completion.targets, Completion.label?]
  cases label <;> simp

theorem runCases_cons (c : SwitchCase) (labels : List Text) (last : Option Value) (s : State) :
    r.runCases labels (c :: cases) last s =
      match holding (.values last.toList) (r.statements c.body none) s with
      | .done (.normal value) t => r.runCases labels cases (value <|> last) t
      | .done (.broke label) t =>
        .done (if (Completion.broke label).targets labels then .normal last else .broke label) t
      | o => o := by
  rw [runCases, bind_apply]
  cases holding (.values last.toList) (r.statements c.body none) s with
  | done completion t =>
    cases completion with
    | broke label =>
      dsimp only
      split <;> rfl
    | normal | returned | continued => rfl
  | thrown | faulted | exhausted => rfl

theorem runCases_eq_iff :
    r.runCases labels cases last s = o ↔ RunsOn r.Ends labels cases last s o := by
  constructor
  · rintro rfl
    induction cases generalizing last s with
    | nil => exact .nil
    | cons c rest ih =>
      rw [runCases_cons]
      have hbody := holding_statements_eq_iff.mp
        (Eq.refl (holding (.values last.toList) (r.statements c.body none) s))
      generalize holding (.values last.toList) (r.statements c.body none) s = p at hbody
      split
      · exact .next hbody ih
      · next label t =>
        split
        · next hlabel => exact .left hbody (targets_broke_iff.mp hlabel)
        · next hlabel =>
          refine .kept hbody nofun fun _ _ heq ↦ ?_
          cases heq
          simpa [targets_broke_iff, and_comm] using hlabel
      · next hnormal hbroke =>
        exact .kept hbody hnormal fun label t heq ↦ absurd heq (hbroke label t)
  · intro h
    induction h with
    | nil => rfl
    | next hbody _ ih =>
      rw [runCases_cons, holding_statements_eq_iff.mpr hbody]
      exact ih
    | left hbody hlabel =>
      rw [runCases_cons, holding_statements_eq_iff.mpr hbody]
      dsimp only
      rw [if_pos (targets_broke_iff.mpr hlabel)]
    | kept hbody hnormal hbreak =>
      rw [runCases_cons, holding_statements_eq_iff.mpr hbody]
      split
      · next value t => exact absurd rfl (hnormal value t)
      · next label t =>
        obtain ⟨name, hname, rfl⟩ := hbreak label t rfl
        rw [if_neg fun h ↦ hname (targets_broke_iff.mp h name rfl)]
      · rfl

theorem chosen_eq_iff :
    (do r.runCases labels (← r.selectCase v cases []) none) s = o ↔
      Chosen r.Ends r.Values cases labels v s o := by
  constructor
  · rintro rfl
    have hchosen := selectCase_eq_iff.mp (Eq.refl (r.selectCase v cases [] s))
    rw [bind_apply]
    generalize r.selectCase v cases [] s = p at hchosen
    cases p with
    | done chosen t => exact .selected hchosen (runCases_eq_iff.mp rfl)
    | thrown e t => exact .unselected hchosen (.thrown e t)
    | faulted e t => exact .unselected hchosen (.faulted e t)
    | exhausted t => exact .unselected hchosen (.exhausted t)
  · intro h
    cases h with
    | selected hchosen hrun =>
      rw [bind_apply, selectCase_eq_iff.mpr hchosen]
      exact runCases_eq_iff.mpr hrun
    | unselected hchosen ho => exact bind_eq_of_stopsAs (selectCase_eq_iff.mpr hchosen ▸ ho)

theorem switch_eq_iff {discriminant : Expr} :
    r.switch discriminant cases labels s = o ↔
      Switched r.Ends r.Values discriminant cases labels s o := by
  -- what the cases do in the frame that is made for them
  have happly (v : Value) (t : State) {o : Outcome Completion} :
      inChild (do r.runCases labels (← r.selectCase v cases []) none) t = o ↔
        ((do r.runCases labels (← r.selectCase v cases []) none : Eval Completion)
          { t with
            heap := (t.heap.newFrame (.ofParent (some t.frame))).2
            frame := ⟨t.heap.frames.size⟩
            held := .frame t.frame :: t.held }).mapState
          (fun u ↦ { u with frame := t.frame, held := t.held }) = o :=
    Eq.congr_left (inFrame_apply _ _ _)
  constructor
  · rintro rfl
    rw [switch, bind_apply]
    cases h : r.expr discriminant s with
    | done v t =>
      dsimp only
      rw [← (happly v t).mp rfl]
      exact .intro h t.heap.frame?_size rfl (chosen_eq_iff.mp rfl)
    | thrown e t => exact .stop h (.thrown e t)
    | faulted e t => exact .stop h (.faulted e t)
    | exhausted t => exact .stop h (.exhausted t)
  · intro h
    cases h with
    | @intro v t _ _ _ hvalue hfresh hnew hinside =>
      obtain ⟨rfl, rfl⟩ := Prod.mk.inj hnew
      rw [switch, bind_apply, show r.expr discriminant s = _ from hvalue]
      exact (happly v t).mpr (congrArg (Outcome.mapState _) (chosen_eq_iff.mpr hinside))
    | stop hvalue ho => exact bind_eq_of_stopsAs (hvalue ▸ ho)

theorem labeled_under (r : Evaluator) (discriminant : Expr) (cases : List SwitchCase) (span : Span)
    (inner : List (Text × Span)) (outer : List Text) :
    r.labeled (.under inner (.switch discriminant cases span)) outer =
      r.switch discriminant cases (outer ++ inner.map Prod.fst) := by
  induction inner generalizing outer with
  | nil => rw [List.map_nil, List.append_nil, Stmt.under, List.foldr_nil, labeled]
  | cons l inner ih =>
    rw [Stmt.under, List.foldr_cons, labeled, ← Stmt.under, ih, List.append_assoc,
      List.map_cons, List.singleton_append]

end Evaluator

/-- On every level a switch ends as the rules say, whatever labels it carries. -/
theorem Config.switch_eq_iff_switched (c : Config) (n : Nat) (labels : List (Text × Span))
    (discriminant : Expr) (cases : List SwitchCase) (span : Span) (s : State)
    (o : Outcome Completion) :
    c.stmt (n + 1) (.under labels (.switch discriminant cases span)) s = o ↔
      Switched (c.level n).Ends (c.level n).Values discriminant cases
        (labels.map Prod.fst) s o := by
  rw [c.stmt_succ]
  cases labels with
  | nil => exact Evaluator.switch_eq_iff
  | cons l inner =>
    change (c.level n).labeled (.under inner (.switch discriminant cases span)) [l.1] s = o ↔ _
    rw [Evaluator.labeled_under]
    exact Evaluator.switch_eq_iff

end EcmaTree
