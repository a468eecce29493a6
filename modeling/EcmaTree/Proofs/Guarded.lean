import EcmaTree.Evaluation.Level
import EcmaTree.Proofs.Results

/-!
# How guarded blocks end

The rules by which a guarded block, its handler and its finalizer make one ending, stated as
relations between a state and an outcome. What the statements inside end with is a parameter of the
relations, so that they can be put into each other; evaluation follows them on every level.
-/

namespace EcmaTree

/-- The outcomes that statements have in a state. -/
abbrev Endings := Stmt → State → Outcome Completion → Prop

/-- The same with something held meanwhile. -/
def Meanwhile {α : Type} (x : Holder) (P : State → Outcome α → Prop) (s : State) (o : Outcome α) :
    Prop :=
  ∃ inner, P { s with held := x :: s.held } inner ∧
    o = inner.mapState fun t ↦ { t with held := s.held }

/-- An end without a result: nothing goes on from it. -/
def Outcome.Stops {α : Type} (o : Outcome α) : Prop := ∀ a t, o ≠ .done a t

/-- Something was thrown. -/
def Outcome.Throws {α : Type} (o : Outcome α) : Prop := ∃ e t, o = .thrown e t

/-- How statements end one after the other, with the value that they had so far. -/
inductive InTurn (P : Endings) : List Stmt → Option Value → State → Outcome Completion → Prop
  | nil {last : Option Value} {s : State} : InTurn P [] last s (.done (.normal last) s)
  | next {x : Stmt} {rest : List Stmt} {last value : Option Value} {s t : State}
      {o : Outcome Completion}
      (hx : Meanwhile (.values last.toList) (P x) s (.done (.normal value) t))
      (hrest : InTurn P rest (value <|> last) t o) : InTurn P (x :: rest) last s o
  /-- The first abrupt end is kept in the current frame. -/
  | abrupt {x : Stmt} {rest : List Stmt} {last : Option Value} {s t : State} {c : Completion}
      (hx : Meanwhile (.values last.toList) (P x) s (.done c t)) (hc : c.isAbrupt = true) :
      InTurn P (x :: rest) last s (.done c { t with heap := t.heap.setSignal t.frame c })
  | stop {x : Stmt} {rest : List Stmt} {last : Option Value} {s : State} {o : Outcome Completion}
      (hx : Meanwhile (.values last.toList) (P x) s o) (ho : o.Stops) :
      InTurn P (x :: rest) last s o

/-- How statements end in a fresh frame below the current one, which has the given bindings. The
current frame is held meanwhile, and is the current one again afterwards. -/
inductive Apart (P : Endings) (bindings : List Binding) (body : List Stmt) :
    State → Outcome Completion → Prop
  | intro {s : State} {id : FrameId} {h : Heap} {o : Outcome Completion}
      (hfresh : s.heap.frame? id = none)
      (hnew : s.heap.newFrame { Frame.ofParent (some s.frame) with bindings } = (id, h))
      (hbody : InTurn P body none
        { s with heap := h, frame := id, held := .frame s.frame :: s.held } o) :
      Apart P bindings body s (o.mapState fun t ↦ { t with frame := s.frame, held := s.held })

/-- The bindings of the frame that a handler runs in. -/
def Handler.bindings (h : Handler) (t : Thrown) : List Binding :=
  match h.param with
  | some name => [⟨name, .let, t.value⟩]
  | none => []

/-- How a block ends with its handler. -/
inductive Attempt (P : Endings) (block : List Stmt) :
    Option Handler → State → Outcome Completion → Prop
  /-- What is not thrown, and what nothing handles, stays. -/
  | kept {handler : Option Handler} {s : State} {o : Outcome Completion}
      (hblock : Apart P [] block s o) (ho : o.Throws → handler = none) : Attempt P block handler s o
  /-- The handler finds the thrown value, and its ending replaces the throw. -/
  | handled {h : Handler} {s t : State} {e : Thrown} {o : Outcome Completion}
      (hblock : Apart P [] block s (.thrown e t)) (hhandler : Apart P (h.bindings e) h.body t o) :
      Attempt P block (some h) s o

/-- What the finalizer keeps waiting: a completion or something thrown. A fault does not wait. -/
def Outcome.pending? : Outcome Completion → Option (Except Thrown Completion)
  | done c _ => some (.ok c)
  | thrown e _ => some (.error e)
  | faulted .. | exhausted _ => none

/-- How a guarded block ends. -/
inductive Guarded (P : Endings) (block : List Stmt) (handler : Option Handler) :
    Option (List Stmt) → State → Outcome Completion → Prop
  /-- What does not wait is the ending at once. -/
  | atOnce {finalizer : Option (List Stmt)} {s : State} {o : Outcome Completion}
      (hattempt : Attempt P block handler s o) (ho : o.pending? = none) :
      Guarded P block handler finalizer s o
  | unfinished {s : State} {o : Outcome Completion} (hattempt : Attempt P block handler s o) :
      Guarded P block handler none s o
  /-- Any end of the finalizer but a normal one takes the place of what waits. -/
  | replaced {body : List Stmt} {s : State} {o o' : Outcome Completion}
      {pending : Except Thrown Completion} (hattempt : Attempt P block handler s o)
      (ho : o.pending? = some pending)
      (hfinalizer : Meanwhile (Evaluator.pendingHolder pending) (Apart P [] body) o.state o')
      (ho' : ∀ value t, o' ≠ .done (.normal value) t) : Guarded P block handler (some body) s o'
  /-- After a normal end of the finalizer, what waited goes on as it was. -/
  | resumed {body : List Stmt} {s t : State} {o : Outcome Completion}
      {pending : Except Thrown Completion} {value : Option Value}
      (hattempt : Attempt P block handler s o) (ho : o.pending? = some pending)
      (hfinalizer : Meanwhile (Evaluator.pendingHolder pending) (Apart P [] body) o.state
        (.done (.normal value) t)) : Guarded P block handler (some body) s (o.mapState fun _ ↦ t)

/-- How statements end on a level: guarded blocks and blocks by the rules, put into each other, and
every other statement by its own evaluation. -/
def Config.Ends (c : Config) : Nat → Endings
  | n + 1, .guarded block handler finalizer _, s, o =>
    Guarded (c.Ends n) block handler finalizer s o
  | n + 1, .block body _, s, o => Apart (c.Ends n) [] body s o
  | n, x, s, o => c.stmt n x s = o

/-! ## Evaluation follows the rules -/

/-- What was stored last can as well be stored with its change. -/
theorem Store.modify_push {α : Type} (s : Store α) (a : α) (f : α → α) :
    (s.push a).modify s.size f = s.push (f a) := by
  rw [modify, push, push, size]
  congr 1
  apply Array.ext
  · simp
  · intro i hi hi'
    simp only [Array.size_push] at hi'
    rw [Array.getElem_modify, Array.getElem_push, Array.getElem_push]
    rcases Nat.lt_succ_iff_lt_or_eq.mp hi' with h | rfl
    · simp [h, Nat.ne_of_gt h]
    · simp

namespace Heap

theorem frame?_size (h : Heap) : h.frame? ⟨h.frames.size⟩ = none := by
  cases hframe : h.frame? ⟨h.frames.size⟩ with
  | none => rfl
  | some f => exact absurd (Store.lt_size_of_get?_eq_some hframe) (Nat.lt_irrefl _)

/-- A binding added to a new frame is there from the start. -/
theorem define_newFrame (h : Heap) (f : Frame) (name : Text) (v : Value) (kind : BindingKind) :
    (h.newFrame f).2.define (h.newFrame f).1 name v kind =
      (h.newFrame (f.define ⟨name, kind, v⟩)).2 := by
  rw [define, modifyFrame, newFrame, newFrame]
  dsimp only
  rw [Store.modify_push]

end Heap

/-- What was thrown as a result. -/
def Outcome.caught {α : Type} : Outcome α → Outcome (Except Thrown α)
  | done a s => done (.ok a) s
  | thrown e s => done (.error e) s
  | faulted e s => faulted e s
  | exhausted s => exhausted s

theorem Eval.catching_apply {α : Type} (m : Eval α) (s : State) : catching m s = (m s).caught := by
  rw [catching]
  cases m s <;> rfl

namespace Evaluator

open Eval

variable {r : Evaluator}

/-- How statements end by an evaluator. -/
def Ends (r : Evaluator) : Endings := fun x s o ↦ r.stmt x s = o

theorem holding_eq_iff {α : Type} {m : Eval α} {x : Holder} {s : State} {o : Outcome α} :
    holding x m s = o ↔ Meanwhile x (fun s o ↦ m s = o) s o := by
  simp [holding, Meanwhile, eq_comm]

theorem statements_eq_iff {body : List Stmt} {last : Option Value} {s : State}
    {o : Outcome Completion} : r.statements body last s = o ↔ InTurn r.Ends body last s o := by
  constructor
  · rintro rfl
    induction body generalizing last s with
    | nil => exact .nil
    | cons x rest ih =>
      rw [statements, bind_apply]
      have hx := holding_eq_iff.mp (Eq.refl (holding (.values last.toList) (r.stmt x) s))
      generalize holding (.values last.toList) (r.stmt x) s = p at hx
      cases p with
      | done c t =>
        dsimp only
        split
        · next hc => exact .abrupt hx hc
        · next hc =>
          cases c with
          | normal value => exact .next hx ih
          | returned | broke | continued => exact absurd rfl hc
      | thrown | faulted | exhausted => exact .stop hx fun _ _ ↦ nofun
  · intro h
    induction h with
    | nil => rfl
    | next hx _ ih =>
      rw [statements, bind_apply, holding_eq_iff.mpr hx]
      exact ih
    | abrupt hx hc =>
      rw [statements, bind_apply, holding_eq_iff.mpr hx]
      dsimp only
      rw [if_pos hc]
      rfl
    | @stop _ _ _ _ o hx ho =>
      rw [statements, bind_apply, holding_eq_iff.mpr hx]
      cases o with
      | done c t => exact absurd rfl (ho c t)
      | thrown | faulted | exhausted => rfl

theorem inFrame_apply {α : Type} (id : FrameId) (m : Eval α) (s : State) :
    inFrame id m s = (m { s with frame := id, held := .frame s.frame :: s.held }).mapState
      fun t ↦ { t with frame := s.frame, held := s.held } := by
  rw [inFrame, holding, Outcome.mapState_mapState]
  rfl

/-- Statements in a new frame below the current one, which has the given bindings. -/
theorem inFrame_eq_iff {bindings : List Binding} {body : List Stmt} {s : State}
    {o : Outcome Completion} :
    inFrame ⟨s.heap.frames.size⟩ (r.statements body none)
        { s with heap := (s.heap.newFrame { Frame.ofParent (some s.frame) with bindings }).2 } = o ↔
      Apart r.Ends bindings body s o := by
  rw [inFrame_apply]
  constructor
  · rintro rfl
    exact .intro s.heap.frame?_size rfl (statements_eq_iff.mp rfl)
  · rintro ⟨-, hnew, hbody⟩
    obtain ⟨rfl, rfl⟩ := Prod.mk.inj hnew
    exact congrArg (Outcome.mapState _) (statements_eq_iff.mpr hbody)

theorem scopedStatements_eq_iff {body : List Stmt} {s : State} {o : Outcome Completion} :
    r.scopedStatements body s = o ↔ Apart r.Ends [] body s o :=
  inFrame_eq_iff

theorem holding_scopedStatements_eq_iff {x : Holder} {body : List Stmt} {s : State}
    {o : Outcome Completion} :
    holding x (r.scopedStatements body) s = o ↔ Meanwhile x (Apart r.Ends [] body) s o := by
  simp only [holding_eq_iff, Meanwhile, scopedStatements_eq_iff]

theorem handle_eq_iff {h : Handler} {e : Thrown} {s : State} {o : Outcome Completion} :
    r.handle h e s = o ↔ Apart r.Ends (h.bindings e) h.body s o := by
  rw [← inFrame_eq_iff, handle, Handler.bindings]
  cases h.param with
  | none => rfl
  | some name =>
    -- the binding that is added before the statements run is in the frame from the start
    have hdefine := congrArg (fun heap ↦ inFrame ⟨s.heap.frames.size⟩ (r.statements h.body none)
      { s with heap }) (s.heap.define_newFrame (.ofParent (some s.frame)) name e.value .let)
    exact Eq.congr_left hdefine

theorem guardedOutcome_eq {block : List Stmt} {handler : Option Handler} {s : State}
    {o : Outcome Completion} (h : Attempt r.Ends block handler s o) :
    r.guardedOutcome block handler s = o.caught := by
  rw [guardedOutcome, bind_apply, catching_apply]
  cases h with
  | kept hblock ho =>
    rw [scopedStatements_eq_iff.mpr hblock]
    cases o with
    | thrown e t =>
      obtain rfl := ho ⟨e, t, rfl⟩
      rfl
    | done | faulted | exhausted => rfl
  | handled hblock hhandler =>
    rw [scopedStatements_eq_iff.mpr hblock]
    exact congrArg Outcome.caught (handle_eq_iff.mpr hhandler)

theorem exists_attempt (r : Evaluator) (block : List Stmt) (handler : Option Handler) (s : State) :
    ∃ o, Attempt r.Ends block handler s o := by
  have hblock := scopedStatements_eq_iff.mp (Eq.refl (r.scopedStatements block s))
  generalize r.scopedStatements block s = o at hblock
  cases o with
  | thrown e t =>
    cases handler with
    | none => exact ⟨_, .kept hblock fun _ ↦ rfl⟩
    | some h => exact ⟨_, .handled hblock (handle_eq_iff.mp rfl)⟩
  | done | faulted | exhausted => exact ⟨_, .kept hblock fun ⟨_, _, h⟩ ↦ nomatch h⟩

/-- Where nothing waits, or without a finalizer, the block and its handler make the ending. -/
theorem guarded_eq_of_attempt {block : List Stmt} {handler : Option Handler}
    {finalizer : Option (List Stmt)} {s : State} {o : Outcome Completion}
    (hattempt : Attempt r.Ends block handler s o) (h : o.pending? = none ∨ finalizer = none) :
    r.guarded block handler finalizer s = o := by
  rw [guarded, bind_apply, guardedOutcome_eq hattempt]
  cases o with
  | done | thrown =>
    obtain rfl := h.resolve_left nofun
    rfl
  | faulted | exhausted => rfl

/-- A finalizer runs while something waits, and what waits goes on only after a normal end. -/
theorem guarded_eq_of_pending {block : List Stmt} {handler : Option Handler} {body : List Stmt}
    {s : State} {o : Outcome Completion} {pending : Except Thrown Completion}
    (hattempt : Attempt r.Ends block handler s o) (ho : o.pending? = some pending) :
    r.guarded block handler (some body) s =
      match holding (pendingHolder pending) (r.scopedStatements body) o.state with
      | .done (.normal _) t => o.mapState fun _ ↦ t
      | o' => o' := by
  rw [guarded, bind_apply, guardedOutcome_eq hattempt]
  cases o with
  | done | thrown =>
    obtain rfl := Option.some.inj ho
    simp only [Outcome.caught, cleanup, bind_apply, Outcome.state]
    generalize holding _ _ _ = o'
    cases o' with
    | done c t => cases c <;> rfl
    | thrown | faulted | exhausted => rfl
  | faulted | exhausted => cases ho

/-- Evaluation follows the rules for guarded blocks. -/
theorem guarded_eq_iff {block : List Stmt} {handler : Option Handler}
    {finalizer : Option (List Stmt)} {s : State} {o : Outcome Completion} :
    r.guarded block handler finalizer s = o ↔ Guarded r.Ends block handler finalizer s o := by
  constructor
  · rintro rfl
    obtain ⟨o, hattempt⟩ := r.exists_attempt block handler s
    cases ho : o.pending? with
    | none =>
      rw [guarded_eq_of_attempt hattempt (.inl ho)]
      exact .atOnce hattempt ho
    | some pending =>
      cases finalizer with
      | none =>
        rw [guarded_eq_of_attempt hattempt (.inr rfl)]
        exact .unfinished hattempt
      | some body =>
        rw [guarded_eq_of_pending hattempt ho]
        have hfinalizer := holding_scopedStatements_eq_iff.mp
          (Eq.refl (holding (pendingHolder pending) (r.scopedStatements body) o.state))
        split
        · next h => exact .resumed hattempt ho (h ▸ hfinalizer)
        · next h => exact .replaced hattempt ho hfinalizer h
  · intro h
    cases h with
    | atOnce hattempt ho => exact guarded_eq_of_attempt hattempt (.inl ho)
    | unfinished hattempt => exact guarded_eq_of_attempt hattempt (.inr rfl)
    | replaced hattempt ho hfinalizer ho' =>
      rw [guarded_eq_of_pending hattempt ho, holding_scopedStatements_eq_iff.mpr hfinalizer]
      split
      · next value t => exact absurd rfl (ho' value t)
      · rfl
    | resumed hattempt ho hfinalizer =>
      rw [guarded_eq_of_pending hattempt ho, holding_scopedStatements_eq_iff.mpr hfinalizer]

end Evaluator

/-- On every level a statement ends as the rules for guarded blocks say, however they are nested. -/
theorem Config.stmt_eq_iff_ends (c : Config) (n : Nat) (x : Stmt) (s : State)
    (o : Outcome Completion) : c.stmt n x s = o ↔ c.Ends n x s o := by
  induction n generalizing x s o with
  | zero => rfl
  | succ n ih =>
    have hbelow : (c.level n).Ends = c.Ends n :=
      funext fun x ↦ funext fun s ↦ funext fun o ↦ propext (ih x s o)
    cases x with
    | guarded block handler finalizer =>
      rw [c.stmt_succ, Evaluator.stmtStep, Evaluator.guarded_eq_iff, hbelow, Ends]
    | block body =>
      rw [c.stmt_succ, Evaluator.stmtStep, Evaluator.scopedStatements_eq_iff, hbelow, Ends]
    | _ => rfl

end EcmaTree
