import EcmaTree.Evaluation.Level

/-!
# Rounds of loops

All loops run rounds in which the body is run once. A `do` loop runs the body once more than a
`while` loop with as many rounds, and then does what the `while` loop does.
-/

namespace EcmaTree

open Eval

/-- The second evaluation does what the first one does, in every state in which that is not cut
short by exhaustion. -/
def Eval.Approaches {α : Type} (m m' : Eval α) : Prop :=
  ∀ s, (∃ t, m s = .exhausted t) ∨ m' s = m s

namespace Eval.Approaches

variable {α β : Type} {m m' m'' : Eval α}

theorem refl (m : Eval α) : Approaches m m := fun _ ↦ .inr rfl

theorem exhaust (m : Eval α) : Approaches Eval.exhaust m := fun s ↦ .inl ⟨s, rfl⟩

theorem bind (m : Eval α) {f f' : α → Eval β} (hf : ∀ a, Approaches (f a) (f' a)) :
    Approaches (m >>= f) (m >>= f') := by
  intro s
  rw [bind_apply, bind_apply]
  cases m s with
  | done a t => exact hf a t
  | thrown | faulted | exhausted => exact .inr rfl

end Eval.Approaches

/-- What comes after a round: the next one, or the end of the loop. -/
def Round.next {σ β γ : Type} (goOn : σ → γ) (leave : β → γ) : Round σ β → γ
  | .again x => goOn x
  | .over result => leave result

theorem Eval.Approaches.next {σ β γ : Type} (m : Eval (Round σ β)) {goOn goOn' : σ → Eval γ}
    {leave : β → Eval γ} (h : ∀ x, Approaches (goOn x) (goOn' x)) :
    Approaches (m >>= Round.next goOn leave) (m >>= Round.next goOn' leave) := by
  refine .bind m fun result ↦ ?_
  cases result with
  | again x => exact h x
  | «over» result => exact .refl _

theorem Eval.iterate_succ {σ β : Type} (round : σ → Eval (Round σ β)) (n : Nat) (x : σ) :
    iterate round (n + 1) x = round x >>= Round.next (iterate round n) pure := rfl

namespace Completion

/-- A loop that has no value of its own has the given one. -/
def orValue (value : Option Value) : Completion → Completion
  | normal own => normal (own <|> value)
  | c => c

theorem loopValue_or (c : Completion) (last value : Option Value) :
    c.loopValue (last <|> value) = (c.loopValue last <|> value) := by
  cases c with
  | normal v => cases v <;> rfl
  | returned | broke | continued => rfl

end Completion

namespace Evaluator

variable (r : Evaluator) (test : Expr) (body : Stmt) (labels : List Text)

/-- Runs the body of a loop once. `last` is the value of the loop so far. -/
def bodyRound (last : Option Value) : Eval (Round (Option Value) Completion) :=
  r.loopRound body labels last fun value ↦ return .again value

/-- Runs the body of a loop once, if the test says so. -/
def whileRound (last : Option Value) : Eval (Round (Option Value) Completion) := do
  if ← r.forTest (some test) last then r.bodyRound body labels last
  else return .over (.normal last)

/-- Runs the body of a loop once and then tests whether it is run again. -/
def doWhileRound (last : Option Value) : Eval (Round (Option Value) Completion) :=
  r.loopRound body labels last fun value ↦ do
    if ← r.forTest (some test) value then return .again value
    else return .over (.normal value)

theorem statements_withRounds (n : Nat) (body : List Stmt) :
    { r with rounds := n : Evaluator }.statements body = r.statements body := by
  induction body with
  | nil => rfl
  | cons s rest ih =>
    funext last
    simp only [statements, ih]

theorem loopBody_withRounds (n : Nat) :
    { r with rounds := n : Evaluator }.loopBody body = r.loopBody body := by
  cases body with
  | block body _ => exact congrArg (fun m ↦ inChild (m none)) (r.statements_withRounds n body)
  | _ => rfl

/-- What a round does is not up to the bound on rounds. -/
theorem doWhileRound_withRounds (n : Nat) :
    { r with rounds := n : Evaluator }.doWhileRound test body labels =
      r.doWhileRound test body labels := by
  funext last
  simp only [doWhileRound, loopRound, loopBody_withRounds]
  rfl

theorem whileLoop_eq :
    r.whileLoop test body labels = iterate (r.whileRound test body labels) r.rounds none := by
  unfold whileLoop
  congr 1
  funext last
  rw [whileRound, forTest, bind_map_left]
  rfl

theorem doWhileLoop_eq :
    r.doWhileLoop body test labels = iterate (r.doWhileRound test body labels) r.rounds none := by
  unfold doWhileLoop
  congr 1
  funext last
  rw [doWhileRound]
  congr 1
  funext value
  rw [forTest, bind_map_left]

/-- A loop without initialiser and update tests and runs the body as a `while` loop does, in a frame
of its own. -/
theorem forLoop_eq_inChild :
    r.forLoop none (some test) none body labels = inChild (r.whileLoop test body labels) := by
  rw [whileLoop_eq]
  rfl

/-- What follows the body of a loop. -/
theorem loopRound_eq (last : Option Value)
    (next : Option Value → Eval (Round (Option Value) Completion)) :
    r.loopRound body labels last next =
      r.bodyRound body labels last >>= Round.next next fun c ↦ pure (.over c) := by
  rw [bodyRound, loopRound, loopRound, bind_assoc]
  congr 1
  funext c
  dsimp only
  cases c.loopAction labels <;> rfl

/-- Goes on after the body of a loop, or leaves the loop. -/
def afterBody (goOn : Option Value → Eval Completion) (last : Option Value) (c : Completion) :
    Eval Completion :=
  match c.loopAction labels with
  | .next => goOn (c.loopValue last)
  | .exit => return .normal (c.loopValue last)
  | .propagate => return c

/-- Runs the body of a loop once, and then a `while` loop with the same labels, unless the body
leaves the loop. The value of the body is held meanwhile, and is that of the loop if that has
none. -/
def bodyThenWhile : Eval Completion := do
  let c ← r.loopBody body
  let goOn : Option Value → Eval Completion := fun value ↦
    Completion.orValue value <$> holding (.values value.toList) (r.whileLoop test body labels)
  afterBody labels goOn none c

/-- Runs the body of a loop once, and then a `while` loop of so many rounds that goes on with the
value of that. -/
def bodyThenRounds (n : Nat) (last : Option Value) : Eval Completion :=
  holding (.values last.toList) (r.loopBody body) >>=
    afterBody labels (iterate (r.whileRound test body labels) n) last

theorem bodyRound_next (goOn : Option Value → Eval Completion) (last : Option Value) :
    r.bodyRound body labels last >>= Round.next goOn pure =
      holding (.values last.toList) (r.loopBody body) >>= afterBody labels goOn last := by
  rw [bodyRound, loopRound, bind_assoc]
  congr 1
  funext c
  rw [afterBody]
  cases c.loopAction labels <;> rfl

theorem whileRounds_succ (n : Nat) (last : Option Value) :
    iterate (r.whileRound test body labels) (n + 1) last =
      (do
        if ← r.forTest (some test) last then r.bodyThenRounds test body labels n last
        else return .normal last) := by
  rw [iterate_succ, whileRound, bind_assoc]
  congr 1
  funext goesOn
  rw [bodyThenRounds, ← bodyRound_next]
  cases goesOn <;> rfl

theorem doWhileRounds_succ (n : Nat) (last : Option Value) :
    iterate (r.doWhileRound test body labels) (n + 1) last =
      r.bodyRound body labels last >>= Round.next
        (fun value ↦ do
          if ← r.forTest (some test) value then iterate (r.doWhileRound test body labels) n value
          else return .normal value)
        pure := by
  rw [iterate_succ, doWhileRound, loopRound_eq, bind_assoc]
  congr 1
  funext result
  cases result with
  | «over» c => rfl
  | again value =>
    change (r.forTest (some test) value >>= _) >>= _ = r.forTest (some test) value >>= _
    rw [bind_assoc]
    congr 1
    funext goesOn
    cases goesOn <;> rfl

/-- With one round more a `do` loop gets as far as a `while` loop after a body. -/
theorem bodyThenRounds_approaches (n : Nat) (last : Option Value) :
    (r.bodyThenRounds test body labels n last).Approaches
      (iterate (r.doWhileRound test body labels) (n + 1) last) := by
  induction n generalizing last with
  | zero =>
    rw [bodyThenRounds, ← bodyRound_next, doWhileRounds_succ]
    exact .next _ fun _ ↦ .exhaust _
  | succ n ih =>
    rw [bodyThenRounds, ← bodyRound_next, doWhileRounds_succ]
    refine .next _ fun value ↦ ?_
    rw [whileRounds_succ]
    refine .bind _ fun goesOn ↦ ?_
    split
    · exact ih value
    · exact .refl _

/-- With as many rounds a `while` loop after a body gets as far as a `do` loop. -/
theorem doWhileRounds_approaches (n : Nat) (last : Option Value) :
    (iterate (r.doWhileRound test body labels) n last).Approaches
      (r.bodyThenRounds test body labels n last) := by
  induction n generalizing last with
  | zero => exact .exhaust _
  | succ n ih =>
    rw [bodyThenRounds, ← bodyRound_next, doWhileRounds_succ]
    refine .next _ fun value ↦ ?_
    rw [whileRounds_succ]
    refine .bind _ fun goesOn ↦ ?_
    split
    · exact ih value
    · exact .refl _

/-! ### Loops with an update -/

section Update

variable (own : Bool) (test update : Option Expr)

/-- Runs the body of a loop once, if the test says so, and then steps. -/
def forRound (last : Option Value) : Eval (Round (Option Value) Completion) := do
  if ← r.forTest test last then r.loopRound body labels last (r.forStep own update)
  else return .over (.normal last)

theorem forRounds_eq :
    r.forRounds own test update body labels =
      iterate (r.forRound body labels own test update) r.rounds none := rfl

/-- A step always leads to another round. -/
theorem forStep_next {γ : Type} (value : Option Value) (goOn : Option Value → Eval γ)
    (leave : Completion → Eval γ) :
    r.forStep false update value >>= Round.next goOn leave =
      r.forStep false update value >>= fun _ ↦ goOn value := by
  cases update with
  | none => rfl
  | some e =>
    change ((holding _ (r.expr e) >>= fun _ ↦ pure _) >>= _) =
        (holding _ (r.expr e) >>= fun _ ↦ pure _) >>= _
    rw [bind_assoc, bind_assoc]
    rfl

/-- One turn of a loop, from the update to the body. The result is how the body ended, if the test
said that it should be run. -/
def forTurn (last : Option Value) : Eval (Option Completion) := do
  let _ ← r.forStep false update last
  if ← r.forTest test last then some <$> holding (.values last.toList) (r.loopBody body)
  else return none

/-- The update at the beginning of a turn. The first turn has none. -/
def updateOf : Nat → Option Expr
  | 0 => none
  | _ + 1 => update

/-- What a loop with variables of its own does from one of its turns on. -/
def forRest (turn : Nat) (last : Option Value) : Eval Completion := do
  let _ ← r.forStep false (updateOf update turn) last
  iterate (r.forRound body labels true test update) (r.rounds - turn) last

/-- What comes after a turn: the next one, in a sibling of the current frame, or the end of the
loop. -/
def afterTurn (turn : Nat) (last : Option Value) : Option Completion → Eval Completion
  | none => pure (.normal last)
  | some c =>
    match c.loopAction labels with
    | .next => do
      enterSibling
      r.forRest body labels test update (turn + 1) (c.loopValue last)
    | .exit => pure (.normal (c.loopValue last))
    | .propagate => pure c

theorem forLoop_eq_rest {init : Stmt} (hinit : hasOwnVariables (some init) = true) :
    r.forLoop (some init) test update body labels = inChild (do
      let _ ← r.stmt init
      enterSibling
      r.forRest body labels test update 0 none) := by
  rw [forLoop, hinit]
  rfl

/-- A loop goes on by turns. -/
theorem forRest_eq {turn : Nat} (hturn : turn < r.rounds) (last : Option Value) :
    r.forRest body labels test update turn last =
      r.forTurn body test (updateOf update turn) last >>=
        r.afterTurn body labels test update turn last := by
  obtain ⟨n, hn⟩ : ∃ n, r.rounds - turn = n + 1 := ⟨r.rounds - (turn + 1), by omega⟩
  have hn' : r.rounds - (turn + 1) = n := by omega
  rw [forRest, forTurn, hn, bind_assoc]
  congr 1
  funext _
  rw [iterate_succ, forRound, bind_assoc, bind_assoc]
  congr 1
  funext goesOn
  cases goesOn with
  | false => rfl
  | true =>
    change r.loopRound body labels last (r.forStep true update) >>= _ =
      (some <$> holding (.values last.toList) (r.loopBody body)) >>= _
    rw [loopRound, bind_assoc, bind_map_left]
    congr 1
    funext c
    rw [afterTurn]
    cases c.loopAction labels with
    | next =>
      change (enterSibling >>= fun _ ↦ r.forStep false update (c.loopValue last)) >>= _ =
        enterSibling >>= _
      rw [bind_assoc]
      congr 1
      funext _
      rw [forStep_next, forRest, hn']
      rfl
    | exit => rfl
    | propagate => rfl

end Update

end Evaluator

end EcmaTree
