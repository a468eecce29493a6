import EcmaTree.Proofs.Alike.Steps

/-!
# Transparent collections

Neither when collections happen nor whether there are any makes a difference to what a host is told,
but for what it is told of the collections themselves.
-/

namespace EcmaTree

/-- The same configuration with two ways to collect. -/
def Pairing.collecting (c : Config) (collects collects' : Moment → Nat → Accounting → Bool) :
    Pairing where
  left := { c with collects := collects }
  right := { c with collects := collects' }
  free := False
  short := False
  whole := False
  intact := False
  active := none
  short_of_free := id
  unbound_eq := rfl
  maxDepth_eq := rfl
  noteUnbound_eq := rfl
  source_eq := rfl
  others_eq := rfl
  collects_eq := False.elim

theorem Pairing.collecting_collecting (c : Config)
    (collects collects' : Moment → Nat → Accounting → Bool) :
    (Pairing.collecting c collects collects').Collecting :=
  ⟨id, id, id, nofun⟩

/-- The step asks for a collection. -/
def Step.isCollect : Step → Bool
  | collect => true
  | _ => false

/-- The replies to the steps of a script that do not ask for a collection. -/
def visible (script : List Step) (replies : List Reply) : List Reply :=
  ((script.zip replies).filter fun x ↦ !x.1.isCollect).map Prod.snd

@[simp] theorem visible_cons_collect (script : List Step) (reply : Reply) (replies : List Reply) :
    visible (.collect :: script) (reply :: replies) = visible script replies :=
  rfl

theorem visible_cons {x : Step} (hx : x ≠ .collect) (script : List Step) (reply : Reply)
    (replies : List Reply) :
    visible (x :: script) (reply :: replies) = reply :: visible script replies := by
  cases x with
  | collect => exact (hx rfl).elim
  | _ => rfl

namespace Session

/-- Whatever was recorded and noted was handed over. -/
structure Idle (s : Session) : Prop where
  log : s.interpreter.state.log = []
  notices : s.interpreter.state.notices = []

theorem idle_start (config : Config) (accounting : Accounting)
    (bindings : List (Text × ValueSpec)) : (start config accounting bindings).Idle :=
  ⟨rfl, rfl⟩

theorem idle_step (s : Session) (level : Nat) (x : Step) : (s.step level x).2.Idle :=
  ⟨rfl, rfl⟩

variable {p : Pairing} {s t : Session}

/-- A step that asks for a collection leaves the session alike to one that did not take it. -/
theorem Alike.step_collect (hp : p.Collecting) (ha : s.Alike p [] t) (ht : t.Idle) (level : Nat) :
    (s.step level .collect).2.Alike p [] t := by
  have hc := ha.collect_left hp
  exact { hc with state := { hc.state with
    log := ht.log.symm
    notices := ht.notices.symm } }

/-- What is visible of a script is what is replied to the script without collections. -/
theorem Alike.visible_steps (hp : p.Collecting) (level : Nat) (script : List Step)
    (ha : s.Alike p [] t) (ht : t.Idle) :
    visible script (steps level script s).1 =
      (steps level (script.filter fun x ↦ !x.isCollect) t).1 := by
  induction script generalizing s t with
  | nil => rfl
  | cons x rest ih =>
    by_cases hx : x = .collect
    · subst hx
      exact ih (ha.step_collect hp ht level) ht
    · have hstep := ha.step hp level hx
      have hidle := t.idle_step level x
      have hkeep : (x :: rest).filter (fun x ↦ !x.isCollect) =
          x :: rest.filter fun x ↦ !x.isCollect := by
        cases x with
        | collect => exact (hx rfl).elim
        | _ => rfl
      rw [hkeep, steps, steps]
      generalize s.step level x = r, t.step level x = r' at hstep hidle ⊢
      obtain ⟨reply, h⟩ := hstep
      exact (visible_cons hx ..).trans (congrArg (reply :: ·) (ih h hidle))

/-- Whatever the collector is set to, and whenever it collects while something is evaluated or
because a step asks for it, every other step of a session has the same answer, records the same and
notes the same as in the session that never collects. -/
theorem collections_transparent (c : Config) (collects : Moment → Nat → Accounting → Bool)
    (accounting accounting' : Accounting) (bindings : List (Text × ValueSpec)) (level : Nat)
    (script : List Step) :
    visible script
        (steps level script (start { c with collects := collects } accounting bindings)).1 =
      (steps level (script.filter fun x ↦ !x.isCollect)
        (start { c with collects := fun _ _ _ ↦ false } accounting' bindings)).1 := by
  have hp := Pairing.collecting_collecting c collects fun _ _ _ ↦ false
  have hstart := Alike.start hp accounting accounting' bindings
  exact hstart.visible_steps hp level script (idle_start _ accounting' bindings)

end Session

end EcmaTree
