import EcmaTree.Proofs.Watching

/-!
# Reached sessions

The sessions that a host can come to, whatever it does, the pauses between the statements of one
step among them. Nothing is active in such a session and its heap is sound, so that nothing that the
host can begin there sets off a watch that only asks for what follows from that.
-/

namespace EcmaTree

open Carries

/-- A program that makes a function in each turn of a loop and calls the first one after the
loop. -/
def Program.capturing (kind : DeclarationKind) : Program :=
  let i : Expr := .identifier "i" .nowhere
  let readers : Expr := .identifier "readers" .nowhere
  let reader : Expr := .function ⟨.arrow, .empty, [], .concise i, .nowhere⟩ .nowhere
  let keep : Expr :=
    .call (.member readers (.text "push" .nowhere) false .nowhere) [some reader] .nowhere
  let first : Expr := .member readers (.number (.ofNat 0) .nowhere) true .nowhere
  ⟨[.declare .const [⟨"readers", some (.array [] .nowhere)⟩] .nowhere,
    .forLoop (some (.declare kind [⟨"i", some (.number (.ofNat 0) .nowhere)⟩] .nowhere))
      (some (.binary .less i (.number (.ofNat 2) .nowhere) .nowhere))
      (some (.update .increment true i .nowhere)) (.expression keep .nowhere) .nowhere,
    .expression (.call first [] .nowhere) .nowhere], .nowhere⟩

namespace Session

/-- Sessions that a host can come to by steps, and between two statements that a step evaluates. -/
inductive Reached (c : Config) : Session → Prop where
  | start (accounting : Accounting) (bindings : List (Text × ValueSpec)) :
      Reached c (Session.start c accounting bindings)
  | step {s : Session} (level : Nat) (x : Step) (hs : Reached c s) : Reached c (s.step level x).2
  | statement {s : Session} (level : Nat) (x : Stmt) (hs : Reached c s) :
      Reached c (s.evaluate level fun r ↦ r.stmt x).2

/-- The session after statements were evaluated in it, one after the other. -/
def after (s : Session) (level : Nat) : List Stmt → Session
  | [] => s
  | x :: rest => (s.evaluate level fun r ↦ r.stmt x).2.after level rest

theorem Reached.after {c : Config} {s : Session} (hs : s.Reached c) (level : Nat)
    (body : List Stmt) : (s.after level body).Reached c := by
  induction body generalizing s with
  | nil => exact hs
  | cons x rest ih => exact ih (hs.statement level x)

/-- The state of the session passes, also with what the host makes for a call, and whatever the host
begins next is the same when it is watched: a program, a statement, or such a call. -/
structure Passes (w : Watch) (s : Session) : Prop where
  idle : w [] (refs s.holder) s.interpreter.state
  made (function : ValueSpec) (arguments : List ValueSpec) (receiver : ValueSpec) :
    let made := s.make (ValueSpec.buildCall · function arguments receiver)
    w [] (refs made.1 ++ refs made.2.holder) made.2.interpreter.state
  program (alarm : Fault) (level : Nat) (q : Program) :
    let c := s.interpreter.config
    Eval.holding (.values s.kept.values) (c.watchedProgram w alarm level q)
        s.interpreter.state =
      Eval.holding (.values s.kept.values) ((c.level level).program q) s.interpreter.state
  statement (alarm : Fault) (level : Nat) (x : Stmt) :
    let c := s.interpreter.config
    Eval.holding s.holder ((c.watched w alarm level []).stmt x) s.interpreter.state =
      Eval.holding s.holder ((c.level level).stmt x) s.interpreter.state
  call (alarm : Fault) (level : Nat) (function : ValueSpec) (arguments : List ValueSpec)
      (receiver : ValueSpec) :
    let c := s.interpreter.config
    let made := s.make (ValueSpec.buildCall · function arguments receiver)
    let x := made.1
    let t := made.2
    Eval.holding t.holder ((c.watched w alarm (level + 1) []).call x.1 x.2.1 x.2.2)
        t.interpreter.state =
      Eval.holding t.holder ((c.level level).callValue x.1 x.2.1 x.2.2) t.interpreter.state

end Session

/-- One configuration keeps its heap sound between the steps of two sessions, where nothing is
active. -/
def Pairing.keeping (c : Config) : Pairing :=
  { Pairing.same c False False False id with
    intact := True
    active := some [] }

theorem Pairing.keeping_collecting (c : Config) : (Pairing.keeping c).Collecting :=
  ⟨id, id, id, fun _ h ↦ (Option.some.inj h).symm⟩

namespace Session

variable {c : Config} {s : Session}

theorem Gives.exists_alike {p : Pairing} {α : Type} [Carries α] {r r' : α × Session}
    (h : Gives p r r') : ∃ t, r.2.Alike p [] t := by
  obtain ⟨a, h⟩ := h
  exact ⟨_, h.mono (List.nil_subset _)⟩

/-- A reached session is alike to some session, so that it has what is asked of the first of two. -/
theorem Reached.exists_alike (hs : Reached c s) : ∃ t, s.Alike (.keeping c) [] t := by
  have hp := Pairing.keeping_collecting c
  induction hs with
  | start accounting bindings => exact ⟨_, Alike.start hp accounting accounting bindings⟩
  | @step s level x _ ih =>
    obtain ⟨t, ha⟩ := ih
    by_cases hx : x = .collect
    · subst hx
      have hcollect := ha.collect_left hp
      let idle : State := { t.interpreter.state with log := [], notices := [] }
      exact ⟨t.withState idle,
        hcollect.withState { hcollect.state with log := rfl, notices := rfl }⟩
    · exact (ha.step hp level hx).exists_alike
  | statement level x _ ih =>
    obtain ⟨t, ha⟩ := ih
    exact (ha.evaluate hp level fun r r' hr _ ↦ hr.stmt (.refl _ x)).exists_alike

namespace Alike

variable {extra : List HeapRef} {t : Session} {w : Watch}

/-- The state of such a session can be compared with itself in full. -/
theorem watching_self (ha : s.Alike (.keeping c) extra t) :
    s.interpreter.state.Alike (.watching c []) (extra ++ refs s.holder) s.interpreter.state :=
  Pairing.watching_refl (ha.state.heap.sound trivial) (ha.state.accounts [] rfl)

theorem passes (ha : s.Alike (.keeping c) [] t) (hw : w.Admits c) : s.Passes w where
  idle := hw.passes ha.watching_self
  made function arguments receiver := by
    have hm := ha.make (Pairing.keeping_collecting c) fun _ _ hs ↦
      ValueSpec.buildCall_alike hs function arguments receiver
    generalize s.make (ValueSpec.buildCall · function arguments receiver) = r,
      t.make (ValueSpec.buildCall · function arguments receiver) = r' at hm ⊢
    obtain ⟨_, h⟩ := hm
    exact hw.passes h.watching_self
  program alarm level q := by
    have hkept : refs (Holder.values s.kept.values) ⊆ [] ++ refs s.holder := by
      rw [refs_holder]
      exact List.subset_append_right ..
    dsimp only
    rw [ha.left]
    exact Eval.Alike.holding_eq (hw.program level q) hkept ha.watching_self
  statement alarm level x := by
    dsimp only
    rw [ha.left]
    exact Eval.Alike.holding_eq ((hw.level_watched level []).stmt (.refl _ x))
      (List.Subset.refl _) ha.watching_self
  call alarm level function arguments receiver := by
    have hm := ha.make (Pairing.keeping_collecting c) fun _ _ hs ↦
      ValueSpec.buildCall_alike hs function arguments receiver
    dsimp only
    rw [ha.left]
    generalize s.make (ValueSpec.buildCall · function arguments receiver) = r,
      t.make (ValueSpec.buildCall · function arguments receiver) = r' at hm ⊢
    obtain @⟨⟨callee, args, this⟩, u, v, h⟩ := hm
    have hlevel : (c.level (level + 1)).Alike (.watching c []) (c.watched w alarm (level + 1) []) :=
      hw.level_watched (level + 1) []
    have hcall : Eval.Alike (.watching c []) (refs (callee, args, this) ++ refs u.holder) []
        ((c.level level).callValue callee args this)
        ((c.watched w alarm (level + 1) []).call callee args this) := by
      rw [← Config.call_succ]
      exact hlevel.call (by grind) (by grind) (by grind)
    exact Eval.Alike.holding_eq hcall (List.subset_append_right _ _) h.watching_self

end Alike

end Session

end EcmaTree
