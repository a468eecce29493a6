import EcmaTree.Evaluation.Level
import EcmaTree.Evaluation.Programs
import EcmaTree.Proofs.Alike.Statements

/-!
# Alike levels

The levels of two configurations are alike, by induction on the level: below level 0 both are
exhausted, and each level is alike if the one below it is. So are the programs that run on them.
-/

namespace EcmaTree

open Carries Eval.Alike

namespace Config

variable (c : Config)

/-- No level gets past an unsupported expression. -/
theorem expr_unsupported_stops (n : Nat) (type : Text) (span : Span) :
    (c.expr n (.unsupported type span)).Stops := by
  cases n with
  | zero =>
    rw [expr_zero]
    exact fun s ↦ .inr ⟨s, rfl⟩
  | succ n =>
    rw [expr_succ]
    exact Eval.stops_structural _ _

/-- No level gets past an unsupported statement. -/
theorem stmt_unsupported_stops (n : Nat) (type : Text) (span : Span) :
    (c.stmt n (.unsupported type span)).Stops := by
  cases n with
  | zero =>
    rw [stmt_zero]
    exact fun s ↦ .inr ⟨s, rfl⟩
  | succ n =>
    rw [stmt_succ]
    exact Eval.stops_structural _ _

/-- An expression with a value is not unsupported, nor is a member on the path to it. -/
theorem resolved_of_yields (n : Nat) :
    ∀ {e : Expr} {v : Value}, (c.expr n e).Yields v → e.Resolved := by
  induction n with
  | zero =>
    intro e v ⟨s, t, h⟩
    rw [expr_zero] at h
    cases h
  | succ n ih =>
    intro e v h
    cases e with
    | unsupported type span => exact (c.expr_unsupported_stops (n + 1) type span).not_yields h
    | member object property computed span =>
      rw [expr_succ] at h
      obtain ⟨_, hobject, h⟩ := h.of_bind
      obtain ⟨_, hproperty, _⟩ := h.of_bind
      exact ⟨ih hobject, ih hproperty.of_holding⟩
    | _ => trivial

end Config

variable {p : Pairing}

/-- Levels are alike, if they are the same level, or the second may be a higher one. -/
theorem Pairing.level_alike (p : Pairing) {n n' : Nat} (hn : n = n' ∨ p.short ∧ n ≤ n') :
    (p.left.level n).Alike p (p.right.level n') := by
  induction n generalizing p n' with
  | zero =>
    have hzero {α : Type} [Carries α] {kept : List HeapRef} {m m' : Eval α}
        (hm : m = Eval.exhaust) (hm' : n' = 0 → m' = Eval.exhaust) :
        Eval.Alike p kept [] m m' := by
      subst hm
      rcases hn with rfl | ⟨hp, _⟩
      · rw [hm' rfl]
        exact exhaust
      · exact exhaust_short hp m'
    exact {
      left := rfl
      right := rfl
      rounds := hn
      expr := fun {e e'} _ _ ↦ hzero (p.left.expr_zero e) fun h ↦ h ▸ p.right.expr_zero e'
      stmt := fun {s s'} _ _ ↦ hzero (p.left.stmt_zero s) fun h ↦ h ▸ p.right.stmt_zero s'
      call := fun {f this args} _ _ _ _ ↦
        hzero (p.left.call_zero f args this) fun h ↦ h ▸ p.right.call_zero f args this
      resolved := p.left.resolved_of_yields 0
      expr_stops := p.left.expr_unsupported_stops 0
      stmt_stops := p.left.stmt_unsupported_stops 0 }
  | succ n ih =>
    obtain ⟨m, rfl⟩ : ∃ m, n' = m + 1 := ⟨n' - 1, by omega⟩
    have hm : n = m ∨ p.short ∧ n ≤ m :=
      hn.imp Nat.succ.inj (And.imp_right Nat.le_of_succ_le_succ)
    have hr := ih p hm
    have hin (a : Activation) : (p.left.level n).Alike (p.entered a) (p.right.level m) :=
      ih (p.entered a) hm
    exact {
      left := rfl
      right := rfl
      rounds := hn
      expr := fun {e e'} _ he ↦ by
        change Eval.Alike p _ _ (p.left.expr (n + 1) e) (p.right.expr (m + 1) e')
        rw [Config.expr_succ, Config.expr_succ]
        exact hr.exprStep hin he
      stmt := fun {s s'} _ hs ↦ by
        change Eval.Alike p _ _ (p.left.stmt (n + 1) s) (p.right.stmt (m + 1) s')
        rw [Config.stmt_succ, Config.stmt_succ]
        exact hr.stmtStep hs
      call := fun {f this args} _ hf hargs hthis ↦ by
        change Eval.Alike p _ _ (p.left.call (n + 1) f args this) (p.right.call (m + 1) f args this)
        rw [Config.call_succ, Config.call_succ]
        exact hr.callValue hin f hf hargs hthis
      resolved := p.left.resolved_of_yields (n + 1)
      expr_stops := p.left.expr_unsupported_stops (n + 1)
      stmt_stops := p.left.stmt_unsupported_stops (n + 1) }

/-- A statement that can have a completion has the span of one like it. -/
theorem Stmt.Alike.span_eq {free : Prop} {s s' : Stmt} (hs : s.Alike free s')
    (h : ∀ type span, s ≠ .unsupported type span) : s.span = s'.span := by
  cases hs with
  | unsupported => exact (h _ _ rfl).elim
  | _ => rfl

namespace Evaluator.Alike

variable {r r' : Evaluator} {kept : List HeapRef}

theorem programStatements (hr : r.Alike p r') {body body' : List Stmt}
    (hbody : List.Forall₂ (Stmt.Alike p.free) body body') (last : Value)
    (hlast : refs last ⊆ kept) :
    Eval.Alike p kept [] (r.programStatements body last) (r'.programStatements body' last) := by
  induction hbody generalizing last kept with
  | nil => exact finish hlast
  | @cons s s' _ _ hs _ ih =>
    refine bind (holding (hr.stmt hs) (by grind)) fun c hc ↦ ?_
    have hspan := hs.span_eq fun type span h ↦
      (hr.stmt_stops type span).not_yields (h ▸ hc.of_holding)
    cases c with
    | normal value => cases value with
      | none => exact ih _ (by grind)
      | some v => exact ih _ (by grind)
    | returned v => exact finish (by grind)
    | broke label | continued label =>
      rw [hspan]
      exact structural _ _

/-- A program is run alike by what is alike inside of it, where nothing else is active. -/
theorem program {q q' : Program} (hq : q.Alike p.free q')
    (hidle : ∀ active ∈ p.active, active = [])
    (hr : r.Alike (p.entered (.program (p.left.callFrame programName q.span))) r') :
    Eval.Alike p kept [] (r.program q) (r'.program q') := by
  have hentry : p.right.callFrame programName q'.span = p.left.callFrame programName q.span := by
    rw [Config.callFrame, Config.callFrame, p.source_eq, hq.span]
  have hleft : r.config = p.left := hr.left
  have hright : r'.config = p.right := hr.right
  rw [Evaluator.program, Evaluator.program, hleft, hright, hentry]
  exact inChild (withCallFrame _ hidle
    (hr.programStatements hq.body .undefined (List.nil_subset _)))

end Evaluator.Alike

end EcmaTree
