import EcmaTree.Proofs.Alike.Calls

/-!
# Alike loops

Loops are alike if their rounds are. A loop that may run for more rounds in the second evaluation is
alike to one that is cut short in the first.
-/

namespace EcmaTree

open Carries

namespace Eval.Alike

variable {p : Pairing} {kept : List HeapRef}

theorem iterate {σ β : Type} [Carries σ] [Carries β] {round round' : σ → Eval (Round σ β)}
    (hround : ∀ x {kept : List HeapRef}, refs x ⊆ kept → Alike p kept [] (round x) (round' x))
    {n n' : Nat} (hn : n = n' ∨ p.short ∧ n ≤ n') (x : σ) (hx : refs x ⊆ kept) :
    Alike p kept [] (Eval.iterate round n x) (Eval.iterate round' n' x) := by
  induction n generalizing n' x kept with
  | zero =>
    rcases hn with rfl | ⟨hp, _⟩
    · exact exhaust
    · exact exhaust_short hp _
  | succ n ih =>
    obtain ⟨m, rfl⟩ : ∃ m, n' = m + 1 := ⟨n' - 1, by omega⟩
    refine bind (hround x hx) fun result _ ↦ ?_
    cases result with
    | again y => exact ih (hn.imp Nat.succ.inj (And.imp_right Nat.le_of_succ_le_succ)) y (by grind)
    | «over» b => exact finish (by grind)

/-- The copy of a frame refers to nothing but what the frame does. -/
theorem enterSibling : Alike p kept kept Evaluator.enterSibling Evaluator.enterSibling := by
  intro s t h
  obtain ⟨hid, hh⟩ := h.heap.newSibling s.frame State.reachable_frame
  have ht : t.heap.newSibling s.frame = t.heap.newSibling t.frame := by rw [h.frame]
  rw [ht] at hid hh
  rw [Evaluator.enterSibling, Evaluator.enterSibling]
  simp only [← hid]
  refine .done () { h with heap := hh.shrink fun x hx ↦ .root ?_, frame := rfl } rfl
  simp only [State.roots, State.owners, refs_unit, List.nil_append] at hx ⊢
  grind

end Eval.Alike

/-- A statement that can have a completion, and one like it, declare alike. -/
theorem Stmt.Alike.hasOwnVariables_eq {free : Prop} {s s' : Stmt} (hs : s.Alike free s')
    (h : ∀ type span, s ≠ .unsupported type span) :
    Evaluator.hasOwnVariables (some s) = Evaluator.hasOwnVariables (some s') := by
  cases hs with
  | unsupported => exact (h _ _ rfl).elim
  | declare kind => cases kind <;> rfl
  | _ => rfl

namespace Evaluator.Alike

open Eval.Alike

variable {p : Pairing} {r r' : Evaluator} {kept : List HeapRef} {e e' : Expr} {s s' : Stmt}
  {labels : List Text}

theorem scopedStatements (hr : r.Alike p r') {body body' : List Stmt}
    (hbody : List.Forall₂ (Stmt.Alike p.free) body body') :
    Eval.Alike p kept [] (r.scopedStatements body) (r'.scopedStatements body') :=
  inChild (hr.statements hbody none (List.nil_subset _))

theorem loopBody (hr : r.Alike p r') (hs : s.Alike p.free s') :
    Eval.Alike p kept [] (r.loopBody s) (r'.loopBody s') := by
  have hplain : Eval.Alike p kept []
      (Eval.inChild do
        let c ← r.stmt s
        if c.isAbrupt then Eval.setSignal c
        return c)
      (Eval.inChild do
        let c ← r'.stmt s'
        if c.isAbrupt then Eval.setSignal c
        return c) := by
    refine inChild (bind (hr.stmt hs) fun c _ ↦ ?_)
    dsimp only
    split
    · exact bind (setSignal (by grind)) fun _ _ ↦ finish (by grind)
    · exact bind skip fun _ _ ↦ finish (by grind)
  cases hs with
  | unsupported hs =>
    rcases hs with hp | rfl
    · exact of_stops hp ((hr.stmt_stops _ _).bind _).inChild _
    · exact hplain
  | block span hss => exact hr.scopedStatements hss
  | _ => exact hplain

theorem refs_loopValue (c : Completion) (last : Option Value) :
    refs (c.loopValue last) ⊆ refs c ++ refs last := by
  unfold Completion.loopValue
  split
  · exact List.subset_append_left ..
  · exact List.subset_append_right ..

theorem loopRound (hr : r.Alike p r') (hs : s.Alike p.free s') (labels : List Text)
    {last : Option Value}
    {next next' : Option Value → Eval (Round (Option Value) Completion)}
    (hnext : ∀ value {kept : List HeapRef}, refs value ⊆ kept →
      Eval.Alike p kept [] (next value) (next' value))
    (hlast : refs last ⊆ kept) :
    Eval.Alike p kept [] (r.loopRound s labels last next) (r'.loopRound s' labels last next') := by
  refine bind (holding (hr.loopBody hs) (by grind)) fun c _ ↦ ?_
  have hvalue := refs_loopValue c last
  dsimp only
  split
  · exact hnext _ (by grind)
  · exact finish (by grind)
  · exact finish (by grind)

theorem whileLoop (hr : r.Alike p r') (he : e.Alike p.free e') (hs : s.Alike p.free s')
    (labels : List Text) :
    Eval.Alike p kept [] (r.whileLoop e s labels) (r'.whileLoop e' s' labels) := by
  refine iterate (fun last k hlast ↦ ?_) hr.rounds none (List.nil_subset _)
  refine bind (holding (hr.expr he) (by grind)) fun goesOn _ ↦ ?_
  split
  · exact hr.loopRound hs labels (fun value k hvalue ↦ finish (by grind)) (by grind)
  · exact finish (by grind)

theorem doWhileLoop (hr : r.Alike p r') (hs : s.Alike p.free s') (he : e.Alike p.free e')
    (labels : List Text) :
    Eval.Alike p kept [] (r.doWhileLoop s e labels) (r'.doWhileLoop s' e' labels) := by
  refine iterate (fun last k hlast ↦ hr.loopRound hs labels (fun value k hvalue ↦ ?_) hlast)
    hr.rounds none (List.nil_subset _)
  refine bind (holding (hr.expr he) (by grind)) fun goesOn _ ↦ ?_
  split <;> exact finish (by grind)

theorem forTest (hr : r.Alike p r') {test test' : Option Expr}
    (ht : Option.Rel (Expr.Alike p.free) test test') (last : Option Value)
    (hlast : refs last ⊆ kept) :
    Eval.Alike p kept (refs last) (r.forTest test last) (r'.forTest test' last) := by
  cases ht with
  | none => exact pure (List.nil_subset _) hlast
  | some he =>
    exact mono_right (map (holding (hr.expr he) (by grind)) fun _ ↦ List.nil_subset _) (by grind)

theorem forStep (hr : r.Alike p r') (own : Bool) {update update' : Option Expr}
    (hu : Option.Rel (Expr.Alike p.free) update update') (value : Option Value)
    (hvalue : refs value ⊆ kept) :
    Eval.Alike p kept [] (r.forStep own update value) (r'.forStep own update' value) := by
  have hstep : Eval.Alike p kept [] (r.forStep false update value)
      (r'.forStep false update' value) := by
    cases hu with
    | none => exact finish (by grind)
    | some he => exact bind (holding (hr.expr he) (by grind)) fun _ _ ↦ finish (by grind)
  cases own with
  | false => exact hstep
  | true => exact bind Eval.Alike.enterSibling fun _ _ ↦ hstep

theorem forRounds (hr : r.Alike p r') (own : Bool) {test test' update update' : Option Expr}
    (ht : Option.Rel (Expr.Alike p.free) test test')
    (hu : Option.Rel (Expr.Alike p.free) update update') (hs : s.Alike p.free s')
    (labels : List Text) :
    Eval.Alike p kept [] (r.forRounds own test update s labels)
      (r'.forRounds own test' update' s' labels) := by
  refine iterate (fun last k hlast ↦ bind (hr.forTest ht last hlast) fun goesOn _ ↦ ?_)
    hr.rounds none (List.nil_subset _)
  cases goesOn with
  | true =>
    exact hr.loopRound hs labels (fun value k hvalue ↦ hr.forStep own hu value hvalue) (by grind)
  | false => exact finish (by grind)

theorem forLoop (hr : r.Alike p r') {init init' : Option Stmt}
    {test test' update update' : Option Expr} (hi : Option.Rel (Stmt.Alike p.free) init init')
    (ht : Option.Rel (Expr.Alike p.free) test test')
    (hu : Option.Rel (Expr.Alike p.free) update update') (hs : s.Alike p.free s')
    (labels : List Text) :
    Eval.Alike p kept [] (r.forLoop init test update s labels)
      (r'.forLoop init' test' update' s' labels) := by
  refine inChild ?_
  cases hi with
  | none => exact hr.forRounds false ht hu hs labels
  | @some i i' hi =>
    refine bind (hr.stmt hi) fun c hc ↦ ?_
    have hown := hi.hasOwnVariables_eq fun type span h ↦
      (hr.stmt_stops type span).not_yields (h ▸ hc)
    rw [← hown]
    cases hasOwnVariables (some i) with
    | true => exact bind Eval.Alike.enterSibling fun _ _ ↦ hr.forRounds true ht hu hs labels
    | false => exact hr.forRounds false ht hu hs labels

end Evaluator.Alike

end EcmaTree
