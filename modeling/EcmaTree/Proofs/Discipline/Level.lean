import EcmaTree.Evaluation.Level
import EcmaTree.Proofs.Discipline.Statements

/-!
# Disciplines on all levels

A level observes a discipline for a node if the level below it does so for everything inside the
node, and for the code that is called from there. A discipline that allows for exhaustion is
observed on every level.
-/

namespace EcmaTree.Discipline

variable {c : Config} {d : Discipline c} {depth n : Nat} {x y : Part}

theorem accepts_inside (hx : d.Accepts x) (hy : y.Inside x) : d.Accepts y := by
  induction hy using Relation.TransGen.head_induction_on with
  | single hy => exact d.accepts_part hx hy
  | head hy _ ih => exact d.accepts_part ih hy

/-- What a level has to observe one call deeper, for calls to observe the discipline. -/
structure Below (d : Discipline c) (depth n : Nat) : Prop where
  call : d.Calls (depth + 1) (c.level n)
  code {code : FunctionNode} (hc : d.Accepts (.function code)) {y : Part}
    (hy : y ∈ (Part.function code).parts) : d.Serves (depth + 1) (c.level n) y
  stray {code : FunctionNode} (hc : d.Accepts (.function code)) {body : List Stmt}
    (hb : code.body = .statements body) :
    d.Contains ((c.level n).statements body none) code.span

namespace Below

theorem callFunction (h : depth < c.maxDepth → d.Below depth n) (f : FunctionRef)
    (args : List Value) (receiver : Value) (site : Span) :
    d.Allows depth .still ((c.level n).callFunction f args receiver site) := by
  have hr : (c.level n).config = c := rfl
  refine Allows.callFunction hr (fun f args receiver hlt ↦ ?_) f args receiver site
  have hb := h hlt
  exact Allows.apply hr hb.call (fun code hc ↦ .body (fun y hy ↦ hb.code hc hy)
    fun body heq ↦ hb.stray hc heq) f args receiver

theorem calls (h : depth < c.maxDepth → d.Below depth n) : d.Calls depth (c.level (n + 1)) := by
  intro f args receiver
  have hcall := Allows.callValue (callFunction h) f args receiver
  rwa [← c.call_succ] at hcall

theorem serves (h : depth < c.maxDepth → d.Below depth n) (hx : d.Accepts x)
    (hin : ∀ y, y.Inside x → d.Serves depth (c.level n) y) :
    d.Serves depth (c.level (n + 1)) x := by
  have hw : d.Within depth (c.level n) x := ⟨rfl, hx, hin, callFunction h⟩
  cases x with
  | expr e =>
    have he := hw.exprStep (k := .still)
    rwa [← c.expr_succ] at he
  | stmt s =>
    have hs := hw.stmtStep
    rwa [← c.stmt_succ] at hs
  | function => trivial

end Below

/-- On every level evaluations observe a discipline that allows for exhaustion, and that allows for
the faults of the breaks and continues which leave the code it accepts. -/
theorem level (hx : d.Exhausts)
    (hstray : ∀ n code, d.Accepts (.function code) → ∀ body, code.body = .statements body →
      d.Contains ((c.level n).statements body none) code.span) (n : Nat) :
    ∀ depth, (∀ x, d.Accepts x → d.Serves depth (c.level n) x) ∧ d.Calls depth (c.level n) := by
  induction n with
  | zero =>
    refine fun depth ↦ ⟨fun x _ ↦ ?_, fun f args receiver ↦ ?_⟩
    · cases x with
      | expr e => exact (c.expr_zero e ▸ .exhaust hx : d.Allows depth .still (c.expr 0 e))
      | stmt s => exact (c.stmt_zero s ▸ .exhaust hx : d.Allows depth s.conduct (c.stmt 0 s))
      | function => trivial
    · exact (c.call_zero f args receiver ▸ .exhaust hx :
        d.Allows depth .still (c.call 0 f args receiver))
  | succ n ih =>
    have hbelow (depth : Nat) : d.Below depth n :=
      ⟨(ih (depth + 1)).2, fun hc _ hy ↦ (ih (depth + 1)).1 _ (d.accepts_part hc hy),
        fun hc _ hb ↦ hstray n _ hc _ hb⟩
    refine fun depth ↦ ⟨fun x hx ↦ ?_, Below.calls fun _ ↦ hbelow depth⟩
    exact Below.serves (fun _ ↦ hbelow depth) hx fun y hy ↦ (ih depth).1 y (accepts_inside hx hy)

end EcmaTree.Discipline
