import EcmaTree.Proofs.Estree.Loading
import EcmaTree.Proofs.Estree.Normality
import EcmaTree.Session.Interpreter

/-!
# Loading undoes encoding

A program whose nodes are expressible is loaded back from the text of its document, with all its
spans. So to run what was loaded is to run the program itself.
-/

namespace EcmaTree

open Estree

namespace Estree

/-- A part all of which is expressible is read back on every height. -/
theorem loader_knows {x : Part} (hx : x.Every Part.Expressible) (n : Nat) : (loader n).Knows x := by
  induction x using Part.inside_wf.induction generalizing n with
  | _ x ih =>
    have hparts (n : Nat) (y : Part) (hy : y.Inside x) : (loader n).Knows y ∧ y.Expressible :=
      ⟨ih y hy ⟨hx.2 y hy, fun z hz ↦ hx.2 z (hz.trans hy)⟩ n, hx.2 y hy⟩
    cases x with
    | expr e =>
      obtain ⟨fields, hencode⟩ := e.exists_encode_eq
      refine ⟨_, hencode, fun node hnode ↦ ?_⟩
      cases n with
      | zero => exact absurd node.height_lt (Nat.not_lt_zero _)
      | succ n =>
        exact Loader.expressionStep_eq hx.1 (hparts n) (hencode.trans (hnode ▸ rfl))
    | stmt s =>
      obtain ⟨fields, hencode⟩ := s.exists_encode_eq
      refine ⟨_, hencode, fun node hnode ↦ ?_⟩
      cases n with
      | zero => exact absurd node.height_lt (Nat.not_lt_zero _)
      | succ n =>
        exact Loader.statementStep_eq hx.1 (hparts n) (hencode.trans (hnode ▸ rfl))
    | function => trivial

end Estree

/-- A program is read back from its document. -/
theorem Program.ofJson_encode {p : Program} (hp : p.Expressible) : ofJson p.encode = .ok p := by
  obtain ⟨body, span⟩ := p
  obtain ⟨root, hroot, hm⟩ : ∃ root,
      Fragment.asNode ⟨encode ⟨body, span⟩, Nat.le_refl _⟩ "program" .nowhere = .ok root ∧
        root.members = nodeMembers programType span [("body", .array (Stmt.encodeAll body))] :=
    ⟨_, rfl, rfl⟩
  have hspan := Node.span_of_members hm
  have hread : (loader _).statementsIn root "body" = .ok body :=
    Loader.statementsIn_eq (by simp [hm]) hspan fun s hs ↦ loader_knows (hp s hs) _
  simp only [ofJson, hroot, Node.type_of_members hm, hspan, hread, ok_bind, beq_self_eq_true,
    if_true]
  rfl

/-- A program that is expressible is loaded from the text of its document, so what was loaded runs
as the program itself does. -/
theorem Program.load_render_encode {p : Program} (hp : p.Expressible) :
    load p.encode.render = .ok p ∧
      ∀ (i : Interpreter) (level : Nat) (held : List Value),
        (load p.encode.render).map (i.run level · held) = .ok (i.run level p held) := by
  have hload : load p.encode.render = .ok p := by
    rw [load, Json.parse_render (isNormal_encode hp)]
    exact ofJson_encode hp
  exact ⟨hload, fun i level held ↦ by rw [hload]; rfl⟩

/-- A loop over a local function, with a key in an object literal and one after a dot. -/
def Program.counting : Program where
  body := [.function ⟨.declaration, "f", ["o"], .statements
      [.forLoop
        (some (.expression (.assign .assign (.identifier "i" ⟨20, 21⟩) (.number (.ofNat 3) ⟨24, 25⟩)
          ⟨20, 25⟩) ⟨20, 25⟩))
        none
        (some (.member (.identifier "o" ⟨29, 30⟩) (.text "n" ⟨31, 32⟩) false ⟨29, 32⟩))
        (.guarded [.breaking none ⟨36, 42⟩] (some ⟨some "e", []⟩) none ⟨34, 58⟩) ⟨15, 60⟩],
      ⟨0, 62⟩⟩ ⟨0, 62⟩,
    .returned (some (.object
      [⟨some (.text "n" ⟨72, 75⟩),
        .function ⟨.arrow, "", [], .concise (.receiver ⟨83, 87⟩), ⟨77, 87⟩⟩ ⟨77, 87⟩, false⟩]
      ⟨70, 89⟩)) ⟨63, 90⟩]
  span := ⟨0, 90⟩

theorem Program.load_render_encode_counting :
    counting.Expressible ∧ load counting.encode.render = .ok counting ∧
      ∀ (i : Interpreter) (level : Nat) (held : List Value),
        (load counting.encode.render).map (i.run level · held) =
          .ok (i.run level counting held) := by
  have hp : counting.Expressible := by
    obtain ⟨hfinite, hzero, -⟩ := Number.ofNat_spec (n := 3) (by decide)
    simp [counting, Expressible, Part.every_iff_forall, Part.parts, Part.ofStmt, Part.ofExpr,
      Part.ofBody, Part.ofOption, Part.all, Part.Expressible, Expr.IsText, Stmt.Initializes,
      Property.IsKeyed, Expr.span, hfinite, hzero]
  exact ⟨hp, load_render_encode hp⟩

end EcmaTree
