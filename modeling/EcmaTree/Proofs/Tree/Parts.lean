import EcmaTree.Syntax.Tree
import Mathlib.Data.List.Basic
import Mathlib.Logic.Relation

/-!
# Parts of trees

Expressions, statements and functions with the nodes right below them. What holds of a node and of
everything inside it is inherited by its parts; what is inside a function is evaluated when the
function is called, and everything else together with the node.
-/

namespace EcmaTree

/-- A node that can be evaluated, or a function that can be made. -/
inductive Part where
  | expr (e : Expr)
  | stmt (s : Stmt)
  | function (code : FunctionNode)

/-- The statements that run their body again and again. -/
def Stmt.isLoop : Stmt → Bool
  | .whileLoop .. | .doWhileLoop .. | .forLoop .. => true
  | _ => false

namespace Part

/-- The expressions of a list in which some may be absent. -/
def present (es : List (Option Expr)) : List Part := es.filterMap (·.map expr)

/-- The optional expression, if it is there. -/
def ofOption (e : Option Expr) : List Part := (e.map expr).toList

/-- The statements of a list. -/
def all (body : List Stmt) : List Part := body.map stmt

/-- The parts of an expression. -/
def ofExpr : Expr → List Part
  | .identifier .. | .number .. | .text .. | .bool .. | .null _ | .receiver _
  | .unsupported .. => []
  | .binary _ left right _ | .logical _ left right _ | .assign _ left right _
  | .member left right _ _ => [expr left, expr right]
  | .unary _ operand _ | .update _ _ operand _ => [expr operand]
  | .call callee arguments _ => expr callee :: present arguments
  | .conditional test consequent alternate _ => [expr test, expr consequent, expr alternate]
  | .array items _ | .sequence items _ => present items
  | .object properties _ => properties.flatMap fun p ↦ ofOption p.key ++ [expr p.value]
  | .function code _ => [function code]

/-- The parts of a statement. -/
def ofStmt : Stmt → List Part
  | .empty _ | .breaking .. | .continuing .. | .unsupported .. => []
  | .declare _ declarators _ => declarators.flatMap fun d ↦ ofOption d.init
  | .function code _ => [function code]
  | .returned argument _ => ofOption argument
  | .expression value _ | .throwing value _ => [expr value]
  | .block body _ => all body
  | .conditional test consequent alternate _ => expr test :: stmt consequent :: all alternate.toList
  | .whileLoop test body _ | .doWhileLoop body test _ => [expr test, stmt body]
  | .forLoop init test update body _ =>
    all init.toList ++ ofOption test ++ ofOption update ++ [stmt body]
  | .switch discriminant cases _ =>
    expr discriminant :: cases.flatMap fun c ↦ ofOption c.test ++ all c.body
  | .labeled _ body _ => [stmt body]
  | .guarded block handler finalizer _ =>
    all block ++ (handler.toList.flatMap fun h ↦ all h.body) ++ all (finalizer.getD [])

/-- The parts of the body of a function. -/
def ofBody : FunctionBody → List Part
  | .statements body => all body
  | .concise result => [expr result]

/-- The nodes right below a node. -/
def parts : Part → List Part
  | expr e => ofExpr e
  | stmt s => ofStmt s
  | function code => ofBody code.body

/-- Every argument of a call is there, and every item of a sequence. -/
def HasItems : Part → Prop
  | expr (.call _ arguments _) => none ∉ arguments
  | expr (.sequence items _) => none ∉ items
  | _ => True

/-- The first node lies inside the second one. -/
def Inside : Part → Part → Prop := Relation.TransGen fun x y ↦ x ∈ y.parts

/-- A property of a node and of everything inside it. -/
def Every (P : Part → Prop) (x : Part) : Prop := P x ∧ ∀ y, y.Inside x → P y

/-! ### Where parts come from -/

@[simp] theorem expr_mem_present {e : Expr} {es : List (Option Expr)} :
    expr e ∈ present es ↔ some e ∈ es := by
  simp [present, List.mem_filterMap]

@[simp] theorem expr_mem_ofOption {e : Expr} {o : Option Expr} :
    expr e ∈ ofOption o ↔ o = some e := by
  cases o <;> simp [ofOption, eq_comm]

@[simp] theorem stmt_mem_all {s : Stmt} {body : List Stmt} : stmt s ∈ all body ↔ s ∈ body := by
  simp [all]

@[simp] theorem stmt_not_mem_ofOption {s : Stmt} {o : Option Expr} : stmt s ∉ ofOption o := by
  cases o <;> simp [ofOption]

@[simp] theorem expr_not_mem_all {e : Expr} {body : List Stmt} : expr e ∉ all body := by
  simp [all]

/-! ### What is inherited -/

section Every

variable {P : Part → Prop} {x y : Part}

theorem Every.of_mem (h : x.Every P) (hy : y ∈ x.parts) : y.Every P :=
  ⟨h.2 y (.single hy), fun z hz ↦ h.2 z (hz.tail hy)⟩

theorem Every.imp {Q : Part → Prop} (h : x.Every P) (hPQ : ∀ y, P y → Q y) : x.Every Q :=
  ⟨hPQ x h.1, fun y hy ↦ hPQ y (h.2 y hy)⟩

/-- A property is inherited exactly through the parts. -/
theorem every_iff : x.Every P ↔ P x ∧ ∀ y ∈ x.parts, y.Every P := by
  constructor
  · exact fun h ↦ ⟨h.1, fun y hy ↦ h.of_mem hy⟩
  · rintro ⟨hx, hparts⟩
    refine ⟨hx, fun z hz ↦ ?_⟩
    -- the last step into the node goes through one of its parts
    cases hz with
    | single hz => exact (hparts z hz).1
    | tail hz hy => exact (hparts _ hy).2 z hz

/-- The same for a node that is given, whose parts can be listed. -/
theorem every_iff_forall : x.Every P ↔ P x ∧ x.parts.Forall (Every P) := by
  rw [every_iff, List.forall_iff_forall_mem]

end Every

/-! ### Sizes -/

theorem sizeOf_lt_of_mem_present {x : Part} {es : List (Option Expr)} (h : x ∈ present es) :
    sizeOf x < sizeOf es := by
  obtain ⟨o, ho, hx⟩ := List.mem_filterMap.mp h
  obtain ⟨e, rfl, rfl⟩ := Option.map_eq_some_iff.mp hx
  have := List.sizeOf_lt_of_mem ho
  simpa using this

theorem sizeOf_lt_of_mem_ofOption {x : Part} {o : Option Expr} (h : x ∈ ofOption o) :
    sizeOf x < 1 + sizeOf o := by
  obtain ⟨e, rfl, rfl⟩ := Option.map_eq_some_iff.mp (Option.mem_toList.mp h)
  simp

theorem sizeOf_lt_of_mem_all {x : Part} {body : List Stmt} (h : x ∈ all body) :
    sizeOf x < 1 + sizeOf body := by
  obtain ⟨s, hs, rfl⟩ := List.mem_map.mp h
  have := List.sizeOf_lt_of_mem hs
  simpa using this

theorem sizeOf_lt_of_mem_ofExpr {y : Part} {e : Expr} (h : y ∈ ofExpr e) :
    sizeOf y < 1 + sizeOf e := by
  cases e with
  | identifier | number | text | bool | null | receiver | unsupported => cases h
  | binary | logical | assign | member | conditional =>
    simp only [ofExpr, List.mem_cons, List.not_mem_nil, or_false] at h
    rcases h with rfl | rfl | rfl <;> simp <;> omega
  | unary | update | function =>
    obtain rfl := List.mem_singleton.mp h
    simp
    omega
  | call callee arguments =>
    rcases List.mem_cons.mp h with rfl | h
    · simp
      omega
    · have := sizeOf_lt_of_mem_present h
      simp
      omega
  | array | sequence =>
    have := sizeOf_lt_of_mem_present h
    simp
    omega
  | object properties =>
    obtain ⟨p, hp, hy⟩ := List.mem_flatMap.mp h
    have hp := List.sizeOf_lt_of_mem hp
    obtain ⟨key, value, computed⟩ := p
    simp at hp ⊢
    rcases List.mem_append.mp hy with hy | hy
    · have := sizeOf_lt_of_mem_ofOption hy
      simp at this
      omega
    · obtain rfl := List.mem_singleton.mp hy
      simp
      omega

theorem sizeOf_lt_of_mem_ofStmt {y : Part} {s : Stmt} (h : y ∈ ofStmt s) :
    sizeOf y < 1 + sizeOf s := by
  cases s with
  | empty | breaking | continuing | unsupported => cases h
  | declare kind declarators =>
    obtain ⟨d, hd, hy⟩ := List.mem_flatMap.mp h
    have hd := List.sizeOf_lt_of_mem hd
    have hy := sizeOf_lt_of_mem_ofOption hy
    obtain ⟨name, init⟩ := d
    simp at hd hy ⊢
    omega
  | returned =>
    have := sizeOf_lt_of_mem_ofOption h
    simp
    omega
  | function | expression | throwing | labeled =>
    obtain rfl := List.mem_singleton.mp h
    simp
    omega
  | block =>
    have := sizeOf_lt_of_mem_all h
    simp
    omega
  | conditional test consequent alternate =>
    simp only [ofStmt, List.mem_cons] at h
    rcases h with rfl | rfl | h
    · simp
      omega
    · simp
      omega
    · obtain ⟨s, rfl, rfl⟩ := by simpa [all] using h
      simp
      omega
  | whileLoop | doWhileLoop =>
    simp only [ofStmt, List.mem_cons, List.not_mem_nil, or_false] at h
    rcases h with rfl | rfl <;> simp <;> omega
  | forLoop init test update body =>
    simp only [ofStmt, List.mem_append, List.mem_singleton] at h
    rcases h with ((h | h) | h) | rfl
    · obtain ⟨s, rfl, rfl⟩ := by simpa [all] using h
      simp
      omega
    · have := sizeOf_lt_of_mem_ofOption h
      simp
      omega
    · have := sizeOf_lt_of_mem_ofOption h
      simp
      omega
    · simp
      omega
  | switch discriminant cases =>
    rcases List.mem_cons.mp h with rfl | h
    · simp
      omega
    · obtain ⟨c, hc, hy⟩ := List.mem_flatMap.mp h
      have hc := List.sizeOf_lt_of_mem hc
      obtain ⟨test, body⟩ := c
      simp at hc ⊢
      rcases List.mem_append.mp hy with hy | hy
      · have := sizeOf_lt_of_mem_ofOption hy
        simp at this
        omega
      · have := sizeOf_lt_of_mem_all hy
        simp at this
        omega
  | guarded block handler finalizer =>
    simp only [ofStmt, List.mem_append] at h
    rcases h with (h | h) | h
    · have := sizeOf_lt_of_mem_all h
      simp
      omega
    · obtain ⟨c, hc, hy⟩ := List.mem_flatMap.mp h
      obtain rfl := Option.mem_toList.mp hc
      obtain ⟨param, body⟩ := c
      have := sizeOf_lt_of_mem_all hy
      simp at this ⊢
      omega
    · cases finalizer with
      | none => cases h
      | some body =>
        have := sizeOf_lt_of_mem_all h
        simp at this ⊢
        omega

/-- A node is larger than its parts. -/
theorem sizeOf_lt_of_mem_parts {x y : Part} (h : y ∈ x.parts) : sizeOf y < sizeOf x := by
  cases x with
  | expr e => exact sizeOf_lt_of_mem_ofExpr h
  | stmt s => exact sizeOf_lt_of_mem_ofStmt h
  | function code =>
    obtain ⟨kind, name, params, body, span⟩ := code
    cases body with
    | statements body =>
      have := sizeOf_lt_of_mem_all h
      simp
      omega
    | concise e =>
      obtain rfl := List.mem_singleton.mp h
      simp
      omega

theorem sizeOf_lt_of_inside {x y : Part} (h : y.Inside x) : sizeOf y < sizeOf x := by
  induction h with
  | single h => exact sizeOf_lt_of_mem_parts h
  | tail _ h ih => exact Nat.lt_trans ih (sizeOf_lt_of_mem_parts h)

/-- Trees are finite: no node lies inside itself. -/
theorem inside_wf : WellFounded Inside :=
  Subrelation.wf sizeOf_lt_of_inside (measure sizeOf).wf

end Part

end EcmaTree
