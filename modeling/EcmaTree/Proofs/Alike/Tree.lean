import EcmaTree.Syntax.Tree
import Mathlib.Data.List.Forall2

/-!
# Alike trees

Two trees are alike when they are the same but for nodes that are `unsupported` in the first. With
`free` such a node may be any other node of its sort in the second, and without it the trees are the
same.
-/

namespace EcmaTree

mutual

/-- Expressions that are the same but for unsupported nodes of the first. -/
inductive Expr.Alike (free : Prop) : Expr → Expr → Prop where
  | unsupported {type : Text} {span : Span} {e : Expr}
      (he : free ∨ e = .unsupported type span) : Expr.Alike free (.unsupported type span) e
  | identifier (name : Text) (span : Span) :
      Expr.Alike free (.identifier name span) (.identifier name span)
  | number (value : Number) (span : Span) :
      Expr.Alike free (.number value span) (.number value span)
  | text (value : Text) (span : Span) : Expr.Alike free (.text value span) (.text value span)
  | bool (value : Bool) (span : Span) : Expr.Alike free (.bool value span) (.bool value span)
  | null (span : Span) : Expr.Alike free (.null span) (.null span)
  | receiver (span : Span) : Expr.Alike free (.receiver span) (.receiver span)
  | binary {l l' r r' : Expr} (op : BinaryOp) (span : Span) (hl : Expr.Alike free l l')
      (hr : Expr.Alike free r r') : Expr.Alike free (.binary op l r span) (.binary op l' r' span)
  | logical {l l' r r' : Expr} (op : LogicalOp) (span : Span) (hl : Expr.Alike free l l')
      (hr : Expr.Alike free r r') : Expr.Alike free (.logical op l r span) (.logical op l' r' span)
  | unary {e e' : Expr} (op : UnaryOp) (span : Span) (he : Expr.Alike free e e') :
      Expr.Alike free (.unary op e span) (.unary op e' span)
  | assign {t t' e e' : Expr} (op : AssignOp) (span : Span) (ht : Expr.Alike free t t')
      (he : Expr.Alike free e e') : Expr.Alike free (.assign op t e span) (.assign op t' e' span)
  | update {t t' : Expr} (op : UpdateOp) (leading : Bool) (span : Span)
      (ht : Expr.Alike free t t') :
      Expr.Alike free (.update op leading t span) (.update op leading t' span)
  | call {c c' : Expr} {as as' : List (Option Expr)} (span : Span) (hc : Expr.Alike free c c')
      (has : List.Forall₂ (Option.Rel (Expr.Alike free)) as as') :
      Expr.Alike free (.call c as span) (.call c' as' span)
  | member {o o' p p' : Expr} (computed : Bool) (span : Span) (ho : Expr.Alike free o o')
      (hp : Expr.Alike free p p') :
      Expr.Alike free (.member o p computed span) (.member o' p' computed span)
  | conditional {t t' c c' a a' : Expr} (span : Span) (ht : Expr.Alike free t t')
      (hc : Expr.Alike free c c') (ha : Expr.Alike free a a') :
      Expr.Alike free (.conditional t c a span) (.conditional t' c' a' span)
  | array {es es' : List (Option Expr)} (span : Span)
      (hes : List.Forall₂ (Option.Rel (Expr.Alike free)) es es') :
      Expr.Alike free (.array es span) (.array es' span)
  | object {ps ps' : List Property} (span : Span)
      (hps : List.Forall₂ (Property.Alike free) ps ps') :
      Expr.Alike free (.object ps span) (.object ps' span)
  | sequence {es es' : List (Option Expr)} (span : Span)
      (hes : List.Forall₂ (Option.Rel (Expr.Alike free)) es es') :
      Expr.Alike free (.sequence es span) (.sequence es' span)
  | function {f f' : FunctionNode} (span : Span) (hf : FunctionNode.Alike free f f') :
      Expr.Alike free (.function f span) (.function f' span)

inductive Property.Alike (free : Prop) : Property → Property → Prop where
  | mk {k k' : Option Expr} {v v' : Expr} (computed : Bool)
      (hk : Option.Rel (Expr.Alike free) k k') (hv : Expr.Alike free v v') :
      Property.Alike free ⟨k, v, computed⟩ ⟨k', v', computed⟩

inductive FunctionNode.Alike (free : Prop) : FunctionNode → FunctionNode → Prop where
  | mk {b b' : FunctionBody} (kind : FunctionKind) (name : Text) (params : List Text) (span : Span)
      (hb : FunctionBody.Alike free b b') :
      FunctionNode.Alike free ⟨kind, name, params, b, span⟩ ⟨kind, name, params, b', span⟩

inductive FunctionBody.Alike (free : Prop) : FunctionBody → FunctionBody → Prop where
  | statements {ss ss' : List Stmt} (hss : List.Forall₂ (Stmt.Alike free) ss ss') :
      FunctionBody.Alike free (.statements ss) (.statements ss')
  | concise {e e' : Expr} (he : Expr.Alike free e e') :
      FunctionBody.Alike free (.concise e) (.concise e')

/-- Statements that are the same but for unsupported nodes of the first. -/
inductive Stmt.Alike (free : Prop) : Stmt → Stmt → Prop where
  | unsupported {type : Text} {span : Span} {s : Stmt}
      (hs : free ∨ s = .unsupported type span) : Stmt.Alike free (.unsupported type span) s
  | declare {ds ds' : List Declarator} (kind : DeclarationKind) (span : Span)
      (hds : List.Forall₂ (Declarator.Alike free) ds ds') :
      Stmt.Alike free (.declare kind ds span) (.declare kind ds' span)
  | function {f f' : FunctionNode} (span : Span) (hf : FunctionNode.Alike free f f') :
      Stmt.Alike free (.function f span) (.function f' span)
  | returned {e e' : Option Expr} (span : Span) (he : Option.Rel (Expr.Alike free) e e') :
      Stmt.Alike free (.returned e span) (.returned e' span)
  | expression {e e' : Expr} (span : Span) (he : Expr.Alike free e e') :
      Stmt.Alike free (.expression e span) (.expression e' span)
  | block {ss ss' : List Stmt} (span : Span) (hss : List.Forall₂ (Stmt.Alike free) ss ss') :
      Stmt.Alike free (.block ss span) (.block ss' span)
  | empty (span : Span) : Stmt.Alike free (.empty span) (.empty span)
  | conditional {t t' : Expr} {c c' : Stmt} {a a' : Option Stmt} (span : Span)
      (ht : Expr.Alike free t t') (hc : Stmt.Alike free c c')
      (ha : Option.Rel (Stmt.Alike free) a a') :
      Stmt.Alike free (.conditional t c a span) (.conditional t' c' a' span)
  | whileLoop {t t' : Expr} {b b' : Stmt} (span : Span) (ht : Expr.Alike free t t')
      (hb : Stmt.Alike free b b') : Stmt.Alike free (.whileLoop t b span) (.whileLoop t' b' span)
  | doWhileLoop {t t' : Expr} {b b' : Stmt} (span : Span) (hb : Stmt.Alike free b b')
      (ht : Expr.Alike free t t') :
      Stmt.Alike free (.doWhileLoop b t span) (.doWhileLoop b' t' span)
  | forLoop {i i' : Option Stmt} {t t' u u' : Option Expr} {b b' : Stmt} (span : Span)
      (hi : Option.Rel (Stmt.Alike free) i i') (ht : Option.Rel (Expr.Alike free) t t')
      (hu : Option.Rel (Expr.Alike free) u u') (hb : Stmt.Alike free b b') :
      Stmt.Alike free (.forLoop i t u b span) (.forLoop i' t' u' b' span)
  | switch {d d' : Expr} {cs cs' : List SwitchCase} (span : Span) (hd : Expr.Alike free d d')
      (hcs : List.Forall₂ (SwitchCase.Alike free) cs cs') :
      Stmt.Alike free (.switch d cs span) (.switch d' cs' span)
  | breaking (label : Option Text) (span : Span) :
      Stmt.Alike free (.breaking label span) (.breaking label span)
  | continuing (label : Option Text) (span : Span) :
      Stmt.Alike free (.continuing label span) (.continuing label span)
  | labeled {b b' : Stmt} (label : Text) (span : Span) (hb : Stmt.Alike free b b') :
      Stmt.Alike free (.labeled label b span) (.labeled label b' span)
  | throwing {e e' : Expr} (span : Span) (he : Expr.Alike free e e') :
      Stmt.Alike free (.throwing e span) (.throwing e' span)
  | guarded {ss ss' : List Stmt} {hd hd' : Option Handler} {fs fs' : Option (List Stmt)}
      (span : Span) (hss : List.Forall₂ (Stmt.Alike free) ss ss')
      (hhd : Option.Rel (Handler.Alike free) hd hd')
      (hfs : Option.Rel (List.Forall₂ (Stmt.Alike free)) fs fs') :
      Stmt.Alike free (.guarded ss hd fs span) (.guarded ss' hd' fs' span)

inductive Declarator.Alike (free : Prop) : Declarator → Declarator → Prop where
  | mk {e e' : Option Expr} (name : Text) (he : Option.Rel (Expr.Alike free) e e') :
      Declarator.Alike free ⟨name, e⟩ ⟨name, e'⟩

inductive SwitchCase.Alike (free : Prop) : SwitchCase → SwitchCase → Prop where
  | mk {e e' : Option Expr} {ss ss' : List Stmt} (he : Option.Rel (Expr.Alike free) e e')
      (hss : List.Forall₂ (Stmt.Alike free) ss ss') : SwitchCase.Alike free ⟨e, ss⟩ ⟨e', ss'⟩

inductive Handler.Alike (free : Prop) : Handler → Handler → Prop where
  | mk {ss ss' : List Stmt} (param : Option Text) (hss : List.Forall₂ (Stmt.Alike free) ss ss') :
      Handler.Alike free ⟨param, ss⟩ ⟨param, ss'⟩

end

/-- Programs that are the same but for unsupported nodes of the first. -/
structure Program.Alike (free : Prop) (p p' : Program) : Prop where
  body : List.Forall₂ (Stmt.Alike free) p.body p'.body
  span : p.span = p'.span

/-! ### Every tree is like itself -/

mutual

theorem Expr.Alike.refl (free : Prop) : ∀ e, Expr.Alike free e e
  | .identifier .. => .identifier ..
  | .number .. => .number ..
  | .text .. => .text ..
  | .bool .. => .bool ..
  | .null _ => .null _
  | .receiver _ => .receiver _
  | .binary _ l r _ => .binary _ _ (Expr.Alike.refl free l) (Expr.Alike.refl free r)
  | .logical _ l r _ => .logical _ _ (Expr.Alike.refl free l) (Expr.Alike.refl free r)
  | .unary _ e _ => .unary _ _ (Expr.Alike.refl free e)
  | .assign _ t e _ => .assign _ _ (Expr.Alike.refl free t) (Expr.Alike.refl free e)
  | .update _ _ t _ => .update _ _ _ (Expr.Alike.refl free t)
  | .call c as _ => .call _ (Expr.Alike.refl free c) (Expr.Alike.reflAll free as)
  | .member o p _ _ => .member _ _ (Expr.Alike.refl free o) (Expr.Alike.refl free p)
  | .conditional t c a _ =>
    .conditional _ (Expr.Alike.refl free t) (Expr.Alike.refl free c) (Expr.Alike.refl free a)
  | .array es _ => .array _ (Expr.Alike.reflAll free es)
  | .object ps _ => .object _ (Property.Alike.reflAll free ps)
  | .sequence es _ => .sequence _ (Expr.Alike.reflAll free es)
  | .function f _ => .function _ (FunctionNode.Alike.refl free f)
  | .unsupported .. => .unsupported (.inr rfl)

theorem Expr.Alike.reflOption (free : Prop) : ∀ e, Option.Rel (Expr.Alike free) e e
  | none => .none
  | some e => .some (Expr.Alike.refl free e)

theorem Expr.Alike.reflAll (free : Prop) : ∀ es, List.Forall₂ (Option.Rel (Expr.Alike free)) es es
  | [] => .nil
  | e :: es => .cons (Expr.Alike.reflOption free e) (Expr.Alike.reflAll free es)

theorem Property.Alike.refl (free : Prop) : ∀ p, Property.Alike free p p
  | ⟨k, v, _⟩ => .mk _ (Expr.Alike.reflOption free k) (Expr.Alike.refl free v)

theorem Property.Alike.reflAll (free : Prop) : ∀ ps, List.Forall₂ (Property.Alike free) ps ps
  | [] => .nil
  | p :: ps => .cons (Property.Alike.refl free p) (Property.Alike.reflAll free ps)

theorem FunctionNode.Alike.refl (free : Prop) : ∀ f, FunctionNode.Alike free f f
  | ⟨_, _, _, b, _⟩ => .mk _ _ _ _ (FunctionBody.Alike.refl free b)

theorem FunctionBody.Alike.refl (free : Prop) : ∀ b, FunctionBody.Alike free b b
  | .statements ss => .statements (Stmt.Alike.reflAll free ss)
  | .concise e => .concise (Expr.Alike.refl free e)

theorem Stmt.Alike.refl (free : Prop) : ∀ s, Stmt.Alike free s s
  | .declare _ ds _ => .declare _ _ (Declarator.Alike.reflAll free ds)
  | .function f _ => .function _ (FunctionNode.Alike.refl free f)
  | .returned e _ => .returned _ (Expr.Alike.reflOption free e)
  | .expression e _ => .expression _ (Expr.Alike.refl free e)
  | .block ss _ => .block _ (Stmt.Alike.reflAll free ss)
  | .empty _ => .empty _
  | .conditional t c a _ =>
    .conditional _ (Expr.Alike.refl free t) (Stmt.Alike.refl free c) (Stmt.Alike.reflOption free a)
  | .whileLoop t b _ => .whileLoop _ (Expr.Alike.refl free t) (Stmt.Alike.refl free b)
  | .doWhileLoop b t _ => .doWhileLoop _ (Stmt.Alike.refl free b) (Expr.Alike.refl free t)
  | .forLoop i t u b _ =>
    .forLoop _ (Stmt.Alike.reflOption free i) (Expr.Alike.reflOption free t)
      (Expr.Alike.reflOption free u) (Stmt.Alike.refl free b)
  | .switch d cs _ => .switch _ (Expr.Alike.refl free d) (SwitchCase.Alike.reflAll free cs)
  | .breaking .. => .breaking ..
  | .continuing .. => .continuing ..
  | .labeled _ b _ => .labeled _ _ (Stmt.Alike.refl free b)
  | .throwing e _ => .throwing _ (Expr.Alike.refl free e)
  | .guarded ss none none _ => .guarded _ (Stmt.Alike.reflAll free ss) .none .none
  | .guarded ss none (some fs) _ =>
    .guarded _ (Stmt.Alike.reflAll free ss) .none (.some (Stmt.Alike.reflAll free fs))
  | .guarded ss (some hd) none _ =>
    .guarded _ (Stmt.Alike.reflAll free ss) (.some (Handler.Alike.refl free hd)) .none
  | .guarded ss (some hd) (some fs) _ =>
    .guarded _ (Stmt.Alike.reflAll free ss) (.some (Handler.Alike.refl free hd))
      (.some (Stmt.Alike.reflAll free fs))
  | .unsupported .. => .unsupported (.inr rfl)

theorem Stmt.Alike.reflOption (free : Prop) : ∀ s, Option.Rel (Stmt.Alike free) s s
  | none => .none
  | some s => .some (Stmt.Alike.refl free s)

theorem Stmt.Alike.reflAll (free : Prop) : ∀ ss, List.Forall₂ (Stmt.Alike free) ss ss
  | [] => .nil
  | s :: ss => .cons (Stmt.Alike.refl free s) (Stmt.Alike.reflAll free ss)

theorem Declarator.Alike.refl (free : Prop) : ∀ d, Declarator.Alike free d d
  | ⟨_, e⟩ => .mk _ (Expr.Alike.reflOption free e)

theorem Declarator.Alike.reflAll (free : Prop) : ∀ ds, List.Forall₂ (Declarator.Alike free) ds ds
  | [] => .nil
  | d :: ds => .cons (Declarator.Alike.refl free d) (Declarator.Alike.reflAll free ds)

theorem SwitchCase.Alike.refl (free : Prop) : ∀ c, SwitchCase.Alike free c c
  | ⟨e, ss⟩ => .mk (Expr.Alike.reflOption free e) (Stmt.Alike.reflAll free ss)

theorem SwitchCase.Alike.reflAll (free : Prop) : ∀ cs, List.Forall₂ (SwitchCase.Alike free) cs cs
  | [] => .nil
  | c :: cs => .cons (SwitchCase.Alike.refl free c) (SwitchCase.Alike.reflAll free cs)

theorem Handler.Alike.refl (free : Prop) : ∀ h, Handler.Alike free h h
  | ⟨_, ss⟩ => .mk _ (Stmt.Alike.reflAll free ss)

end

theorem Program.Alike.refl (free : Prop) (p : Program) : p.Alike free p :=
  ⟨Stmt.Alike.reflAll free p.body, rfl⟩

/-! ### What is read off a tree without evaluating it

The name that an error gives to a callee, the span of a property, and whether an expression is a
function literal are read only after what they are read off was evaluated. By then it is known to
hold no unsupported node. -/

/-- Neither the expression itself nor a member on the path to it is unsupported. -/
def Expr.Resolved : Expr → Prop
  | .unsupported .. => False
  | .member o p _ _ => o.Resolved ∧ p.Resolved
  | _ => True

namespace Expr.Alike

variable {free : Prop} {e e' : Expr}

theorem isFunction_eq (he : e.Alike free e') (hr : e.Resolved) : e.isFunction = e'.isFunction := by
  cases he <;> first | rfl | exact hr.elim

theorem span_eq (he : e.Alike free e') (hr : e.Resolved) : e.span = e'.span := by
  cases he <;> first | rfl | exact hr.elim

theorem describe_eq : ∀ {e e' : Expr}, e.Alike free e' → e.Resolved → e.describe = e'.describe
  | .member o p computed _, _, he, hr => by
    cases he with
    | member _ _ ho hp =>
      have ih := describe_eq ho hr.1
      cases hp with
      | unsupported => exact hr.2.elim
      | text => cases computed <;> simp [describe, ih]
      | _ => simp [describe, ih]
  | .identifier .., _, he, _ | .number .., _, he, _ | .text .., _, he, _ | .bool .., _, he, _
  | .null .., _, he, _ | .receiver .., _, he, _ | .binary .., _, he, _ | .logical .., _, he, _
  | .unary .., _, he, _ | .assign .., _, he, _ | .update .., _, he, _ | .call .., _, he, _
  | .conditional .., _, he, _ | .array .., _, he, _ | .object .., _, he, _
  | .sequence .., _, he, _ | .function .., _, he, _ => by cases he; rfl
  | .unsupported .., _, _, hr => hr.elim

end Expr.Alike

end EcmaTree
