import EcmaTree.Proofs.Estree.Encoding
import EcmaTree.Proofs.Json.RoundTrip
import EcmaTree.Proofs.Number.Integers

/-!
# Documents of programs in normal form

The fields of every node have names of their own, and the offsets of its span are written without
loss. So the document of an expressible program is in normal form: its text says all of it.
-/

namespace EcmaTree

open Estree

namespace Estree

open Json

theorem isNormal_encodeOffset (k : UInt32) : (encodeOffset k).IsNormal := by
  obtain ⟨hfinite, hzero, -⟩ := Number.ofNat_spec (Nat.lt_trans k.toNat_lt (by decide))
  exact ⟨hfinite, hzero⟩

/-- A node is in normal form where its own fields are, with names of their own. -/
@[simp] theorem isNormal_encodeNode {type : Text} {span : Span} {fields : List (Text × Json)} :
    (encodeNode type span fields).IsNormal ↔
      (("type" :: "start" :: "end" :: fields.map Prod.fst : List Text)).Nodup ∧
        MembersNormal fields := by
  simp [encodeNode, nodeMembers, IsNormal, MembersNormal, isNormal_encodeOffset]

@[simp] theorem isNormal_encodeName (name : Text) (span : Span) :
    (encodeName name span).IsNormal := by
  simp [encodeName, MembersNormal, IsNormal]

@[simp] theorem isNormal_encodeName? (name : Option Text) (span : Span) :
    (encodeName? name span).IsNormal := by
  cases name <;> simp [encodeName?, IsNormal]

end Estree

@[simp] theorem FunctionNode.map_fst_fields (code : FunctionNode) :
    code.fields.map Prod.fst = (["id", "params", "body"] : List Text) := by
  obtain ⟨kind, name, params, body, span⟩ := code
  rw [fields]
  rfl

/-- The document of a part is in normal form. -/
def Part.IsNormal : Part → Prop
  | .expr e => e.encode.IsNormal
  | .stmt s => s.encode.IsNormal
  | .function code => Json.MembersNormal code.fields

open Json

theorem Expr.isNormal_encode? {o : Option Expr} (h : ∀ e, o = some e → (Part.expr e).IsNormal) :
    (encode? o).IsNormal := by
  cases o with
  | none => trivial
  | some e => exact h e rfl

theorem Stmt.isNormal_encode? {o : Option Stmt} (h : ∀ s, o = some s → (Part.stmt s).IsNormal) :
    (encode? o).IsNormal := by
  cases o with
  | none => trivial
  | some s => exact h s rfl

theorem Expr.areNormal_encodeAll {es : List (Option Expr)}
    (h : ∀ e, some e ∈ es → (Part.expr e).IsNormal) : AreNormal (encodeAll es) := by
  rw [encodeAll_eq, areNormal_map]
  rintro o ho
  exact isNormal_encode? fun e he ↦ h e (he ▸ ho)

theorem Stmt.areNormal_encodeAll {body : List Stmt} (h : ∀ s ∈ body, (Part.stmt s).IsNormal) :
    AreNormal (encodeAll body) := by
  rw [encodeAll_eq, areNormal_map]
  exact h

theorem Expr.isNormal_encode {e : Expr} (he : (Part.expr e).Expressible)
    (hparts : ∀ y ∈ Part.ofExpr e, y.IsNormal) : (Part.expr e).IsNormal := by
  rw [Part.IsNormal]
  cases e with
  | identifier => exact isNormal_encodeName _ _
  | number => simp [encode, MembersNormal, IsNormal, he.1, he.2]
  | text | bool | null | receiver => simp [encode, MembersNormal, IsNormal]
  | binary | logical | unary | assign | update | conditional =>
    simp only [Part.ofExpr, List.forall_mem_cons, Part.IsNormal] at hparts
    simp [encode, MembersNormal, IsNormal, hparts]
  | call callee arguments =>
    simp only [Part.ofExpr, List.forall_mem_cons, Part.IsNormal] at hparts
    have hitems : AreNormal (encodeAll arguments) :=
      areNormal_encodeAll fun e he ↦ hparts.2 _ (Part.expr_mem_present.mpr he)
    simp [encode, MembersNormal, IsNormal, hparts, hitems]
  | member object property computed span =>
    obtain ⟨key, hencode, hkey⟩ := exists_encode_member object property computed span
    simp only [Part.ofExpr, List.forall_mem_cons, Part.IsNormal] at hparts
    have hkey : key.IsNormal := by
      rcases hkey with rfl | ⟨name, place, -, -, rfl⟩
      · exact hparts.2.1
      · exact isNormal_encodeName name place
    simp [hencode, MembersNormal, IsNormal, hparts, hkey]
  | array items | sequence items =>
    have hitems : AreNormal (encodeAll items) :=
      areNormal_encodeAll fun e he ↦ hparts _ (Part.expr_mem_present.mpr he)
    simp [encode, MembersNormal, IsNormal, hitems]
  | object properties span =>
    have hitems : AreNormal (Property.encodeAll span properties) := by
      rw [Property.encodeAll_eq, areNormal_map]
      rintro ⟨key, value, computed⟩ hp
      have hp : ∀ x ∈ Part.ofOption key ++ [.expr value], x.IsNormal :=
        fun x hx ↦ hparts x (List.mem_flatMap.mpr ⟨_, hp, hx⟩)
      have hkey : (encode? key).IsNormal := isNormal_encode? fun e he ↦ hp (.expr e) (by simp [he])
      have hvalue : value.encode.IsNormal := hp (.expr value) (by simp)
      simp [Property.encode, propertyType, MembersNormal, IsNormal, hkey, hvalue]
    simp [encode, MembersNormal, IsNormal, hitems]
  | function code span =>
    have hfields : MembersNormal code.fields := hparts _ List.mem_cons_self
    simp only [encode, isNormal_encodeNode, FunctionNode.map_fst_fields, hfields, and_true]
    simp
  | unsupported => exact he.elim

theorem FunctionNode.membersNormal_fields {code : FunctionNode}
    (hparts : ∀ y ∈ Part.ofBody code.body, y.IsNormal) : (Part.function code).IsNormal := by
  obtain ⟨kind, name, params, body, span⟩ := code
  have hparams : AreNormal (params.map (encodeName · span)) :=
    areNormal_map.mpr fun name _ ↦ isNormal_encodeName name span
  have hbody : (body.encode span).IsNormal := by
    cases body with
    | statements body =>
      have hitems : AreNormal (Stmt.encodeAll body) :=
        Stmt.areNormal_encodeAll fun s hs ↦ hparts _ (Part.stmt_mem_all.mpr hs)
      simp [FunctionBody.encode, MembersNormal, IsNormal, hitems]
    | concise result => exact hparts _ List.mem_cons_self
  simp [Part.IsNormal, FunctionNode.fields, MembersNormal, IsNormal, hparams, hbody]

/-- What stands in front of a loop is in normal form with the statement that it is. -/
theorem Stmt.isNormal_encodeInit {init : Option Stmt}
    (h : ∀ s, init = some s → (Part.stmt s).IsNormal) : (encodeInit init).IsNormal := by
  cases init with
  | none => trivial
  | some s =>
    have hs : s.encode.IsNormal := h s rfl
    cases s with
    | expression value span =>
      simp only [encode, isNormal_encodeNode, MembersNormal] at hs
      exact hs.2.1
    | _ => exact hs

theorem Stmt.isNormal_encode {s : Stmt} (hs : (Part.stmt s).Expressible)
    (hparts : ∀ y ∈ Part.ofStmt s, y.IsNormal) : (Part.stmt s).IsNormal := by
  rw [Part.IsNormal]
  cases s with
  | declare kind declarators span =>
    have hitems : AreNormal (Declarator.encodeAll span declarators) := by
      rw [Declarator.encodeAll_eq, areNormal_map]
      rintro ⟨name, init⟩ hd
      have hinit : (Expr.encode? init).IsNormal := Expr.isNormal_encode? fun e he ↦
        hparts _ (List.mem_flatMap.mpr ⟨_, hd, Part.expr_mem_ofOption.mpr he⟩)
      simp [Declarator.encode, MembersNormal, hinit]
    simp [encode, MembersNormal, IsNormal, hitems]
  | function code span =>
    have hfields : MembersNormal code.fields := hparts _ List.mem_cons_self
    simp only [encode, isNormal_encodeNode, FunctionNode.map_fst_fields, hfields, and_true]
    simp
  | returned argument span =>
    have hargument : (Expr.encode? argument).IsNormal :=
      Expr.isNormal_encode? fun e he ↦ hparts _ (Part.expr_mem_ofOption.mpr he)
    simp [encode, MembersNormal, hargument]
  | expression value span | throwing value span =>
    simp only [Part.ofStmt, List.forall_mem_cons, Part.IsNormal] at hparts
    simp [encode, MembersNormal, hparts]
  | block body span =>
    have hitems := areNormal_encodeAll fun s hs ↦ hparts _ (Part.stmt_mem_all.mpr hs)
    simp [encode, MembersNormal, IsNormal, hitems]
  | empty span => simp [encode, MembersNormal]
  | conditional test consequent alternate span =>
    simp only [Part.ofStmt, List.forall_mem_cons, Part.IsNormal] at hparts
    have halternate : (encode? alternate).IsNormal :=
      isNormal_encode? fun s hs ↦ hparts.2.2 (.stmt s) (by simp [hs])
    simp [encode, MembersNormal, hparts, halternate]
  | whileLoop | doWhileLoop =>
    simp only [Part.ofStmt, List.forall_mem_cons, Part.IsNormal] at hparts
    simp [encode, MembersNormal, hparts]
  | forLoop init test update body span =>
    have hinit : (encodeInit init).IsNormal :=
      isNormal_encodeInit fun s hs ↦ hparts (.stmt s) (by simp [Part.ofStmt, hs])
    have htest : (Expr.encode? test).IsNormal :=
      Expr.isNormal_encode? fun e he ↦ hparts (.expr e) (by simp [Part.ofStmt, he])
    have hupdate : (Expr.encode? update).IsNormal :=
      Expr.isNormal_encode? fun e he ↦ hparts (.expr e) (by simp [Part.ofStmt, he])
    have hbody : body.encode.IsNormal := hparts (.stmt body) (by simp [Part.ofStmt])
    simp [encode, MembersNormal, hinit, htest, hupdate, hbody]
  | switch discriminant cases span =>
    simp only [Part.ofStmt, List.forall_mem_cons] at hparts
    have hitems : AreNormal (SwitchCase.encodeAll span cases) := by
      rw [SwitchCase.encodeAll_eq, areNormal_map]
      rintro ⟨test, body⟩ hc
      have hc : ∀ x ∈ Part.ofOption test ++ Part.all body, x.IsNormal :=
        fun x hx ↦ hparts.2 x (List.mem_flatMap.mpr ⟨_, hc, hx⟩)
      have htest : (Expr.encode? test).IsNormal :=
        Expr.isNormal_encode? fun e he ↦ hc (.expr e) (by simp [he])
      have hbody : AreNormal (encodeAll body) :=
        areNormal_encodeAll fun s hs ↦ hc (.stmt s) (by simp [hs])
      simp [SwitchCase.encode, MembersNormal, IsNormal, htest, hbody]
    have hdiscriminant : discriminant.encode.IsNormal := hparts.1
    simp [encode, MembersNormal, IsNormal, hitems, hdiscriminant]
  | breaking | continuing => simp [encode, MembersNormal]
  | labeled label body span =>
    simp only [Part.ofStmt, List.forall_mem_cons, Part.IsNormal] at hparts
    simp [encode, MembersNormal, hparts]
  | guarded block handler finalizer span =>
    have hblock : AreNormal (encodeAll block) :=
      areNormal_encodeAll fun s hs ↦ hparts (.stmt s) (by simp [Part.ofStmt, hs])
    have hhandler : (Handler.encode? span handler).IsNormal := by
      cases handler with
      | none => trivial
      | some handler =>
        obtain ⟨param, body⟩ := handler
        have hbody : AreNormal (encodeAll body) :=
          areNormal_encodeAll fun s hs ↦ hparts (.stmt s) (by simp [Part.ofStmt, hs])
        simp [Handler.encode?, MembersNormal, IsNormal, hbody]
    have hfinalizer : (encodeBlock? span finalizer).IsNormal := by
      cases finalizer with
      | none => trivial
      | some body =>
        have hbody : AreNormal (encodeAll body) :=
          areNormal_encodeAll fun s hs ↦ hparts (.stmt s) (by simp [Part.ofStmt, hs])
        simp [encodeBlock?, MembersNormal, IsNormal, hbody]
    simp [encode, MembersNormal, IsNormal, hblock, hhandler, hfinalizer]
  | unsupported => exact hs.elim

/-- What is written for a part all of which is expressible is in normal form. -/
theorem Part.Every.isNormal {x : Part} (hx : x.Every Part.Expressible) : x.IsNormal := by
  induction x using Part.inside_wf.induction with
  | _ x ih =>
    have hparts (y : Part) (hy : y ∈ x.parts) : y.IsNormal := ih y (.single hy) (hx.of_mem hy)
    cases x with
    | expr => exact Expr.isNormal_encode hx.1 hparts
    | stmt => exact Stmt.isNormal_encode hx.1 hparts
    | function => exact FunctionNode.membersNormal_fields hparts

theorem Program.isNormal_encode {p : Program} (hp : p.Expressible) : p.encode.IsNormal := by
  have hbody : AreNormal (Stmt.encodeAll p.body) :=
    Stmt.areNormal_encodeAll fun s hs ↦ (hp s hs).isNormal
  simp [encode, programType, MembersNormal, IsNormal, hbody]

end EcmaTree
