import EcmaTree.Heap.Frame
import EcmaTree.Json.Tree
import EcmaTree.Proofs.Estree.Names
import EcmaTree.Proofs.Tree.Parts

/-!
# Programs as documents

The document that a program is written as. Every node of the program is an object with its type, its
span and one field for each of its parts; a part that is absent is `null`. What has no span of its
own, such as a parameter or the block of a function, is given the span of the node that it belongs
to. The document says all of a program whose nodes are `Expressible`.
-/

namespace EcmaTree

namespace Estree

/-- An offset as a number. -/
def encodeOffset (k : UInt32) : Json := .number (.ofNat k.toNat)

/-- The members of a node of a type at a span, with its other fields. -/
def nodeMembers (type : Text) (span : Span) (fields : List (Text × Json)) : List (Text × Json) :=
  ("type", .text type) :: ("start", encodeOffset span.start) :: ("end", encodeOffset span.stop) ::
    fields

/-- A node of a type at a span, with its other fields. -/
def encodeNode (type : Text) (span : Span) (fields : List (Text × Json)) : Json :=
  .object (nodeMembers type span fields)

/-- A name as an identifier. -/
def encodeName (name : Text) (span : Span) : Json :=
  encodeNode "Identifier" span [("name", .text name)]

/-- A name that may be absent. -/
def encodeName? (name : Option Text) (span : Span) : Json :=
  match name with
  | some name => encodeName name span
  | none => .null

end Estree

open Estree

/-- The keyword of a variable declaration. -/
def DeclarationKind.keyword : DeclarationKind → String
  | var => "var" | .let => "let" | const => "const"

mutual

/-- An expression as a document. The key after a dot is an identifier. -/
def Expr.encode : Expr → Json
  | .identifier name span => encodeName name span
  | e@(.number value span) => encodeNode e.nodeType span [("value", .number value)]
  | e@(.text value span) => encodeNode e.nodeType span [("value", .text value)]
  | e@(.bool value span) => encodeNode e.nodeType span [("value", .bool value)]
  | e@(.null span) => encodeNode e.nodeType span [("value", .null)]
  | e@(.receiver span) => encodeNode e.nodeType span []
  | e@(.binary op left right span) =>
    encodeNode e.nodeType span
      [("operator", .text op.spelling), ("left", left.encode), ("right", right.encode)]
  | e@(.logical op left right span) =>
    encodeNode e.nodeType span
      [("operator", .text op.spelling), ("left", left.encode), ("right", right.encode)]
  | e@(.unary op operand span) =>
    encodeNode e.nodeType span [("operator", .text op.spelling), ("argument", operand.encode)]
  | e@(.assign op target value span) =>
    encodeNode e.nodeType span
      [("operator", .text op.spelling), ("left", target.encode), ("right", value.encode)]
  | e@(.update op leading target span) =>
    encodeNode e.nodeType span
      [("operator", .text op.spelling), ("prefix", .bool leading), ("argument", target.encode)]
  | e@(.call callee arguments span) =>
    encodeNode e.nodeType span
      [("callee", callee.encode), ("arguments", .array (Expr.encodeAll arguments))]
  | e@(.member object (.text key keySpan) false span) =>
    encodeNode e.nodeType span
      [("object", object.encode), ("property", encodeName key keySpan), ("computed", .bool false)]
  | e@(.member object property computed span) =>
    encodeNode e.nodeType span
      [("object", object.encode), ("property", property.encode), ("computed", .bool computed)]
  | e@(.conditional test consequent alternate span) =>
    encodeNode e.nodeType span
      [("test", test.encode), ("consequent", consequent.encode), ("alternate", alternate.encode)]
  | e@(.array elements span) =>
    encodeNode e.nodeType span [("elements", .array (Expr.encodeAll elements))]
  | e@(.object properties span) =>
    encodeNode e.nodeType span [("properties", .array (Property.encodeAll span properties))]
  | e@(.sequence items span) =>
    encodeNode e.nodeType span [("expressions", .array (Expr.encodeAll items))]
  | e@(.function code span) => encodeNode e.nodeType span code.fields
  | .unsupported type span => encodeNode type span []

/-- An expression that may be absent. -/
def Expr.encode? : Option Expr → Json
  | some e => e.encode
  | none => .null

/-- Expressions of which some may be absent. -/
def Expr.encodeAll : List (Option Expr) → List Json
  | [] => []
  | e :: rest => Expr.encode? e :: Expr.encodeAll rest

/-- A property of an object literal. -/
def Property.encode (span : Span) : Property → Json
  | ⟨key, value, computed⟩ =>
    encodeNode propertyType span
      [("kind", .text "init"), ("key", Expr.encode? key), ("value", value.encode),
        ("computed", .bool computed)]

/-- The properties of an object literal. -/
def Property.encodeAll (span : Span) : List Property → List Json
  | [] => []
  | p :: rest => p.encode span :: Property.encodeAll span rest

/-- The fields of a function. A function without a name has the empty one. -/
def FunctionNode.fields : FunctionNode → List (Text × Json)
  | ⟨_, name, params, body, span⟩ =>
    [("id", encodeName? (labelOfText name) span),
      ("params", .array (params.map (encodeName · span))), ("body", body.encode span)]

/-- The body of a function: a block, or the expression of a concise one. -/
def FunctionBody.encode (span : Span) : FunctionBody → Json
  | .statements body => encodeNode "BlockStatement" span [("body", .array (Stmt.encodeAll body))]
  | .concise result => result.encode

/-- A statement as a document. -/
def Stmt.encode : Stmt → Json
  | s@(.declare kind declarators span) =>
    encodeNode s.nodeType span
      [("kind", .text kind.keyword),
        ("declarations", .array (Declarator.encodeAll span declarators))]
  | s@(.function code span) => encodeNode s.nodeType span code.fields
  | s@(.returned argument span) => encodeNode s.nodeType span [("argument", Expr.encode? argument)]
  | s@(.expression value span) => encodeNode s.nodeType span [("expression", value.encode)]
  | s@(.block body span) => encodeNode s.nodeType span [("body", .array (Stmt.encodeAll body))]
  | s@(.empty span) => encodeNode s.nodeType span []
  | s@(.conditional test consequent alternate span) =>
    encodeNode s.nodeType span
      [("test", test.encode), ("consequent", consequent.encode),
        ("alternate", Stmt.encode? alternate)]
  | s@(.whileLoop test body span) =>
    encodeNode s.nodeType span [("test", test.encode), ("body", body.encode)]
  | s@(.doWhileLoop body test span) =>
    encodeNode s.nodeType span [("body", body.encode), ("test", test.encode)]
  | s@(.forLoop init test update body span) =>
    encodeNode s.nodeType span
      [("init", Stmt.encodeInit init), ("test", Expr.encode? test),
        ("update", Expr.encode? update), ("body", body.encode)]
  | s@(.switch discriminant cases span) =>
    encodeNode s.nodeType span
      [("discriminant", discriminant.encode), ("cases", .array (SwitchCase.encodeAll span cases))]
  | s@(.breaking label span) | s@(.continuing label span) =>
    encodeNode s.nodeType span [("label", encodeName? label span)]
  | s@(.labeled label body span) =>
    encodeNode s.nodeType span [("label", encodeName label span), ("body", body.encode)]
  | s@(.throwing argument span) => encodeNode s.nodeType span [("argument", argument.encode)]
  | s@(.guarded block handler finalizer span) =>
    encodeNode s.nodeType span
      [("block", encodeNode "BlockStatement" span [("body", .array (Stmt.encodeAll block))]),
        ("handler", Handler.encode? span handler), ("finalizer", Stmt.encodeBlock? span finalizer)]
  | .unsupported type span => encodeNode type span []

/-- A statement that may be absent. -/
def Stmt.encode? : Option Stmt → Json
  | some s => s.encode
  | none => .null

/-- The initialiser of a loop. What is evaluated only is the expression itself. -/
def Stmt.encodeInit : Option Stmt → Json
  | some (.expression value _) => value.encode
  | some s => s.encode
  | none => .null

/-- Statements in their order. -/
def Stmt.encodeAll : List Stmt → List Json
  | [] => []
  | s :: rest => s.encode :: Stmt.encodeAll rest

/-- A block that may be absent. -/
def Stmt.encodeBlock? (span : Span) : Option (List Stmt) → Json
  | some body => encodeNode "BlockStatement" span [("body", .array (Stmt.encodeAll body))]
  | none => .null

/-- A name of a declaration with its initial value. -/
def Declarator.encode (span : Span) : Declarator → Json
  | ⟨name, init⟩ =>
    encodeNode "VariableDeclarator" span [("id", encodeName name span), ("init", Expr.encode? init)]

/-- The names of a declaration. -/
def Declarator.encodeAll (span : Span) : List Declarator → List Json
  | [] => []
  | d :: rest => d.encode span :: Declarator.encodeAll span rest

/-- A case of a switch. -/
def SwitchCase.encode (span : Span) : SwitchCase → Json
  | ⟨test, body⟩ =>
    encodeNode "SwitchCase" span
      [("test", Expr.encode? test), ("consequent", .array (Stmt.encodeAll body))]

/-- The cases of a switch. -/
def SwitchCase.encodeAll (span : Span) : List SwitchCase → List Json
  | [] => []
  | c :: rest => c.encode span :: SwitchCase.encodeAll span rest

/-- A handler that may be absent. -/
def Handler.encode? (span : Span) : Option Handler → Json
  | some ⟨param, body⟩ =>
    encodeNode "CatchClause" span
      [("param", encodeName? param span),
        ("body", encodeNode "BlockStatement" span [("body", .array (Stmt.encodeAll body))])]
  | none => .null

end

/-! ### Lists of parts -/

theorem Expr.encodeAll_eq (es : List (Option Expr)) : encodeAll es = es.map encode? := by
  induction es with
  | nil => rfl
  | cons e rest ih => rw [encodeAll, ih, List.map_cons]

theorem Property.encodeAll_eq (span : Span) (ps : List Property) :
    encodeAll span ps = ps.map (encode span) := by
  induction ps with
  | nil => rfl
  | cons p rest ih => rw [encodeAll, ih, List.map_cons]

theorem Stmt.encodeAll_eq (body : List Stmt) : encodeAll body = body.map encode := by
  induction body with
  | nil => rfl
  | cons s rest ih => rw [encodeAll, ih, List.map_cons]

theorem Declarator.encodeAll_eq (span : Span) (ds : List Declarator) :
    encodeAll span ds = ds.map (encode span) := by
  induction ds with
  | nil => rfl
  | cons d rest ih => rw [encodeAll, ih, List.map_cons]

theorem SwitchCase.encodeAll_eq (span : Span) (cs : List SwitchCase) :
    encodeAll span cs = cs.map (encode span) := by
  induction cs with
  | nil => rfl
  | cons c rest ih => rw [encodeAll, ih, List.map_cons]

/-- The document of a member holds its key, or the name that a text after a dot stands for. -/
theorem Expr.exists_encode_member (object property : Expr) (computed : Bool) (span : Span) :
    ∃ key, (member object property computed span).encode =
        encodeNode "MemberExpression" span
          [("object", object.encode), ("property", key), ("computed", .bool computed)] ∧
      (key = property.encode ∨ ∃ name place, property = .text name place ∧ computed = false ∧
        key = encodeName name place) := by
  cases computed with
  | true => exact ⟨property.encode, by cases property <;> rfl, .inl rfl⟩
  | false =>
    cases property with
    | text name place => exact ⟨_, rfl, .inr ⟨name, place, rfl, rfl, rfl⟩⟩
    | _ => exact ⟨_, rfl, .inl rfl⟩

/-! ### Types of nodes -/

/-- The document of an expression has its type and its span. -/
theorem Expr.exists_encode_eq (e : Expr) :
    ∃ fields, e.encode = encodeNode e.nodeType e.span fields := by
  rw [Expr.encode.eq_def]
  split <;> exact ⟨_, rfl⟩

theorem Stmt.exists_encode_eq (s : Stmt) :
    ∃ fields, s.encode = encodeNode s.nodeType s.span fields := by
  rw [Stmt.encode.eq_def]
  split <;> exact ⟨_, rfl⟩

/-- The type that a supported expression has. -/
def Expr.type? : Expr → Option ExpressionType
  | identifier .. => some .identifier
  | number .. | text .. | bool .. | null .. => some .literal
  | receiver .. => some .receiver
  | binary .. => some .binary
  | logical .. => some .logical
  | unary .. => some .unary
  | assign .. => some .assignment
  | update .. => some .update
  | call .. => some .call
  | member .. => some .member
  | conditional .. => some .conditional
  | array .. => some .array
  | object .. => some .object
  | sequence .. => some .sequence
  | function code _ => match code.kind with
    | .arrow => some .arrow
    | _ => some .function
  | unsupported type _ => ExpressionType.ofText? type

/-- An expression is loaded by its type. -/
theorem Expr.ofText?_nodeType (e : Expr) : ExpressionType.ofText? e.nodeType = e.type? := by
  cases e with
  | function code =>
    rcases code with ⟨_ | _ | _, _⟩ <;>
      simp [nodeType, type?, ExpressionType.ofText?, ExpressionType.all, ExpressionType.name]
  | unsupported => rfl
  | _ => simp [nodeType, type?, ExpressionType.ofText?, ExpressionType.all, ExpressionType.name]

/-- The type that a supported statement has. -/
def Stmt.type? : Stmt → Option StatementType
  | declare .. => some .declaration
  | function .. => some .function
  | returned .. => some .returned
  | expression .. => some .expression
  | block .. => some .block
  | empty .. => some .empty
  | conditional .. => some .conditional
  | whileLoop .. => some .whileLoop
  | doWhileLoop .. => some .doWhileLoop
  | forLoop .. => some .forLoop
  | switch .. => some .switch
  | breaking .. => some .breaking
  | continuing .. => some .continuing
  | labeled .. => some .labeled
  | throwing .. => some .throwing
  | guarded .. => some .guarded
  | unsupported type _ => StatementType.ofText? type

/-- A statement is loaded by its type. -/
theorem Stmt.ofText?_nodeType (s : Stmt) : StatementType.ofText? s.nodeType = s.type? := by
  cases s with
  | unsupported => rfl
  | _ => simp [nodeType, type?, StatementType.ofText?, StatementType.all, StatementType.name]

/-- A program as a document. -/
def Program.encode (p : Program) : Json :=
  encodeNode programType p.span [("body", .array (Stmt.encodeAll p.body))]

/-! ### What a document says all of -/

/-- The key is a text literal. -/
def Expr.IsText : Expr → Prop
  | .text .. => True
  | _ => False

/-- The statement can stand in front of a loop: a declaration, or an expression that has the same
span. -/
def Stmt.Initializes : Stmt → Prop
  | .declare .. => True
  | .expression value span => span = value.span
  | _ => False

/-- The key of a property is there, and is a text unless it is computed. -/
def Property.IsKeyed (p : Property) : Prop :=
  ∃ key, p.key = some key ∧ (p.computed = true ∨ key.IsText)

/-- What a node is like so that its document says all of it. A number is neither infinite nor the
negative zero, a function has the span of the node that it stands in, and no label is empty, which
is how a break without one is written. -/
def Part.Expressible : Part → Prop
  | .expr (.number value _) => value.isFinite = true ∧ value.isNegativeZero = false
  | .expr (.member _ property computed _) => computed = true ∨ property.IsText
  | .expr (.object properties _) => ∀ p ∈ properties, p.IsKeyed
  | .expr (.function code span) => code.kind ≠ .declaration ∧ code.span = span
  | .expr (.unsupported ..) => False
  | .stmt (.function code span) => code.kind = .declaration ∧ code.span = span
  | .stmt (.forLoop (some init) ..) => init.Initializes
  | .stmt (.breaking label _) | .stmt (.continuing label _) => label ≠ some .empty
  | .stmt (.unsupported ..) => False
  | _ => True

/-- All nodes of a program are expressible. -/
def Program.Expressible (p : Program) : Prop := ∀ s ∈ p.body, (Part.stmt s).Every Part.Expressible

end EcmaTree
