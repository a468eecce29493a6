import EcmaTree.Proofs.Estree.Fields

/-!
# Loading what was written

A program is read back from its document, node by node: what a node is read as follows from what the
nodes inside are read as, one case for each type of node.
-/

namespace EcmaTree

open Estree

/-- What is in the body of a function is inside what holds the function. -/
theorem Part.inside_function {x y : Part} {code : FunctionNode} (hx : x ∈ ofBody code.body)
    (hcode : function code ∈ y.parts) : x.Inside y :=
  have hbody : x.Inside (function code) := .single hx
  hbody.tail hcode

namespace Estree

/-- A node with the document of an expression has its type and its span. -/
theorem Node.of_encode_expr {n : Nat} {e : Expr} {c : Node n} (h : e.encode = .object c.members) :
    c.type = .ok e.nodeType ∧ c.span = .ok e.span := by
  obtain ⟨fields, hencode⟩ := e.exists_encode_eq
  have hc := (Json.object.inj (hencode.symm.trans h)).symm
  exact ⟨Node.type_of_members hc, Node.span_of_members hc⟩

/-- A node with the document of a statement has its type and its span. -/
theorem Node.of_encode_stmt {n : Nat} {s : Stmt} {c : Node n} (h : s.encode = .object c.members) :
    c.type = .ok s.nodeType ∧ c.span = .ok s.span := by
  obtain ⟨fields, hencode⟩ := s.exists_encode_eq
  have hc := (Json.object.inj (hencode.symm.trans h)).symm
  exact ⟨Node.type_of_members hc, Node.span_of_members hc⟩

/-- No expression is a statement. -/
theorem ofText?_nodeType {e : Expr} (h : (Part.expr e).Expressible) :
    StatementType.ofText? e.nodeType = none := by
  cases e with
  | unsupported => exact h.elim
  | function code =>
    rw [Expr.nodeType]
    split <;> simp [StatementType.ofText?, StatementType.all, StatementType.name]
  | _ => simp [Expr.nodeType, StatementType.ofText?, StatementType.all, StatementType.name]

namespace Loader

variable {n : Nat} {node : Node n} {r : Loader (n - 1)} {span : Span}
  {type field : Text}

/-! ## Functions -/

theorem functionBody_eq (span : Span) {body : FunctionBody}
    (h : Json.lookup "body" node.members = some (body.encode span))
    (hbody : ∀ x ∈ Part.ofBody body, r.Knows x ∧ x.Expressible) :
    r.functionBody node = .ok body := by
  cases body with
  | statements body =>
    rw [FunctionBody.encode] at h
    obtain ⟨c, hc, hchild, -⟩ := node.child_of_lookup h
    have htype : StatementType.ofText? "BlockStatement" = some .block :=
      StatementType.ofText?_name .block
    have hitems : Json.lookup "body" c.members = some (.array (Stmt.encodeAll body)) := by
      simp [hc]
    have hread := statementsIn_eq hitems (Node.span_of_members hc)
      fun s hs ↦ (hbody _ (Part.stmt_mem_all.mpr hs)).1.lower
    rw [functionBody, hchild, ok_bind, Node.type_of_members hc, ok_bind, if_pos htype, hread]
    rfl
  | concise result =>
    obtain ⟨hread, hresult⟩ := hbody _ List.mem_cons_self
    rw [FunctionBody.encode] at h
    obtain ⟨c, hc, hchild, -, hexpression⟩ := expression_of_lookup h hread
    have htype : StatementType.ofText? result.nodeType ≠ some .block := by
      rw [ofText?_nodeType hresult]
      exact nofun
    rw [functionBody, hchild, ok_bind, (Node.of_encode_expr hc).1, ok_bind, if_neg htype,
      hexpression]
    rfl

theorem supportedFunction_eq {code : FunctionNode}
    (h : node.members = nodeMembers type code.span code.fields)
    (hbody : ∀ x ∈ Part.ofBody code.body, r.Knows x ∧ x.Expressible) :
    r.supportedFunction node code.kind = .ok (.inr code) := by
  obtain ⟨kind, name, params, body, span⟩ := code
  rw [FunctionNode.fields] at h
  have hspan := Node.span_of_members h
  have hflag {flag : Text} (hflag : flag = "async" ∨ flag = "generator") :
      node.flag flag = false := by
    apply Node.flag_of_lookup_none
    rcases hflag with rfl | rfl <;> simp [h]
  have hname : node.nameIn "id" = .ok name :=
    nameIn_labelOfText span (by simp [h])
  obtain ⟨hparams, hlist⟩ : ∃ hparams, node.list "params" =
      .ok (Fragment.ofItems (params.map (encodeName · span)) hparams) :=
    Node.list_of_lookup (by simp [h])
  have hread : r.functionBody node = .ok body :=
    functionBody_eq span (by simp [h]) hbody
  have hfunction : r.function node kind = .ok ⟨kind, name, params, body, span⟩ := by
    rw [function, hspan, ok_bind, hname, ok_bind, hlist, ok_bind, parameterNames_eq rfl, ok_bind,
      hread]
    rfl
  rw [supportedFunction, hspan, ok_bind, hflag (.inl rfl), hflag (.inr rfl)]
  rw [if_neg (by decide), hlist, ok_bind, parameterPattern?_eq rfl, ok_bind]
  dsimp only
  rw [hfunction]
  rfl

/-! ## Expressions -/

/-- An operator is found again by its spelling. -/
theorem operator_eq {α : Type} {family spelling : String} {ofText? : Text → Option α} {op : α}
    (h : Json.lookup "operator" node.members = some (.text spelling))
    (hop : ofText? spelling = some op) : node.operator family ofText? = .ok op := by
  rw [Node.operator, Node.text_of_lookup h, ok_bind, hop]
  rfl

/-- A literal is read from its value, which is a scalar. -/
theorem literal_eq {value : Json} {e : Expr}
    (h : node.members = nodeMembers type span [("value", value)])
    (he : (value = .null ∧ e = .null span) ∨ (∃ b, value = .bool b ∧ e = .bool b span) ∨
      (∃ x, value = .number x ∧ e = .number x span) ∨ ∃ t, value = .text t ∧ e = .text t span) :
    node.literal = .ok e := by
  have hregex : (node.has "regex" || node.has "bigint") = false := by
    rw [Node.has_of_lookup_none (by simp [h]), Node.has_of_lookup_none (by simp [h])]
    rfl
  obtain ⟨fragment, hrequired, hjson⟩ : ∃ fragment, node.required "value" = .ok fragment ∧
      fragment.json = value := Node.required_of_lookup (by simp [h])
  rw [Node.literal, Node.span_of_members h, ok_bind]
  dsimp only
  rw [hregex, if_neg Bool.false_ne_true, hrequired, ok_bind, hjson]
  rcases he with ⟨rfl, rfl⟩ | ⟨b, rfl, rfl⟩ | ⟨x, rfl, rfl⟩ | ⟨t, rfl, rfl⟩ <;> rfl

/-- A key that is a plain name is read as the text that it is. -/
theorem key_of_encodeName {k : Nat} {r : Loader k} {c : Node k} {name : Text}
    (hc : c.members = nodeMembers "Identifier" span [("name", .text name)]) :
    r.key c false = .ok (.text name span) := by
  have htype : ExpressionType.ofText? "Identifier" = some .identifier :=
    ExpressionType.ofText?_name .identifier
  rw [key, if_neg Bool.false_ne_true, Node.type_of_members hc, Except.map_ok, ok_bind]
  simp only [htype, decide_true, if_true, text_of_encodeName hc, ok_bind, Node.span_of_members hc]
  rfl

/-- A key that is computed, or no plain name, is read as an expression. -/
theorem key_of_encode {k : Nat} {r : Loader k} {c : Node k} {e : Expr} {computed : Bool}
    (hc : e.encode = .object c.members) (he : r.expression c = .ok e)
    (hkey : computed = true ∨ e.IsText) : r.key c computed = .ok e := by
  cases computed with
  | true => exact he
  | false =>
    cases e with
    | text value span =>
      have htype : ExpressionType.ofText? (Expr.text value span).nodeType = some .literal :=
        ExpressionType.ofText?_name .literal
      rw [key, if_neg Bool.false_ne_true, (Node.of_encode_expr hc).1, Except.map_ok, htype, ok_bind]
      exact he
    | _ => simp [Expr.IsText] at hkey

/-- A property with a key is read from its key and its value. -/
theorem reads_property {p : Property} (hp : p.IsKeyed)
    (hparts : ∀ x ∈ Part.ofOption p.key ++ [.expr p.value], r.Knows x) :
    Reads r.property (p.encode span) p := by
  obtain ⟨key, value, computed⟩ := p
  obtain ⟨k, rfl, hk⟩ := hp
  refine ⟨_, rfl, fun node h ↦ ?_⟩
  obtain ⟨_, hkind⟩ : ∃ hj, node.field? "kind" = some ⟨.text "init", hj⟩ :=
    Node.field?_of_lookup (by simp [h])
  have hmethod : node.flag "method" = false := Node.flag_of_lookup_none (by simp [h])
  have hcomputed : node.flag "computed" = computed := Node.flag_of_lookup (by simp [h])
  have hvalue : r.expressionIn node "value" = .ok value :=
    expressionIn_eq (by simp [h]) (hparts _ (by simp))
  obtain ⟨c, hc, hchild, -, hread⟩ : ∃ c, k.encode = .object c.members ∧
      node.child "key" = .ok c ∧ node.child? "key" = some c ∧ r.expression c = .ok k :=
    expression_of_lookup (by simp [h, Expr.encode?]) (hparts _ (by simp))
  have hkey : r.key c computed = .ok k := key_of_encode hc hread hk
  rw [property, Node.type_of_members h, ok_bind]
  simp only [hkind, hmethod, hcomputed, hvalue, hchild, hkey, ok_bind, beq_self_eq_true,
    Bool.not_false, Bool.and_self, if_true]
  rfl

/-- An object literal is read property by property. -/
theorem object_eq {properties : List Property}
    (h : Json.lookup "properties" node.members =
      some (.array (Property.encodeAll span properties)))
    (hkeyed : ∀ p ∈ properties, p.IsKeyed)
    (hparts : ∀ p ∈ properties, ∀ x ∈ Part.ofOption p.key ++ [.expr p.value], r.Knows x) :
    r.object node span = .ok (.object properties span) := by
  obtain ⟨hitems, hlist⟩ := node.list_of_lookup h
  have hread (p : Property) (hp : p ∈ properties) : Reads r.lower.property (p.encode span) p :=
    reads_property (hkeyed p hp) fun x hx ↦ (hparts p hp x hx).lower
  have hproperties : (Fragment.ofItems _ hitems).mapM (fun fragment ↦ do
      r.lower.property (← fragment.asNode "properties" span)) = .ok properties :=
    mapM_ofItems (Property.encodeAll_eq span properties)
      (fun p hp hj ↦ (hread p hp).asNode hj _ span) hitems
  rw [object, hlist, ok_bind, hproperties]
  rfl

/-- A member is read from its object and its key. -/
theorem member_eq {object property : Expr} {computed : Bool}
    (hproperty : computed = true ∨ property.IsText)
    (hparts : ∀ x ∈ [Part.expr object, .expr property], r.Knows x)
    (h : (Expr.member object property computed span).encode = .object node.members) :
    node.flag "optional" = false ∧
      r.member node span = .ok (.member object property computed span) := by
  obtain ⟨key, hencode, hkey⟩ := Expr.exists_encode_member object property computed span
  have hm := (Json.object.inj (hencode.symm.trans h)).symm
  have hcomputed : node.flag "computed" = computed := Node.flag_of_lookup (by simp [hm])
  have hobject : r.expressionIn node "object" = .ok object :=
    expressionIn_eq (by simp [hm]) (hparts _ (by simp))
  obtain ⟨c, hchild, hread⟩ :
      ∃ c, node.child "property" = .ok c ∧ r.key c computed = .ok property := by
    rcases hkey with rfl | ⟨name, place, rfl, rfl, rfl⟩
    · obtain ⟨c, hc, hchild, -, hread⟩ : ∃ c, property.encode = .object c.members ∧
          node.child "property" = .ok c ∧ node.child? "property" = some c ∧
            r.expression c = .ok property :=
        expression_of_lookup (by simp [hm]) (hparts _ (by simp))
      exact ⟨c, hchild, key_of_encode hc hread hproperty⟩
    · obtain ⟨c, hc, hchild, -⟩ : ∃ c : Node (n - 1),
          c.members = nodeMembers "Identifier" place [("name", .text name)] ∧
            node.child "property" = .ok c ∧ node.child? "property" = some c :=
        Node.child_of_lookup (by simp [hm, encodeName, encodeNode])
      exact ⟨c, hchild, key_of_encodeName hc⟩
  refine ⟨Node.flag_of_lookup_none (by simp [hm]), ?_⟩
  rw [member]
  simp only [hcomputed, hchild, hread, hobject, ok_bind]
  rfl

theorem expressionStep_eq {e : Expr} (he : (Part.expr e).Expressible)
    (hparts : ∀ y, y.Inside (.expr e) → r.Knows y ∧ y.Expressible)
    (h : e.encode = .object node.members) : r.expressionStep node = .ok e := by
  have hpart {y : Part} (hy : y ∈ Part.ofExpr e) : r.Knows y := (hparts y (.single hy)).1
  obtain ⟨fields, hencode⟩ := e.exists_encode_eq
  have hmembers := (Json.object.inj (hencode.symm.trans h)).symm
  have hspan := Node.span_of_members hmembers
  rw [expressionStep, Node.type_of_members hmembers, ok_bind, hspan, ok_bind]
  dsimp only
  rw [e.ofText?_nodeType]
  cases e with
  | identifier name span =>
    have hm := (Json.object.inj h).symm
    simp only [Expr.type?, text_of_encodeName hm, ok_bind]
    rfl
  | number value span =>
    exact literal_eq (Json.object.inj h).symm (.inr (.inr (.inl ⟨value, rfl, rfl⟩)))
  | text value span =>
    exact literal_eq (Json.object.inj h).symm (.inr (.inr (.inr ⟨value, rfl, rfl⟩)))
  | bool value span =>
    exact literal_eq (Json.object.inj h).symm (.inr (.inl ⟨value, rfl, rfl⟩))
  | null span =>
    exact literal_eq (Json.object.inj h).symm (.inl ⟨rfl, rfl⟩)
  | receiver span =>
    rfl
  | binary op left right span =>
    have hm := (Json.object.inj h).symm
    have hop : node.operator "binary" BinaryOp.ofText? = .ok op :=
      operator_eq (by simp [hm]) op.ofText?_spelling
    have hleft : r.expressionIn node "left" = .ok left :=
      expressionIn_eq (by simp [hm]) (hpart (by simp [Part.ofExpr]))
    have hright : r.expressionIn node "right" = .ok right :=
      expressionIn_eq (by simp [hm]) (hpart (by simp [Part.ofExpr]))
    simp only [Expr.type?, hop, hleft, hright, ok_bind]
    rfl
  | logical op left right span =>
    have hm := (Json.object.inj h).symm
    have hop : node.operator "logical" LogicalOp.ofText? = .ok op :=
      operator_eq (by simp [hm]) op.ofText?_spelling
    have hleft : r.expressionIn node "left" = .ok left :=
      expressionIn_eq (by simp [hm]) (hpart (by simp [Part.ofExpr]))
    have hright : r.expressionIn node "right" = .ok right :=
      expressionIn_eq (by simp [hm]) (hpart (by simp [Part.ofExpr]))
    simp only [Expr.type?, hop, hleft, hright, ok_bind]
    rfl
  | unary op operand span =>
    have hm := (Json.object.inj h).symm
    have hop : node.operator "unary" UnaryOp.ofText? = .ok op :=
      operator_eq (by simp [hm]) op.ofText?_spelling
    have hoperand : r.expressionIn node "argument" = .ok operand :=
      expressionIn_eq (by simp [hm]) (hpart (by simp [Part.ofExpr]))
    simp only [Expr.type?, hop, hoperand, ok_bind]
    rfl
  | assign op target value span =>
    have hm := (Json.object.inj h).symm
    have hop : node.operator "assignment" AssignOp.ofText? = .ok op :=
      operator_eq (by simp [hm]) op.ofText?_spelling
    have htarget : r.expressionIn node "left" = .ok target :=
      expressionIn_eq (by simp [hm]) (hpart (by simp [Part.ofExpr]))
    have hvalue : r.expressionIn node "right" = .ok value :=
      expressionIn_eq (by simp [hm]) (hpart (by simp [Part.ofExpr]))
    simp only [Expr.type?, hop, htarget, hvalue, ok_bind]
    rfl
  | update op leading target span =>
    have hm := (Json.object.inj h).symm
    have hop : node.operator "update" UpdateOp.ofText? = .ok op :=
      operator_eq (by simp [hm]) op.ofText?_spelling
    have hleading : node.flag "prefix" = leading := Node.flag_of_lookup (by simp [hm])
    have htarget : r.expressionIn node "argument" = .ok target :=
      expressionIn_eq (by simp [hm]) (hpart (by simp [Part.ofExpr]))
    simp only [Expr.type?, hop, hleading, htarget, ok_bind]
    rfl
  | call callee arguments span =>
    have hm := (Json.object.inj h).symm
    have hoptional : node.flag "optional" = false := Node.flag_of_lookup_none (by simp [hm])
    have hcallee : r.expressionIn node "callee" = .ok callee :=
      expressionIn_eq (by simp [hm]) (hpart (by simp [Part.ofExpr]))
    have harguments : r.expressionsIn node "arguments" = .ok arguments :=
      expressionsIn_eq (by simp [hm]) hspan fun e he ↦ hpart (by simp [Part.ofExpr, he])
    simp only [Expr.type?, hoptional, hcallee, harguments, ok_bind, Bool.false_eq_true, if_false]
    rfl
  | member object property computed span =>
    obtain ⟨hoptional, hmember⟩ := member_eq he (fun x hx ↦ hpart hx) h
    simp only [Expr.type?, hoptional, Bool.false_eq_true, if_false]
    exact hmember
  | conditional test consequent alternate span =>
    have hm := (Json.object.inj h).symm
    have htest : r.expressionIn node "test" = .ok test :=
      expressionIn_eq (by simp [hm]) (hpart (by simp [Part.ofExpr]))
    have hconsequent : r.expressionIn node "consequent" = .ok consequent :=
      expressionIn_eq (by simp [hm]) (hpart (by simp [Part.ofExpr]))
    have halternate : r.expressionIn node "alternate" = .ok alternate :=
      expressionIn_eq (by simp [hm]) (hpart (by simp [Part.ofExpr]))
    simp only [Expr.type?, htest, hconsequent, halternate, ok_bind]
    rfl
  | array elements span =>
    have hm := (Json.object.inj h).symm
    have helements : r.expressionsIn node "elements" = .ok elements :=
      expressionsIn_eq (by simp [hm]) hspan fun e he ↦ hpart (by simp [Part.ofExpr, he])
    simp only [Expr.type?, helements, ok_bind]
    rfl
  | object properties span =>
    have hm := (Json.object.inj h).symm
    exact object_eq (by simp [hm, Expr.span]) he fun p hp x hx ↦
      hpart (List.mem_flatMap.mpr ⟨p, hp, hx⟩)
  | sequence items span =>
    have hm := (Json.object.inj h).symm
    have hitems : r.expressionsIn node "expressions" = .ok items :=
      expressionsIn_eq (by simp [hm]) hspan fun e he ↦ hpart (by simp [Part.ofExpr, he])
    simp only [Expr.type?, hitems, ok_bind]
    rfl
  | function code span =>
    obtain ⟨hkind, rfl⟩ := he
    have hread : r.supportedFunction node code.kind = .ok (.inr code) :=
      supportedFunction_eq (Json.object.inj h).symm fun x hx ↦
        hparts x (Part.inside_function hx List.mem_cons_self)
    obtain ⟨kind, name, params, body, span⟩ := code
    cases kind with
    | declaration => exact absurd rfl hkind
    | expression | arrow =>
      simp only [Expr.type?, functionLiteral, hread, ok_bind]
      rfl
  | unsupported type span => exact he.elim

/-! ## Statements -/

theorem declarationKind?_keyword (kind : DeclarationKind) :
    declarationKind? kind.keyword = some kind := by
  cases kind <;> simp [declarationKind?, DeclarationKind.keyword]

/-- The names of a declaration are read one by one, with their initial values. -/
theorem declarators_eq {k : Nat} {r : Loader k} {ds : List Declarator} {js : List Json}
    (hjs : js = ds.map (Declarator.encode span)) (hheight : Json.itemsHeight js ≤ k)
    (hparts : ∀ d ∈ ds, ∀ e, d.init = some e → r.Knows (.expr e)) :
    r.declarators span (Fragment.ofItems js hheight) = .ok (.inr ds) := by
  subst hjs
  induction ds with
  | nil => rfl
  | cons d rest ih =>
    have hrest := ih fun d hd ↦ hparts d (List.mem_cons_of_mem _ hd)
    have hinit := hparts _ List.mem_cons_self
    obtain ⟨name, init⟩ := d
    have hd : (Declarator.encode span ⟨name, init⟩).height ≤ k :=
      Nat.le_trans (Nat.le_max_left _ _) hheight
    obtain ⟨node, hnode, hm⟩ : ∃ node, Fragment.asNode ⟨_, hd⟩ "declarations" span = .ok node ∧
        node.members = nodeMembers "VariableDeclarator" span
          [("id", encodeName name span), ("init", Expr.encode? init)] := ⟨_, rfl, rfl⟩
    obtain ⟨c, hc, hchild, -⟩ : ∃ c : Node (k - 1),
        c.members = nodeMembers "Identifier" span [("name", .text name)] ∧
          node.child "id" = .ok c ∧ node.child? "id" = some c :=
      Node.child_of_lookup (by simp [hm, encodeName, encodeNode])
    have hname : node.childName "id" = .ok name := by
      rw [Node.childName, hchild, ok_bind, text_of_encodeName hc]
    have hread : r.lower.expressionIn? node "init" = .ok init :=
      expressionIn?_eq (by simp [hm]) fun e he ↦ (hinit e he).lower
    change (Fragment.asNode ⟨_, hd⟩ "declarations" span >>= _) = _
    rw [hnode, ok_bind, hchild, ok_bind, pattern?_of_encodeName hc, ok_bind]
    simp only [hname, hread, hrest, ok_bind]
    rfl

theorem reads_switchCase {c : SwitchCase}
    (hparts : ∀ x ∈ Part.ofOption c.test ++ Part.all c.body, r.Knows x) :
    Reads r.switchCase (c.encode span) c := by
  obtain ⟨test, body⟩ := c
  refine ⟨_, rfl, fun node h ↦ ?_⟩
  have htest : r.expressionIn? node "test" = .ok test :=
    expressionIn?_eq (by simp [h]) fun e he ↦ hparts _ (by simp [he])
  have hbody : r.statementsIn node "consequent" = .ok body :=
    statementsIn_eq (by simp [h]) (Node.span_of_members h) fun s hs ↦ hparts _ (by simp [hs])
  rw [switchCase, htest, ok_bind, hbody]
  rfl

theorem handler_eq {param : Option Text} {body : List Stmt} {place : Span}
    (h : node.members = nodeMembers type span
      [("param", encodeName? param place),
        ("body", encodeNode "BlockStatement" place [("body", .array (Stmt.encodeAll body))])])
    (hparts : ∀ s ∈ body, r.Knows (.stmt s)) : r.handler node = .ok (.inr ⟨param, body⟩) := by
  have hbody : r.blockIn node "body" = .ok body := blockIn_eq place (by simp [h]) hparts
  cases param with
  | none =>
    rw [handler, Node.child?_of_lookup_null (by simp [h, encodeName?])]
    simp only [hbody, ok_bind]
    rfl
  | some name =>
    obtain ⟨c, hc, -, hchild⟩ : ∃ c : Node (n - 1),
        c.members = nodeMembers "Identifier" place [("name", .text name)] ∧
          node.child "param" = .ok c ∧ node.child? "param" = some c :=
      Node.child_of_lookup (by simp [h, encodeName?, encodeName, encodeNode])
    rw [handler, hchild]
    simp only [pattern?_of_encodeName hc, text_of_encodeName hc, hbody, ok_bind]
    rfl

theorem blockIn?_eq (place : Span) {body : Option (List Stmt)}
    (h : Json.lookup field node.members = some (Stmt.encodeBlock? place body))
    (hparts : ∀ s ∈ body.getD [], r.Knows (.stmt s)) : r.blockIn? node field = .ok body := by
  cases body with
  | none => rw [blockIn?, Node.child?_of_lookup_null h]
  | some body =>
    rw [Stmt.encodeBlock?] at h
    obtain ⟨c, hc, -, hchild⟩ := node.child_of_lookup h
    rw [blockIn?, hchild, blockIn_eq place h hparts]
    rfl

/-- What stands in front of a loop is read as a declaration or as an expression. -/
theorem initializer_eq {init : Option Stmt}
    (h : Json.lookup "init" node.members = some (Stmt.encodeInit init))
    (hinit : ∀ s ∈ init, s.Initializes) (hknown : ∀ s ∈ init, r.Knows (.stmt s))
    (hparts : ∀ s ∈ init, ∀ x ∈ Part.ofStmt s, r.Knows x ∧ x.Expressible) :
    r.initializer node = .ok init := by
  cases init with
  | none => rw [initializer, Node.child?_of_lookup_null h]
  | some s =>
    cases s with
    | declare kind ds span =>
      obtain ⟨c, hc, -, hchild, hread⟩ := statement_of_lookup h (hknown _ rfl)
      rw [initializer, hchild]
      dsimp only
      rw [(Node.of_encode_stmt hc).1, ok_bind, Stmt.ofText?_nodeType, Stmt.type?, if_pos rfl, hread]
      rfl
    | expression value span =>
      obtain rfl := hinit _ rfl
      obtain ⟨hvalue, hexpressible⟩ := hparts _ rfl (.expr value) List.mem_cons_self
      obtain ⟨c, hc, -, hchild, hread⟩ := expression_of_lookup h hvalue
      rw [initializer, hchild]
      dsimp only
      rw [(Node.of_encode_expr hc).1, ok_bind, ofText?_nodeType hexpressible,
        if_neg (Option.some_ne_none _).symm, hread, ok_bind, (Node.of_encode_expr hc).2]
      rfl
    | _ => exact (hinit _ rfl).elim

theorem statementStep_eq {s : Stmt} (hs : (Part.stmt s).Expressible)
    (hparts : ∀ y, y.Inside (.stmt s) → r.Knows y ∧ y.Expressible)
    (h : s.encode = .object node.members) : r.statementStep node = .ok s := by
  have hpart {y : Part} (hy : y ∈ Part.ofStmt s) : r.Knows y := (hparts y (.single hy)).1
  obtain ⟨fields, hencode⟩ := s.exists_encode_eq
  have hmembers := (Json.object.inj (hencode.symm.trans h)).symm
  have hspan := Node.span_of_members hmembers
  rw [statementStep, Node.type_of_members hmembers, ok_bind, hspan, ok_bind, s.ofText?_nodeType]
  cases s with
  | declare kind declarators span =>
    have hm := (Json.object.inj h).symm
    have hkind : node.text "kind" = .ok kind.keyword := Node.text_of_lookup (by simp [hm])
    obtain ⟨hitems, hlist⟩ : ∃ hitems, node.list "declarations" =
        .ok (Fragment.ofItems (Declarator.encodeAll span declarators) hitems) :=
      Node.list_of_lookup (by simp [hm])
    have hread := declarators_eq (Declarator.encodeAll_eq span declarators) hitems
      fun d hd e he ↦ hpart (List.mem_flatMap.mpr ⟨d, hd, by simp [he]⟩)
    simp only [Stmt.type?, declaration, hkind, declarationKind?_keyword, Stmt.span, hlist, hread,
      ok_bind]
    rfl
  | function code span =>
    obtain ⟨hkind, rfl⟩ := hs
    have hread : r.supportedFunction node code.kind = .ok (.inr code) :=
      supportedFunction_eq (Json.object.inj h).symm fun x hx ↦
        hparts x (Part.inside_function hx List.mem_cons_self)
    simp only [Stmt.type?, functionDeclaration, ← hkind, hread, ok_bind]
    rfl
  | returned argument span =>
    have hm := (Json.object.inj h).symm
    have hargument : r.expressionIn? node "argument" = .ok argument :=
      expressionIn?_eq (by simp [hm]) fun e he ↦ hpart (by simp [Part.ofStmt, he])
    simp only [Stmt.type?, hargument, ok_bind]
    rfl
  | expression value span =>
    have hm := (Json.object.inj h).symm
    have hvalue : r.expressionIn node "expression" = .ok value :=
      expressionIn_eq (by simp [hm]) (hpart (by simp [Part.ofStmt]))
    simp only [Stmt.type?, hvalue, ok_bind]
    rfl
  | block body span =>
    have hm := (Json.object.inj h).symm
    have hbody : r.statementsIn node "body" = .ok body :=
      statementsIn_eq (by simp [hm]) hspan fun s hs ↦ hpart (by simp [Part.ofStmt, hs])
    simp only [Stmt.type?, hbody, ok_bind]
    rfl
  | empty span => rfl
  | conditional test consequent alternate span =>
    have hm := (Json.object.inj h).symm
    have htest : r.expressionIn node "test" = .ok test :=
      expressionIn_eq (by simp [hm]) (hpart (by simp [Part.ofStmt]))
    have hconsequent : r.statementIn node "consequent" = .ok consequent :=
      statementIn_eq (by simp [hm]) (hpart (by simp [Part.ofStmt]))
    have halternate : r.statementIn? node "alternate" = .ok alternate :=
      statementIn?_eq (by simp [hm]) fun s hs ↦ hpart (by simp [Part.ofStmt, hs])
    simp only [Stmt.type?, htest, hconsequent, halternate, ok_bind]
    rfl
  | whileLoop test body span =>
    have hm := (Json.object.inj h).symm
    have htest : r.expressionIn node "test" = .ok test :=
      expressionIn_eq (by simp [hm]) (hpart (by simp [Part.ofStmt]))
    have hbody : r.statementIn node "body" = .ok body :=
      statementIn_eq (by simp [hm]) (hpart (by simp [Part.ofStmt]))
    simp only [Stmt.type?, htest, hbody, ok_bind]
    rfl
  | doWhileLoop body test span =>
    have hm := (Json.object.inj h).symm
    have hbody : r.statementIn node "body" = .ok body :=
      statementIn_eq (by simp [hm]) (hpart (by simp [Part.ofStmt]))
    have htest : r.expressionIn node "test" = .ok test :=
      expressionIn_eq (by simp [hm]) (hpart (by simp [Part.ofStmt]))
    simp only [Stmt.type?, htest, hbody, ok_bind]
    rfl
  | forLoop init test update body span =>
    have hm := (Json.object.inj h).symm
    have hinit : r.initializer node = .ok init := by
      refine initializer_eq (by simp [hm]) ?_ (fun s hs ↦ hpart ?_) fun s hs x hx ↦ ?_
      · rintro s rfl
        exact hs
      · simp [Part.ofStmt, Option.mem_def.mp hs]
      · have hinside : x.Inside (.stmt s) := .single hx
        exact hparts x (hinside.tail (by simp [Part.parts, Part.ofStmt, Option.mem_def.mp hs]))
    have htest : r.expressionIn? node "test" = .ok test :=
      expressionIn?_eq (by simp [hm]) fun e he ↦ hpart (by simp [Part.ofStmt, he])
    have hupdate : r.expressionIn? node "update" = .ok update :=
      expressionIn?_eq (by simp [hm]) fun e he ↦ hpart (by simp [Part.ofStmt, he])
    have hbody : r.statementIn node "body" = .ok body :=
      statementIn_eq (by simp [hm]) (hpart (by simp [Part.ofStmt]))
    simp only [Stmt.type?, hinit, htest, hupdate, hbody, ok_bind]
    rfl
  | switch discriminant cases span =>
    have hm := (Json.object.inj h).symm
    have hdiscriminant : r.expressionIn node "discriminant" = .ok discriminant :=
      expressionIn_eq (by simp [hm]) (hpart (by simp [Part.ofStmt]))
    obtain ⟨hitems, hlist⟩ : ∃ hitems, node.list "cases" =
        .ok (Fragment.ofItems (SwitchCase.encodeAll span cases) hitems) :=
      Node.list_of_lookup (by simp [hm])
    have hread (c : SwitchCase) (hc : c ∈ cases) : Reads r.lower.switchCase (c.encode span) c :=
      reads_switchCase fun x hx ↦
        (hpart (List.mem_cons_of_mem _ (List.mem_flatMap.mpr ⟨c, hc, hx⟩))).lower
    have hcases : (Fragment.ofItems _ hitems).mapM (fun fragment ↦ do
        r.lower.switchCase (← fragment.asNode "cases" span)) = .ok cases :=
      mapM_ofItems (SwitchCase.encodeAll_eq span cases)
        (fun c hc hj ↦ (hread c hc).asNode hj _ span) hitems
    simp only [Stmt.type?, hdiscriminant, hlist, ok_bind, Stmt.span, hcases]
    rfl
  | breaking label span =>
    have hm := (Json.object.inj h).symm
    obtain ⟨name, hname, rfl⟩ : ∃ name, node.nameIn "label" = .ok name ∧ labelOfText name = label :=
      labelOfText_nameIn span hs (by simp [hm])
    simp only [Stmt.type?, hname, ok_bind]
    rfl
  | continuing label span =>
    have hm := (Json.object.inj h).symm
    obtain ⟨name, hname, rfl⟩ : ∃ name, node.nameIn "label" = .ok name ∧ labelOfText name = label :=
      labelOfText_nameIn span hs (by simp [hm])
    simp only [Stmt.type?, hname, ok_bind]
    rfl
  | labeled label body span =>
    have hm := (Json.object.inj h).symm
    have hlabel : node.nameIn "label" = .ok label := nameIn_eq span (by simp [hm])
    have hbody : r.statementIn node "body" = .ok body :=
      statementIn_eq (by simp [hm]) (hpart (by simp [Part.ofStmt]))
    simp only [Stmt.type?, hlabel, hbody, ok_bind]
    rfl
  | throwing argument span =>
    have hm := (Json.object.inj h).symm
    have hargument : r.expressionIn node "argument" = .ok argument :=
      expressionIn_eq (by simp [hm]) (hpart (by simp [Part.ofStmt]))
    simp only [Stmt.type?, hargument, ok_bind]
    rfl
  | guarded block handler finalizer span =>
    have hm := (Json.object.inj h).symm
    have hblock : r.blockIn node "block" = .ok block :=
      blockIn_eq span (by simp [hm]) fun s hs ↦ hpart (by simp [Part.ofStmt, hs])
    have hfinalizer : r.blockIn? node "finalizer" = .ok finalizer :=
      blockIn?_eq span (by simp [hm]) fun s hs ↦ hpart (by simp [Part.ofStmt, hs])
    have hlookup : Json.lookup "handler" node.members = some (Handler.encode? span handler) := by
      simp [hm]
    simp only [Stmt.type?, Stmt.span, guarded, hblock, ok_bind]
    cases handler with
    | none =>
      simp only [node.child?_of_lookup_null hlookup, hfinalizer, ok_bind]
      rfl
    | some handler =>
      obtain ⟨param, body⟩ := handler
      rw [Handler.encode?] at hlookup
      obtain ⟨c, hc, -, hchild⟩ := node.child_of_lookup hlookup
      have hhandler : r.lower.handler c = .ok (.inr ⟨param, body⟩) :=
        handler_eq hc fun s hs ↦ (hpart (by simp [Part.ofStmt, hs])).lower
      simp only [hchild, hhandler, hfinalizer, ok_bind]
      rfl
  | unsupported type span => exact hs.elim

end Loader

end Estree

end EcmaTree
