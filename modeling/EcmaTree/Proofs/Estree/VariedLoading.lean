import EcmaTree.Proofs.Estree.VariedFields

/-!
# Loading nodes that vary

Nodes that vary in nothing that is looked up are loaded as the same, with the same error if they
cannot be loaded. The proof runs the loader on both documents at once, one lemma for each of its
functions. The bounds of the two runs are independent, since parentheses make a document higher.
-/

namespace EcmaTree.Estree

variable {n n' : Nat}

/-! ## The loader -/

/-- Nodes that vary are loaded as the same by both loaders. -/
structure Loader.Agrees (r : Loader n) (r' : Loader n') : Prop where
  expression {node : Node n} {node' : Node n'} (h : node.Vary .expression node') :
    r.expression node = r'.expression node'
  statement {node : Node n} {node' : Node n'} (h : node.Vary .statement node') :
    r.statement node = r'.statement node'

theorem Loader.Agrees.lower {r : Loader n} {r' : Loader n'} (h : r.Agrees r') :
    r.lower.Agrees r'.lower where
  expression hnode := h.expression hnode.up
  statement hnode := h.statement hnode.up

namespace Loader

variable {node : Node n} {node' : Node n'} {r : Loader (n - 1)} {r' : Loader (n' - 1)}
  {field : Text}

/-! ### Fields -/

theorem expressionIn_agree (hr : r.Agrees r') (h : node.Alike node')
    (hfield : node.AgreeOn node' field (.node .expression)) :
    r.expressionIn node field = r'.expressionIn node' field :=
  (Node.child_agree h hfield).bind_eq fun _ _ hc ↦ hr.expression hc

theorem statementIn_agree (hr : r.Agrees r') (h : node.Alike node')
    (hfield : node.AgreeOn node' field (.node .statement)) :
    r.statementIn node field = r'.statementIn node' field :=
  (Node.child_agree h hfield).bind_eq fun _ _ hc ↦ hr.statement hc

theorem expressionIn?_agree (hr : r.Agrees r')
    (hfield : node.AgreeOn node' field (.node .expression)) :
    r.expressionIn? node field = r'.expressionIn? node' field := by
  rw [expressionIn?, expressionIn?]
  rcases Node.child?_cases hfield with ⟨hc, hc'⟩ | ⟨c, c', hc, hc', hvary⟩
  · rw [hc, hc']
  · rw [hc, hc']
    exact congrArg (some <$> ·) (hr.expression hvary)

theorem statementIn?_agree (hr : r.Agrees r')
    (hfield : node.AgreeOn node' field (.node .statement)) :
    r.statementIn? node field = r'.statementIn? node' field := by
  rw [statementIn?, statementIn?]
  rcases Node.child?_cases hfield with ⟨hc, hc'⟩ | ⟨c, c', hc, hc', hvary⟩
  · rw [hc, hc']
  · rw [hc, hc']
    exact congrArg (some <$> ·) (hr.statement hvary)

theorem statementsIn_agree (hr : r.Agrees r') (h : node.Alike node')
    (hfield : node.AgreeOn node' field (.list .statement)) :
    r.statementsIn node field = r'.statementsIn node' field := by
  rw [statementsIn, statementsIn]
  refine (Node.list_agree h hfield).bind_eq fun l l' hl ↦ Agree.mapM_eq hl fun x x' hx ↦ ?_
  rw [h.span_eq]
  exact bind_congr fun span ↦
    (Fragment.asNode_agree hx field span).bind_eq fun _ _ hc ↦ hr.statement hc

theorem expressionsIn_agree (hr : r.Agrees r') (h : node.Alike node')
    (hfield : node.AgreeOn node' field (.list .expression)) :
    r.expressionsIn node field = r'.expressionsIn node' field := by
  rw [expressionsIn, expressionsIn]
  refine (Node.list_agree h hfield).bind_eq fun l l' hl ↦ Agree.mapM_eq hl fun x x' hx ↦ ?_
  have hnull := Varies.null_iff hx
  split
  · next hx =>
    rw [hnull.mp hx]
  · next hx =>
    split
    · next hx' => exact absurd (hnull.mpr hx') hx
    · rw [h.span_eq]
      refine bind_congr fun span ↦ (Fragment.asNode_agree ‹_› field span).bind_eq fun c c' hc ↦ ?_
      rw [hr.expression hc]

theorem blockIn_agree (hr : r.Agrees r') (h : node.Alike node')
    (hfield : node.AgreeOn node' field (.node .block)) :
    r.blockIn node field = r'.blockIn node' field := by
  rw [blockIn, blockIn]
  refine (Node.child_agree h hfield).bind_eq fun c c' hc ↦ ?_
  have hmatches := hc.matches (by decide) (by decide)
  refine hmatches.alike.bind_type fun type htype ↦ ?_
  split
  · next hblock =>
    have hfields : Role.block.ownFields (Role.typeIn c.members) (Role.computedIn c.members) =
        StatementType.block.fields := by
      rw [Node.typeIn_of_type htype]
      exact if_pos hblock
    exact statementsIn_agree hr.lower hmatches.alike (hmatches.own hfields List.mem_cons_self)
  · exact h.fail_eq _

theorem blockIn?_agree (hr : r.Agrees r') (h : node.Alike node')
    (hfield : node.AgreeOn node' field (.node .block)) :
    r.blockIn? node field = r'.blockIn? node' field := by
  rw [blockIn?, blockIn?]
  rcases Node.child?_cases hfield with ⟨hc, hc'⟩ | ⟨c, c', hc, hc', -⟩
  · rw [hc, hc']
  · rw [hc, hc']
    exact congrArg (some <$> ·) (blockIn_agree hr h hfield)

/-! ### Functions -/

theorem functionBody_agree (hr : r.Agrees r') (h : node.Alike node')
    (hfield : node.AgreeOn node' "body" (.node .body)) :
    r.functionBody node = r'.functionBody node' := by
  rw [functionBody, functionBody]
  refine (Node.child_agree h hfield).bind_eq fun c c' hc ↦ ?_
  rcases Varies.fields_or_wrapped hc with hmatches | ⟨inner, hwraps, hothers, hinner⟩
  · have hmatches : c.Matches .body c' := hmatches
    refine hmatches.alike.bind_type fun type htype ↦ ?_
    split
    · next hblock =>
      have hfields : Role.body.ownFields (Role.typeIn c.members) (Role.computedIn c.members) =
          StatementType.block.fields := by
        rw [Node.typeIn_of_type htype]
        exact if_pos hblock
      rw [statementsIn_agree hr.lower hmatches.alike (hmatches.own hfields List.mem_cons_self)]
    · next hblock =>
      have hvary : c.Vary .expression c' := by
        apply hmatches.vary
        rw [Node.typeIn_of_type htype]
        exact (if_neg hblock).symm
      rw [hr.expression hvary]
  · -- Both are told from a block by their types, and then loaded as expressions.
    obtain ⟨⟨⟩⟩ | ⟨-, type, htype, hblock⟩ := hwraps
    have hparenthesized : StatementType.ofText? "ParenthesizedExpression" ≠ some .block := by
      decide
    have hvary : c.Vary .expression c' := .wrapped (.inl rfl) hothers hinner
    rw [Node.type_of_lookup htype, Node.type_of_lookup hothers.type, ok_bind, ok_bind,
      if_neg hblock, if_neg hparenthesized, hr.expression hvary]

variable {kind : FunctionKind}

theorem function_agree (hr : r.Agrees r') (h : node.Alike node')
    (hfields : ∀ p ∈ functionFields, node.AgreeOn node' p.1 p.2) :
    r.function node kind = r'.function node' kind := by
  rw [function, function, h.span_eq, Node.nameIn_eq (hfields ("id", .node .name) (by decide)),
    functionBody_agree hr h (hfields ("body", .node .body) (by decide))]
  refine bind_congr fun span ↦ bind_congr fun name ↦ ?_
  refine (Node.list_agree h (hfields ("params", .list .name) (by decide))).bind_eq
    fun l l' hl ↦ ?_
  rw [parameterNames_agree span hl]

theorem supportedFunction_agree (hr : r.Agrees r') (h : node.Alike node')
    (hfields : ∀ p ∈ functionFields, node.AgreeOn node' p.1 p.2) :
    r.supportedFunction node kind = r'.supportedFunction node' kind := by
  rw [supportedFunction, supportedFunction, h.span_eq, h.type_eq, function_agree hr h hfields,
    Node.flag_eq (hfields ("async", .leaf) (by decide)),
    Node.flag_eq (hfields ("generator", .leaf) (by decide))]
  refine bind_congr fun span ↦ ?_
  split
  · rfl
  · refine (Node.list_agree h (hfields ("params", .list .name) (by decide))).bind_eq
      fun l l' hl ↦ ?_
    rw [parameterPattern?_agree span hl]

theorem functionLiteral_agree (hr : r.Agrees r') (h : node.Alike node')
    (hfields : ∀ p ∈ functionFields, node.AgreeOn node' p.1 p.2) :
    r.functionLiteral node kind = r'.functionLiteral node' kind := by
  rw [functionLiteral, functionLiteral, supportedFunction_agree hr h hfields]

theorem functionDeclaration_agree (hr : r.Agrees r') (h : node.Alike node')
    (hfields : ∀ p ∈ functionFields, node.AgreeOn node' p.1 p.2) :
    r.functionDeclaration node = r'.functionDeclaration node' := by
  rw [functionDeclaration, functionDeclaration, supportedFunction_agree hr h hfields]

/-! ### Expressions -/

theorem literal_agree (h : node.Alike node')
    (hfields : ∀ p ∈ ExpressionType.literal.fields false, node.AgreeOn node' p.1 p.2) :
    node.literal = node'.literal := by
  rw [Node.literal, Node.literal, h.span_eq,
    Node.has_eq (hfields ("regex", .leaf) (by decide)),
    Node.has_eq (hfields ("bigint", .leaf) (by decide))]
  refine bind_congr fun span ↦ ?_
  dsimp only
  split
  · rfl
  · refine (Node.required_agree h (hfields ("value", .leaf) (by decide))).bind_eq
      fun x x' hvaries ↦ ?_
    rcases hvaries.leaf_cases with hx | ⟨_, _, hx, hx'⟩ | ⟨_, _, hx, hx'⟩
    · rw [hx]
    all_goals rw [hx, hx']

/-- A key that is computed is any expression, and any other is told by its type. -/
theorem key_agree {r : Loader n} {r' : Loader n'} {computed : Bool} (hr : r.Agrees r')
    (h : node.Vary (if computed then .expression else .key) node') :
    r.key node computed = r'.key node' computed := by
  rw [key, key]
  cases computed with
  | true =>
    rw [if_pos rfl] at h
    exact hr.expression h
  | false =>
    rw [if_neg Bool.false_ne_true] at h
    have hmatches := h.matches (by decide) (by decide)
    rw [if_neg Bool.false_ne_true, if_neg Bool.false_ne_true, ← hmatches.alike.type_eq,
      hmatches.alike.span_eq, hr.expression (hmatches.vary rfl)]
    cases htype : node.type with
    | error => rfl
    | ok type =>
      rw [Except.map_ok, ok_bind, ok_bind]
      by_cases hname : ExpressionType.ofText? type = some .identifier
      · have hfields : Role.key.ownFields (Role.typeIn node.members)
            (Role.computedIn node.members) = ExpressionType.identifier.fields false := by
          rw [Node.typeIn_of_type htype, Role.ownFields, expressionFields, hname]
          rfl
        rw [Node.text_eq hmatches.alike (hmatches.own hfields List.mem_cons_self)]
      · have hother : ¬ decide (ExpressionType.ofText? type = some .identifier) = true := by
          rwa [decide_eq_true_eq]
        dsimp only
        rw [if_neg hother, if_neg hother]

/-- Whether a key is computed decides how it is looked at. -/
theorem computed_eq (node : Node n) : node.flag "computed" = Role.computedIn node.members := by
  rw [Node.flag, Role.computedIn]
  cases hlookup : Json.lookup "computed" node.members with
  | none => rw [Node.field?_of_lookup_none hlookup]
  | some j =>
    obtain ⟨hj, hfield⟩ := Node.field?_of_lookup hlookup
    rw [hfield]
    cases j <;> rfl

theorem property_agree (hr : r.Agrees r') (h : node.Vary .property node') :
    r.property node = r'.property node' := by
  have hmatches := h.matches (by decide) (by decide)
  rw [property, property]
  refine hmatches.alike.bind_type fun type htype ↦ ?_
  by_cases hproperty : type = propertyType
  · have hfields : ∀ p ∈ propertyFields (Role.computedIn node.members),
        node.AgreeOn node' p.1 p.2 := by
      intro p
      refine hmatches.own ?_
      rw [Node.typeIn_of_type htype]
      exact if_pos hproperty
    have hcomputed := Node.flag_eq (hfields ("computed", .leaf) (by simp [propertyFields]))
    have hmethod := Node.flag_eq (hfields ("method", .leaf) (by simp [propertyFields]))
    have hvalue := expressionIn_agree hr hmatches.alike
      (hfields ("value", .node .expression) (by simp [propertyFields]))
    have hkey := hfields ("key",
      .node (if Role.computedIn node.members then .expression else .key))
      (by simp [propertyFields])
    have hload : (do
        let key ← r.key (← node.child "key") (node.flag "computed")
        return ⟨some key, ← r.expressionIn node "value", node.flag "computed"⟩) = (do
        let key ← r'.key (← node'.child "key") (node'.flag "computed")
        return ⟨some key, ← r'.expressionIn node' "value", node'.flag "computed"⟩ :
          Loaded Property) := by
      rw [← hcomputed, computed_eq, hvalue]
      refine (Node.child_agree hmatches.alike hkey).bind_eq fun c c' hc ↦ ?_
      rw [key_agree hr hc]
    dsimp only
    rw [hload, hmethod, hmatches.alike.span_eq]
    rcases Node.leaf_cases (hfields ("kind", .leaf) (by simp [propertyFields])) with ⟨hx, hx'⟩ |
      ⟨j, _, _, hx, hx'⟩ | ⟨_, _, _, _, hx, hx'⟩ | ⟨_, _, _, _, hx, hx'⟩
    all_goals rw [hx, hx']
    cases j <;> rfl
  · have hother : (type == propertyType) = false := beq_eq_false_iff_ne.mpr hproperty
    rw [hother, hmatches.alike.span_eq]
    rfl

theorem object_agree (hr : r.Agrees r') (h : node.Alike node') (span : Span)
    (hfield : node.AgreeOn node' "properties" (.list .property)) :
    r.object node span = r'.object node' span := by
  rw [object, object]
  refine (Node.list_agree h hfield).bind_eq fun l l' hl ↦ ?_
  rw [Agree.mapM_eq hl fun x x' hx ↦ (Fragment.asNode_agree hx "properties" span).bind_eq
    fun _ _ hc ↦ property_agree hr.lower hc]

theorem member_agree (hr : r.Agrees r') (h : node.Alike node') (span : Span)
    (hfields : ∀ p ∈ ExpressionType.member.fields (Role.computedIn node.members),
      node.AgreeOn node' p.1 p.2) : r.member node span = r'.member node' span := by
  have hcomputed := Node.flag_eq (hfields ("computed", .leaf) (by simp [ExpressionType.fields]))
  have hobject := hfields ("object", .node .expression) (by simp [ExpressionType.fields])
  have hkey := hfields ("property",
    .node (if Role.computedIn node.members then .expression else .key))
    (by simp [ExpressionType.fields])
  rw [member, member, ← hcomputed, computed_eq]
  refine (Node.child_agree h hkey).bind_eq fun c c' hc ↦ ?_
  rw [key_agree hr hc, expressionIn_agree hr h hobject]

/-- The fields of an expression of a type. -/
theorem own_of_expressionType {type : Text} {t : ExpressionType}
    (h : node.Matches .expression node') (htype : node.type = .ok type)
    (ht : ExpressionType.ofText? type = some t) :
    ∀ p ∈ t.fields (Role.computedIn node.members), node.AgreeOn node' p.1 p.2 := by
  intro p
  refine h.own ?_
  rw [Node.typeIn_of_type htype, Role.ownFields, expressionFields, ht]
  rfl

theorem expressionStep_agree (hr : r.Agrees r') (h : node.Matches .expression node') :
    r.expressionStep node = r'.expressionStep node' := by
  have halike := h.alike
  rw [expressionStep, expressionStep]
  refine halike.bind_type fun type htype ↦ ?_
  rw [halike.span_eq]
  refine bind_congr fun span ↦ ?_
  dsimp only
  cases ht : ExpressionType.ofText? type with
  | none => rfl
  | some t =>
    have hfields := own_of_expressionType h htype ht
    have hexpression (field : Text)
        (hfield : (field, Slot.node .expression) ∈ t.fields (Role.computedIn node.members)) :
        r.expressionIn node field = r'.expressionIn node' field :=
      expressionIn_agree hr halike (hfields _ hfield)
    have hexpressions (field : Text)
        (hfield : (field, Slot.list .expression) ∈ t.fields (Role.computedIn node.members)) :
        r.expressionsIn node field = r'.expressionsIn node' field :=
      expressionsIn_agree hr halike (hfields _ hfield)
    have hflag (field : Text)
        (hfield : (field, Slot.leaf) ∈ t.fields (Role.computedIn node.members)) :
        node.flag field = node'.flag field := Node.flag_eq (hfields _ hfield)
    have hoperator {α : Type} (family : String) (ofText? : Text → Option α)
        (hfield : (Text.ofString "operator", Slot.leaf) ∈
          t.fields (Role.computedIn node.members)) :
        node.operator family ofText? = node'.operator family ofText? :=
      Node.operator_eq halike (hfields _ hfield) family ofText?
    cases t with
    | identifier =>
      have hname : node.text "name" = node'.text "name" :=
        Node.text_eq halike (hfields ("name", .leaf) (by simp [ExpressionType.fields]))
      dsimp only
      rw [hname]
    | literal => exact literal_agree halike hfields
    | receiver => rfl
    | parenthesized => exact hexpression "expression" (by simp [ExpressionType.fields])
    | binary | logical | assignment =>
      dsimp only
      rw [hoperator _ _ (by simp [ExpressionType.fields]),
        hexpression "left" (by simp [ExpressionType.fields]),
        hexpression "right" (by simp [ExpressionType.fields])]
    | unary =>
      dsimp only
      rw [hoperator _ _ (by simp [ExpressionType.fields]),
        hexpression "argument" (by simp [ExpressionType.fields])]
    | update =>
      dsimp only
      rw [hoperator _ _ (by simp [ExpressionType.fields]),
        hflag "prefix" (by simp [ExpressionType.fields]),
        hexpression "argument" (by simp [ExpressionType.fields])]
    | call =>
      dsimp only
      rw [hflag "optional" (by simp [ExpressionType.fields]),
        hexpression "callee" (by simp [ExpressionType.fields]),
        hexpressions "arguments" (by simp [ExpressionType.fields])]
    | member =>
      dsimp only
      rw [hflag "optional" (by simp [ExpressionType.fields]), member_agree hr halike span hfields]
    | conditional =>
      dsimp only
      rw [hexpression "test" (by simp [ExpressionType.fields]),
        hexpression "consequent" (by simp [ExpressionType.fields]),
        hexpression "alternate" (by simp [ExpressionType.fields])]
    | array =>
      dsimp only
      rw [hexpressions "elements" (by simp [ExpressionType.fields])]
    | object =>
      exact object_agree hr halike span
        (hfields ("properties", .list .property) (by simp [ExpressionType.fields]))
    | sequence =>
      dsimp only
      rw [hexpressions "expressions" (by simp [ExpressionType.fields])]
    | arrow | function => exact functionLiteral_agree hr halike hfields

/-! ### Statements -/

theorem declarators_agree {r : Loader n} {r' : Loader n'} {l : List (Fragment n)}
    {l' : List (Fragment n')} (hr : r.Agrees r') (span : Span)
    (hl : List.Forall₂ (Fragment.Vary .declarator) l l') :
    r.declarators span l = r'.declarators span l' := by
  induction hl with
  | nil => rfl
  | cons hx _ ih =>
    rw [declarators, declarators]
    refine (Fragment.asNode_agree hx _ _).bind_eq fun c c' hc ↦ ?_
    have hmatches := hc.matches (by decide) (by decide)
    have hid : c.AgreeOn c' "id" (.node .name) := hmatches.own rfl List.mem_cons_self
    have hinit : c.AgreeOn c' "init" (.node .expression) :=
      hmatches.own rfl (List.mem_cons_of_mem _ List.mem_cons_self)
    refine (Node.child_agree hmatches.alike hid).bind_eq fun binding binding' hbinding ↦ ?_
    rw [Node.pattern?_eq hbinding]
    refine bind_congr fun pattern ↦ ?_
    cases pattern with
    | some p => rfl
    | none =>
      dsimp only
      rw [Node.childName_eq hmatches.alike hid, expressionIn?_agree hr.lower hinit, ih]

theorem declaration_agree (hr : r.Agrees r') (h : node.Alike node') (span : Span)
    (hfields : ∀ p ∈ StatementType.declaration.fields, node.AgreeOn node' p.1 p.2) :
    r.declaration node span = r'.declaration node' span := by
  rw [declaration, declaration, h.type_eq,
    Node.text_eq h (hfields ("kind", .leaf) List.mem_cons_self)]
  refine bind_congr fun keyword ↦ ?_
  cases declarationKind? keyword with
  | none => rfl
  | some kind =>
    refine (Node.list_agree h (hfields ("declarations", .list .declarator)
      (List.mem_cons_of_mem _ List.mem_cons_self))).bind_eq fun l l' hl ↦ ?_
    rw [declarators_agree hr span hl]

theorem initializer_agree (hr : r.Agrees r')
    (hfield : node.AgreeOn node' "init" (.node .initializer)) :
    r.initializer node = r'.initializer node' := by
  rw [initializer, initializer]
  rcases Node.child?_cases hfield with ⟨hc, hc'⟩ | ⟨c, c', hc, hc', hvary⟩
  · rw [hc, hc']
  · have hmatches := hvary.matches (by decide) (by decide)
    rw [hc, hc']
    refine hmatches.alike.bind_type fun type htype ↦ ?_
    split
    · next hdeclaration =>
      have hstatement : c.Vary .statement c' := by
        apply hmatches.vary
        rw [Node.typeIn_of_type htype, Role.ownFields, statementFields, hdeclaration]
        exact (if_pos hdeclaration).symm
      rw [hr.statement hstatement]
    · next hdeclaration =>
      have hexpression : c.Vary .expression c' := by
        apply hmatches.vary
        rw [Node.typeIn_of_type htype]
        exact (if_neg hdeclaration).symm
      rw [hr.expression hexpression, hmatches.alike.span_eq]

theorem switchCase_agree (hr : r.Agrees r') (h : node.Vary .switchCase node') :
    r.switchCase node = r'.switchCase node' := by
  have hmatches := h.matches (by decide) (by decide)
  have htest : node.AgreeOn node' "test" (.node .expression) :=
    hmatches.own rfl List.mem_cons_self
  have hconsequent : node.AgreeOn node' "consequent" (.list .statement) :=
    hmatches.own rfl (List.mem_cons_of_mem _ List.mem_cons_self)
  rw [switchCase, switchCase, expressionIn?_agree hr htest,
    statementsIn_agree hr hmatches.alike hconsequent]

theorem handler_agree (hr : r.Agrees r') (h : node.Vary .handler node') :
    r.handler node = r'.handler node' := by
  have hmatches := h.matches (by decide) (by decide)
  have hparam : node.AgreeOn node' "param" (.node .name) := hmatches.own rfl List.mem_cons_self
  have hbody : node.AgreeOn node' "body" (.node .block) :=
    hmatches.own rfl (List.mem_cons_of_mem _ List.mem_cons_self)
  rw [handler, handler, blockIn_agree hr hmatches.alike hbody]
  rcases Node.child?_cases hparam with ⟨hc, hc'⟩ | ⟨c, c', hc, hc', hvary⟩
  · rw [hc, hc']
  · rw [hc, hc']
    dsimp only
    rw [Node.pattern?_eq hvary, Node.name_eq hvary]

theorem guarded_agree (hr : r.Agrees r') (h : node.Alike node') (span : Span)
    (hfields : ∀ p ∈ StatementType.guarded.fields, node.AgreeOn node' p.1 p.2) :
    r.guarded node span = r'.guarded node' span := by
  have hblock := hfields ("block", .node .block) (by simp [StatementType.fields])
  have hhandler := hfields ("handler", .node .handler) (by simp [StatementType.fields])
  have hfinalizer := hfields ("finalizer", .node .block) (by simp [StatementType.fields])
  rw [guarded, guarded, blockIn_agree hr h hblock, blockIn?_agree hr h hfinalizer]
  rcases Node.child?_cases hhandler with ⟨hc, hc'⟩ | ⟨c, c', hc, hc', hvary⟩
  · rw [hc, hc']
  · rw [hc, hc']
    dsimp only
    rw [handler_agree hr.lower hvary]

theorem statementStep_agree (hr : r.Agrees r') (h : node.Matches .statement node') :
    r.statementStep node = r'.statementStep node' := by
  have halike := h.alike
  rw [statementStep, statementStep]
  refine halike.bind_type fun type htype ↦ ?_
  rw [halike.span_eq]
  refine bind_congr fun span ↦ ?_
  cases ht : StatementType.ofText? type with
  | none => rfl
  | some t =>
    have hfields : ∀ p ∈ t.fields, node.AgreeOn node' p.1 p.2 := by
      intro p
      refine h.own ?_
      rw [Node.typeIn_of_type htype, Role.ownFields, statementFields, ht]
      rfl
    have hexpression (field : Text) (hfield : (field, Slot.node .expression) ∈ t.fields) :
        r.expressionIn node field = r'.expressionIn node' field :=
      expressionIn_agree hr halike (hfields _ hfield)
    have hexpression? (field : Text) (hfield : (field, Slot.node .expression) ∈ t.fields) :
        r.expressionIn? node field = r'.expressionIn? node' field :=
      expressionIn?_agree hr (hfields _ hfield)
    have hstatement (field : Text) (hfield : (field, Slot.node .statement) ∈ t.fields) :
        r.statementIn node field = r'.statementIn node' field :=
      statementIn_agree hr halike (hfields _ hfield)
    cases t with
    | expression =>
      dsimp only
      rw [hexpression "expression" (by simp [StatementType.fields])]
    | block =>
      have hbody := statementsIn_agree hr halike (hfields ("body", .list .statement)
        (by simp [StatementType.fields]))
      dsimp only
      rw [hbody]
    | empty => rfl
    | declaration => exact declaration_agree hr halike span hfields
    | function => exact functionDeclaration_agree hr halike hfields
    | returned =>
      dsimp only
      rw [hexpression? "argument" (by simp [StatementType.fields])]
    | throwing =>
      dsimp only
      rw [hexpression "argument" (by simp [StatementType.fields])]
    | conditional =>
      have halternate := statementIn?_agree hr (hfields ("alternate", .node .statement)
        (by simp [StatementType.fields]))
      dsimp only
      rw [halternate, hexpression "test" (by simp [StatementType.fields]),
        hstatement "consequent" (by simp [StatementType.fields])]
    | whileLoop | doWhileLoop =>
      dsimp only
      rw [hexpression "test" (by simp [StatementType.fields]),
        hstatement "body" (by simp [StatementType.fields])]
    | forLoop =>
      have hinit := initializer_agree hr (hfields ("init", .node .initializer)
        (by simp [StatementType.fields]))
      dsimp only
      rw [hinit, hexpression? "test" (by simp [StatementType.fields]),
        hexpression? "update" (by simp [StatementType.fields]),
        hstatement "body" (by simp [StatementType.fields])]
    | switch =>
      dsimp only
      rw [hexpression "discriminant" (by simp [StatementType.fields])]
      refine bind_congr fun discriminant ↦ ?_
      refine (Node.list_agree halike (hfields ("cases", .list .switchCase)
        (by simp [StatementType.fields]))).bind_eq fun l l' hl ↦ ?_
      rw [Agree.mapM_eq hl fun x x' hx ↦ (Fragment.asNode_agree hx "cases" span).bind_eq
        fun _ _ hc ↦ switchCase_agree hr.lower hc]
    | breaking | continuing =>
      have hlabel := Node.nameIn_eq (hfields ("label", .node .name)
        (by simp [StatementType.fields]))
      dsimp only
      rw [hlabel]
    | labeled =>
      have hlabel := Node.nameIn_eq (hfields ("label", .node .name)
        (by simp [StatementType.fields]))
      dsimp only
      rw [hlabel, hstatement "body" (by simp [StatementType.fields])]
    | guarded => exact guarded_agree hr halike span hfields

end Loader

theorem IsOffset.offset_ok {node : Node n} {field : Text}
    (h : IsOffset (Json.lookup field node.members)) : ∃ k, node.offset field = .ok k := by
  cases hlookup : Json.lookup field node.members with
  | none => exact ⟨0, by rw [Node.offset, Node.field?_of_lookup_none hlookup]⟩
  | some j =>
    cases j with
    | number x =>
      obtain ⟨k, hk⟩ := h x hlookup
      exact ⟨k, Node.offset_of_lookup hlookup hk⟩
    | _ =>
      obtain ⟨hj, hfield⟩ := Node.field?_of_lookup hlookup
      refine ⟨0, ?_⟩
      rw [Node.offset, hfield]

/-- Of parentheses nothing is left but the expression in them. -/
theorem Parenthesizes.load {node : Node n} {members : List (Text × Json)}
    (h : Parenthesizes node.members (.object members)) : ∃ c : Node (n - 1), c.members = members ∧
      ∀ r : Loader (n - 1), r.expressionStep node = r.expression c := by
  obtain ⟨c, hc, hchild, -⟩ := Node.child_of_lookup h.expression
  obtain ⟨start, hstart⟩ := h.start.offset_ok
  obtain ⟨stop, hstop⟩ := h.stop.offset_ok
  have hspan : node.span = .ok ⟨start, stop⟩ := by
    rw [Node.span, hstart, hstop]
    rfl
  have htype : ExpressionType.ofText? "ParenthesizedExpression" = some .parenthesized := by decide
  refine ⟨c, hc, fun r ↦ ?_⟩
  rw [Loader.expressionStep, Node.type_of_lookup h.type, hspan, ok_bind, ok_bind]
  dsimp only
  rw [htype]
  dsimp only
  rw [Loader.expressionIn, hchild, ok_bind]

/-- Nodes that vary are loaded as the same below any heights. The induction is on both: a step takes
the fields of both nodes, or opens a pair of parentheses around the second one. -/
theorem loader_agrees (n n' : Nat) : (loader n).Agrees (loader n') := by
  induction n generalizing n' with
  | zero =>
    exact ⟨fun {node _} _ ↦ absurd node.height_lt (Nat.not_lt_zero _),
      fun {node _} _ ↦ absurd node.height_lt (Nat.not_lt_zero _)⟩
  | succ n ih =>
    induction n' with
    | zero =>
      exact ⟨fun {_ node'} _ ↦ absurd node'.height_lt (Nat.not_lt_zero _),
        fun {_ node'} _ ↦ absurd node'.height_lt (Nat.not_lt_zero _)⟩
    | succ n' ih' =>
      constructor
      · intro node node' hnode
        rcases Varies.fields_or_wrapped hnode with hmatches | ⟨inner, -, hothers, hinner⟩
        · exact Loader.expressionStep_agree (ih n') hmatches
        · rcases hinner.node_cases with ⟨_, others, -, rfl⟩ | ⟨hnone, -⟩
          · obtain ⟨c, rfl, hload⟩ := hothers.load
            have hc : node.Vary .expression c := hinner
            exact (ih'.expression hc).trans (hload (loader n')).symm
          · exact absurd rfl (hnone _)
      · intro node node' hnode
        exact Loader.statementStep_agree (ih n') (hnode.matches (by decide) (by decide))

end EcmaTree.Estree

namespace EcmaTree

open Estree

/-- Documents of programs that vary are loaded as the same. -/
theorem Program.ofJson_eq_of_varies {j j' : Json} (h : Varies (.node .program) j j') :
    Program.ofJson j = Program.ofJson j' := by
  rw [Program.ofJson, Program.ofJson]
  have hwhole : Fragment.Vary .program ⟨j, Nat.le_refl j.height⟩ ⟨j', Nat.le_refl j'.height⟩ := h
  refine (Fragment.asNode_agree hwhole _ _).bind_eq fun root root' hroot ↦ ?_
  have hmatches := hroot.matches (by decide) (by decide)
  refine hmatches.alike.bind_type fun type htype ↦ ?_
  rw [hmatches.alike.span_eq]
  refine bind_congr fun span ↦ ?_
  by_cases hprogram : type = programType
  · have hfields : Role.program.ownFields (Role.typeIn root.members)
        (Role.computedIn root.members) = ([("body", .list .statement)] : List (Text × Slot)) := by
      rw [Node.typeIn_of_type htype]
      exact if_pos hprogram
    rw [Loader.statementsIn_agree (loader_agrees _ _) hmatches.alike
      (hmatches.own hfields List.mem_cons_self)]
  · have hother : ¬ (type == programType) = true := by rwa [beq_iff_eq]
    rw [if_neg hother, if_neg hother]

end EcmaTree
