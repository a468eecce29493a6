import EcmaTree.Proofs.Estree.Nodes
import EcmaTree.Proofs.Tree.Parts

/-!
# Parts read from fields

A field that holds the document of a part is read as that part, where the loader reads the nodes
inside. Lists are read item by item, and a block as its statements.
-/

namespace EcmaTree.Estree

theorem ok_bind {α β : Type} (a : α) (f : α → Loaded β) : (Except.ok a >>= f) = f a := rfl

/-- The loader reads a part from its document. -/
def Loader.Knows {n : Nat} (r : Loader n) : Part → Prop
  | .expr e => Reads r.expression e.encode e
  | .stmt s => Reads r.statement s.encode s
  | .function _ => True

variable {n : Nat} {α β : Type} {node : Node n} {field : Text} {span : Span} {j : Json}

theorem Loader.Knows.lower {r : Loader n} {x : Part} (h : r.Knows x) : r.lower.Knows x := by
  cases x with
  | expr e =>
    obtain ⟨members, he, hread⟩ := h
    exact ⟨members, he, fun node hnode ↦ hread node.up hnode⟩
  | stmt s =>
    obtain ⟨members, hs, hread⟩ := h
    exact ⟨members, hs, fun node hnode ↦ hread node.up hnode⟩
  | function => trivial

/-- A list is read item by item. -/
theorem mapM_ofItems {read : Fragment n → Loaded β} {encode : β → Json} {items : List β}
    {js : List Json} (hjs : js = items.map encode)
    (h : ∀ b ∈ items, ∀ hb, read ⟨encode b, hb⟩ = .ok b) (hheight : Json.itemsHeight js ≤ n) :
    (Fragment.ofItems js hheight).mapM read = .ok items := by
  subst hjs
  induction items with
  | nil => rfl
  | cons b rest ih =>
    have hrest := ih fun b hb ↦ h b (List.mem_cons_of_mem _ hb)
    simp only [List.map_cons, Fragment.ofItems, List.mapM_cons, h b List.mem_cons_self, hrest]
    rfl

/-- An item that is a node is read as one. -/
theorem Reads.asNode {read : Node n → Loaded α} {a : α} (h : Reads read j a) (hj : j.height ≤ n)
    (field : Text) (span : Span) :
    (Fragment.asNode ⟨j, hj⟩ field span >>= read) = .ok a := by
  obtain ⟨members, rfl, hread⟩ := h
  exact hread ⟨members, hj⟩ rfl

theorem asNode_encodeNode {type : Text} {place : Span} {fields : List (Text × Json)}
    (h : (encodeNode type place fields).height ≤ n) :
    Fragment.asNode ⟨encodeNode type place fields, h⟩ field span =
      .ok ⟨nodeMembers type place fields, h⟩ :=
  rfl

namespace Loader

variable {r : Loader (n - 1)} {e : Expr} {s : Stmt} {es : List (Option Expr)} {body : List Stmt}

/-- A field with the document of an expression holds a node that is read as the expression. -/
theorem expression_of_lookup (h : Json.lookup field node.members = some e.encode)
    (he : r.Knows (.expr e)) :
    ∃ c, e.encode = .object c.members ∧ node.child field = .ok c ∧ node.child? field = some c ∧
      r.expression c = .ok e := by
  obtain ⟨members, hmembers, hread⟩ := he
  obtain ⟨c, hc, hchild, hchild?⟩ := node.child_of_lookup (hmembers ▸ h)
  exact ⟨c, hmembers.trans (hc ▸ rfl), hchild, hchild?, hread c hc⟩

theorem statement_of_lookup (h : Json.lookup field node.members = some s.encode)
    (hs : r.Knows (.stmt s)) :
    ∃ c, s.encode = .object c.members ∧ node.child field = .ok c ∧ node.child? field = some c ∧
      r.statement c = .ok s := by
  obtain ⟨members, hmembers, hread⟩ := hs
  obtain ⟨c, hc, hchild, hchild?⟩ := node.child_of_lookup (hmembers ▸ h)
  exact ⟨c, hmembers.trans (hc ▸ rfl), hchild, hchild?, hread c hc⟩

theorem expressionIn_eq (h : Json.lookup field node.members = some e.encode)
    (he : r.Knows (.expr e)) : r.expressionIn node field = .ok e := by
  obtain ⟨c, -, hchild, -, hread⟩ := expression_of_lookup h he
  rw [expressionIn, hchild, ok_bind, hread]

theorem statementIn_eq (h : Json.lookup field node.members = some s.encode)
    (hs : r.Knows (.stmt s)) : r.statementIn node field = .ok s := by
  obtain ⟨c, -, hchild, -, hread⟩ := statement_of_lookup h hs
  rw [statementIn, hchild, ok_bind, hread]

theorem expressionIn?_eq {o : Option Expr}
    (h : Json.lookup field node.members = some (Expr.encode? o))
    (ho : ∀ e, o = some e → r.Knows (.expr e)) : r.expressionIn? node field = .ok o := by
  cases o with
  | none => rw [expressionIn?, node.child?_of_lookup_null h]
  | some e =>
    obtain ⟨c, -, -, hchild, hread⟩ := expression_of_lookup h (ho e rfl)
    rw [expressionIn?, hchild]
    dsimp only
    rw [hread]
    rfl

theorem statementIn?_eq {o : Option Stmt}
    (h : Json.lookup field node.members = some (Stmt.encode? o))
    (ho : ∀ s, o = some s → r.Knows (.stmt s)) : r.statementIn? node field = .ok o := by
  cases o with
  | none => rw [statementIn?, node.child?_of_lookup_null h]
  | some s =>
    obtain ⟨c, -, -, hchild, hread⟩ := statement_of_lookup h (ho s rfl)
    rw [statementIn?, hchild]
    dsimp only
    rw [hread]
    rfl

theorem statementsIn_eq (h : Json.lookup field node.members = some (.array (Stmt.encodeAll body)))
    (hspan : node.span = .ok span) (hbody : ∀ s ∈ body, r.Knows (.stmt s)) :
    r.statementsIn node field = .ok body := by
  obtain ⟨hitems, hlist⟩ := node.list_of_lookup h
  rw [statementsIn, hlist]
  refine mapM_ofItems (Stmt.encodeAll_eq body) (fun s hs hj ↦ ?_) hitems
  rw [hspan]
  exact (hbody s hs).asNode hj field span

/-- An item that is null is absent. -/
theorem expressionsIn_eq (h : Json.lookup field node.members = some (.array (Expr.encodeAll es)))
    (hspan : node.span = .ok span) (hes : ∀ e, some e ∈ es → r.Knows (.expr e)) :
    r.expressionsIn node field = .ok es := by
  obtain ⟨hitems, hlist⟩ := node.list_of_lookup h
  rw [expressionsIn, hlist]
  refine mapM_ofItems (Expr.encodeAll_eq es) (fun o ho hj ↦ ?_) hitems
  cases o with
  | none => rfl
  | some e =>
    obtain ⟨members, hmembers, hread⟩ := hes e ho
    rw [← Expr.encode?] at hmembers
    generalize Expr.encode? (some e) = j at hj hmembers
    subst hmembers
    rw [hspan, ok_bind]
    change (r.expression ⟨members, hj⟩ >>= fun e ↦ pure (some e)) = _
    rw [hread ⟨members, hj⟩ rfl]
    rfl

theorem blockIn_eq (place : Span) (h : Json.lookup field node.members =
      some (encodeNode "BlockStatement" place [("body", .array (Stmt.encodeAll body))]))
    (hbody : ∀ s ∈ body, r.Knows (.stmt s)) : r.blockIn node field = .ok body := by
  obtain ⟨c, hc, hchild, -⟩ := node.child_of_lookup h
  have htype : StatementType.ofText? "BlockStatement" = some .block :=
    StatementType.ofText?_name .block
  have hitems : Json.lookup "body" c.members = some (.array (Stmt.encodeAll body)) := by simp [hc]
  rw [blockIn, hchild, ok_bind, Node.type_of_members hc, ok_bind, if_pos htype]
  exact statementsIn_eq hitems (Node.span_of_members hc) fun s hs ↦ (hbody s hs).lower

end Loader

/-! ## Names -/

section names

variable {name : Text} {place : Span}

/-- The only field of an identifier is its name. -/
theorem text_of_encodeName {c : Node n}
    (hc : c.members = nodeMembers "Identifier" place [("name", .text name)]) :
    c.text "name" = .ok name := by
  apply Node.text_of_lookup
  simp [hc]

theorem reads_encodeName (name : Text) (place : Span) :
    Reads (fun c : Node n ↦ c.text "name") (encodeName name place) name :=
  ⟨_, rfl, fun _ hc ↦ text_of_encodeName hc⟩

/-- An identifier is no pattern. -/
theorem pattern?_of_encodeName {c : Node n}
    (hc : c.members = nodeMembers "Identifier" place [("name", .text name)]) :
    c.pattern? = .ok none := by
  have htype : ExpressionType.ofText? "Identifier" = some .identifier :=
    ExpressionType.ofText?_name .identifier
  rw [Node.pattern?, Node.type_of_members hc, ok_bind, if_pos htype]
  rfl

theorem nameIn_eq (place : Span)
    (h : Json.lookup field node.members = some (encodeName name place)) :
    node.nameIn field = .ok name := by
  obtain ⟨c, hc, -, hchild⟩ := node.child_of_lookup h
  rw [Node.nameIn, hchild]
  exact text_of_encodeName hc

theorem nameIn_eq_empty (h : Json.lookup field node.members = some .null) :
    node.nameIn field = .ok .empty := by
  rw [Node.nameIn, node.child?_of_lookup_null h]

/-- The empty name stands for an absent one. -/
theorem nameIn_labelOfText (place : Span)
    (h : Json.lookup field node.members = some (encodeName? (labelOfText name) place)) :
    node.nameIn field = .ok name := by
  rw [labelOfText] at h
  split at h
  · next hempty => rw [nameIn_eq_empty h, Text.isEmpty_iff.mp hempty]
  · exact nameIn_eq place h

theorem labelOfText_nameIn (place : Span) {label : Option Text} (hlabel : label ≠ some .empty)
    (h : Json.lookup field node.members = some (encodeName? label place)) :
    ∃ name, node.nameIn field = .ok name ∧ labelOfText name = label := by
  cases label with
  | none => exact ⟨.empty, nameIn_eq_empty h, rfl⟩
  | some name =>
    have hempty : name.isEmpty = false := by
      rw [Bool.eq_false_iff, ne_eq, Text.isEmpty_iff]
      rintro rfl
      exact hlabel rfl
    exact ⟨name, nameIn_eq place h, by rw [labelOfText, hempty, if_neg Bool.false_ne_true]⟩

/-- Parameters that are names. -/
theorem parameterNames_eq {names : List Text} {js : List Json}
    (hjs : js = names.map (encodeName · place)) (hheight : Json.itemsHeight js ≤ n) :
    parameterNames span (Fragment.ofItems js hheight) = .ok names :=
  mapM_ofItems hjs (fun name _ hj ↦ (reads_encodeName name place).asNode hj _ span) hheight

theorem parameterPattern?_eq {names : List Text} {js : List Json}
    (hjs : js = names.map (encodeName · place)) (hheight : Json.itemsHeight js ≤ n) :
    parameterPattern? span (Fragment.ofItems js hheight) = .ok none := by
  subst hjs
  induction names with
  | nil => rfl
  | cons name rest ih =>
    simp only [List.map_cons, Fragment.ofItems, parameterPattern?, encodeName]
    rw [asNode_encodeNode, ok_bind, pattern?_of_encodeName rfl, ok_bind]
    exact ih _

end names

end EcmaTree.Estree
