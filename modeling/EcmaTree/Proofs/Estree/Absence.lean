import EcmaTree.Proofs.Estree.RoundTrip
import EcmaTree.Proofs.Gaps

/-!
# Absent nodes

What can be absent from a program that was loaded. A property of an object has no key only if it is
unsupported. An argument of a call and an item of a sequence are absent where the list of the node
has a null, and nowhere else, so a document without such lists loads as a program without gaps, and
no evaluation of that program finds a node to be absent.
-/

namespace EcmaTree

open Estree

namespace Json

/-- The second document is the first one, or is somewhere inside of it. -/
inductive Contains : Json → Json → Prop where
  | self (j : Json) : Contains j j
  | item {items : List Json} {x y : Json} (hx : x ∈ items) (hy : x.Contains y) :
      Contains (.array items) y
  | member {members : List (Text × Json)} {key : Text} {x y : Json}
      (hx : (key, x) ∈ members) (hy : x.Contains y) : Contains (.object members) y

@[simp] theorem contains_null {y : Json} : Contains .null y ↔ y = .null :=
  ⟨fun h ↦ by cases h; rfl, fun h ↦ h ▸ .self _⟩

@[simp] theorem contains_bool {b : Bool} {y : Json} : Contains (.bool b) y ↔ y = .bool b :=
  ⟨fun h ↦ by cases h; rfl, fun h ↦ h ▸ .self _⟩

@[simp] theorem contains_number {n : Number} {y : Json} : Contains (.number n) y ↔ y = .number n :=
  ⟨fun h ↦ by cases h; rfl, fun h ↦ h ▸ .self _⟩

@[simp] theorem contains_text {t : Text} {y : Json} : Contains (.text t) y ↔ y = .text t :=
  ⟨fun h ↦ by cases h; rfl, fun h ↦ h ▸ .self _⟩

@[simp] theorem contains_array {items : List Json} {y : Json} :
    Contains (.array items) y ↔ y = .array items ∨ ∃ x ∈ items, x.Contains y := by
  constructor
  · intro h
    cases h with
    | self => exact .inl rfl
    | item hx hy => exact .inr ⟨_, hx, hy⟩
  · rintro (rfl | ⟨x, hx, hy⟩)
    · exact .self _
    · exact .item hx hy

@[simp] theorem contains_object {members : List (Text × Json)} {y : Json} :
    Contains (.object members) y ↔ y = .object members ∨ ∃ m ∈ members, m.2.Contains y := by
  constructor
  · intro h
    cases h with
    | self => exact .inl rfl
    | member hx hy => exact .inr ⟨_, hx, hy⟩
  · rintro (rfl | ⟨x, hx, hy⟩)
    · exact .self _
    · exact .member hx hy

theorem Contains.trans {x y z : Json} (hxy : x.Contains y) (hyz : y.Contains z) : x.Contains z := by
  induction hxy with
  | self => exact hyz
  | item hx _ ih => exact .item hx (ih hyz)
  | member hx _ ih => exact .member hx (ih hyz)

/-- No node of a type has a null in the list that a field of it holds. -/
def Lists (j : Json) (type : ExpressionType) (field : Text) : Prop :=
  ∀ members, j.Contains (.object members) → lookup "type" members = some (.text type.name) →
    ∀ items, lookup field members = some (.array items) → .null ∉ items

/-- No call has a null among its arguments, and no sequence among its expressions. -/
structure Gapless (j : Json) : Prop where
  arguments : j.Lists .call "arguments"
  expressions : j.Lists .sequence "expressions"

theorem Gapless.of_contains {x y : Json} (h : x.Gapless) (hy : x.Contains y) : y.Gapless where
  arguments members hm := h.arguments members (hy.trans hm)
  expressions members hm := h.expressions members (hy.trans hm)

/-- What a key means is among the members. -/
theorem mem_of_lookup {key : Text} {members : List (Text × Json)} {j : Json}
    (h : lookup key members = some j) : ∃ k, (k, j) ∈ members := by
  obtain ⟨⟨k, _⟩, hfind, rfl⟩ := Option.map_eq_some_iff.mp h
  exact ⟨k, List.mem_of_find?_eq_some hfind⟩

theorem contains_of_lookup {key : Text} {members : List (Text × Json)} {j : Json}
    (h : lookup key members = some j) : (Json.object members).Contains j := by
  obtain ⟨k, hk⟩ := mem_of_lookup h
  exact .member hk (.self j)

/-- A document none of whose lists has a null. -/
theorem Gapless.of_arrays {j : Json} (h : ∀ items, j.Contains (.array items) → .null ∉ items) :
    j.Gapless where
  arguments _ hm _ items hitems := h items (hm.trans (contains_of_lookup hitems))
  expressions _ hm _ items hitems := h items (hm.trans (contains_of_lookup hitems))

end Json

/-- Every property of an object literal has a key, unless it is unsupported. -/
def Part.HasKeys : Part → Prop
  | expr (.object properties _) =>
    ∀ p ∈ properties, p.key = none → ∃ type span, p.value = .unsupported type span
  | _ => True

namespace Estree

/-- Whatever is loaded has a property. -/
def Gives {α : Type} (m : Loaded α) (P : α → Prop) : Prop := ∀ a, m = .ok a → P a

namespace Gives

variable {α β : Type} {m : Loaded α} {f : α → Loaded β} {P : α → Prop} {Q : β → Prop}

theorem pure {a : α} (h : P a) : Gives (Pure.pure a) P := by
  rintro _ ⟨⟩
  exact h

theorem fails (e : LoadError) : Gives (.error e) P := nofun

theorem bind (hm : Gives m P) (hf : ∀ a, m = .ok a → P a → Gives (f a) Q) :
    Gives (m >>= f) Q := by
  intro b hb
  cases h : m with
  | error e =>
    rw [h] at hb
    cases hb
  | ok a =>
    rw [h] at hb
    exact hf a h (hm a h) b hb

/-- What was loaded before does not matter. -/
theorem after (hf : ∀ a, m = .ok a → Gives (f a) Q) : Gives (m >>= f) Q :=
  bind (P := fun _ ↦ True) (fun _ _ ↦ trivial) fun a ha _ ↦ hf a ha

theorem map {g : α → β} (hm : Gives m P) (hg : ∀ a, P a → Q (g a)) : Gives (g <$> m) Q := by
  rw [map_eq_pure_bind]
  exact bind hm fun a _ ha ↦ pure (hg a ha)

theorem ite {c : Prop} [Decidable c] {m' : Loaded α} (ht : c → Gives m P) (hf : ¬ c → Gives m' P) :
    Gives (if c then m else m') P := by
  split
  · next h => exact ht h
  · next h => exact hf h

theorem mono {P' : α → Prop} (hm : Gives m P) (h : ∀ a, P a → P' a) : Gives m P' :=
  fun a ha ↦ h a (hm a ha)

/-- Each thing that is loaded from a list comes from an item of it. -/
theorem mapM {γ : Type} {read : γ → Loaded α} {l : List γ} {R : γ → α → Prop}
    (h : ∀ x ∈ l, Gives (read x) (R x)) :
    Gives (l.mapM read) fun as ↦ ∀ a ∈ as, ∃ x ∈ l, R x a := by
  induction l with
  | nil =>
    rw [List.mapM_nil]
    exact pure nofun
  | cons x rest ih =>
    rw [List.mapM_cons]
    refine bind (h x List.mem_cons_self) fun a _ ha ↦ ?_
    refine bind (ih fun y hy ↦ h y (List.mem_cons_of_mem _ hy)) fun as _ has ↦ pure ?_
    refine List.forall_mem_cons.mpr ⟨⟨x, List.mem_cons_self, ha⟩, fun b hb ↦ ?_⟩
    obtain ⟨y, hy, hb⟩ := has b hb
    exact ⟨y, List.mem_cons_of_mem _ hy, hb⟩

end Gives

/-! ### Tight documents -/

variable {n : Nat} {gaps : Prop}

/-- There may be gaps, or the document leaves none. -/
def Tight (gaps : Prop) (j : Json) : Prop := gaps ∨ j.Gapless

theorem Tight.of_contains {x y : Json} (h : Tight gaps x) (hy : x.Contains y) : Tight gaps y :=
  h.imp_right fun h ↦ h.of_contains hy

/-- A node is tight as the object that it is. -/
def Node.Tight (gaps : Prop) (node : Node n) : Prop := Estree.Tight gaps (.object node.members)

/-- What a field holds is inside the node. -/
theorem Node.lookup_of_field? {node : Node n} {field : Text} {fragment : Fragment (n - 1)}
    (h : node.field? field = some fragment) :
    Json.lookup field node.members = some fragment.json := by
  unfold Node.field? at h
  split at h
  · next json hlookup =>
    cases h
    exact hlookup
  · cases h

theorem Fragment.json_of_node? {fragment : Fragment n} {c : Node n} (h : fragment.node? = some c) :
    fragment.json = .object c.members := by
  obtain ⟨json, hj⟩ := fragment
  cases json with
  | object members =>
    cases h
    rfl
  | _ => cases h

/-- The items of a list are those of the document. -/
theorem Fragment.json_mem_of_mem_ofItems {items : List Json} {h : Json.itemsHeight items ≤ n}
    {fragment : Fragment n} (hf : fragment ∈ Fragment.ofItems items h) : fragment.json ∈ items := by
  induction items with
  | nil => cases hf
  | cons item rest ih =>
    rcases List.mem_cons.mp hf with rfl | hf
    · exact List.mem_cons_self
    · exact List.mem_cons_of_mem _ (ih hf)

theorem Node.tight_of_field? {node : Node n} {c : Node (n - 1)} {field : Text}
    {fragment : Fragment (n - 1)} (hn : node.Tight gaps) (hf : node.field? field = some fragment)
    (hc : fragment.node? = some c) : c.Tight gaps := by
  have hlookup := Node.lookup_of_field? hf
  rw [Fragment.json_of_node? hc] at hlookup
  exact hn.of_contains (Json.contains_of_lookup hlookup)

theorem Node.tight_of_child? {node : Node n} {c : Node (n - 1)} {field : Text}
    (hn : node.Tight gaps) (h : node.child? field = some c) : c.Tight gaps := by
  obtain ⟨fragment, hf, hc⟩ := Option.bind_eq_some_iff.mp h
  exact node.tight_of_field? hn hf hc

/-! ### Fields -/

theorem Node.gives_type (node : Node n) :
    Gives node.type fun type ↦ Json.lookup "type" node.members = some (.text type) := by
  unfold Node.type
  split
  · next t _ hf => exact .pure (Node.lookup_of_field? hf)
  · exact .after fun _ _ ↦ .fails _

theorem Node.gives_required (node : Node n) (field : Text) :
    Gives (node.required field) fun fragment ↦ node.field? field = some fragment := by
  unfold Node.required
  split
  · next fragment hf => exact .pure hf
  · exact .after fun _ _ ↦ .after fun _ _ ↦ .fails _

theorem Node.gives_child {node : Node n} (hn : node.Tight gaps) (field : Text) :
    Gives (node.child field) fun c ↦ c.Tight gaps := by
  refine .bind (node.gives_required field) fun fragment _ hf ↦ ?_
  split
  · next c hc => exact .pure (node.tight_of_field? hn hf hc)
  · exact .after fun _ _ ↦ .after fun _ _ ↦ .fails _

theorem Node.gives_list (node : Node n) (field : Text) :
    Gives (node.list field) fun fragments ↦
      ∃ items, Json.lookup field node.members = some (.array items) ∧
        ∀ fragment ∈ fragments, fragment.json ∈ items := by
  refine .bind (node.gives_required field) fun fragment _ hf ↦ ?_
  have hlookup := Node.lookup_of_field? hf
  obtain ⟨json, hj⟩ := fragment
  cases json with
  | array items => exact .pure ⟨items, hlookup, fun _ ↦ Fragment.json_mem_of_mem_ofItems⟩
  | _ => exact .after fun _ _ ↦ .after fun _ _ ↦ .fails _

theorem Fragment.gives_asNode (fragment : Fragment n) (field : Text) (span : Span) :
    Gives (fragment.asNode field span) fun c ↦ fragment.json = .object c.members := by
  unfold Fragment.asNode
  split
  · next c hc => exact .pure (Fragment.json_of_node? hc)
  · exact .fails _

/-- The items of the lists of a node, as far as they are nodes, are as tight as the node. -/
theorem Node.tight_of_mem {node : Node n} {field : Text} {items : List Json} {k : Nat}
    {c : Node k} (hn : node.Tight gaps)
    (hitems : Json.lookup field node.members = some (.array items))
    (hc : .object c.members ∈ items) : c.Tight gaps :=
  hn.of_contains ((Json.contains_of_lookup hitems).trans (.item hc (.self _)))

end Estree

/-! ### Parts -/

/-- What is to be there is there, but for arguments and items where there may be gaps. -/
def Part.Present (gaps : Prop) (x : Part) : Prop := x.HasKeys ∧ (gaps ∨ x.HasItems)

namespace Estree.Loader

variable {n : Nat} {gaps : Prop}

/-- What is loaded from nodes is present, as is everything inside of it. -/
structure Fills (gaps : Prop) (r : Loader n) : Prop where
  expression {node : Node n} (hn : node.Tight gaps) :
    Gives (r.expression node) fun e ↦ (Part.expr e).Every (Part.Present gaps)
  statement {node : Node n} (hn : node.Tight gaps) :
    Gives (r.statement node) fun s ↦ (Part.stmt s).Every (Part.Present gaps)

theorem Fills.lower {r : Loader n} (hr : r.Fills gaps) : r.lower.Fills gaps where
  expression hn := hr.expression hn
  statement hn := hr.statement hn

/-- A node of the tree and everything inside of it is present. -/
abbrev Full (gaps : Prop) (x : Part) : Prop := x.Every (Part.Present gaps)

section

variable {node : Node n} {r : Loader (n - 1)}

theorem gives_expressionIn (hr : r.Fills gaps) (hn : node.Tight gaps) (field : Text) :
    Gives (r.expressionIn node field) fun e ↦ Full gaps (.expr e) :=
  .bind (Node.gives_child hn field) fun _ _ hc ↦ hr.expression hc

theorem gives_statementIn (hr : r.Fills gaps) (hn : node.Tight gaps) (field : Text) :
    Gives (r.statementIn node field) fun s ↦ Full gaps (.stmt s) :=
  .bind (Node.gives_child hn field) fun _ _ hc ↦ hr.statement hc

theorem gives_expressionIn? (hr : r.Fills gaps) (hn : node.Tight gaps) (field : Text) :
    Gives (r.expressionIn? node field) fun o ↦
      ∀ x ∈ Part.ofOption o, Full gaps x := by
  unfold expressionIn?
  split
  · next c hc =>
    refine .map (hr.expression (Node.tight_of_child? hn hc)) fun e he x hx ↦ ?_
    obtain rfl := List.mem_singleton.mp hx
    exact he
  · exact .pure nofun

theorem gives_statementIn? (hr : r.Fills gaps) (hn : node.Tight gaps) (field : Text) :
    Gives (r.statementIn? node field) fun o ↦
      ∀ x ∈ Part.all o.toList, Full gaps x := by
  unfold statementIn?
  split
  · next c hc =>
    refine .map (hr.statement (Node.tight_of_child? hn hc)) fun s hs x hx ↦ ?_
    obtain rfl := List.mem_singleton.mp hx
    exact hs
  · exact .pure nofun

/-- Expressions are absent where the list has a null, and nowhere else. -/
theorem gives_expressionsIn (hr : r.Fills gaps) (hn : node.Tight gaps) (field : Text) :
    Gives (r.expressionsIn node field) fun es ↦
      (∀ x ∈ Part.present es, Full gaps x) ∧
      ((∀ items, Json.lookup field node.members = some (.array items) → .null ∉ items) →
        none ∉ es) := by
  refine .bind (node.gives_list field) fun fragments _ ⟨items, hitems, hmem⟩ ↦ ?_
  refine (Gives.mapM (R := fun fragment o ↦
    (∀ x ∈ Part.ofOption o, Full gaps x) ∧ (o = none → fragment.json = .null))
    fun fragment hf ↦ ?_).mono fun es hes ↦ ⟨fun x hx ↦ ?_, fun hnull hnone ↦ ?_⟩
  · split
    · next hnull => exact .pure ⟨nofun, fun _ ↦ hnull⟩
    · refine .after fun _ _ ↦ .bind (fragment.gives_asNode field _) fun c _ hc ↦ ?_
      have hmem := hmem fragment hf
      rw [hc] at hmem
      have hitem := hr.expression (Node.tight_of_mem hn hitems hmem)
      refine .bind hitem fun e _ he ↦ .pure ⟨fun x hx ↦ ?_, nofun⟩
      obtain rfl := List.mem_singleton.mp hx
      exact he
  · obtain ⟨o, ho, hx⟩ := List.mem_filterMap.mp hx
    obtain ⟨_, _, hfull, _⟩ := hes o ho
    exact hfull x (Option.mem_toList.mpr hx)
  · obtain ⟨fragment, hf, _, hj⟩ := hes none hnone
    exact hnull items hitems (hj rfl ▸ hmem fragment hf)

theorem gives_statementsIn (hr : r.Fills gaps) (hn : node.Tight gaps) (field : Text) :
    Gives (r.statementsIn node field) fun body ↦ ∀ x ∈ Part.all body, Full gaps x := by
  refine .bind (node.gives_list field) fun fragments _ ⟨items, hitems, hmem⟩ ↦ ?_
  have hread (fragment : Fragment (n - 1)) (hf : fragment ∈ fragments) :
      Gives (do r.statement (← fragment.asNode field (← node.span))) fun s ↦
        Full gaps (.stmt s) := by
    refine .after fun _ _ ↦ .bind (fragment.gives_asNode field _) fun c _ hc ↦ ?_
    have hmem := hmem fragment hf
    rw [hc] at hmem
    exact hr.statement (Node.tight_of_mem hn hitems hmem)
  refine (Gives.mapM hread).mono fun body hbody x hx ↦ ?_
  obtain ⟨s, hs, rfl⟩ := List.mem_map.mp hx
  obtain ⟨_, _, hfull⟩ := hbody s hs
  exact hfull

theorem gives_blockIn (hr : r.Fills gaps) (hn : node.Tight gaps) (field : Text) :
    Gives (r.blockIn node field) fun body ↦ ∀ x ∈ Part.all body, Full gaps x := by
  refine .bind (Node.gives_child hn field) fun block _ hblock ↦ .after fun _ _ ↦ ?_
  split
  · exact gives_statementsIn hr.lower hblock "body"
  · exact .after fun _ _ ↦ .after fun _ _ ↦ .fails _

theorem gives_blockIn? (hr : r.Fills gaps) (hn : node.Tight gaps) (field : Text) :
    Gives (r.blockIn? node field) fun body ↦ ∀ x ∈ Part.all (body.getD []), Full gaps x := by
  unfold blockIn?
  split
  · exact .map (gives_blockIn hr hn field) fun _ ↦ id
  · exact .pure nofun

/-! ### Functions -/

theorem gives_functionBody (hr : r.Fills gaps) (hn : node.Tight gaps) :
    Gives (r.functionBody node) fun body ↦ ∀ x ∈ Part.ofBody body, Full gaps x := by
  refine .bind (Node.gives_child hn "body") fun body _ hbody ↦ .after fun _ _ ↦ ?_
  split
  · exact .bind (gives_statementsIn hr.lower hbody "body") fun _ _ h ↦ .pure h
  · refine .bind (hr.expression hbody) fun e _ he ↦ .pure fun x hx ↦ ?_
    obtain rfl := List.mem_singleton.mp hx
    exact he

/-- A node is full if it has what it is to have, and what is right below it is full. -/
theorem full_of_parts {x : Part} (hx : x.HasKeys) (hitems : gaps ∨ x.HasItems)
    (h : ∀ y ∈ x.parts, Full gaps y) : Full gaps x :=
  Part.every_iff.mpr ⟨⟨hx, hitems⟩, h⟩

theorem full_unsupported (type : Text) (span : Span) :
    Full gaps (.expr (.unsupported type span)) :=
  full_of_parts trivial (.inr trivial) nofun

theorem gives_function (hr : r.Fills gaps) (hn : node.Tight gaps) (kind : FunctionKind) :
    Gives (r.function node kind) fun code ↦ Full gaps (.function code) :=
  .after fun _ _ ↦ .after fun _ _ ↦ .after fun _ _ ↦ .after fun _ _ ↦
    .bind (gives_functionBody hr hn) fun _ _ h ↦ .pure (full_of_parts trivial (.inr trivial) h)

theorem gives_supportedFunction (hr : r.Fills gaps) (hn : node.Tight gaps) (kind : FunctionKind) :
    Gives (r.supportedFunction node kind) fun result ↦
      ∀ code, result = .inr code → Full gaps (.function code) := by
  refine .after fun _ _ ↦ ?_
  split
  · exact .after fun _ _ ↦ .pure nofun
  · refine .after fun _ _ ↦ .after fun p _ ↦ ?_
    split
    · exact .pure nofun
    · refine .bind (gives_function hr hn kind) fun code _ hcode ↦ .pure ?_
      rintro _ ⟨⟩
      exact hcode

theorem gives_functionLiteral (hr : r.Fills gaps) (hn : node.Tight gaps) (kind : FunctionKind) :
    Gives (r.functionLiteral node kind) fun e ↦ Full gaps (.expr e) := by
  refine .bind (gives_supportedFunction hr hn kind) fun result _ hresult ↦ ?_
  cases result with
  | inl p => exact .pure (full_unsupported _ _)
  | inr code =>
    refine .pure (full_of_parts trivial (.inr trivial) fun y hy ↦ ?_)
    obtain rfl := List.mem_singleton.mp hy
    exact hresult code rfl

/-! ### Expressions -/

theorem gives_literal (node : Node n) : Gives node.literal fun e ↦ Full gaps (.expr e) := by
  have hscalar {e : Expr} (he : Part.ofExpr e = []) (hkeys : (Part.expr e).HasKeys)
      (hitems : (Part.expr e).HasItems) : Full gaps (.expr e) :=
    full_of_parts hkeys (.inr hitems) fun y hy ↦ by
      rw [Part.parts, he] at hy
      cases hy
  refine .after fun span _ ↦ ?_
  dsimp only
  split
  · exact .pure (full_unsupported _ _)
  · refine .after fun value _ ↦ ?_
    split
    · exact .pure (hscalar rfl trivial trivial)
    · exact .pure (hscalar rfl trivial trivial)
    · exact .pure (hscalar rfl trivial trivial)
    · exact .pure (hscalar rfl trivial trivial)
    · exact .pure (full_unsupported _ _)
    · exact .pure (full_unsupported _ _)

theorem gives_key {k : Nat} {r : Loader k} {node : Node k} (hr : r.Fills gaps)
    (hn : node.Tight gaps) (computed : Bool) :
    Gives (r.key node computed) fun e ↦ Full gaps (.expr e) := by
  have hkey (isName : Bool) : Gives (if isName = true then
      do return .text (← node.text "name") (← node.span) else r.expression node) fun e ↦
        Full gaps (.expr e) :=
    .ite (fun _ ↦ .after fun _ _ ↦ .after fun _ _ ↦
      .pure (full_of_parts trivial (.inr trivial) nofun)) fun _ ↦ hr.expression hn
  unfold key
  split
  · exact hkey false
  · exact .after fun _ _ ↦ hkey _

/-- A property without a key is unsupported. -/
theorem gives_property (hr : r.Fills gaps) (hn : node.Tight gaps) :
    Gives (r.property node) fun p ↦
      (p.key = none → ∃ type span, p.value = .unsupported type span) ∧
      ∀ x ∈ Part.ofOption p.key ++ [.expr p.value], Full gaps x := by
  refine .after fun type _ ↦ .ite (fun _ ↦ ?_) fun _ ↦ ?_
  · refine .bind (Node.gives_child hn "key") fun c _ hc ↦ ?_
    refine .bind (gives_key hr hc _) fun key _ hkey ↦ ?_
    refine .bind (gives_expressionIn hr hn "value") fun value _ hvalue ↦ .pure ⟨nofun, ?_⟩
    exact List.forall_mem_cons.mpr ⟨hkey, List.forall_mem_singleton.mpr hvalue⟩
  · refine .after fun span _ ↦ .pure ⟨fun _ ↦ ⟨type, span, rfl⟩, ?_⟩
    exact List.forall_mem_singleton.mpr (full_unsupported _ _)

theorem gives_object (hr : r.Fills gaps) (hn : node.Tight gaps) (span : Span) :
    Gives (r.object node span) fun e ↦ Full gaps (.expr e) := by
  refine .bind (node.gives_list "properties") fun fragments _ ⟨items, hitems, hmem⟩ ↦ ?_
  have hread (fragment : Fragment (n - 1)) (hf : fragment ∈ fragments) :
      Gives (do r.lower.property (← fragment.asNode "properties" span)) fun p ↦
        (p.key = none → ∃ type span, p.value = .unsupported type span) ∧
        ∀ x ∈ Part.ofOption p.key ++ [.expr p.value], Full gaps x := by
    refine .bind (fragment.gives_asNode _ _) fun c _ hc ↦ ?_
    have hmem := hmem fragment hf
    rw [hc] at hmem
    exact gives_property hr.lower (Node.tight_of_mem hn hitems hmem)
  refine .bind (Gives.mapM hread) fun ps _ hps ↦ .pure ?_
  refine full_of_parts (fun p hp ↦ ?_) (.inr trivial) ?_
  · obtain ⟨_, _, hkey, _⟩ := hps p hp
    exact hkey
  · intro y hy
    obtain ⟨p, hp, hy⟩ := List.mem_flatMap.mp hy
    obtain ⟨_, _, _, hfull⟩ := hps p hp
    exact hfull y hy

theorem gives_member (hr : r.Fills gaps) (hn : node.Tight gaps) (span : Span) :
    Gives (r.member node span) fun e ↦ Full gaps (.expr e) := by
  refine .bind (Node.gives_child hn "property") fun c _ hc ↦ ?_
  refine .bind (gives_key hr hc _) fun key _ hkey ↦ ?_
  refine .bind (gives_expressionIn hr hn "object") fun object _ hobject ↦ ?_
  refine .pure (full_of_parts trivial (.inr trivial) ?_)
  exact List.forall_mem_cons.mpr ⟨hobject, List.forall_mem_singleton.mpr hkey⟩

/-- A type that is found by its name has that name. -/
theorem eq_name_of_ofText? {type : Text} {t : ExpressionType}
    (h : ExpressionType.ofText? type = some t) : type = t.name := by
  unfold ExpressionType.ofText? at h
  have hname := List.find?_some h
  exact (eq_of_beq hname).symm

/-- Lists without nulls load without gaps. -/
theorem hasItems_or_gaps {type field : Text} {t : ExpressionType} {es : List (Option Expr)}
    (hn : node.Tight gaps) (hlists : ∀ j : Json, j.Gapless → j.Lists t field)
    (ht : ExpressionType.ofText? type = some t)
    (htype : Json.lookup "type" node.members = some (.text type))
    (hes : (∀ items, Json.lookup field node.members = some (.array items) → .null ∉ items) →
      none ∉ es) : gaps ∨ none ∉ es := by
  rw [eq_name_of_ofText? ht] at htype
  exact hn.imp_right fun h ↦ hes (hlists _ h node.members (.self _) htype)

/-- A node with two expressions below it. -/
theorem gives_pair (hr : r.Fills gaps) (hn : node.Tight gaps) {first second : Text}
    {f : Expr → Expr → Expr} (hkeys : ∀ a b, (Part.expr (f a b)).HasKeys)
    (hitems : ∀ a b, (Part.expr (f a b)).HasItems)
    (hparts : ∀ a b, Part.ofExpr (f a b) = [.expr a, .expr b]) :
    Gives (do
      let a ← r.expressionIn node first
      return f a (← r.expressionIn node second)) fun e ↦ Full gaps (.expr e) := by
  refine .bind (gives_expressionIn hr hn first) fun a _ ha ↦ ?_
  refine .bind (gives_expressionIn hr hn second) fun b _ hb ↦ .pure ?_
  refine full_of_parts (hkeys a b) (.inr (hitems a b)) ?_
  rw [Part.parts, hparts]
  exact List.forall_mem_cons.mpr ⟨ha, List.forall_mem_singleton.mpr hb⟩

theorem gives_expressionStep (hr : r.Fills gaps) (hn : node.Tight gaps) :
    Gives (r.expressionStep node) fun e ↦ Full gaps (.expr e) := by
  refine .bind node.gives_type fun type _ htype ↦ .after fun span _ ↦ ?_
  dsimp only
  cases ht : ExpressionType.ofText? type with
  | none => exact .pure (full_unsupported _ _)
  | some t =>
    cases t with
    | identifier =>
      exact .after fun _ _ ↦ .pure (full_of_parts trivial (.inr trivial) nofun)
    | literal => exact gives_literal node
    | receiver => exact .pure (full_of_parts trivial (.inr trivial) nofun)
    | parenthesized => exact gives_expressionIn hr hn "expression"
    | binary | logical | assignment =>
      exact .after fun _ _ ↦ gives_pair hr hn (fun _ _ ↦ trivial) (fun _ _ ↦ trivial) fun _ _ ↦ rfl
    | unary | update =>
      refine .after fun _ _ ↦ .bind (gives_expressionIn hr hn "argument") fun e _ he ↦ .pure ?_
      exact full_of_parts trivial (.inr trivial) (List.forall_mem_singleton.mpr he)
    | call =>
      refine .ite (fun _ ↦ .pure (full_unsupported _ _)) fun _ ↦ ?_
      refine .bind (gives_expressionIn hr hn "callee") fun callee _ hcallee ↦ ?_
      refine .bind (gives_expressionsIn hr hn "arguments") fun es _ ⟨hfull, hes⟩ ↦ .pure ?_
      refine full_of_parts trivial ?_ (List.forall_mem_cons.mpr ⟨hcallee, hfull⟩)
      exact hasItems_or_gaps hn (fun _ h ↦ h.arguments) ht htype hes
    | member =>
      exact .ite (fun _ ↦ .pure (full_unsupported _ _)) fun _ ↦ gives_member hr hn span
    | conditional =>
      refine .bind (gives_expressionIn hr hn "test") fun a _ ha ↦ ?_
      refine .bind (gives_expressionIn hr hn "consequent") fun b _ hb ↦ ?_
      refine .bind (gives_expressionIn hr hn "alternate") fun c _ hc ↦ .pure ?_
      exact full_of_parts trivial (.inr trivial) (List.forall_mem_cons.mpr ⟨ha,
        List.forall_mem_cons.mpr ⟨hb, List.forall_mem_singleton.mpr hc⟩⟩)
    | array =>
      refine .bind (gives_expressionsIn hr hn "elements") fun es _ ⟨hfull, _⟩ ↦ .pure ?_
      exact full_of_parts trivial (.inr trivial) hfull
    | object => exact gives_object hr hn span
    | sequence =>
      refine .bind (gives_expressionsIn hr hn "expressions") fun es _ ⟨hfull, hes⟩ ↦ .pure ?_
      refine full_of_parts trivial ?_ hfull
      exact hasItems_or_gaps hn (fun _ h ↦ h.expressions) ht htype hes
    | arrow | function => exact gives_functionLiteral hr hn _

/-! ### Statements -/

theorem gives_declarators {k : Nat} {r : Loader k} (hr : r.Fills gaps) (span : Span)
    {fragments : List (Fragment k)}
    (hf : ∀ fragment ∈ fragments, Tight gaps fragment.json) :
    Gives (r.declarators span fragments) fun result ↦ ∀ ds, result = .inr ds →
      ∀ d ∈ ds, ∀ x ∈ Part.ofOption d.init, Full gaps x := by
  induction fragments with
  | nil =>
    refine .pure ?_
    rintro _ ⟨⟩
    exact nofun
  | cons fragment rest ih =>
    have ih := ih fun f hrest ↦ hf f (List.mem_cons_of_mem _ hrest)
    refine .bind (fragment.gives_asNode _ _) fun declarator _ hdeclarator ↦ ?_
    have hn : declarator.Tight gaps := by
      have := hf fragment List.mem_cons_self
      rwa [hdeclarator] at this
    refine .after fun c _ ↦ .after fun p _ ↦ ?_
    split
    · exact .pure nofun
    · have hinit := gives_expressionIn? hr.lower hn "init"
      refine .after fun name _ ↦ .bind hinit fun init _ hinit ↦ ?_
      refine .bind ih fun result _ hresult ↦ .pure ?_
      intro ds hds
      cases result with
      | inl p => cases hds
      | inr others =>
        cases hds
        exact List.forall_mem_cons.mpr ⟨hinit, hresult others rfl⟩

theorem gives_declaration (hr : r.Fills gaps) (hn : node.Tight gaps) (span : Span) :
    Gives (r.declaration node span) fun s ↦ Full gaps (.stmt s) := by
  have hplain (type : Text) (span : Span) : Full gaps (.stmt (.unsupported type span)) :=
    full_of_parts trivial (.inr trivial) nofun
  refine .after fun kind _ ↦ ?_
  split
  · exact .after fun _ _ ↦ .pure (hplain _ _)
  · refine .bind (node.gives_list "declarations") fun fragments _ ⟨items, hitems, hmem⟩ ↦ ?_
    have htight (fragment : Fragment (n - 1)) (hf : fragment ∈ fragments) :
        Tight gaps fragment.json :=
      hn.of_contains ((Json.contains_of_lookup hitems).trans (.item (hmem fragment hf) (.self _)))
    refine .bind (gives_declarators hr span htight) fun result _ hresult ↦ ?_
    cases result with
    | inl p => exact .pure (hplain _ _)
    | inr ds =>
      refine .pure (full_of_parts trivial (.inr trivial) fun y hy ↦ ?_)
      obtain ⟨d, hd, hy⟩ := List.mem_flatMap.mp hy
      exact hresult ds rfl d hd y hy

theorem gives_functionDeclaration (hr : r.Fills gaps) (hn : node.Tight gaps) :
    Gives (r.functionDeclaration node) fun s ↦ Full gaps (.stmt s) := by
  refine .bind (gives_supportedFunction hr hn .declaration) fun result _ hresult ↦ ?_
  cases result with
  | inl p => exact .pure (full_of_parts trivial (.inr trivial) nofun)
  | inr code =>
    exact .pure (full_of_parts trivial (.inr trivial)
      (List.forall_mem_singleton.mpr (hresult code rfl)))

theorem gives_initializer (hr : r.Fills gaps) (hn : node.Tight gaps) :
    Gives (r.initializer node) fun o ↦ ∀ x ∈ Part.all o.toList, Full gaps x := by
  unfold initializer
  split
  · exact .pure nofun
  · next init hinit =>
    have hinit := Node.tight_of_child? hn hinit
    refine .after fun type _ ↦ .ite (fun _ ↦ ?_) fun _ ↦ ?_
    · exact .bind (hr.statement hinit) fun s _ hs ↦
        .pure (List.forall_mem_singleton.mpr hs)
    · refine .bind (hr.expression hinit) fun e _ he ↦ .after fun span _ ↦ .pure ?_
      exact List.forall_mem_singleton.mpr
        (full_of_parts trivial (.inr trivial) (List.forall_mem_singleton.mpr he))

theorem gives_switchCase (hr : r.Fills gaps) (hn : node.Tight gaps) :
    Gives (r.switchCase node) fun c ↦
      ∀ x ∈ Part.ofOption c.test ++ Part.all c.body, Full gaps x :=
  .bind (gives_expressionIn? hr hn "test") fun _ _ htest ↦
    .bind (gives_statementsIn hr hn "consequent") fun _ _ hbody ↦
      .pure (List.forall_mem_append.mpr ⟨htest, hbody⟩)

theorem gives_handler (hr : r.Fills gaps) (hn : node.Tight gaps) :
    Gives (r.handler node) fun result ↦ ∀ h, result = .inr h →
      ∀ x ∈ Part.all h.body, Full gaps x := by
  have hblock := gives_blockIn hr hn "body"
  unfold handler
  split
  · refine .bind hblock fun body _ hbody ↦ .pure ?_
    rintro _ ⟨⟩
    exact hbody
  · refine .after fun p _ ↦ ?_
    split
    · exact .pure nofun
    · refine .after fun name _ ↦ .bind hblock fun body _ hbody ↦ .pure ?_
      rintro _ ⟨⟩
      exact hbody

theorem gives_guarded (hr : r.Fills gaps) (hn : node.Tight gaps) (span : Span) :
    Gives (r.guarded node span) fun s ↦ Full gaps (.stmt s) := by
  have hfull {block : List Stmt} {handler : Option Handler} {finalizer : Option (List Stmt)}
      (hblock : ∀ x ∈ Part.all block, Full gaps x)
      (hhandler : ∀ x ∈ handler.toList.flatMap fun h ↦ Part.all h.body, Full gaps x)
      (hfinalizer : ∀ x ∈ Part.all (finalizer.getD []), Full gaps x) :
      Full gaps (.stmt (.guarded block handler finalizer span)) :=
    full_of_parts trivial (.inr trivial) <| List.forall_mem_append.mpr
      ⟨List.forall_mem_append.mpr ⟨hblock, hhandler⟩, hfinalizer⟩
  refine .bind (gives_blockIn hr hn "block") fun block _ hblock ↦ ?_
  split
  · exact .bind (gives_blockIn? hr hn "finalizer") fun _ _ hfinalizer ↦
      .pure (hfull hblock nofun hfinalizer)
  · next handlerNode hnode =>
    have hnode := Node.tight_of_child? hn hnode
    refine .bind (gives_handler hr.lower hnode) fun result _ hresult ↦ ?_
    cases result with
    | inl p => exact .pure (full_of_parts trivial (.inr trivial) nofun)
    | inr h =>
      refine .bind (gives_blockIn? hr hn "finalizer") fun _ _ hfinalizer ↦
        .pure (hfull hblock ?_ hfinalizer)
      rw [Option.toList_some, List.flatMap_singleton]
      exact hresult h rfl

theorem gives_statementStep (hr : r.Fills gaps) (hn : node.Tight gaps) :
    Gives (r.statementStep node) fun s ↦ Full gaps (.stmt s) := by
  refine .after fun type _ ↦ .after fun span _ ↦ ?_
  cases StatementType.ofText? type with
  | none => exact .pure (full_of_parts trivial (.inr trivial) nofun)
  | some t =>
    cases t with
    | expression | throwing =>
      refine .bind (gives_expressionIn hr hn _) fun e _ he ↦ .pure ?_
      exact full_of_parts trivial (.inr trivial) (List.forall_mem_singleton.mpr he)
    | block =>
      exact .bind (gives_statementsIn hr hn "body") fun _ _ h ↦
        .pure (full_of_parts trivial (.inr trivial) h)
    | empty => exact .pure (full_of_parts trivial (.inr trivial) nofun)
    | declaration => exact gives_declaration hr hn span
    | function => exact gives_functionDeclaration hr hn
    | returned =>
      exact .bind (gives_expressionIn? hr hn "argument") fun _ _ h ↦
        .pure (full_of_parts trivial (.inr trivial) h)
    | conditional =>
      refine .bind (gives_statementIn? hr hn "alternate") fun alternate _ halternate ↦ ?_
      refine .bind (gives_expressionIn hr hn "test") fun test _ htest ↦ ?_
      refine .bind (gives_statementIn hr hn "consequent") fun s _ hs ↦ .pure ?_
      exact full_of_parts trivial (.inr trivial)
        (List.forall_mem_cons.mpr ⟨htest, List.forall_mem_cons.mpr ⟨hs, halternate⟩⟩)
    | whileLoop =>
      refine .bind (gives_expressionIn hr hn "test") fun test _ htest ↦ ?_
      refine .bind (gives_statementIn hr hn "body") fun s _ hs ↦ .pure ?_
      exact full_of_parts trivial (.inr trivial)
        (List.forall_mem_cons.mpr ⟨htest, List.forall_mem_singleton.mpr hs⟩)
    | doWhileLoop =>
      refine .bind (gives_statementIn hr hn "body") fun s _ hs ↦ ?_
      refine .bind (gives_expressionIn hr hn "test") fun test _ htest ↦ .pure ?_
      exact full_of_parts trivial (.inr trivial)
        (List.forall_mem_cons.mpr ⟨htest, List.forall_mem_singleton.mpr hs⟩)
    | forLoop =>
      refine .bind (gives_initializer hr hn) fun init _ hinit ↦ ?_
      refine .bind (gives_expressionIn? hr hn "test") fun test _ htest ↦ ?_
      refine .bind (gives_expressionIn? hr hn "update") fun update _ hupdate ↦ ?_
      refine .bind (gives_statementIn hr hn "body") fun s _ hs ↦ .pure ?_
      refine full_of_parts trivial (.inr trivial) (List.forall_mem_append.mpr ⟨?_, ?_⟩)
      · exact List.forall_mem_append.mpr ⟨List.forall_mem_append.mpr ⟨hinit, htest⟩, hupdate⟩
      · exact List.forall_mem_singleton.mpr hs
    | switch =>
      refine .bind (gives_expressionIn hr hn "discriminant") fun d _ hd ↦ ?_
      refine .bind (node.gives_list "cases") fun fragments _ ⟨items, hitems, hmem⟩ ↦ ?_
      have hread (fragment : Fragment (n - 1)) (hf : fragment ∈ fragments) :
          Gives (do r.lower.switchCase (← fragment.asNode "cases" span)) fun c ↦
            ∀ x ∈ Part.ofOption c.test ++ Part.all c.body, Full gaps x := by
        refine .bind (fragment.gives_asNode _ _) fun c _ hc ↦ ?_
        have hmem := hmem fragment hf
        rw [hc] at hmem
        exact gives_switchCase hr.lower (Node.tight_of_mem hn hitems hmem)
      refine .bind (Gives.mapM hread) fun cs _ hcs ↦ .pure ?_
      refine full_of_parts trivial (.inr trivial) (List.forall_mem_cons.mpr ⟨hd, fun y hy ↦ ?_⟩)
      obtain ⟨c, hc, hy⟩ := List.mem_flatMap.mp hy
      obtain ⟨_, _, hfull⟩ := hcs c hc
      exact hfull y hy
    | breaking | continuing =>
      exact .after fun _ _ ↦ .pure (full_of_parts trivial (.inr trivial) nofun)
    | labeled =>
      refine .after fun label _ ↦ .bind (gives_statementIn hr hn "body") fun s _ hs ↦ .pure ?_
      exact full_of_parts trivial (.inr trivial) (List.forall_mem_singleton.mpr hs)
    | guarded => exact gives_guarded hr hn span

end

/-- Each height fills what it loads, if the one below it does. -/
theorem loader_fills (gaps : Prop) : ∀ n, (loader n).Fills gaps
  | 0 => ⟨fun {node} _ ↦ absurd node.height_lt (Nat.not_lt_zero _),
      fun {node} _ ↦ absurd node.height_lt (Nat.not_lt_zero _)⟩
  | n + 1 => ⟨gives_expressionStep (n := n + 1) (loader_fills gaps n),
      gives_statementStep (n := n + 1) (loader_fills gaps n)⟩

end Estree.Loader

/-! ### Programs -/

/-- Every statement of a program is full, if its document is tight. -/
theorem Program.gives_ofJson {document : Json} {gaps : Prop} (hd : Tight gaps document) :
    Gives (ofJson document) fun p ↦ ∀ s ∈ p.body, Loader.Full gaps (.stmt s) := by
  refine .bind (Fragment.gives_asNode _ _ _) fun root _ hroot ↦ .after fun _ _ ↦ .after fun _ _ ↦ ?_
  have hroot : root.Tight gaps := by
    change document = .object root.members at hroot
    rwa [hroot] at hd
  refine .ite (fun _ ↦ ?_) fun _ ↦ .fails _
  refine .bind (Loader.gives_statementsIn (Loader.loader_fills gaps _) hroot "body") ?_
  intro body _ hbody
  exact .pure fun s hs ↦ hbody _ (List.mem_map_of_mem hs)

/-- In a program that was loaded, a property without a key is unsupported; and if no list of
arguments and no sequence of the document has a null, then all arguments and all items are there.
Run where no function has gaps, such a program never ends with the fault of an absent node, unless
code of the host makes it, and leaves no function with gaps. -/
theorem Program.load_present {t : Text} {p : Program} (h : load t = .ok p) :
    (∀ s ∈ p.body, (Part.stmt s).Every Part.HasKeys) ∧
      ∀ document, Json.parse t = .ok document → document.Gapless →
        (∀ s ∈ p.body, (Part.stmt s).Every Part.HasItems) ∧
        ∀ (i : Interpreter) (level : Nat) (held : List Value), i.state.heap.Gapless →
          ((i.run level p held).1 = .faulted .absent →
            ∃ number count, (i.config.others number count).Raises .absent) ∧
          (i.run level p held).2.state.heap.Gapless := by
  obtain ⟨document, hparse, hread⟩ : ∃ document, Json.parse t = .ok document ∧
      ofJson document = .ok p := by
    unfold load at h
    split at h
    · next document hparse => exact ⟨document, hparse, h⟩
    · cases h
  constructor
  · intro s hs
    have htight : Tight True document := .inl trivial
    have hfull := gives_ofJson htight p hread s hs
    exact hfull.imp fun _ hx ↦ hx.1
  · intro document' hparse' hgapless
    obtain rfl : document' = document := by
      rw [hparse] at hparse'
      cases hparse'
      rfl
    have hitems : ∀ s ∈ p.body, (Part.stmt s).Every Part.HasItems := by
      intro s hs
      have htight : Tight False document' := .inr hgapless
      have hfull := gives_ofJson htight p hread s hs
      exact hfull.imp fun _ hx ↦ hx.2.resolve_left id
    exact ⟨hitems, fun i level held hheap ↦ i.run_gapless level held hitems hheap⟩

/-- A call of an array with a name. -/
def Program.calling : Program where
  body := [.expression (.call (.array [] .nowhere) [some (.identifier "x" .nowhere)] .nowhere)
    .nowhere]
  span := .nowhere

theorem Program.load_present_calling :
    load calling.encode.render = .ok calling ∧
      (∀ s ∈ calling.body, (Part.stmt s).Every Part.HasKeys) ∧
      (∀ s ∈ calling.body, (Part.stmt s).Every Part.HasItems) ∧
      ∀ level, ((Interpreter.start .standard .empty .start []).run level calling []).1 ≠
        .faulted .absent := by
  have hp : calling.Expressible := by
    simp [calling, Expressible, Part.every_iff_forall, Part.parts, Part.ofStmt, Part.ofExpr,
      Part.present, Part.Expressible]
  have hparse : Json.parse calling.encode.render = .ok calling.encode :=
    Json.parse_render (isNormal_encode hp)
  have hload : load calling.encode.render = .ok calling := by
    rw [load, hparse]
    exact ofJson_encode hp
  have hgapless : calling.encode.Gapless := by
    refine .of_arrays fun items hcontains ↦ ?_
    simp [calling, encode, Stmt.encodeAll, Stmt.encode, Expr.encode, Expr.encodeAll, Expr.encode?,
      encodeName, encodeNode, nodeMembers, encodeOffset] at hcontains
    rcases hcontains with rfl | rfl | rfl <;> simp
  obtain ⟨hkeys, hdocument⟩ := load_present hload
  obtain ⟨hitems, hruns⟩ := hdocument _ hparse hgapless
  have hheap : (Interpreter.start .standard .empty .start []).state.heap.Gapless := .empty
  refine ⟨hload, hkeys, hitems, fun level habsent ↦ ?_⟩
  obtain ⟨_, _, hraises⟩ := (hruns _ level [] hheap).1 habsent
  cases hraises

/-- A sequence whose second item is absent. -/
def Program.gapped : Program where
  body := [.expression (.sequence [some (.null .nowhere), none] .nowhere) .nowhere]
  span := .nowhere

theorem Program.exists_load_gapped :
    ∃ t p, load t = .ok p ∧ ¬ (∀ s ∈ p.body, (Part.stmt s).Every Part.HasItems) ∧
      ((Interpreter.start .standard .empty .start []).run 3 p []).1 = .faulted .absent := by
  have hp : gapped.Expressible := by
    simp [gapped, Expressible, Part.every_iff_forall, Part.parts, Part.ofStmt, Part.ofExpr,
      Part.present, Part.Expressible]
  refine ⟨gapped.encode.render, gapped, ?_, ?_, ?_⟩
  · rw [load, Json.parse_render (isNormal_encode hp)]
    exact ofJson_encode hp
  · intro h
    have hsequence := (h _ List.mem_cons_self).of_mem List.mem_cons_self
    exact hsequence.1 (List.mem_cons_of_mem _ List.mem_cons_self)
  · rfl

end EcmaTree
