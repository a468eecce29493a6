import EcmaTree.Proofs.Estree.Absence
import EcmaTree.Proofs.Estree.Variation
import Mathlib.Data.List.Forall2

/-!
# Fields of nodes that vary

What is read from the fields of a node is the same for each of its variations, if the fields are
among those that are looked up on it. What cannot be read fails with the same error.
-/

namespace EcmaTree.Estree

variable {n n' : Nat} {α β α' β' : Type}

/-! ## Two runs -/

/-- Both loads end with the same error, or with things that are related. -/
inductive Agree (R : α → α' → Prop) : Loaded α → Loaded α' → Prop where
  | ok {a : α} {a' : α'} (h : R a a') : Agree R (.ok a) (.ok a')
  | error (e : LoadError) : Agree R (.error e) (.error e)

namespace Agree

variable {R : α → α' → Prop} {m : Loaded α} {m' : Loaded α'}

theorem bind {S : β → β' → Prop} {f : α → Loaded β} {f' : α' → Loaded β'} (hm : Agree R m m')
    (hf : ∀ a a', R a a' → Agree S (f a) (f' a')) : Agree S (m >>= f) (m' >>= f') := by
  cases hm with
  | ok h => exact hf _ _ h
  | error e => exact .error e

theorem bind_eq {f : α → Loaded β} {f' : α' → Loaded β} (hm : Agree R m m')
    (hf : ∀ a a', R a a' → f a = f' a') : (m >>= f) = (m' >>= f') := by
  cases hm with
  | ok h => exact hf _ _ h
  | error => rfl

/-- Lists of things that are related one by one are loaded as the same. -/
theorem mapM_eq {f : α → Loaded β} {f' : α' → Loaded β} {l : List α} {l' : List α'}
    (hl : List.Forall₂ R l l') (hf : ∀ a a', R a a' → f a = f' a') : l.mapM f = l'.mapM f' := by
  induction hl with
  | nil => rfl
  | cons h _ ih => rw [List.mapM_cons, List.mapM_cons, hf _ _ h, ih]

end Agree

/-- Nodes that vary. -/
def Node.Vary (r : Role) (node : Node n) (node' : Node n') : Prop :=
  Varies (.node r) (.object node.members) (.object node'.members)

theorem Node.Vary.up {r : Role} {node : Node (n - 1)} {node' : Node (n' - 1)}
    (h : node.Vary r node') : node.up.Vary r node'.up :=
  h

/-- Fragments that vary, where a node is looked for. -/
def Fragment.Vary (r : Role) (x : Fragment n) (x' : Fragment n') : Prop :=
  Varies (.node r) x.json x'.json

theorem Fragment.node?_cases {r : Role} {x : Fragment n} {x' : Fragment n'} (h : x.Vary r x') :
    x.node? = none ∧ x'.node? = none ∨
      ∃ c c', x.node? = some c ∧ x'.node? = some c' ∧ c.Vary r c' := by
  obtain ⟨j, hj⟩ := x
  obtain ⟨j', hj'⟩ := x'
  rcases Varies.node_cases h with ⟨members, others, hmembers, hothers⟩ | ⟨hj, hj'⟩
  · dsimp only at hmembers hothers
    subst hmembers hothers
    exact .inr ⟨_, _, rfl, rfl, h⟩
  · left
    constructor
    · cases j with
      | object members => exact absurd rfl (hj members)
      | _ => rfl
    · cases j' with
      | object members => exact absurd rfl (hj' members)
      | _ => rfl

theorem Fragment.asNode_agree {r : Role} {x : Fragment n} {x' : Fragment n'} (h : x.Vary r x')
    (field : Text) (span : Span) :
    Agree (Node.Vary r) (x.asNode field span) (x'.asNode field span) := by
  rw [Fragment.asNode, Fragment.asNode]
  rcases Fragment.node?_cases h with ⟨hx, hx'⟩ | ⟨c, c', hx, hx', hc⟩
  · rw [hx, hx']
    exact .error _
  · rw [hx, hx']
    exact .ok hc

theorem ItemsVary.fragments {r : Role} {items others : List Json} (h : ItemsVary r items others)
    (hitems : Json.itemsHeight items ≤ n) (hothers : Json.itemsHeight others ≤ n') :
    List.Forall₂ (Fragment.Vary r) (Fragment.ofItems items hitems)
      (Fragment.ofItems others hothers) := by
  induction items generalizing others with
  | nil =>
    cases h
    exact .nil
  | cons item rest ih =>
    cases h with
    | cons h hrest => exact .cons h (ih hrest _ _)

theorem Fragment.items?_cases {r : Role} {x : Fragment n} {x' : Fragment n'}
    (h : Varies (.list r) x.json x'.json) :
    x.items? = none ∧ x'.items? = none ∨
      ∃ l l', x.items? = some l ∧ x'.items? = some l' ∧ List.Forall₂ (Fragment.Vary r) l l' := by
  obtain ⟨j, hj⟩ := x
  obtain ⟨j', hj'⟩ := x'
  rcases h.list_cases with ⟨items, others, hitems, hothers, hvary⟩ | ⟨hnone, hnone'⟩
  · dsimp only at hitems hothers
    subst hitems hothers
    exact .inr ⟨_, _, rfl, rfl, hvary.fragments _ _⟩
  · left
    constructor
    · cases j with
      | array items => exact absurd rfl (hnone items)
      | _ => rfl
    · cases j' with
      | array items => exact absurd rfl (hnone' items)
      | _ => rfl

namespace Node

variable {node : Node n} {node' : Node n'} {r : Role} {slot : Slot} {field : Text}

/-- What a field holds varies. -/
def AgreeOn (node : Node n) (node' : Node n') (field : Text) (slot : Slot) : Prop :=
  FieldVaries slot (Json.lookup field node.members) (Json.lookup field node'.members)

/-- The fields that are looked up on every node vary. -/
def Alike (node : Node n) (node' : Node n') : Prop :=
  ∀ field slot, (field, slot) ∈ commonFields → node.AgreeOn node' field slot

/-- The fields that are looked up on a node in a role vary. -/
def Matches (r : Role) (node : Node n) (node' : Node n') : Prop :=
  ∀ field slot, (field, slot) ∈ r.fields node.members → node.AgreeOn node' field slot

theorem Matches.alike (h : node.Matches r node') : node.Alike node' :=
  fun field slot hslot ↦ h field slot (List.mem_append_left _ hslot)

theorem Matches.own (h : node.Matches r node') {fields : List (Text × Slot)}
    (hfields : r.ownFields (Role.typeIn node.members) (Role.computedIn node.members) = fields)
    {p : Text × Slot} (hp : p ∈ fields) : node.AgreeOn node' p.1 p.2 :=
  h p.1 p.2 (List.mem_append_right _ (hfields ▸ hp))

/-- Where there are no parentheses the fields vary. -/
theorem Vary.matches (h : node.Vary r node') (hexpression : r ≠ .expression) (hbody : r ≠ .body) :
    node.Matches r node' := by
  rcases Varies.fields_or_wrapped h with h | ⟨inner, hwraps, -⟩
  · exact h
  · rcases hwraps with hr | ⟨hr, -⟩
    · exact absurd hr hexpression
    · exact absurd hr hbody

theorem field?_cases (h : node.AgreeOn node' field slot) :
    node.field? field = none ∧ node'.field? field = none ∨
      ∃ x x', node.field? field = some x ∧ node'.field? field = some x' ∧
        Varies slot x.json x'.json := by
  rw [AgreeOn] at h
  generalize ho : Json.lookup field node.members = o at h
  generalize ho' : Json.lookup field node'.members = o' at h
  cases h with
  | absent => exact .inl ⟨field?_of_lookup_none ho, field?_of_lookup_none ho'⟩
  | present h =>
    obtain ⟨hj, hx⟩ := field?_of_lookup ho
    obtain ⟨hj', hx'⟩ := field?_of_lookup ho'
    exact .inr ⟨_, _, hx, hx', h⟩

/-! ### Scalars -/

/-- A field that is looked at as a scalar holds the same, or something of the same kind that is no
scalar. -/
theorem leaf_cases (h : node.AgreeOn node' field .leaf) :
    node.field? field = none ∧ node'.field? field = none ∨
      (∃ j hj hj', node.field? field = some ⟨j, hj⟩ ∧ node'.field? field = some ⟨j, hj'⟩) ∨
      (∃ items hi others ho, node.field? field = some ⟨.array items, hi⟩ ∧
        node'.field? field = some ⟨.array others, ho⟩) ∨
      ∃ members hm others ho, node.field? field = some ⟨.object members, hm⟩ ∧
        node'.field? field = some ⟨.object others, ho⟩ := by
  rcases field?_cases h with hnone | ⟨⟨j, hj⟩, ⟨j', hj'⟩, hx, hx', hvaries⟩
  · exact .inl hnone
  rcases hvaries.leaf_cases with h | ⟨items, others, h, h'⟩ | ⟨members, others, h, h'⟩
  · dsimp only at h
    subst h
    exact .inr (.inl ⟨_, _, _, hx, hx'⟩)
  all_goals
    dsimp only at h h'
    subst h h'
  · exact .inr (.inr (.inl ⟨_, _, _, _, hx, hx'⟩))
  · exact .inr (.inr (.inr ⟨_, _, _, _, hx, hx'⟩))

theorem has_eq (h : node.AgreeOn node' field slot) : node.has field = node'.has field := by
  rcases field?_cases h with ⟨hx, hx'⟩ | ⟨x, x', hx, hx', -⟩
  all_goals
    rw [has, has, hx, hx']
    rfl

theorem flag_eq (h : node.AgreeOn node' field .leaf) : node.flag field = node'.flag field := by
  rw [flag, flag]
  rcases leaf_cases h with ⟨hx, hx'⟩ | ⟨j, _, _, hx, hx'⟩ | ⟨_, _, _, _, hx, hx'⟩ |
    ⟨_, _, _, _, hx, hx'⟩
  all_goals rw [hx, hx']
  cases j <;> rfl

theorem offset_eq (h : node.AgreeOn node' field .leaf) :
    node.offset field = node'.offset field := by
  rw [offset, offset]
  rcases leaf_cases h with ⟨hx, hx'⟩ | ⟨j, _, _, hx, hx'⟩ | ⟨_, _, _, _, hx, hx'⟩ |
    ⟨_, _, _, _, hx, hx'⟩
  all_goals rw [hx, hx']
  cases j <;> rfl

theorem Alike.span_eq (h : node.Alike node') : node.span = node'.span := by
  rw [span, span, offset_eq (h "start" .leaf (by decide)), offset_eq (h "end" .leaf (by decide))]

theorem Alike.type_eq (h : node.Alike node') : node.type = node'.type := by
  rw [type, type, h.span_eq]
  rcases leaf_cases (h "type" .leaf (by decide)) with ⟨hx, hx'⟩ | ⟨j, _, _, hx, hx'⟩ |
    ⟨_, _, _, _, hx, hx'⟩ | ⟨_, _, _, _, hx, hx'⟩
  all_goals rw [hx, hx']
  cases j <;> rfl

theorem Alike.fail_eq (h : node.Alike node') (fault : Text → LoadFault) :
    (node.fail fault : Loaded α) = node'.fail fault := by
  rw [fail, fail, h.type_eq, h.span_eq]

/-! ### Fields that must be there -/

/-- A fault of a node is the same, whatever it comes in the place of. -/
theorem Alike.fail_agree (h : node.Alike node') {R : α → α' → Prop} (fault : Text → LoadFault) :
    Agree R (node.fail fault) (node'.fail fault) := by
  rw [fail, fail, h.type_eq, h.span_eq]
  cases node'.type with
  | error e => exact .error e
  | ok type =>
    cases node'.span with
    | error e => exact .error e
    | ok span => exact .error _

theorem required_agree (h : node.Alike node') (hfield : node.AgreeOn node' field slot) :
    Agree (fun x x' ↦ Varies slot x.json x'.json) (node.required field) (node'.required field) := by
  rw [required, required]
  rcases field?_cases hfield with ⟨hx, hx'⟩ | ⟨x, x', hx, hx', hvaries⟩
  · rw [hx, hx']
    exact h.fail_agree _
  · rw [hx, hx']
    exact .ok hvaries

theorem child_agree (h : node.Alike node') (hfield : node.AgreeOn node' field (.node r)) :
    Agree (Vary r) (node.child field) (node'.child field) := by
  rw [child, child]
  refine (required_agree h hfield).bind fun x x' hvaries ↦ ?_
  rcases Fragment.node?_cases hvaries with ⟨hx, hx'⟩ | ⟨c, c', hx, hx', hc⟩
  · rw [hx, hx']
    exact h.fail_agree _
  · rw [hx, hx']
    exact .ok hc

theorem list_agree (h : node.Alike node') (hfield : node.AgreeOn node' field (.list r)) :
    Agree (List.Forall₂ (Fragment.Vary r)) (node.list field) (node'.list field) := by
  rw [list, list]
  refine (required_agree h hfield).bind fun x x' hvaries ↦ ?_
  rcases Fragment.items?_cases hvaries with ⟨hx, hx'⟩ | ⟨l, l', hx, hx', hl⟩
  · rw [hx, hx']
    exact h.fail_agree _
  · rw [hx, hx']
    exact .ok hl

theorem text_eq (h : node.Alike node') (hfield : node.AgreeOn node' field .leaf) :
    node.text field = node'.text field := by
  rw [text, text]
  refine (required_agree h hfield).bind_eq fun x x' hvaries ↦ ?_
  rcases hvaries.leaf_cases with hjson | ⟨_, _, hjson, hjson'⟩ | ⟨_, _, hjson, hjson'⟩
  · rw [hjson]
    cases x'.json with
    | text => rfl
    | _ => exact h.fail_eq _
  all_goals
    rw [hjson, hjson']
    exact h.fail_eq _

/-- The name of a node that is looked at for its name. -/
theorem name_eq (h : node.Vary .name node') : node.text "name" = node'.text "name" := by
  have hmatches := h.matches (by decide) (by decide)
  exact text_eq hmatches.alike (hmatches.own rfl List.mem_cons_self)

theorem childName_eq (h : node.Alike node') (hfield : node.AgreeOn node' field (.node .name)) :
    node.childName field = node'.childName field :=
  (child_agree h hfield).bind_eq fun _ _ hc ↦ name_eq hc

/-! ### Fields that may be there -/

theorem child?_cases (hfield : node.AgreeOn node' field (.node r)) :
    node.child? field = none ∧ node'.child? field = none ∨
      ∃ c c', node.child? field = some c ∧ node'.child? field = some c' ∧ c.Vary r c' := by
  rw [child?, child?]
  rcases field?_cases hfield with ⟨hx, hx'⟩ | ⟨x, x', hx, hx', hvaries⟩
  · rw [hx, hx']
    exact .inl ⟨rfl, rfl⟩
  · rw [hx, hx']
    exact Fragment.node?_cases hvaries

theorem nameIn_eq (hfield : node.AgreeOn node' field (.node .name)) :
    node.nameIn field = node'.nameIn field := by
  rw [nameIn, nameIn]
  rcases child?_cases hfield with ⟨hc, hc'⟩ | ⟨c, c', hc, hc', hvary⟩
  · rw [hc, hc']
  · rw [hc, hc']
    exact name_eq hvary

theorem pattern?_eq (h : node.Vary .name node') : node.pattern? = node'.pattern? := by
  have hmatches := h.matches (by decide) (by decide)
  rw [pattern?, pattern?, hmatches.alike.type_eq, hmatches.alike.span_eq]

/-- What is loaded next may depend on the type. -/
theorem Alike.bind_type (h : node.Alike node') {f f' : Text → Loaded α}
    (hf : ∀ type, node.type = .ok type → f type = f' type) :
    (node.type >>= f) = (node'.type >>= f') := by
  rw [← h.type_eq]
  cases htype : node.type with
  | error => rfl
  | ok type => exact hf type htype

/-- The type is what the members name. -/
theorem typeIn_of_type {type : Text} (h : node.type = .ok type) :
    Role.typeIn node.members = type := by
  rw [Node.type] at h
  split at h
  · next t _ hfield =>
    rw [Role.typeIn, lookup_of_field? hfield]
    exact Except.ok.inj h
  · rw [span] at h
    cases hstart : node.offset "start" with
    | error => rw [hstart] at h; cases h
    | ok start =>
      cases hstop : node.offset "end" with
      | error => rw [hstart, ok_bind, hstop] at h; cases h
      | ok stop => rw [hstart, ok_bind, hstop] at h; cases h

/-- Where the same fields are looked up, nodes that vary in one role vary in the other. -/
theorem Matches.vary (h : node.Matches r node') {r' : Role}
    (heq : r'.ownFields (Role.typeIn node.members) (Role.computedIn node.members) =
      r.ownFields (Role.typeIn node.members) (Role.computedIn node.members)) :
    node.Vary r' node' := by
  refine .node fun field slot hslot ↦ h field slot ?_
  rw [Role.fields, heq] at hslot
  exact hslot

theorem operator_eq (h : node.Alike node') (hfield : node.AgreeOn node' "operator" .leaf)
    (family : String) (ofText? : Text → Option α) :
    node.operator family ofText? = node'.operator family ofText? := by
  rw [operator, operator, text_eq h hfield, h.span_eq]

end Node

/-! ## Names of parameters -/

theorem parameterNames_agree {l : List (Fragment n)} {l' : List (Fragment n')} (span : Span)
    (hl : List.Forall₂ (Fragment.Vary .name) l l') :
    parameterNames span l = parameterNames span l' :=
  Agree.mapM_eq hl fun _ _ hx ↦ (Fragment.asNode_agree hx _ _).bind_eq fun _ _ hc ↦ Node.name_eq hc

theorem parameterPattern?_agree {l : List (Fragment n)} {l' : List (Fragment n')} (span : Span)
    (hl : List.Forall₂ (Fragment.Vary .name) l l') :
    parameterPattern? span l = parameterPattern? span l' := by
  induction hl with
  | nil => rfl
  | cons hx _ ih =>
    rw [parameterPattern?, parameterPattern?]
    refine (Fragment.asNode_agree hx _ _).bind_eq fun c c' hc ↦ ?_
    rw [Node.pattern?_eq hc]
    refine bind_congr fun pattern ↦ ?_
    cases pattern with
    | none => exact ih
    | some p => rfl

end EcmaTree.Estree
