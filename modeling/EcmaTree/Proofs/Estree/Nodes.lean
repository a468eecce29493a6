import EcmaTree.Estree.Loader
import EcmaTree.Proofs.Estree.Encoding
import EcmaTree.Proofs.Estree.Names
import EcmaTree.Proofs.Json.Collecting
import EcmaTree.Proofs.Number.Integers

/-!
# Fields of nodes

What the fields of a node are read as, when the document says what they hold. Reading does not
depend on the bound that a node is indexed by.
-/

namespace EcmaTree.Estree

variable {n : Nat} {α : Type} {field : Text} {j : Json}

/-- A document is a node that is read as a value. -/
def Reads (read : Node n → Loaded α) (j : Json) (a : α) : Prop :=
  ∃ members, j = .object members ∧ ∀ node : Node n, node.members = members → read node = .ok a

/-- What a field of a written node holds. -/
@[simp] theorem lookup_nodeMembers (field type : Text) (span : Span)
    (fields : List (Text × Json)) :
    Json.lookup field (nodeMembers type span fields) =
      if "type" = field then some (.text type)
      else if "start" = field then some (encodeOffset span.start)
      else if "end" = field then some (encodeOffset span.stop)
      else Json.lookup field fields := by
  simp only [nodeMembers, Json.lookup_cons]

namespace Node

variable {node : Node n}

theorem field?_of_lookup (h : Json.lookup field node.members = some j) :
    ∃ hj, node.field? field = some ⟨j, hj⟩ := by
  rw [field?]
  split
  · next json hjson =>
    obtain rfl := Option.some.inj (h.symm.trans hjson)
    exact ⟨Nat.le_sub_one_of_lt (Nat.lt_of_le_of_lt (Json.height_le_of_lookup h) node.height_lt),
      rfl⟩
  · next hnone => exact nomatch h.symm.trans hnone

theorem field?_of_lookup_none (h : Json.lookup field node.members = none) :
    node.field? field = none := by
  rw [field?]
  split
  · next hjson => exact nomatch h.symm.trans hjson
  · rfl

theorem has_of_lookup_none (h : Json.lookup field node.members = none) :
    node.has field = false := by
  rw [has, field?_of_lookup_none h]
  rfl

theorem flag_of_lookup {b : Bool} (h : Json.lookup field node.members = some (.bool b)) :
    node.flag field = b := by
  obtain ⟨_, hfield⟩ := field?_of_lookup h
  rw [flag, hfield]

theorem flag_of_lookup_none (h : Json.lookup field node.members = none) :
    node.flag field = false := by
  rw [flag, field?_of_lookup_none h]

theorem required_of_lookup (h : Json.lookup field node.members = some j) :
    ∃ fragment, node.required field = .ok fragment ∧ fragment.json = j := by
  obtain ⟨hj, hfield⟩ := field?_of_lookup h
  exact ⟨⟨j, hj⟩, by rw [required, hfield], rfl⟩

theorem text_of_lookup {t : Text} (h : Json.lookup field node.members = some (.text t)) :
    node.text field = .ok t := by
  obtain ⟨hj, hfield⟩ := field?_of_lookup h
  rw [text, required, hfield]
  rfl

theorem child_of_lookup {members : List (Text × Json)}
    (h : Json.lookup field node.members = some (.object members)) :
    ∃ c : Node (n - 1), c.members = members ∧ node.child field = .ok c ∧
      node.child? field = some c := by
  obtain ⟨hj, hfield⟩ := field?_of_lookup h
  refine ⟨⟨members, hj⟩, rfl, ?_, ?_⟩
  · rw [child, required, hfield]
    rfl
  · rw [child?, hfield]
    rfl

theorem child?_of_lookup_null (h : Json.lookup field node.members = some .null) :
    node.child? field = none := by
  obtain ⟨hj, hfield⟩ := field?_of_lookup h
  rw [child?, hfield]
  rfl

theorem list_of_lookup {items : List Json}
    (h : Json.lookup field node.members = some (.array items)) :
    ∃ hitems, node.list field = .ok (Fragment.ofItems items hitems) := by
  obtain ⟨hj, hfield⟩ := field?_of_lookup h
  refine ⟨Nat.le_of_lt hj, ?_⟩
  rw [list, required, hfield]
  rfl

theorem offset_of_lookup {x : Number} {k : UInt32}
    (h : Json.lookup field node.members = some (.number x)) (hx : x.integer? = some ↑k.toNat) :
    node.offset field = .ok k := by
  obtain ⟨hj, hfield⟩ := field?_of_lookup h
  have hrange :
      (decide ((0 : Int) ≤ k.toNat) && decide ((k.toNat : Int) < UInt32.size)) = true := by
    rw [Bool.and_eq_true, decide_eq_true_iff, decide_eq_true_iff]
    exact ⟨Int.natCast_nonneg _, Int.ofNat_lt.mpr k.toNat_lt_size⟩
  rw [offset, hfield]
  dsimp only
  rw [hx]
  dsimp only
  rw [if_pos hrange, Int.toNat_natCast, UInt32.ofNat_toNat]

theorem type_of_lookup {type : Text} (h : Json.lookup "type" node.members = some (.text type)) :
    node.type = .ok type := by
  obtain ⟨hj, hfield⟩ := field?_of_lookup h
  rw [Node.type, hfield]
  rfl

/-! ## Nodes that are written -/

variable {type : Text} {span : Span} {fields : List (Text × Json)}

theorem type_of_members (h : node.members = nodeMembers type span fields) :
    node.type = .ok type :=
  type_of_lookup (by simp [h])

theorem span_of_members (h : node.members = nodeMembers type span fields) :
    node.span = .ok span := by
  have hexact (k : UInt32) : (Number.ofNat k.toNat).integer? = some ↑k.toNat :=
    (Number.ofNat_spec (Nat.lt_trans k.toNat_lt (by decide))).2.2
  have hstart : Json.lookup "start" node.members = some (encodeOffset span.start) := by simp [h]
  have hstop : Json.lookup "end" node.members = some (encodeOffset span.stop) := by simp [h]
  rw [Node.span, offset_of_lookup hstart (hexact _), offset_of_lookup hstop (hexact _)]
  rfl

end Node

end EcmaTree.Estree
