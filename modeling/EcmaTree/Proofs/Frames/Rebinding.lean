import EcmaTree.Proofs.Frames.Scopes

/-!
# Names and bindings

A name means one binding: the newest one of the name in the innermost frame that declares it.
Looking the name up reads that binding, and assigning to the name changes its value and nothing
else, so that only the names that mean this very binding are read differently afterwards, in
whatever frame.
-/

namespace EcmaTree

/-- Where a binding is: in a frame, after so many newer ones. -/
structure Place where
  frame : FrameId
  newer : Nat
deriving DecidableEq

namespace Frame

/-- The names that a frame declares, the newest first. -/
def names (f : Frame) : List Text := f.bindings.map Binding.name

/-- The newest binding of a name is where the name is declared first. -/
theorem find?_eq_getElem? (f : Frame) (name : Text) :
    f.find? name = f.bindings[f.names.idxOf name]? := by
  rw [find?, names]
  induction f.bindings with
  | nil => rfl
  | cons b rest ih =>
    rw [List.find?_cons, List.map_cons, List.idxOf_cons]
    cases b.name == name with
    | true => rfl
    | false => exact ih

theorem find?_isSome (f : Frame) (name : Text) :
    (f.find? name).isSome = true ↔ name ∈ f.names := by
  rw [find?, List.find?_isSome, names, List.mem_map]
  simp only [beq_iff_eq]

/-- An assignment changes the newest binding of the name. -/
theorem assignFirst_eq_modify (name : Text) (v : Value) (bs : List Binding) :
    assignFirst name v bs =
      bs.modify ((bs.map Binding.name).idxOf name) fun b ↦ { b with value := v } := by
  induction bs with
  | nil => rfl
  | cons b rest ih =>
    rw [assignFirst, List.map_cons, List.idxOf_cons]
    cases b.name == name with
    | true => rfl
    | false => exact congrArg (b :: ·) ih

theorem names_assign (f : Frame) (name : Text) (v : Value) : (f.assign name v).names = f.names := by
  rw [names, assign, assignFirst_eq_modify, names]
  apply List.ext_getElem?
  intro i
  simp only [List.getElem?_map, List.getElem?_modify]
  split <;> cases f.bindings[i]? <;> rfl

end Frame

namespace Heap

/-- The binding at a place. -/
def binding? (h : Heap) (p : Place) : Option Binding :=
  (h.frame? p.frame).bind fun f ↦ f.bindings[p.newer]?

/-- Parents are older, so that the frames are a forest. -/
def IsForest (h : Heap) : Prop :=
  ∀ (id q : FrameId) (f : Frame), h.frame? id = some f → f.parent = some q → q.index < id.index

theorem Ordered.isForest {h : Heap} (hh : h.Ordered) : h.IsForest := fun _ _ _ ↦ hh.parent_lt

/-- Where the binding is that a name means in a frame: it is the newest one of the name, or what the
name means in the parent if the frame does not declare it. -/
inductive Means (h : Heap) (name : Text) : FrameId → Place → Prop where
  | here {id : FrameId} {f : Frame} (hf : h.frame? id = some f) (hname : name ∈ f.names) :
      Means h name id ⟨id, f.names.idxOf name⟩
  | outside {id q : FrameId} {f : Frame} {p : Place} (hf : h.frame? id = some f)
      (hname : name ∉ f.names) (hq : f.parent = some q) (hp : Means h name q p) : Means h name id p

variable {h h' : Heap} {id g : FrameId} {name other : Text} {p : Place} {b : Binding} {v : Value}

/-- A name means one binding at most. -/
theorem Means.unique {p' : Place} (hp : h.Means name id p) (hp' : h.Means name id p') : p' = p := by
  induction hp with
  | here hf hname =>
    cases hp' with
    | here hf' => rw [Option.some.inj (hf.symm.trans hf')]
    | outside hf' hname' =>
      obtain rfl := Option.some.inj (hf.symm.trans hf')
      exact absurd hname hname'
  | outside hf hname hq _ ih =>
    cases hp' with
    | here hf' hname' =>
      obtain rfl := Option.some.inj (hf.symm.trans hf')
      exact absurd hname' hname
    | outside hf' _ hq' hp' =>
      obtain rfl := Option.some.inj (hf.symm.trans hf')
      obtain rfl := Option.some.inj (hq.symm.trans hq')
      exact ih hp'

/-- There is a binding where a name means one. It is in a frame that declares the name, and no newer
binding of that frame has the name. -/
theorem Means.exists_frame? (hp : h.Means name id p) :
    ∃ f, h.frame? p.frame = some f ∧ name ∈ f.names ∧ p.newer = f.names.idxOf name := by
  induction hp with
  | here hf hname => exact ⟨_, hf, hname, rfl⟩
  | outside _ _ _ _ ih => exact ih

theorem findLocal?_eq_none {f : Frame} (hf : h.frame? id = some f) (hname : name ∉ f.names) :
    h.findLocal? id name = none := by
  rw [findLocal?, hf, Option.bind_some, ← Option.not_isSome_iff_eq_none]
  exact mt (f.find?_isSome name).mp hname

theorem IsForest.chain_eq (hh : h.IsForest) {f : Frame} (hf : h.frame? id = some f) :
    h.chain id = id :: f.parent.elim [] h.chain := by
  rw [chain_of_some hf]
  cases hq : f.parent with
  | none => rfl
  | some q => exact if_pos (hh id q f hf hq)

/-- The frame that has the binding is the one that an assignment finds. -/
theorem Means.owner?_eq (hh : h.IsForest) (hp : h.Means name id p) :
    h.owner? id name = some p.frame ∧ h.findLocal? p.frame name = h.binding? p := by
  rw [owner?]
  induction hp with
  | @here id f hf hname =>
    have hlocal : h.findLocal? id name = f.find? name := by rw [findLocal?, hf, Option.bind_some]
    constructor
    · rw [hh.chain_eq hf, List.find?_cons, hlocal, (f.find?_isSome name).mpr hname]
    · rw [hlocal, binding?, hf, Option.bind_some, f.find?_eq_getElem?]
  | @outside id q f p hf hname hq _ ih =>
    rw [hh.chain_eq hf, List.find?_cons, findLocal?_eq_none hf hname, hq]
    exact ih

/-- What is looked up is the binding that the name means. -/
theorem Means.lookup_eq (hh : h.IsForest) (hp : h.Means name id p) :
    h.lookup id name = h.binding? p := by
  obtain ⟨howner, hlocal⟩ := hp.owner?_eq hh
  rw [lookup_eq_bind, howner, Option.bind_some, hlocal]

/-- A name that is found means a binding. -/
theorem IsForest.exists_means (hh : h.IsForest) (hb : h.lookup id name = some b) :
    ∃ p, h.Means name id p := by
  induction hindex : id.index using Nat.strong_induction_on generalizing id with
  | _ n ih =>
    cases hf : h.frame? id with
    | none =>
      rw [lookup, chain_of_none hf] at hb
      cases hb
    | some f =>
      by_cases hname : name ∈ f.names
      · exact ⟨_, .here hf hname⟩
      · rw [lookup, hh.chain_eq hf, List.findSome?_cons, findLocal?_eq_none hf hname] at hb
        cases hq : f.parent with
        | none =>
          rw [hq] at hb
          cases hb
        | some q =>
          rw [hq] at hb
          obtain ⟨p, hp⟩ := ih q.index (hindex ▸ hh id q f hf hq) hb rfl
          exact ⟨p, .outside hf hname hq hp⟩

/-- Looking a name up reads the binding that the name means. -/
theorem IsForest.lookup_eq_some_iff (hh : h.IsForest) :
    h.lookup id name = some b ↔ ∃ p, h.Means name id p ∧ h.binding? p = some b := by
  constructor
  · intro hb
    obtain ⟨p, hp⟩ := hh.exists_means hb
    exact ⟨p, hp, (hp.lookup_eq hh).symm.trans hb⟩
  · rintro ⟨p, hp, hb⟩
    exact (hp.lookup_eq hh).trans hb

/-! ### Assigning to a name -/

/-- The binding at a place got a value. No other binding is changed, and nothing else of the
heap. -/
structure Rebinds (h : Heap) (p : Place) (v : Value) (h' : Heap) : Prop where
  /-- The binding keeps its name and its kind. -/
  rebound : ∃ b, h.binding? p = some b ∧ h'.binding? p = some { b with value := v }
  others {q : Place} (hq : q ≠ p) : h'.binding? q = h.binding? q
  frames (id : FrameId) : (h'.frame? id).map (fun f ↦ { f with bindings := [] }) =
    (h.frame? id).map fun f ↦ { f with bindings := [] }
  things {r : HeapRef} (hr : ∀ id, r ≠ .frame id) : h'.cell? r = h.cell? r

/-- The parents of frames and the names that they declare are all that decides what names mean. -/
theorem Means.of_parents (hsame : ∀ id, (h'.frame? id).map (fun f ↦ (f.parent, f.names)) =
    (h.frame? id).map fun f ↦ (f.parent, f.names)) (hp : h.Means name id p) :
    h'.Means name id p := by
  have hframe {id : FrameId} {f : Frame} (hf : h.frame? id = some f) :
      ∃ f', h'.frame? id = some f' ∧ f'.parent = f.parent ∧ f'.names = f.names := by
    have hid := hsame id
    rw [hf] at hid
    obtain ⟨f', hf', heq⟩ := Option.map_eq_some_iff.mp hid
    obtain ⟨hparent, hnames⟩ := Prod.mk.inj heq
    exact ⟨f', hf', hparent, hnames⟩
  induction hp with
  | here hf hname =>
    obtain ⟨f', hf', -, hnames⟩ := hframe hf
    rw [← hnames]
    exact .here hf' (hnames ▸ hname)
  | outside hf hname hq _ ih =>
    obtain ⟨f', hf', hparent, hnames⟩ := hframe hf
    exact .outside hf' (hnames ▸ hname) (hparent.trans hq) ih

theorem assign_of_none (hb : h.lookup id name = none) (v : Value) :
    h.assign id name v = (.notFound, h) := by
  rw [lookup_eq_bind] at hb
  rw [assign]
  cases howner : h.owner? id name with
  | none => rfl
  | some owner =>
    rw [howner, Option.bind_some] at hb
    dsimp only
    rw [hb]

/-- An assignment to a name goes to the binding that the name means, unless that is constant. -/
theorem Means.assign_eq (hh : h.IsForest) (hp : h.Means name id p) (hb : h.binding? p = some b)
    (v : Value) :
    h.assign id name v = if b.kind = .const then (.constViolation, h)
      else (.ok, h.modifyFrame p.frame (·.assign name v)) := by
  obtain ⟨howner, hlocal⟩ := hp.owner?_eq hh
  rw [assign, howner]
  dsimp only
  rw [hlocal, hb]

theorem binding?_of_frame? {f : Frame} (hf : h.frame? g = some f) (n : Nat) :
    h.binding? ⟨g, n⟩ = f.bindings[n]? := by
  rw [binding?, hf, Option.bind_some]

/-- An assignment in the frame of the binding that a name means rebinds it. -/
theorem Means.rebinds (hp : h.Means name id p) (v : Value) :
    h.Rebinds p v (h.modifyFrame p.frame (·.assign name v)) := by
  obtain ⟨f, hf, hname, hnewer⟩ := hp.exists_frame?
  have hframe (g : FrameId) := h.frame?_modifyFrame p.frame g (·.assign name v)
  have hassigned : (h.modifyFrame p.frame (·.assign name v)).frame? p.frame =
      some (f.assign name v) := by
    rw [hframe, if_pos rfl, hf, Option.map_some]
  have hbindings : (f.assign name v).bindings =
      f.bindings.modify p.newer fun b ↦ { b with value := v } := by
    rw [hnewer]
    exact Frame.assignFirst_eq_modify name v f.bindings
  constructor
  case rebound =>
    obtain ⟨b, hb⟩ := Option.isSome_iff_exists.mp ((f.find?_isSome name).mpr hname)
    rw [f.find?_eq_getElem?, ← hnewer] at hb
    refine ⟨b, (binding?_of_frame? hf p.newer).trans hb, ?_⟩
    refine (binding?_of_frame? hassigned p.newer).trans ?_
    rw [hbindings, List.getElem?_modify_eq, hb]
    rfl
  case others =>
    rintro ⟨g, n⟩ hq
    by_cases hg : p.frame = g
    · subst hg
      have hn : p.newer ≠ n := fun heq ↦ hq (heq ▸ rfl)
      rw [binding?_of_frame? hassigned, hbindings, List.getElem?_modify_ne _ _ hn,
        binding?_of_frame? hf]
    · rw [binding?, hframe, if_neg hg, binding?]
  case frames =>
    intro g
    rw [hframe]
    split
    · rw [Option.map_map]
      rfl
    · rfl
  case things =>
    intro r hr
    rw [cell?_modifyFrame, if_neg (hr p.frame)]

theorem IsForest.modifyFrame (hh : h.IsForest) (changed : FrameId) {f : Frame → Frame}
    (hf : ∀ x, (f x).parent = x.parent) : (h.modifyFrame changed f).IsForest := by
  intro id q x hx hq
  rw [frame?_modifyFrame] at hx
  split at hx
  · obtain ⟨y, hy, rfl⟩ := Option.map_eq_some_iff.mp hx
    exact hh id q y hy ((hf y).symm.trans hq)
  · exact hh id q x hx hq

theorem means_modifyFrame_iff (h : Heap) (changed : FrameId) {f : Frame → Frame}
    (hf : ∀ x, (f x).parent = x.parent ∧ (f x).names = x.names) :
    (h.modifyFrame changed f).Means name id p ↔ h.Means name id p := by
  have hsame (g : FrameId) :
      ((h.modifyFrame changed f).frame? g).map (fun f ↦ (f.parent, f.names)) =
        (h.frame? g).map fun f ↦ (f.parent, f.names) := by
    rw [frame?_modifyFrame]
    split
    · rw [Option.map_map]
      congr 1
      funext x
      exact Prod.ext (hf x).1 (hf x).2
    · rfl
  exact ⟨.of_parents fun g ↦ (hsame g).symm, .of_parents hsame⟩

/-- Only one name can mean a binding. -/
theorem Means.name_eq (hp : h.Means name id p) (hp' : h.Means other g p) : other = name := by
  obtain ⟨f, hf, hname, hnewer⟩ := hp.exists_frame?
  obtain ⟨f', hf', hother, hnewer'⟩ := hp'.exists_frame?
  obtain rfl := Option.some.inj (hf.symm.trans hf')
  exact (List.idxOf_inj hother).mp (hnewer'.symm.trans hnewer)

theorem means_assign_iff (h : Heap) (changed : FrameId) (v : Value) :
    (h.modifyFrame changed (·.assign name v)).Means other g p ↔ h.Means other g p :=
  h.means_modifyFrame_iff changed fun f ↦ ⟨rfl, f.names_assign name v⟩

section

variable (hh : h.IsForest) (hp : h.Means name id p) (v : Value)
include hh hp

/-- Wherever a name means the binding that got a value, it is found with the value. -/
theorem Means.lookup_assign (hg : h.Means name g p) :
    ((h.modifyFrame p.frame (·.assign name v)).lookup g name).map Binding.value = some v := by
  obtain ⟨b, -, hb⟩ := (hp.rebinds v).rebound
  have hafter : (h.modifyFrame p.frame (·.assign name v)).Means name g p :=
    (h.means_assign_iff p.frame v).mpr hg
  have hforest : (h.modifyFrame p.frame (·.assign name v)).IsForest :=
    hh.modifyFrame p.frame fun _ ↦ rfl
  rw [hafter.lookup_eq hforest, hb, Option.map_some]

/-- A name that does not mean the binding is found as before. -/
theorem Means.lookup_assign_of_not (hg : ¬ h.Means other g p) :
    (h.modifyFrame p.frame (·.assign name v)).lookup g other = h.lookup g other := by
  have hforest : (h.modifyFrame p.frame (·.assign name v)).IsForest :=
    hh.modifyFrame p.frame fun _ ↦ rfl
  refine Option.ext fun b ↦ ?_
  rw [hforest.lookup_eq_some_iff, hh.lookup_eq_some_iff]
  refine exists_congr fun q ↦ ?_
  rw [means_assign_iff]
  refine and_congr_right fun hq ↦ ?_
  have hne : q ≠ p := fun heq ↦ hg (heq ▸ hq)
  rw [(hp.rebinds v).others hne]

end

/-- What assigning to a name comes to is decided by the binding that the name means. If there is
none, or if it is constant, nothing changes. Otherwise its value changes and nothing else does, so
that a name is found as before unless it means this very binding. -/
theorem assign_rebinds (hh : h.IsForest) (id : FrameId) (name : Text) (v : Value) :
    let result := (h.assign id name v).1
    let h' := (h.assign id name v).2
    (∀ g other b, h.lookup g other = some b ↔ ∃ p, h.Means other g p ∧ h.binding? p = some b) ∧
      (result = .notFound ↔ h.lookup id name = none) ∧
      (result = .constViolation ↔ ∃ b, h.lookup id name = some b ∧ b.kind = .const) ∧
      (result ≠ .ok → h' = h) ∧
      (result = .ok → ∃ p, h.Means name id p ∧ h.Rebinds p v h' ∧
        (∀ g, h.Means name g p → (h'.lookup g name).map Binding.value = some v) ∧
        ∀ g other, h'.lookup g other ≠ h.lookup g other → other = name ∧ h.Means name g p) := by
  intro result h'
  refine ⟨fun _ _ _ ↦ hh.lookup_eq_some_iff, ?_⟩
  cases hb : h.lookup id name with
  | none =>
    have hassign := assign_of_none hb v
    have hresult : result = .notFound := congrArg Prod.fst hassign
    have hkept : h' = h := congrArg Prod.snd hassign
    simp [hresult, hkept]
  | some b =>
    obtain ⟨p, hp, hbinding⟩ := hh.lookup_eq_some_iff.mp hb
    have hassign := hp.assign_eq hh hbinding v
    by_cases hk : b.kind = .const
    · rw [if_pos hk] at hassign
      have hresult : result = .constViolation := congrArg Prod.fst hassign
      have hkept : h' = h := congrArg Prod.snd hassign
      simp [hresult, hk, hkept]
    · rw [if_neg hk] at hassign
      have hresult : result = .ok := congrArg Prod.fst hassign
      have hchanged : h' = h.modifyFrame p.frame (·.assign name v) := congrArg Prod.snd hassign
      refine ⟨by simp [hresult], by simp [hresult, hk], fun hne ↦ absurd hresult hne, fun _ ↦ ?_⟩
      rw [hchanged]
      refine ⟨p, hp, hp.rebinds v, fun g hg ↦ hp.lookup_assign hh v hg, fun g other hne ↦ ?_⟩
      have hg : h.Means other g p := by
        by_contra hg
        exact hne (hp.lookup_assign_of_not hh v hg)
      obtain rfl := hp.name_eq hg
      exact ⟨rfl, hg⟩

/-- A frame that declares a name twice, below one in which it is a constant and above two others,
the second of which declares the name, too. -/
def redeclared : Heap :=
  let frame (parent : Option FrameId) (bindings : List Binding) : Frame :=
    { Frame.ofParent parent with bindings }
  let h := Heap.empty
  let h := (h.newFrame (frame none [⟨"x", .const, .null⟩])).2
  let h := (h.newFrame (frame (some ⟨0⟩) [⟨"x", .let, .bool true⟩, ⟨"x", .var, .bool false⟩])).2
  let h := (h.newFrame (frame (some ⟨1⟩) [])).2
  (h.newFrame (frame (some ⟨1⟩) [⟨"x", .function, .undefined⟩])).2

theorem assign_rebinds_redeclared :
    let h' := (redeclared.assign ⟨2⟩ "x" .null).2
    redeclared.IsForest ∧ (redeclared.assign ⟨2⟩ "x" .null).1 = .ok ∧
      ∃ p, redeclared.Means "x" ⟨2⟩ p ∧ redeclared.Rebinds p .null h' ∧
        (∀ g, redeclared.Means "x" g p → (h'.lookup g "x").map Binding.value = some .null) ∧
        ∀ g other, h'.lookup g other ≠ redeclared.lookup g other →
          other = "x" ∧ redeclared.Means "x" g p := by
  intro h'
  have hforest : redeclared.IsForest := by
    have hempty : Heap.empty.Ordered := Sound.empty.ordered
    refine Ordered.isForest (.newFrame (.newFrame (.newFrame (hempty.newFrame nofun) ?_) ?_) ?_)
    all_goals
      rintro q ⟨⟩
      decide
  have hok : (redeclared.assign ⟨2⟩ "x" .null).1 = .ok := by decide +kernel
  obtain ⟨-, -, -, -, hrebinds⟩ := assign_rebinds hforest ⟨2⟩ "x" .null
  exact ⟨hforest, hok, hrebinds hok⟩

end Heap

end EcmaTree
