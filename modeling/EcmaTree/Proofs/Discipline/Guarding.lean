import EcmaTree.Proofs.Discipline.Basic

/-!
# Guarding what is evaluated

If what is evaluated and all code in the heap has a property that nodes hand down to their parts,
then all code that evaluations leave in the heap has it.
-/

namespace EcmaTree

/-- All code in a store of functions has a property. -/
def Store.Codes (P : FunctionNode → Prop) (fs : Store Function) : Prop :=
  ∀ i name code scope, fs.get? i = some ⟨name, .closure code scope⟩ → P code

namespace Store.Codes

variable {P : FunctionNode → Prop} {fs : Store Function}

/-- A store that never held anything has no code. -/
theorem empty : (Store.empty : Store Function).Codes P :=
  fun _ _ _ _ hi ↦ (Option.some_ne_none _ hi.symm).elim

theorem push (h : fs.Codes P) {f : Function}
    (hf : ∀ code scope, f.behaviour = .closure code scope → P code) : (fs.push f).Codes P := by
  intro i name code scope hi
  rw [Store.get?_push] at hi
  split at hi
  · obtain rfl := Option.some.inj hi
    exact hf code scope rfl
  · exact h i name code scope hi

/-- A function may get another name. -/
theorem modify (h : fs.Codes P) {g : Function → Function} (hg : ∀ f, (g f).behaviour = f.behaviour)
    (id : Nat) : (fs.modify id g).Codes P := by
  intro i name code scope hi
  rw [Store.get?_modify] at hi
  split at hi
  · obtain ⟨⟨old, behaviour⟩, hf, heq⟩ := Option.map_eq_some_iff.mp hi
    obtain rfl : behaviour = .closure code scope := by
      have := hg ⟨old, behaviour⟩
      rw [heq] at this
      exact this.symm
    exact h i old code scope hf
  · exact h i name code scope hi

theorem restrict (h : fs.Codes P) (keep : Nat → Bool) : (fs.restrict keep).Codes P := by
  intro i name code scope hi
  rw [Store.get?_restrict] at hi
  split at hi
  · exact h i name code scope hi
  · cases hi

end Store.Codes

/-- The states between which all code in the heap keeps a property. -/
structure State.Guarded (P : FunctionNode → Prop) (s t : State) : Prop where
  depth_eq : t.depth = s.depth
  codes (h : s.heap.functions.Codes P) : t.heap.functions.Codes P

namespace State.Guarded

variable {P : FunctionNode → Prop} {s t : State}

theorem of_eq (hd : t.depth = s.depth) (hf : t.heap.functions = s.heap.functions) :
    s.Guarded P t :=
  ⟨hd, fun h ↦ hf ▸ h⟩

theorem of_touch {h : Heap} (ht : s.heap.Touch h) : s.Guarded P { s with heap := h } := by
  cases ht with
  | object | array | setSignal | modifyObject | modifyArray => exact of_eq rfl rfl
  | host name f => exact ⟨rfl, fun h ↦ h.push nofun⟩
  | nameFunction id name =>
    refine ⟨rfl, fun h ↦ h.modify (fun f ↦ ?_) _⟩
    split
    · rfl
    · rfl
  | assign id name v =>
    refine of_eq rfl ?_
    rw [Heap.assign]
    split
    · rfl
    · split
      · rfl
      · split
        · rfl
        · rfl

theorem of_moment (c : Config) (m : Moment) : s.Guarded P (s.passMoment c m) := by
  rw [passMoment]
  split
  · exact ⟨rfl, fun h ↦ h.restrict _⟩
  · exact of_eq rfl rfl

end State.Guarded

/-- The discipline of a property that nodes hand down to their parts. -/
def Discipline.guarding {c : Config} (P : Part → Prop) (faults : Fault → Prop) (exhausts : Prop)
    (hpart : ∀ {x y}, P x → y ∈ x.parts → P y)
    (hfault : ∀ {e}, e.isStray = false → e ≠ .absent → faults e)
    (habsent : ∀ {x}, P x → ¬ x.HasItems → faults .absent)
    (hhost : ∀ {number count e}, (c.others number count).Raises e → faults e)
    (hloop : ∀ {s : Stmt}, P (.stmt s) → s.isLoop = true → exhausts) : Discipline c where
  Accepts := P
  Fits fs := fs.Codes fun code ↦ P (.function code)
  Way _ s t := s.Guarded (fun code ↦ P (.function code)) t
  Faults := faults
  Exhausts := exhausts
  accepts_part := hpart
  accepts_code hf hi := hf _ _ _ _ hi
  exhausts := hloop
  fits h := h.codes
  depth_eq h := h.depth_eq
  refl s := .of_eq rfl rfl
  trans h h' := ⟨h'.depth_eq.trans h.depth_eq, fun hs ↦ h'.codes (h.codes hs)⟩
  of_still h := h
  of_declaring h := h
  way_quiet h := by
    cases h with
    | heap ht => exact .of_touch ht
    | record | note => exact .of_eq rfl rfl
    | moment m => exact .of_moment c m
  way_make {s code} hc := ⟨rfl, fun h ↦ h.push fun _ _ heq ↦ by cases heq; exact hc⟩
  way_define _ _ _ _ := .of_eq rfl rfl
  way_sibling _ := .of_eq rfl rfl
  way_holding h := ⟨h.depth_eq, h.codes⟩
  way_calls h := ⟨h.depth_eq, h.codes⟩
  way_deeper _ h := ⟨rfl, h.codes⟩
  way_opening _ h := ⟨h.depth_eq, h.codes⟩
  absent := habsent
  faults := hfault
  host := hhost

end EcmaTree
