import EcmaTree.Proofs.Alike.Level

/-!
# Alike and the same

If no node may be replaced and whole heaps are compared, what is alike is the same: trees,
functions, heaps, states and the outcomes of evaluations.
-/

namespace EcmaTree

/-! ### Trees -/

mutual

theorem Expr.Alike.eq : ∀ {e e' : Expr}, e.Alike False e' → e = e'
  | .identifier .., _, .identifier .. => rfl
  | .number .., _, .number .. => rfl
  | .text .., _, .text .. => rfl
  | .bool .., _, .bool .. => rfl
  | .null _, _, .null _ => rfl
  | .receiver _, _, .receiver _ => rfl
  | .binary .., _, .binary _ _ hl hr => by rw [hl.eq, hr.eq]
  | .logical .., _, .logical _ _ hl hr => by rw [hl.eq, hr.eq]
  | .unary .., _, .unary _ _ he => by rw [he.eq]
  | .assign .., _, .assign _ _ ht he => by rw [ht.eq, he.eq]
  | .update .., _, .update _ _ _ ht => by rw [ht.eq]
  | .call .., _, .call _ hc has => by rw [hc.eq, Expr.Alike.eqAll has]
  | .member .., _, .member _ _ ho hp => by rw [ho.eq, hp.eq]
  | .conditional .., _, .conditional _ ht hc ha => by rw [ht.eq, hc.eq, ha.eq]
  | .array .., _, .array _ hes => by rw [Expr.Alike.eqAll hes]
  | .object .., _, .object _ hps => by rw [Property.Alike.eqAll hps]
  | .sequence .., _, .sequence _ hes => by rw [Expr.Alike.eqAll hes]
  | .function .., _, .function _ hf => by rw [hf.eq]
  | .unsupported .., _, .unsupported he => (he.resolve_left id).symm
termination_by structural x => x

theorem Expr.Alike.eqOption : ∀ {e e' : Option Expr}, Option.Rel (Expr.Alike False) e e' → e = e'
  | none, _, .none => rfl
  | some _, _, .some he => by rw [he.eq]
termination_by structural x => x

theorem Expr.Alike.eqAll :
    ∀ {es es' : List (Option Expr)}, List.Forall₂ (Option.Rel (Expr.Alike False)) es es' → es = es'
  | [], _, .nil => rfl
  | _ :: _, _, .cons he hes => by rw [Expr.Alike.eqOption he, Expr.Alike.eqAll hes]
termination_by structural x => x

theorem Property.Alike.eq : ∀ {p p' : Property}, p.Alike False p' → p = p'
  | ⟨_, _, _⟩, _, .mk _ hk hv => by rw [Expr.Alike.eqOption hk, hv.eq]
termination_by structural x => x

theorem Property.Alike.eqAll :
    ∀ {ps ps' : List Property}, List.Forall₂ (Property.Alike False) ps ps' → ps = ps'
  | [], _, .nil => rfl
  | _ :: _, _, .cons hp hps => by rw [hp.eq, Property.Alike.eqAll hps]
termination_by structural x => x

theorem FunctionNode.Alike.eq : ∀ {f f' : FunctionNode}, f.Alike False f' → f = f'
  | ⟨_, _, _, _, _⟩, _, .mk _ _ _ _ hb => by rw [hb.eq]
termination_by structural x => x

theorem FunctionBody.Alike.eq : ∀ {b b' : FunctionBody}, b.Alike False b' → b = b'
  | .statements _, _, .statements hss => by rw [Stmt.Alike.eqAll hss]
  | .concise _, _, .concise he => by rw [he.eq]
termination_by structural x => x

theorem Stmt.Alike.eq : ∀ {s s' : Stmt}, s.Alike False s' → s = s'
  | .declare .., _, .declare _ _ hds => by rw [Declarator.Alike.eqAll hds]
  | .function .., _, .function _ hf => by rw [hf.eq]
  | .returned .., _, .returned _ he => by rw [Expr.Alike.eqOption he]
  | .expression .., _, .expression _ he => by rw [he.eq]
  | .block .., _, .block _ hss => by rw [Stmt.Alike.eqAll hss]
  | .empty _, _, .empty _ => rfl
  | .conditional .., _, .conditional _ ht hc ha => by rw [ht.eq, hc.eq, Stmt.Alike.eqOption ha]
  | .whileLoop .., _, .whileLoop _ ht hb => by rw [ht.eq, hb.eq]
  | .doWhileLoop .., _, .doWhileLoop _ hb ht => by rw [hb.eq, ht.eq]
  | .forLoop .., _, .forLoop _ hi ht hu hb => by
    rw [Stmt.Alike.eqOption hi, Expr.Alike.eqOption ht, Expr.Alike.eqOption hu, hb.eq]
  | .switch .., _, .switch _ hd hcs => by rw [hd.eq, SwitchCase.Alike.eqAll hcs]
  | .breaking .., _, .breaking .. => rfl
  | .continuing .., _, .continuing .. => rfl
  | .labeled .., _, .labeled _ _ hb => by rw [hb.eq]
  | .throwing .., _, .throwing _ he => by rw [he.eq]
  | .guarded _ none none _, _, .guarded _ hss .none .none => by rw [Stmt.Alike.eqAll hss]
  | .guarded _ none (some _) _, _, .guarded _ hss .none (.some hfs) => by
    rw [Stmt.Alike.eqAll hss, Stmt.Alike.eqAll hfs]
  | .guarded _ (some _) none _, _, .guarded _ hss (.some hhd) .none => by
    rw [Stmt.Alike.eqAll hss, hhd.eq]
  | .guarded _ (some _) (some _) _, _, .guarded _ hss (.some hhd) (.some hfs) => by
    rw [Stmt.Alike.eqAll hss, hhd.eq, Stmt.Alike.eqAll hfs]
  | .unsupported .., _, .unsupported hs => (hs.resolve_left id).symm
termination_by structural x => x

theorem Stmt.Alike.eqOption : ∀ {s s' : Option Stmt}, Option.Rel (Stmt.Alike False) s s' → s = s'
  | none, _, .none => rfl
  | some _, _, .some hs => by rw [hs.eq]
termination_by structural x => x

theorem Stmt.Alike.eqAll :
    ∀ {ss ss' : List Stmt}, List.Forall₂ (Stmt.Alike False) ss ss' → ss = ss'
  | [], _, .nil => rfl
  | _ :: _, _, .cons hs hss => by rw [hs.eq, Stmt.Alike.eqAll hss]
termination_by structural x => x

theorem Declarator.Alike.eqAll :
    ∀ {ds ds' : List Declarator}, List.Forall₂ (Declarator.Alike False) ds ds' → ds = ds'
  | [], _, .nil => rfl
  | ⟨_, _⟩ :: _, _, .cons (.mk _ he) hds => by
    rw [Expr.Alike.eqOption he, Declarator.Alike.eqAll hds]
termination_by structural x => x

theorem SwitchCase.Alike.eqAll :
    ∀ {cs cs' : List SwitchCase}, List.Forall₂ (SwitchCase.Alike False) cs cs' → cs = cs'
  | [], _, .nil => rfl
  | ⟨_, _⟩ :: _, _, .cons (.mk he hss) hcs => by
    rw [Expr.Alike.eqOption he, Stmt.Alike.eqAll hss, SwitchCase.Alike.eqAll hcs]
termination_by structural x => x

theorem Handler.Alike.eq : ∀ {h h' : Handler}, h.Alike False h' → h = h'
  | ⟨_, _⟩, _, .mk _ hss => by rw [Stmt.Alike.eqAll hss]
termination_by structural x => x

end

/-! ### Heaps -/

theorem Function.Alike.eq {f f' : Function} (h : f.Alike False f') : f = f' := by
  cases h with
  | closure name frame hc => rw [hc.eq]
  | captured | host => rfl

theorem Cell.Alike.eq {d d' : Cell} (h : d.Alike False d') : d = d' := by
  cases h with
  | frame | object | array => rfl
  | function hf => rw [hf.eq]

/-- Where heaps are compared, they hold the same. -/
theorem Heap.Alike.cell?_eq {whole : Prop} {roots : List HeapRef} {h h' : Heap}
    (ha : h.Alike False whole roots h') {r : HeapRef} (hr : h.Compared whole roots r) :
    h.cell? r = h'.cell? r := by
  have hrel := ha.cells r hr
  generalize h.cell? r = d, h'.cell? r = d' at hrel ⊢
  cases hrel with
  | none => rfl
  | some hd => rw [hd.eq]

namespace Heap.Alike

variable {roots : List HeapRef} {h h' h'' : Heap}

/-- What is the same as far as the roots reach can be compared from the other side. -/
theorem symm (ha : h.Alike False False roots h') : h'.Alike False False roots h where
  frames := ha.frames.symm
  objects := ha.objects.symm
  arrays := ha.arrays.symm
  functions := ha.functions.symm
  cells r hr := by
    have hback : h.Reachable roots r :=
      (ha.reachable_iff fun _ hx ↦ .root hx).mpr (hr.resolve_left id)
    rw [ha.cell?_eq (.inr hback)]
    cases h'.cell? r with
    | none => exact .none
    | some d => exact .some (.refl False d)

theorem trans (ha : h.Alike False False roots h') (ha' : h'.Alike False False roots h'') :
    h.Alike False False roots h'' where
  frames := ha.frames.trans ha'.frames
  objects := ha.objects.trans ha'.objects
  arrays := ha.arrays.trans ha'.arrays
  functions := ha.functions.trans ha'.functions
  cells r hr := by
    have hon : h'.Reachable roots r :=
      (ha.reachable_iff fun _ hx ↦ .root hx).mp (hr.resolve_left id)
    rw [ha.cell?_eq hr, ha'.cell?_eq (.inr hon)]
    cases h''.cell? r with
    | none => exact .none
    | some d => exact .some (.refl False d)

end Heap.Alike

/-- Stores that gave away as many indices and hold the same things under them are the same. -/
theorem Store.eq_of_get? {α : Type} {s t : Store α} (hsize : s.size = t.size)
    (hget : ∀ i, s.get? i = t.get? i) : s = t := by
  have hcells : s.cells = t.cells := by
    refine Array.ext hsize fun i hs ht ↦ ?_
    have h := hget i
    rw [get?, get?, Array.getElem?_eq_getElem hs, Array.getElem?_eq_getElem ht] at h
    exact h
  cases s
  cases t
  exact congrArg Store.mk hcells

/-- Heaps that hold the same everywhere are the same. -/
theorem Heap.Alike.eq {roots : List HeapRef} {h h' : Heap} (ha : h.Alike False True roots h') :
    h = h' := by
  have hr (r : HeapRef) : h.Compared True roots r := .inl trivial
  have hframes : h.frames = h'.frames :=
    Store.eq_of_get? ha.frames fun i ↦ ha.frame?_eq (hr (.frame ⟨i⟩))
  have hobjects : h.objects = h'.objects :=
    Store.eq_of_get? ha.objects fun i ↦ ha.objects_eq (hr (.object ⟨i⟩))
  have harrays : h.arrays = h'.arrays :=
    Store.eq_of_get? ha.arrays fun i ↦ ha.arrays_eq (hr (.array ⟨i⟩))
  have hfunctions : h.functions = h'.functions := by
    refine Store.eq_of_get? ha.functions fun i ↦ ?_
    have hrel : Option.Rel (Function.Alike False) (h.functions.get? i) (h'.functions.get? i) :=
      ha.function?_rel (hr (.function ⟨i⟩))
    generalize h.functions.get? i = f, h'.functions.get? i = f' at hrel ⊢
    cases hrel with
    | none => rfl
    | some hf => rw [hf.eq]
  cases h
  cases h'
  rw [Heap.mk.injEq]
  exact ⟨hframes, hobjects, harrays, hfunctions⟩

/-! ### Evaluations -/

/-- Nothing is left in which alike evaluations could differ. -/
structure Pairing.Exact (p : Pairing) : Prop where
  free : p.free = False
  short : ¬ p.short
  whole : p.whole = True

variable {p : Pairing} {kept kept' : List HeapRef}

theorem State.Alike.eq (hp : p.Exact) {s t : State} (h : s.Alike p kept t) : s = t := by
  have hheap : s.heap = t.heap := by
    have hh := h.heap.toAlike
    rw [hp.free, hp.whole] at hh
    exact hh.eq
  have hw : p.whole := hp.whole ▸ trivial
  cases s
  cases t
  rw [State.mk.injEq]
  exact ⟨hheap, h.frame, h.depth, h.calls, h.log, h.notices, h.held, h.moments hw, h.accounting hw⟩

theorem Outcome.Alike.eq (hp : p.Exact) {α : Type} [Carries α] {held : List Holder}
    {o o' : Outcome α} (h : o.Alike p held kept o') : o = o' := by
  cases h with
  | done a h => rw [h.eq hp]
  | thrown e h => rw [h.eq hp]
  | faulted e h => rw [h.eq hp]
  | exhausted h => rw [h.eq hp]
  | free hfree => exact (hp.free ▸ hfree).elim
  | short hshort => exact (hp.short hshort).elim

end EcmaTree
