import EcmaTree.Proofs.Coupling.Level
import EcmaTree.Proofs.Frames.Recasting
import EcmaTree.Proofs.Results

/-!
# Reserved variables

A frame covers itself and the frames below it. Reserved evaluation is told of a frame whether it
covers the current one, and ends with an alarm, a fault that no handler sees, if that is not so
whenever a node or a call begins or ends. The variables of the frame are reserved for the code that
it covers: while other code is evaluated they are constants. The code of a function belongs to the
frame that the function captured. Reserved evaluation is evaluation, if the variables of the frame
are let variables.
-/

namespace EcmaTree

/-- A frame is another one or an ancestor of it. -/
def Heap.covers (h : Heap) (id g : FrameId) : Bool := decide (id ∈ h.chain g)

/-- Ends with the alarm unless a frame covers the current one at the beginning and at the end, or
unless it does so neither here nor there. -/
def Eval.covered {α : Type} (alarm : Fault) (id : FrameId) (inside : Bool) (m : Eval α) : Eval α :=
  fun s ↦
    let t := (m s).state
    if s.heap.covers id s.frame = inside ∧ t.heap.covers id t.frame = inside then m s
    else .faulted alarm s

/-- Enters the code of a function on the level for code in the scope of a frame, or on the one for
other code. -/
def Evaluator.enterReserved (r : Bool → Evaluator) (id : FrameId) (inside : Bool) : Entering :=
  fun f code scope args receiver s ↦
    let under := s.heap.covers id scope
    ((r under).closure f code scope args receiver (s.recast id under)).mapState (·.recast id inside)

/-- Reserved evaluation on a level, of code in the scope of a frame or of other code. -/
def Config.reserved (c : Config) (alarm : Fault) (id : FrameId) : Nat → Bool → Evaluator
  | 0, _ => c.level 0
  | n + 1, inside =>
    let r := c.reserved alarm id n
    let run : Running := fun _ ↦ (r inside).applyBy (Evaluator.enterReserved r id inside)
    { config := c
      rounds := n + 1
      expr := fun e ↦ Eval.covered alarm id inside ((r inside).exprStepBy run e)
      stmt := fun x ↦ Eval.covered alarm id inside ((r inside).stmtStep x)
      call := fun callee args receiver ↦
        Eval.covered alarm id inside ((r inside).callValueBy run callee args receiver) }

namespace Heap

variable {h h' : Heap} {id g : FrameId} {f : Frame}

theorem covers_eq_false : h.covers id g = false ↔ id ∉ h.chain g := decide_eq_false_iff_not

theorem KeepsScope.covers_eq (hk : h.KeepsScope h' g) (id : FrameId) :
    h'.covers id g = h.covers id g := by
  rw [covers, covers, hk.chain_eq]

theorem covers_recast (h : Heap) (id : FrameId) (kind : BindingKind) (other g : FrameId) :
    (h.recast id kind).covers other g = h.covers other g :=
  (h.keepsScope_recast id kind g).covers_eq other

/-- What is older than a new frame covers it if it covers the parent. -/
theorem covers_newFrame (hid : id.index < h.frames.size)
    (hf : ∀ q, f.parent = some q → q.index < h.frames.size) :
    (h.newFrame f).2.covers id (h.newFrame f).1 = f.parent.elim false (h.covers id) := by
  have hne : id ≠ (h.newFrame f).1 := fun heq ↦ hid.ne (congrArg FrameId.index heq)
  rw [covers, chain_newFrame h hf]
  cases f.parent with
  | none => simp [hne]
  | some q => simp [hne, covers]

/-- What covers a frame and is another one covers its siblings. -/
theorem covers_siblingOf (hh : h.Ordered) (hne : id ≠ g) :
    (h.siblingOf g).parent.elim false (h.covers id) = h.covers id g := by
  cases hf : h.frame? g with
  | none => simp [siblingOf, hf, covers, chain_of_none hf, Frame.ofParent]
  | some f =>
    rw [covers, chain_eq_siblingOf hh hf]
    cases (h.siblingOf g).parent with
    | none => simp [hne]
    | some q => simp [hne, covers]

end Heap

/-- Where an evaluation stands with respect to a frame. -/
structure Standing where
  /-- The frame covers the current one. -/
  inside : Bool
  /-- Which of the held frames it covers. -/
  outer : List Bool
  /-- The frame is the current one itself. -/
  atop : Bool

/-- Where it stands in a new frame below the current one. -/
def Standing.inner (m : Standing) : Standing := ⟨m.inside, m.inside :: m.outer, false⟩

theorem Standing.atop_inner (m : Standing) : m.inner.atop = false := rfl

/-- An evaluation stands like this in a state, with respect to a frame with let variables. -/
structure State.Stands (s : State) (id : FrameId) (m : Standing) : Prop where
  isScoped : s.Scoped
  lt_size : id.index < s.heap.frames.size
  lets : s.heap.recast id .let = s.heap
  covers_eq : s.scopes.map (s.heap.covers id) = m.inside :: m.outer
  atop_iff : s.frame = id ↔ m.atop = true

/-- Makes a sibling of the current frame the current one. -/
def State.inSibling (s : State) : State :=
  { s with heap := (s.heap.newSibling s.frame).2, frame := (s.heap.newSibling s.frame).1 }

/-- Another frame can be recast before or after a sibling of the current one is made. -/
theorem State.inSibling_recast {s : State} {id : FrameId} (hid : id.index < s.heap.frames.size)
    (hne : id ≠ s.frame) (inside : Bool) :
    (s.recast id inside).inSibling = s.inSibling.recast id inside := by
  have hsibling : (s.recast id inside).heap.siblingOf s.frame = s.heap.siblingOf s.frame := by
    rw [Heap.siblingOf, recast, Heap.frame?_recast, if_neg hne, Heap.siblingOf]
  have hframe : (s.recast id inside).frame = s.frame := rfl
  rw [inSibling, Heap.newSibling_eq, hframe, hsibling, recast, Heap.newFrame_recast hid]
  rfl

namespace State.Stands

variable {c : Config} {s u : State} {id : FrameId} {f : Frame} {m : Standing}

theorem covers_current (h : s.Stands id m) : s.heap.covers id s.frame = m.inside :=
  (List.cons.inj h.covers_eq).1

theorem covers_outer (h : s.Stands id m) :
    (s.held.filterMap Holder.frame?).map (s.heap.covers id) = m.outer :=
  (List.cons.inj h.covers_eq).2

theorem apart (h : s.Stands id m) (hm : m.atop = false) : s.frame ≠ id := by
  intro heq
  rw [h.atop_iff.mp heq] at hm
  cases hm

theorem recast_true (h : s.Stands id m) : s.recast id true = s :=
  congrArg (fun heap ↦ { s with heap := heap }) h.lets

/-- The frame is out of scope, or recast as it is. -/
theorem hidden_or_recast (h : s.Stands id m) :
    id ∉ s.heap.chain s.frame ∨ s.recast id m.inside = s := by
  have hcovers := h.covers_current
  cases hm : m.inside with
  | false => exact .inl (Heap.covers_eq_false.mp (hcovers.trans hm))
  | true => exact .inr h.recast_true

/-- No step changes where an evaluation stands, if all variables are let variables afterwards. -/
theorem of_run (h : s.Stands id m) (e : Effect)
    (he : (e.run c s).heap.recast id .let = (e.run c s).heap) : (e.run c s).Stands id m where
  isScoped := e.scoped_run c h.isScoped
  lt_size := (e.size_run c s).symm ▸ h.lt_size
  lets := he
  covers_eq := by
    rw [e.scopes_run_eq, ← h.covers_eq]
    exact List.map_congr_left fun g hg ↦ (e.keepsScope_run c hg).covers_eq id
  atop_iff := by
    rw [Effect.frame_run]
    exact h.atop_iff

theorem run (h : s.Stands id m) (e : Effect) (he : e.marks = true → m.atop = false) :
    (e.run c s).Stands id m := by
  have hrun := e.run_recast c (fun hm ↦ h.apart (he hm)) (.inr h.recast_true)
  rw [h.recast_true] at hrun
  exact h.of_run e (congrArg heap hrun).symm

/-- A declaration of a let variable leaves let variables. -/
theorem define (h : s.Stands id m) (name : Text) (v : Value) :
    ((Effect.define name v .let).run c s).Stands id m := by
  refine h.of_run _ ?_
  have hdefined : (s.heap.recast id .let).define s.frame name v .let =
      (s.heap.define s.frame name v .let).recast id .let :=
    Heap.modifyFrame_recast (.inr fun _ ↦ rfl)
  rw [h.lets] at hdefined
  exact hdefined.symm

theorem hold (h : s.Stands id m) {x : Holder} (hx : x.frame? = none) :
    State.Stands { s with held := x :: s.held } id m where
  isScoped := h.isScoped.hold hx
  lt_size := h.lt_size
  lets := h.lets
  covers_eq := by
    rw [scopes_hold hx]
    exact h.covers_eq
  atop_iff := h.atop_iff

theorem release (h : s.Stands id m) {x : Holder} (hx : x.frame? = none) {held : List Holder}
    (hheld : s.held = x :: held) : State.Stands { s with held := held } id m where
  isScoped := h.isScoped.release hx hheld
  lt_size := h.lt_size
  lets := h.lets
  covers_eq := by
    rw [scopes_of_held hx hheld]
    exact h.covers_eq
  atop_iff := h.atop_iff

theorem withCalls (h : s.Stands id m) (depth : Nat) (calls : CallTrace) :
    State.Stands { s with depth := depth, calls := calls } id m :=
  ⟨⟨h.isScoped.ordered, h.isScoped.lt_size⟩, h.lt_size, h.lets, h.covers_eq, h.atop_iff⟩

/-- A new frame is another one. -/
theorem opened (h : s.Stands id m) (hf : ∀ q, f.parent = some q → q.index < s.heap.frames.size) :
    (s.opened f).Stands id
      ⟨f.parent.elim false (s.heap.covers id), m.inside :: m.outer, false⟩ where
  isScoped := h.isScoped.opened hf
  lt_size := by
    change id.index < (s.heap.frames.push f).size
    rw [Store.size_push]
    exact h.lt_size.trans (Nat.lt_succ_self _)
  lets := by
    have hopened := s.opened_recast h.lt_size f true
    rw [h.recast_true] at hopened
    exact (congrArg heap hopened).symm
  covers_eq := by
    rw [scopes_opened, List.map_cons, ← h.covers_eq]
    congr 1
    · exact Heap.covers_newFrame h.lt_size hf
    · exact List.map_congr_left fun g hg ↦ (h.isScoped.keepsScope_opened hg f).covers_eq id
  atop_iff := ⟨fun heq ↦ absurd (congrArg FrameId.index heq).symm h.lt_size.ne, nofun⟩

theorem child (h : s.Stands id m) : (s.opened (.ofParent (some s.frame))).Stands id m.inner := by
  have hopened : (s.opened (.ofParent (some s.frame))).Stands id
      ⟨s.heap.covers id s.frame, m.inside :: m.outer, false⟩ :=
    h.opened fun q hq ↦ Option.some.inj hq ▸ h.isScoped.lt_size _ List.mem_cons_self
  rwa [h.covers_current] at hopened

theorem closed (hatop : s.frame = id ↔ m.atop = true) {inside atop : Bool}
    (hu : u.Stands id ⟨inside, m.inside :: m.outer, atop⟩)
    (hheld : u.held = .frame s.frame :: s.held) :
    State.Stands { u with frame := s.frame, held := s.held } id m where
  isScoped := hu.isScoped.closed hheld
  lt_size := hu.lt_size
  lets := hu.lets
  covers_eq := by
    have houter := hu.covers_outer
    rwa [hheld] at houter
  atop_iff := hatop

theorem sibling (h : s.Stands id m) (hm : m.atop = false) : s.inSibling.Stands id m := by
  have hordered := h.isScoped.ordered
  have hopened := h.opened fun q hq ↦
    Heap.parent_siblingOf_lt hordered (h.isScoped.lt_size _ List.mem_cons_self) hq
  obtain ⟨hnew, hrest⟩ := List.cons.inj hopened.covers_eq
  exact {
    isScoped := h.isScoped.sibling
    lt_size := hopened.lt_size
    lets := hopened.lets
    covers_eq := by
      rw [Heap.covers_siblingOf hordered (h.apart hm).symm, h.covers_current] at hnew
      exact congrArg₂ List.cons hnew (List.cons.inj hrest).2
    atop_iff := hm ▸ hopened.atop_iff }

end State.Stands

/-- An evaluation in which a frame is recast for the code that is evaluated, compared with one in
which it has let variables. -/
def Coupling.reserving (c : Config) (id : FrameId) : Coupling c Standing where
  Rel m s t := s = t.recast id m.inside ∧ t.Stands id m
  Marks m := m.atop = false
  inner := Standing.inner
  marks_inner := Standing.atop_inner
  resembles := by
    rintro m _ t ⟨rfl, ht⟩
    exact t.resembles_recast ht.hidden_or_recast
  effect := by
    rintro m _ t e he ⟨rfl, ht⟩
    exact ⟨e.run_recast c (fun hm ↦ ht.apart (he hm)) ht.hidden_or_recast, ht.run e he⟩
  hold := by
    rintro m _ t x hx ⟨rfl, ht⟩
    exact ⟨rfl, ht.hold hx⟩
  release := by
    rintro m _ t x hs held hx ⟨rfl, ht⟩ hleft hright
    obtain rfl : hs = held := (List.cons.inj (hleft.symm.trans hright)).2
    exact ⟨rfl, ht.release hx hright⟩
  opening := by
    rintro m _ t ⟨rfl, ht⟩
    exact ⟨t.opened_recast ht.lt_size _ _, ht.child⟩
  encloses m :=
    { closing := by
        rintro _ t _ v ⟨rfl, ht⟩ ⟨rfl, hv⟩ - hheld
        exact ⟨rfl, State.Stands.closed ht.atop_iff hv hheld⟩
      throws := fun _ ↦ trivial }
  sibling := by
    rintro m _ t ⟨rfl, ht⟩
    exact ⟨State.inSibling_recast ht.lt_size (ht.apart rfl).symm _, ht.sibling rfl⟩
  call := by
    rintro m _ t entry - ⟨rfl, ht⟩
    exact ⟨rfl, ht.withCalls _ _⟩
  returning := by
    rintro m _ t _ v entry ⟨rfl, -⟩ ⟨rfl, hv⟩
    exact ⟨rfl, hv.withCalls _ _⟩

theorem Evaluator.closure_apply (r : Evaluator) (f : FunctionRef) (code : FunctionNode)
    (scope : FrameId) (args : List Value) (receiver : Value) (s : State) :
    r.closure f code scope args receiver s =
      (r.body code (s.opened (callFrame f code scope args receiver))).mapState
        fun u ↦ { u with frame := s.frame, held := s.held } :=
  Eval.inFrame_newFrame (r.body code) s _

theorem Evaluator.enterReserved_apply (r : Bool → Evaluator) (id : FrameId) (inside : Bool)
    (f : FunctionRef) (code : FunctionNode) (scope : FrameId) (args : List Value) (receiver : Value)
    (s : State) :
    let under := s.heap.covers id scope
    enterReserved r id inside f code scope args receiver (s.recast id inside) =
      ((r under).body code
        ((s.recast id under).opened (callFrame f code scope args receiver))).mapState
        fun u ↦ State.recast { u with frame := s.frame, held := s.held } id inside := by
  have hcovers : (s.recast id inside).heap.covers id scope = s.heap.covers id scope :=
    Heap.covers_recast ..
  simp only [enterReserved, hcovers, State.recast_recast, closure_apply, Outcome.mapState_mapState]
  rfl

namespace Coupling

variable {c : Config} {alarm : Fault} {id : FrameId} {mode : Standing} {α : Type} {m m' : Eval α}

/-- The frame covers the current one as the evaluation is told. -/
theorem Couples.covered (hm : (reserving c id).Couples mode m m') :
    (reserving c id).Couples mode (Eval.covered alarm id mode.inside m) m' := by
  intro s t h
  have ho := hm s t h
  obtain ⟨hs, ht⟩ := h
  obtain ⟨hrecast, hend⟩ := ho.rel fun _ ↦ False.elim
  have hcovers : s.heap.covers id s.frame = mode.inside := by
    rw [hs]
    exact (Heap.covers_recast ..).trans ht.covers_current
  have hcovers' : (m s).state.heap.covers id (m s).state.frame = mode.inside := by
    rw [hrecast]
    exact (Heap.covers_recast ..).trans hend.covers_current
  have hcovered : Eval.covered alarm id mode.inside m s = m s := if_pos ⟨hcovers, hcovers'⟩
  rw [hcovered]
  exact ho

/-- The code of a function is covered by what covers the frame that the function captured. -/
theorem Couples.enterReserved {r : Bool → Evaluator} {r' : Evaluator}
    (h : (reserving c id).Evaluators (fun m ↦ r m.inside) r') :
    (reserving c id).Enters mode (Evaluator.enterReserved r id mode.inside) r'.closure := by
  rintro _ t f code scope scope' args receiver ⟨rfl, ht⟩
    ⟨⟨fid, name, rfl, hleft⟩, ⟨_, _, ⟨⟩, hright⟩⟩
  cases hleft.symm.trans hright
  have hlt : scope.index < t.heap.frames.size := ht.isScoped.ordered.scope_lt hright
  let called := Evaluator.callFrame (.cell fid) code scope args receiver
  let inside : Standing := ⟨t.heap.covers id scope, mode.inside :: mode.outer, false⟩
  have hmarks : (reserving c id).Marks inside := rfl
  have hopened : (t.opened called).Stands id inside :=
    ht.opened fun q hq ↦ Option.some.inj hq ▸ hlt
  have hbody : (reserving c id).Couples inside ((r inside.inside).body code) (r'.body code) :=
    h.body hmarks code
  have hends := hbody _ _ ⟨t.opened_recast ht.lt_size called inside.inside, hopened⟩
  rw [Evaluator.enterReserved_apply, Evaluator.closure_apply]
  refine .leave (fun _ ↦ trivial) hends fun {u v} ha ↦ ?_
  obtain ⟨⟨rfl, hv⟩, -, hheld⟩ := ha
  exact ⟨⟨State.recast_recast { v with frame := t.frame, held := t.held } id _ _,
    State.Stands.closed ht.atop_iff hv hheld⟩, rfl, rfl⟩

/-- Reserved evaluation is evaluation, on each level. -/
theorem reserving_level (c : Config) (alarm : Fault) (id : FrameId) (n : Nat) :
    (reserving c id).Evaluators (fun m ↦ c.reserved alarm id n m.inside) (c.level n) := by
  induction n with
  | zero => exact level_zero _
  | succ n ih =>
    have henters (mode : Standing) : (reserving c id).Enters mode
        (Evaluator.enterReserved (c.reserved alarm id n) id mode.inside) (c.level n).closure :=
      Couples.enterReserved ih
    have hsteps (mode : Standing) :=
      ih.steps (.of_forall fun _ _ ↦ trivial) (fun _ _ ↦ rfl) (fun _ mode ↦ henters mode) mode
    exact {
      left := fun _ ↦ rfl
      right := rfl
      rounds := fun _ ↦ rfl
      inner := fun _ ↦ rfl
      expr := fun mode e ↦ .covered ((hsteps mode).expr e)
      stmt := fun mode hm x ↦ .covered ((hsteps mode).stmt hm x)
      call := fun mode f args receiver ↦ .covered ((hsteps mode).call f args receiver) }

end Coupling

end EcmaTree
