import EcmaTree.Proofs.Frames.Reserved

/-!
# Unvisited frames

A frame is visited when the code of a function is entered that it covers. As long as it is not
visited, a frame that does not cover the current one stays as it is.
-/

namespace EcmaTree

/-- Enters the code of a function, or ends with the alarm if a frame covers it. -/
def Evaluator.enterElsewhere (r : Evaluator) (alarm : Fault) (id : FrameId) : Entering :=
  fun f code scope args receiver s ↦
    if s.heap.covers id scope then .faulted alarm s else r.closure f code scope args receiver s

/-- Evaluation on a level that ends with the alarm when a frame is visited. -/
def Config.unvisited (c : Config) (alarm : Fault) (id : FrameId) : Nat → Evaluator
  | 0 => c.level 0
  | n + 1 =>
    let r := c.unvisited alarm id n
    let run : Running := fun _ ↦ r.applyBy (r.enterElsewhere alarm id)
    { config := c
      rounds := n + 1
      expr := r.exprStepBy run
      stmt := r.stmtStep
      call := r.callValueBy run }

/-- A frame is as it was, if it is still there. -/
def Heap.Retains (h h' : Heap) (id : FrameId) : Prop :=
  ∀ f, h'.frame? id = some f → h.frame? id = some f

namespace Heap

variable {h : Heap} {id g : FrameId}

theorem frame?_modifyFrame_of_ne {f : Frame → Frame} (hne : g ≠ id) :
    (h.modifyFrame g f).frame? id = h.frame? id := by
  rw [frame?_modifyFrame, if_neg hne]

/-- An assignment changes no frame that does not cover the current one. -/
theorem frame?_assign (hid : h.covers id g = false) (name : Text) (v : Value) :
    (h.assign g name v).2.frame? id = h.frame? id := by
  rw [assign]
  cases howner : h.owner? g name with
  | none => rfl
  | some owner =>
    have hmem : owner ∈ h.chain g := List.mem_of_find?_eq_some howner
    have hne : owner ≠ id := fun heq ↦ covers_eq_false.mp hid (heq ▸ hmem)
    dsimp only
    split
    · rfl
    · split
      · rfl
      · exact frame?_modifyFrame_of_ne hne

theorem frame?_newFrame (h : Heap) (f : Frame) :
    (h.newFrame f).2.frame? (h.newFrame f).1 = some f :=
  (Store.get?_push ..).trans (if_pos rfl)

theorem frame?_newFrame_of_lt (h : Heap) (f : Frame) (hid : id.index < h.frames.size) :
    (h.newFrame f).2.frame? id = h.frame? id :=
  (Store.get?_push ..).trans (if_neg hid.ne)

theorem retains_collect (h : Heap) (uses : Tally) (id : FrameId) :
    h.Retains (h.collect uses).2 id := by
  intro f hf
  have hrestrict (keep : HeapRef → Bool) (hf : (h.restrict keep).frame? id = some f) :
      h.frame? id = some f := by
    rw [frame?, restrict, Store.get?_restrict] at hf
    split at hf
    · exact hf
    · cases hf
  exact hrestrict _ hf

end Heap

/-- No step changes a frame that does not cover the current one. -/
theorem Effect.retains_run (c : Config) (e : Effect) {s : State} {id : FrameId}
    (hmarks : e.marks = true → s.frame ≠ id) (hid : s.heap.covers id s.frame = false) :
    s.heap.Retains (e.run c s).heap id := by
  intro f hf
  cases e with
  | object | array | host | closure | modifyObject | modifyArray | nameFunction | record | note =>
    exact hf
  | assign name v => exact (Heap.frame?_assign hid name v).symm.trans hf
  | define | signal => exact (Heap.frame?_modifyFrame_of_ne (hmarks rfl)).symm.trans hf
  | moment m =>
    rw [run, State.passMoment] at hf
    split at hf
    · exact Heap.retains_collect _ _ id f hf
    · exact hf

/-- An evaluation that is compared with one in which a frame that does not cover the current one is
not visited. -/
def Coupling.unvisited (c : Config) (alarm : Fault) (id : FrameId) (h : Heap) :
    Coupling c Standing where
  Rel m s t := s = t ∧ t.Stands id m ∧ m.inside = false ∧ h.Retains t.heap id
  Alarm e := e = alarm
  Marks m := m.atop = false
  inner := Standing.inner
  marks_inner := Standing.atop_inner
  resembles := by
    rintro m s _ ⟨rfl, -⟩
    exact .refl s
  effect := by
    rintro m s _ e he ⟨rfl, hs, hm, hretains⟩
    have hrun := e.retains_run c (fun hm ↦ hs.apart (he hm)) (hs.covers_current.trans hm)
    exact ⟨rfl, hs.run e he, hm, fun f hf ↦ hretains f (hrun f hf)⟩
  hold := by
    rintro m s _ x hx ⟨rfl, hs, hm, hretains⟩
    exact ⟨rfl, hs.hold hx, hm, hretains⟩
  release := by
    rintro m s _ x hs ht hx ⟨rfl, hstands, hm, hretains⟩ hleft hright
    obtain rfl : hs = ht := (List.cons.inj (hleft.symm.trans hright)).2
    exact ⟨rfl, hstands.release hx hleft, hm, hretains⟩
  opening := by
    rintro m s _ ⟨rfl, hs, hm, hretains⟩
    refine ⟨rfl, hs.child, hm, fun f hf ↦ hretains f ?_⟩
    exact (s.heap.frame?_newFrame_of_lt _ hs.lt_size).symm.trans hf
  encloses m :=
    { closing := by
        rintro s _ u _ ⟨rfl, hs, hm, -⟩ ⟨rfl, hu, -, hretains⟩ hheld -
        exact ⟨rfl, .closed hs.atop_iff hu hheld, hm, hretains⟩
      throws := fun _ ↦ trivial }
  sibling := by
    rintro m s _ ⟨rfl, hs, hm, hretains⟩
    refine ⟨rfl, hs.sibling rfl, hm, fun f hf ↦ hretains f ?_⟩
    exact (s.heap.frame?_newFrame_of_lt _ hs.lt_size).symm.trans hf
  call := by
    rintro m s _ entry - ⟨rfl, hs, hm, hretains⟩
    exact ⟨rfl, hs.withCalls _ _, hm, hretains⟩
  returning := by
    rintro m s _ u _ entry ⟨rfl, -⟩ ⟨rfl, hu, hm, hretains⟩
    exact ⟨rfl, hu.withCalls _ _, hm, hretains⟩

namespace Coupling

variable {c : Config} {alarm : Fault} {id : FrameId} {h : Heap} {mode : Standing}

/-- Code that the frame does not cover runs in a frame that it does not cover. -/
theorem Couples.enterElsewhere {r r' : Evaluator}
    (hr : (unvisited c alarm id h).Evaluators (fun _ ↦ r) r') :
    (unvisited c alarm id h).Enters mode (r.enterElsewhere alarm id) r'.closure := by
  intro s t f code scope scope' args receiver hrel hf
  obtain ⟨rfl, hs, hm, hretains⟩ := hrel
  obtain ⟨⟨fid, name, rfl, hleft⟩, ⟨_, _, ⟨⟩, hright⟩⟩ := hf
  cases hleft.symm.trans hright
  rw [Evaluator.enterElsewhere]
  split
  · exact .alarm rfl _ _
  · next hcovers =>
    have hlt : scope.index < s.heap.frames.size := hs.isScoped.ordered.scope_lt hleft
    let called := Evaluator.callFrame (.cell fid) code scope args receiver
    have hinside : s.heap.covers id scope = mode.inside :=
      (Bool.eq_false_iff.mpr hcovers).trans hm.symm
    have hopened : (s.opened called).Stands id
        ⟨s.heap.covers id scope, mode.inside :: mode.outer, false⟩ :=
      hs.opened fun q hq ↦ Option.some.inj hq ▸ hlt
    rw [hinside] at hopened
    have hretains' : h.Retains (s.opened called).heap id := fun f hf ↦
      hretains f ((s.heap.frame?_newFrame_of_lt _ hs.lt_size).symm.trans hf)
    have hmarks : (unvisited c alarm id h).Marks mode.inner := rfl
    exact Couples.closure ((unvisited c alarm id h).encloses mode) ⟨rfl, hs, hm, hretains⟩
      ⟨rfl, hopened, hm, hretains'⟩ (hr.body hmarks code)

/-- As long as a frame is not visited, evaluation leaves it as it is, on each level. -/
theorem unvisited_level (c : Config) (alarm : Fault) (id : FrameId) (h : Heap) (n : Nat) :
    (unvisited c alarm id h).Evaluators (fun _ ↦ c.unvisited alarm id n) (c.level n) := by
  induction n with
  | zero => exact level_zero _
  | succ n ih =>
    have hsteps (mode : Standing) :=
      ih.steps (.of_forall fun _ _ ↦ trivial) (fun _ _ ↦ rfl)
        (fun _ _ ↦ Couples.enterElsewhere ih) mode
    exact {
      left := fun _ ↦ rfl
      right := rfl
      rounds := fun _ ↦ rfl
      inner := fun _ ↦ rfl
      expr := fun mode ↦ (hsteps mode).expr
      stmt := fun mode ↦ (hsteps mode).stmt
      call := fun mode ↦ (hsteps mode).call }

end Coupling

/-- What is evaluated in a state respects the variables of a frame: it does the same whether or not
they are reserved. If the frame does not cover the current one, it stays as it is unless it is
visited. -/
structure State.Respects {α : Type} (s : State) (c : Config) (level : Nat) (id : FrameId)
    (m : Standing) (f : Evaluator → Eval α) : Prop where
  reserved (alarm : Fault) :
    f (c.reserved alarm id level m.inside) (s.recast id m.inside) =
      (f (c.level level) s).mapState (·.recast id m.inside)
  unvisited (hm : m.inside = false) (alarm : Fault) :
    (∃ u, f (c.unvisited alarm id level) s = .faulted alarm u) ∨
      f (c.unvisited alarm id level) s = f (c.level level) s ∧
        s.heap.Retains (f (c.level level) s).state.heap id
  stands : (f (c.level level) s).state.Stands id m
  held_eq : (f (c.level level) s).state.held = s.held

theorem State.Stands.respects {α : Type} {c : Config} {level : Nat} {s : State} {id : FrameId}
    {m : Standing} {f : Evaluator → Eval α} (hs : s.Stands id m)
    (hreserved : ∀ alarm, (Coupling.reserving c id).Couples m
      (f (c.reserved alarm id level m.inside))
      (f (c.level level)))
    (hunvisited : m.inside = false → ∀ alarm, (Coupling.unvisited c alarm id s.heap).Couples m
      (f (c.unvisited alarm id level)) (f (c.level level))) :
    s.Respects c level id m f := by
  have hends (alarm : Fault) := hreserved alarm _ s ⟨rfl, hs⟩
  have hrecast {u v : State} (hrel : (Coupling.reserving c id).Rel m u v) :
      u = v.recast id m.inside :=
    hrel.1
  have hstands := ((hends .absent).rel fun _ ↦ False.elim).2
  refine ⟨fun alarm ↦ (hends alarm).eq_mapState (fun _ ↦ False.elim) hrecast, fun hm alarm ↦ ?_,
    hstands, (hends .absent).held_eq fun _ ↦ False.elim⟩
  have hsame := hunvisited hm alarm s s ⟨rfl, hs, hm, fun _ hf ↦ hf⟩
  have heq {u v : State} (hrel : (Coupling.unvisited c alarm id s.heap).Rel m u v) : u = v := hrel.1
  rcases hsame.alarm_or_eq heq with ⟨_, u, rfl, hu⟩ | ⟨heq, -, -, -, hretains⟩
  · exact .inl ⟨u, hu⟩
  · exact .inr ⟨heq, hretains⟩

end EcmaTree
