import EcmaTree.Proofs.Coupling.Level
import EcmaTree.Proofs.Frames.Lasting
import EcmaTree.Proofs.Reached

/-!
# Receivers

Lexical evaluation is told the receiver of the function that a node is in, the innermost one that is
no arrow. It takes `this` to be that receiver without a look at any frame, and ends with an alarm, a
fault that no handler sees, if the current frame sees another receiver whenever a node or a call
begins or ends. The code of an arrow belongs to the function that the arrow was made in. Lexical
evaluation is evaluation.
-/

namespace EcmaTree

/-- Ends with the alarm unless the current frame sees a receiver at the beginning and at the end. -/
def Eval.seeing {α : Type} (alarm : Fault) (home : Option Value) (m : Eval α) : Eval α := fun s ↦
  if s.heap.home? s.frame = home ∧ (m s).state.heap.home? (m s).state.frame = home then m s
  else .faulted alarm s

/-- Evaluates an expression in a function with a receiver, or in none. -/
def Evaluator.exprStepIn (r : Evaluator) (home : Option Value) (run : Running) : Expr → Eval Value
  | .receiver _ => pure (home.getD .undefined)
  | e => r.exprStepBy run e

/-- The receiver of the function that code is in when it is called: an arrow has none of its own. -/
def FunctionNode.home (code : FunctionNode) (h : Heap) (scope : FrameId) (receiver : Value) :
    Option Value :=
  if code.kind = .arrow then h.home? scope else some receiver

theorem FunctionNode.home_eq (code : FunctionNode) (h : Heap) (f : FunctionRef) (scope : FrameId)
    (args : List Value) (receiver : Value) :
    let frame := Evaluator.callFrame f code scope args receiver
    frame.receiver.or (frame.parent.bind h.home?) = code.home h scope receiver := by
  dsimp only [Evaluator.callFrame, home]
  split <;> rfl

/-- Lexical evaluation on a level, in a function with a receiver or in none. -/
def Config.lexical (c : Config) (alarm : Fault) : Nat → Option Value → Evaluator
  | 0, _ => c.level 0
  | n + 1, home =>
    let r := c.lexical alarm n home
    let enter : Entering := fun f code scope args receiver s ↦
      (c.lexical alarm n (code.home s.heap scope receiver)).closure f code scope args receiver s
    let run : Running := fun _ ↦ r.applyBy enter
    { config := c
      rounds := n + 1
      expr := fun e ↦ Eval.seeing alarm home (r.exprStepIn home run e)
      stmt := fun x ↦ Eval.seeing alarm home (r.stmtStep x)
      call := fun callee args receiver ↦
        Eval.seeing alarm home (r.callValueBy run callee args receiver) }

/-- The frames in scope see some receivers, the current one the first of them. -/
structure State.Sees (s : State) (homes : List (Option Value)) : Prop where
  isScoped : s.Scoped
  homes_eq : s.scopes.map s.heap.home? = homes

namespace State.Sees

variable {s u : State} {f : Frame} {home : Option Value} {homes : List (Option Value)}

/-- A new frame sees its own receiver, and else what its parent sees. -/
theorem opened (hs : s.Sees homes) (hf : ∀ q, f.parent = some q → q.index < s.heap.frames.size) :
    (s.opened f).Sees (f.receiver.or (f.parent.bind s.heap.home?) :: homes) where
  isScoped := hs.isScoped.opened hf
  homes_eq := by
    rw [scopes_opened, List.map_cons, ← hs.homes_eq]
    congr 1
    · exact s.heap.home?_newFrame hf
    · exact List.map_congr_left fun g hg ↦ (hs.isScoped.keepsScope_opened hg f).home?_eq

theorem closed (hu : u.Sees (home :: homes)) (hheld : u.held = .frame s.frame :: s.held) :
    State.Sees { u with frame := s.frame, held := s.held } homes where
  isScoped := hu.isScoped.closed hheld
  homes_eq := by
    have hhomes := hu.homes_eq
    rw [scopes, hheld] at hhomes
    exact (List.cons.inj hhomes).2

/-- A sibling of the current frame sees what that frame saw. -/
theorem sibling (hs : s.Sees (home :: homes)) :
    State.Sees
      { s with heap := (s.heap.newSibling s.frame).2, frame := (s.heap.newSibling s.frame).1 }
      (home :: homes) := by
  refine ⟨hs.isScoped.sibling, ?_⟩
  have hordered := hs.isScoped.ordered
  have hopened := hs.opened fun q hq ↦
    Heap.parent_siblingOf_lt hordered (hs.isScoped.lt_size _ List.mem_cons_self) hq
  obtain ⟨hnew, hrest⟩ := List.cons.inj hopened.homes_eq
  obtain ⟨hcurrent, -⟩ := List.cons.inj hs.homes_eq
  rw [Heap.home?_siblingOf hordered, hcurrent] at hnew
  exact congrArg₂ List.cons hnew (List.cons.inj hrest).2

end State.Sees

/-- An evaluation that is compared with itself, while the current frame sees the first of some
receivers, and the held frames see the others. -/
def Coupling.homes (c : Config) : Coupling c (Option Value × List (Option Value)) where
  Rel m s t := s = t ∧ s.Sees (m.1 :: m.2)
  inner m := (m.1, m.1 :: m.2)
  resembles := by
    rintro m s _ ⟨rfl, -⟩
    exact .refl s
  effect := by
    rintro m s _ e - ⟨rfl, hs, hhomes⟩
    refine ⟨rfl, e.scoped_run c hs, ?_⟩
    rw [e.scopes_run_eq, ← hhomes]
    exact List.map_congr_left fun g hg ↦ (e.keepsScope_run c hg).home?_eq
  hold := by
    rintro m s _ x hx ⟨rfl, hs, hhomes⟩
    exact ⟨rfl, hs.hold hx, by rwa [State.scopes_hold hx]⟩
  release := by
    rintro m s _ x hs ht hx ⟨rfl, hsees, hhomes⟩ hleft hright
    obtain rfl : hs = ht := (List.cons.inj (hleft.symm.trans hright)).2
    exact ⟨rfl, hsees.release hx hleft, by rwa [State.scopes_of_held hx hleft]⟩
  opening := by
    rintro m s _ ⟨rfl, hs⟩
    have hcurrent : s.heap.home? s.frame = m.1 := (List.cons.inj hs.homes_eq).1
    have hopened := hs.opened (f := .ofParent (some s.frame)) fun q hq ↦
      Option.some.inj hq ▸ hs.isScoped.lt_size _ List.mem_cons_self
    exact ⟨rfl, hcurrent ▸ hopened⟩
  encloses m :=
    { closing := by
        rintro s _ u _ ⟨rfl, -⟩ ⟨rfl, hu⟩ hheld -
        exact ⟨rfl, hu.closed hheld⟩
      throws := fun _ ↦ trivial }
  sibling := by
    rintro m s _ ⟨rfl, hs⟩
    exact ⟨rfl, hs.sibling⟩
  call := by
    rintro m s _ entry - ⟨rfl, hs, hhomes⟩
    exact ⟨rfl, ⟨hs.ordered, hs.lt_size⟩, hhomes⟩
  returning := by
    rintro m s _ u _ entry ⟨rfl, -⟩ ⟨rfl, hu, hhomes⟩
    exact ⟨rfl, ⟨hu.ordered, hu.lt_size⟩, hhomes⟩

namespace Coupling

variable {c : Config} {alarm : Fault} {mode inside : Option Value × List (Option Value)} {α : Type}
  {m m' : Eval α}

theorem homes_encloses (h : inside.2 = mode.1 :: mode.2) :
    Encloses (homes c).Rel (homes c).Throws mode inside where
  closing := by
    rintro s _ u _ ⟨rfl, -⟩ ⟨rfl, hu⟩ hheld -
    rw [h] at hu
    exact ⟨rfl, hu.closed hheld⟩
  throws _ := trivial

theorem homes_withCalls {s t : State} (calls : CallTrace) (h : (homes c).Rel mode s t) :
    (homes c).Rel mode { s with calls := calls } { t with calls := calls } := by
  obtain ⟨rfl, hs, hhomes⟩ := h
  exact ⟨rfl, ⟨hs.ordered, hs.lt_size⟩, hhomes⟩

/-- The current frame sees the receiver of the function that the evaluation is in. -/
theorem Couples.seeing (hm : (homes c).Couples mode m m') :
    (homes c).Couples mode (Eval.seeing alarm mode.1 m) m' := by
  intro s t h
  have ho := hm s t h
  obtain ⟨hst, hs⟩ := h
  have hbegin : s.heap.home? s.frame = mode.1 := (List.cons.inj hs.homes_eq).1
  have hend : (m s).state.heap.home? (m s).state.frame = mode.1 :=
    (List.cons.inj (ho.rel (fun _ ↦ id)).2.homes_eq).1
  rw [Eval.seeing, if_pos ⟨hbegin, hend⟩]
  exact ho

/-- What the current frame sees is what `this` is. -/
theorem Couples.receiver (r : Evaluator) (span : Span) :
    (homes c).Couples mode (Pure.pure (mode.1.getD .undefined)) (r.exprStep (.receiver span)) := by
  rintro s _ ⟨rfl, hs⟩
  have hbegin : s.heap.home? s.frame = mode.1 := (List.cons.inj hs.homes_eq).1
  rw [← hbegin]
  exact .done _ (.self ⟨rfl, hs⟩)

theorem Couples.exprStepIn {n : Nat} {r : Evaluator} {enter : Entering}
    (h : (homes c).Steps n mode r enter) (e : Expr) :
    (homes c).Couples mode (r.exprStepIn mode.1 (fun _ ↦ r.applyBy enter) e)
      ((c.level (n + 1)).expr e) := by
  have hstep := h.expr e
  cases e with
  | receiver span =>
    change (homes c).Couples mode _ (c.expr (n + 1) (.receiver span))
    rw [c.expr_succ]
    exact .receiver (c.level n) span
  | _ => exact hstep

/-- Code begins in a frame that sees the receiver of the function that it is in. -/
theorem Couples.enterHome {n : Nat}
    (hn : (homes c).Evaluators (fun m ↦ c.lexical alarm n m.1) (c.level n)) :
    (homes c).Enters mode
      (fun f code scope args receiver s ↦
        (c.lexical alarm n (code.home s.heap scope receiver)).closure f code scope args receiver s)
      (c.level n).closure := by
  rintro s _ f code scope scope' args receiver ⟨rfl, hs⟩ hf
  obtain ⟨⟨id, name, rfl, hleft⟩, ⟨_, _, ⟨⟩, hright⟩⟩ := hf
  cases hleft.symm.trans hright
  have hlt : scope.index < s.heap.frames.size := hs.isScoped.ordered.scope_lt hleft
  have hopened := hs.opened (f := Evaluator.callFrame (.cell id) code scope args receiver)
    fun q hq ↦
    Option.some.inj hq ▸ hlt
  rw [code.home_eq s.heap] at hopened
  let inside := (code.home s.heap scope receiver, mode.1 :: mode.2)
  have he : Encloses (homes c).Rel (homes c).Throws mode inside := homes_encloses rfl
  have hbody : (homes c).Couples inside ((c.lexical alarm n inside.1).body code)
      ((c.level n).body code) := hn.body trivial code
  exact Couples.closure he ⟨rfl, hs⟩ ⟨rfl, hopened⟩ hbody

/-- Lexical evaluation is evaluation, on each level and in each function. -/
theorem homes_level (c : Config) (alarm : Fault) (n : Nat) :
    (homes c).Evaluators (fun m ↦ c.lexical alarm n m.1) (c.level n) := by
  induction n with
  | zero => exact level_zero _
  | succ n ih =>
    have hsteps (mode : Option Value × List (Option Value)) :=
      ih.steps (.of_forall fun _ _ ↦ trivial) (fun _ _ ↦ rfl)
        (fun _ _ ↦ Couples.enterHome ih) mode
    exact {
      left := fun _ ↦ rfl
      right := rfl
      rounds := fun _ ↦ rfl
      inner := fun _ ↦ rfl
      expr := fun mode e ↦ .seeing (.exprStepIn (hsteps mode) e)
      stmt := fun mode hm x ↦ .seeing ((hsteps mode).stmt hm x)
      call := fun mode f args receiver ↦ .seeing ((hsteps mode).call f args receiver) }

end Coupling

/-! ### What is kept -/

/-- Frames that are still there see the receiver that they saw, and functions run the code that they
ran, in the frames that they captured. -/
structure State.KeepsReceivers (s t : State) : Prop where
  home?_eq {id : FrameId} {f f' : Frame} (h : s.heap.frame? id = some f)
    (h' : t.heap.frame? id = some f') : t.heap.home? id = s.heap.home? id
  behaviour_eq {id : FunctionId} {g g' : Function} (h : s.heap.function? id = some g)
    (h' : t.heap.function? id = some g') : g'.behaviour = g.behaviour

/-- A new frame sees what the frame sees that it is made below or copied from, unless a function
that is no arrow is called in it. A function literal captures the current frame. Nothing that is
evaluated changes what there is already. -/
structure State.Inherits (s : State) (c : Config) : Prop where
  child : (s.heap.newChild s.frame).2.home? (s.heap.newChild s.frame).1 = s.heap.home? s.frame
  sibling : (s.heap.newSibling s.frame).2.home? (s.heap.newSibling s.frame).1 =
    s.heap.home? s.frame
  callFrame {id : FunctionId} {name : Text} {code : FunctionNode} {scope : FrameId}
    (hf : s.heap.function? id = some ⟨name, .closure code scope⟩) (args : List Value)
    (receiver : Value) :
    let made := s.heap.newFrame (Evaluator.callFrame (.cell id) code scope args receiver)
    made.2.home? made.1 = code.home s.heap scope receiver
  literal (code : FunctionNode) : ∃ id h,
    Evaluator.makeFunction code s = .done (.function (.cell id)) { s with heap := h } ∧
      h.function? id = some ⟨code.name, .closure code s.frame⟩ ∧
      h.home? s.frame = s.heap.home? s.frame
  expr (level : Nat) (e : Expr) : s.KeepsReceivers (c.expr level e s).state
  stmt (level : Nat) (x : Stmt) : s.KeepsReceivers (c.stmt level x s).state

theorem Heap.Lasts.keepsReceivers {s t : State} {roots : List HeapRef}
    (h : s.heap.Lasts t.heap) (ht : t.heap.Sound roots) : s.KeepsReceivers t where
  home?_eq {id f f'} hs hf' := by
    have hcell : t.heap.cell? (.frame id) = some (.frame f') := congrArg (Option.map Cell.frame) hf'
    exact (h.keepsScope ht (Store.lt_size_of_get?_eq_some hs) (holds_of_cell? hcell)).home?_eq
  behaviour_eq {id g g'} hs hg' := by
    have hlater : t.heap.behaviour? id = some g'.behaviour := congrArg (Option.map _) hg'
    have hbefore := h.behaviour?_eq (Store.lt_size_of_get?_eq_some hs) hlater
    rw [Heap.behaviour?, hs] at hbefore
    exact (Option.some.inj hbefore).symm

/-- A sound heap is sound again after something was evaluated. -/
theorem Eval.Alike.exists_sound {α : Type} [Carries α] {c : Config} {active : List Activation}
    {kept : List HeapRef} {m : Eval α} (hm : Eval.Alike (.watching c active) kept [] m m)
    {s : State}
    (ha : c.Accounts active s.calls s.depth) (hs : s.heap.Sound (s.roots kept)) :
    ∃ roots, (m s).state.heap.Sound roots :=
  ⟨_, ((hm s s (Pairing.watching_refl hs ha)).state id id).heap.sound trivial⟩

theorem State.inherits_of_sound {c : Config} {active : List Activation} {kept : List HeapRef}
    {s : State} (ha : c.Accounts active s.calls s.depth) (hs : s.heap.Sound (s.roots kept)) :
    s.Inherits c := by
  have hscoped := State.scoped_of_sound hs
  have hlt : s.frame.index < s.heap.frames.size := hscoped.lt_size _ List.mem_cons_self
  have hlevel (level : Nat) : (c.level level).Alike (.watching c active) (c.level level) :=
    Pairing.level_alike (.watching c active) (.inl rfl)
  constructor
  case child =>
    exact s.heap.home?_newFrame (f := .ofParent (some s.frame)) fun q hq ↦ Option.some.inj hq ▸ hlt
  case sibling =>
    rw [Heap.newSibling_eq, s.heap.home?_newFrame fun q hq ↦
      Heap.parent_siblingOf_lt hscoped.ordered hlt hq]
    exact Heap.home?_siblingOf hscoped.ordered s.frame
  case callFrame =>
    intro id name code scope hf args receiver made
    have hhome := s.heap.home?_newFrame
      (f := Evaluator.callFrame (.cell id) code scope args receiver) fun q hq ↦
        Option.some.inj hq ▸ hscoped.ordered.scope_lt hf
    exact hhome.trans (code.home_eq s.heap ..)
  case literal =>
    intro code
    have hkeeps := (Effect.closure code).keepsScope_run c (s := s) List.mem_cons_self
    exact ⟨⟨s.heap.functions.size⟩, _, rfl, (Store.get?_push ..).trans (if_pos rfl),
      hkeeps.home?_eq⟩
  case expr =>
    intro level e
    obtain ⟨_, hsound⟩ := Eval.Alike.exists_sound ((hlevel level).expr (.refl _ e)) ha hs
    have hcourse : s.Course c false (c.expr level e s).state := (c.level_courses level).expr e s
    exact hcourse.lasts.keepsReceivers hsound
  case stmt =>
    intro level x
    obtain ⟨_, hsound⟩ := Eval.Alike.exists_sound ((hlevel level).stmt (.refl _ x)) ha hs
    have hcourse : s.Course c false (c.stmt level x s).state := (c.level_courses level).stmt x s
    exact hcourse.lasts.keepsReceivers hsound

/-! ### Sessions -/

/-- A global frame sees no receiver. -/
theorem Heap.home?_newGlobal (h : Heap) (bindings : List (Text × Value)) :
    (h.newGlobal bindings).2.home? (h.newGlobal bindings).1 = none := by
  rw [newGlobal]
  exact h.home?_newFrame nofun

namespace Session

variable {c : Config} {s t : Session}

theorem Reached.exists_sound (hs : s.Reached c) :
    ∃ kept, s.heap.Sound (s.interpreter.state.roots kept) := by
  obtain ⟨_, ha⟩ := hs.exists_alike
  exact ⟨_, ha.state.heap.sound trivial⟩

/-- Where the current frame stays the same, it sees what it saw. -/
theorem Leads.home?_eq {kept kept' : List HeapRef} (h : s.Leads t)
    (hs : s.heap.Sound (s.interpreter.state.roots kept))
    (ht : t.heap.Sound (t.interpreter.state.roots kept')) :
    t.heap.home? t.interpreter.state.frame = s.heap.home? s.interpreter.state.frame := by
  have hlt : s.interpreter.state.frame.index < s.heap.frames.size :=
    (State.scoped_of_sound hs).lt_size _ List.mem_cons_self
  have hholds : t.heap.holds (.frame t.interpreter.state.frame) = true :=
    ht.roots _ (List.mem_append_right _ List.mem_cons_self)
  rw [h.frame_eq] at hholds ⊢
  exact (h.lasts.keepsScope ht hlt hholds).home?_eq

/-- Between its steps a session is in no function. -/
theorem Reached.home?_eq_none (hs : s.Reached c) :
    s.heap.home? s.interpreter.state.frame = none := by
  induction hs with
  | start accounting bindings => exact Heap.home?_newGlobal _ _
  | @step s level x hs ih =>
    obtain ⟨kept, hbefore⟩ := hs.exists_sound
    obtain ⟨kept', hafter⟩ := (hs.step level x).exists_sound
    have hscoped := State.scoped_of_sound hbefore
    by_cases hpush : x = .push
    · subst hpush
      have hchild := s.heap.home?_newFrame (f := .ofParent (some s.interpreter.state.frame))
        fun q hq ↦ Option.some.inj hq ▸ hscoped.lt_size _ List.mem_cons_self
      exact hchild.trans ih
    by_cases hpop : x = .pop
    · subst hpop
      change (s.perform level .pop).2.heap.home?
        (s.perform level .pop).2.interpreter.state.frame = _
      rw [perform]
      split
      · next parent hparent =>
        obtain ⟨f, hf, hq⟩ := Option.bind_eq_some_iff.mp hparent
        have hhome := (Heap.home?_of_frame? hscoped.ordered hf).symm.trans ih
        rw [hq] at hhome
        exact (Option.or_eq_none_iff.mp hhome).2
      · exact ih
    · exact ((s.leads_perform level hpush hpop).home?_eq hbefore hafter).trans ih
  | @statement s level x hs ih =>
    obtain ⟨kept, hbefore⟩ := hs.exists_sound
    obtain ⟨kept', hafter⟩ := (hs.statement level x).exists_sound
    have hleads : s.Leads (s.evaluate level fun r ↦ r.stmt x).2 :=
      s.leads_evaluate level ((s.interpreter.config.level_courses level).stmt x)
    exact (hleads.home?_eq hbefore hafter).trans ih

/-- Between its steps a session is in no function, and what it begins there is the same when it is
evaluated lexically: a program, a statement, and a call of what the host has made. Whatever is
evaluated meanwhile, new frames and function literals belong to the function that they are in, and
neither an evaluation nor a step changes what old frames see, or which code functions run where. -/
structure SeesLexically (s : Session) (c : Config) : Prop where
  idle : s.heap.home? s.interpreter.state.frame = none
  program (alarm : Fault) (level : Nat) (q : Program) :
    Eval.holding (.values s.kept.values) ((c.lexical alarm level none).program q)
        s.interpreter.state =
      Eval.holding (.values s.kept.values) ((c.level level).program q) s.interpreter.state
  statement (alarm : Fault) (level : Nat) (x : Stmt) :
    Eval.holding s.holder ((c.lexical alarm level none).stmt x) s.interpreter.state =
      Eval.holding s.holder ((c.level level).stmt x) s.interpreter.state
  call (alarm : Fault) (level : Nat) (function : ValueSpec) (arguments : List ValueSpec)
      (receiver : ValueSpec) :
    let made := s.make (ValueSpec.buildCall · function arguments receiver)
    let x := made.1
    let t := made.2
    Eval.holding t.holder ((c.lexical alarm (level + 1) none).call x.1 x.2.1 x.2.2)
        t.interpreter.state =
      Eval.holding t.holder ((c.level level).callValue x.1 x.2.1 x.2.2) t.interpreter.state
  inherits : s.Passes fun _ _ t ↦ t.Inherits c
  keeps (level : Nat) (x : Step) :
    s.interpreter.state.KeepsReceivers (s.step level x).2.interpreter.state

/-- What lexical evaluation does to a state in no function is what evaluation does. -/
theorem holding_lexical {α : Type} {m m' : Eval α} {u : State}
    (hm : ∀ outer, (Coupling.homes c).Couples (none, outer) m m') (hu : u.Scoped)
    (hidle : u.heap.home? u.frame = none) {x : Holder} (hx : x.frame? = none) :
    Eval.holding x m u = Eval.holding x m' u := by
  let outer := (u.held.filterMap Holder.frame?).map u.heap.home?
  have hsees : u.Sees (none :: outer) := ⟨hu, congrArg (· :: outer) hidle⟩
  have hends := Coupling.Couples.holding hx (hm outer) u u ⟨rfl, hsees⟩
  exact hends.eq (fun _ ↦ id) fun {v w} (h : v = w ∧ v.Sees (none :: outer)) ↦ h.1

/-- A function sees as `this` the receiver of the innermost call in whose function it was made that
is no call of an arrow, and undefined if there is none, in every session that a host can come to. -/
theorem receivers_lexical (hs : s.Reached c) : s.SeesLexically c := by
  obtain ⟨t, ha⟩ := hs.exists_alike
  obtain ⟨kept, hsound⟩ := hs.exists_sound
  have hscoped := State.scoped_of_sound hsound
  have hidle := hs.home?_eq_none
  have hlevel (alarm : Fault) (level : Nat) := Coupling.homes_level c alarm level
  constructor
  case idle => exact hidle
  case program =>
    intro alarm level q
    have hprogram (outer : List (Option Value)) : (Coupling.homes c).Couples (none, outer)
        ((c.lexical alarm level none).program q) ((c.level level).program q) :=
      (hlevel alarm level).program (fun calls h ↦ Coupling.homes_withCalls calls h) q
    exact holding_lexical hprogram hscoped hidle rfl
  case statement =>
    intro alarm level x
    exact holding_lexical (fun outer ↦ (hlevel alarm level).stmt (none, outer) trivial x)
      hscoped hidle
      rfl
  case call =>
    intro alarm level function arguments receiver made x u
    have hmake := ha.make (Pairing.keeping_collecting c) fun _ _ hs ↦
      ValueSpec.buildCall_alike hs function arguments receiver
    obtain ⟨_, hmade⟩ := hmake.exists_alike
    have hsound' := hmade.state.heap.sound trivial
    have hidle' :=
      ((s.leads_buildCall function arguments receiver).home?_eq hsound hsound').trans hidle
    have hcall (outer : List (Option Value)) : (Coupling.homes c).Couples (none, outer)
        ((c.lexical alarm (level + 1) none).call x.1 x.2.1 x.2.2)
        ((c.level level).callValue x.1 x.2.1 x.2.2) := by
      rw [← Config.call_succ]
      exact (hlevel alarm (level + 1)).call (none, outer) _ _ _
    exact holding_lexical hcall (State.scoped_of_sound hsound') hidle' rfl
  case inherits => exact ha.passes fun active kept u hu hsound ↦ State.inherits_of_sound hu hsound
  case keeps =>
    intro level x
    obtain ⟨_, hafter⟩ := (hs.step level x).exists_sound
    exact Heap.Lasts.keepsReceivers (t := (s.step level x).2.interpreter.state)
      (s.lasts_perform level x) hafter

/-- Statements that make an object whose method returns an arrow, and keep an arrow of the method
for each turn of a loop. -/
def keepingArrows : List Stmt :=
  let o : Expr := .identifier "o" .nowhere
  let i : Expr := .identifier "i" .nowhere
  let arrow : Expr :=
    .function ⟨.arrow, .empty, [], .concise (.receiver .nowhere), .nowhere⟩ .nowhere
  let method : Expr :=
    .function ⟨.expression, .empty, [], .statements [.returned (some arrow) .nowhere], .nowhere⟩
      .nowhere
  let made : Expr := .call (.member o (.text "method" .nowhere) false .nowhere) [] .nowhere
  let push : Expr := .member (.identifier "arrows" .nowhere) (.text "push" .nowhere) false .nowhere
  [.declare .const
    [⟨"o", some (.object [⟨some (.text "method" .nowhere), method, false⟩] .nowhere)⟩]
      .nowhere,
    .declare .const [⟨"arrows", some (.array [] .nowhere)⟩] .nowhere,
    .forLoop (some (.declare .let [⟨"i", some (.number (.ofNat 0) .nowhere)⟩] .nowhere))
      (some (.binary .less i (.number (.ofNat 2) .nowhere) .nowhere))
      (some (.update .increment true i .nowhere))
      (.expression (.call push [some made] .nowhere) .nowhere) .nowhere]

/-- A program that calls the second of the arrows. -/
def callingArrow : Program :=
  ⟨[.expression (.call (.member (.identifier "arrows" .nowhere) (.number (.ofNat 1) .nowhere) true
    .nowhere) [] .nowhere) .nowhere], .nowhere⟩

/-- In a lexical evaluation as well, an arrow sees the receiver that the method had when it made
it. -/
theorem receivers_lexical_arrows :
    let s := (Session.start .standard .start []).after 9 keepingArrows
    s.Reached .standard ∧ s.SeesLexically .standard ∧ ∀ alarm,
      RunResult.ofOutcome (Eval.holding (.values s.kept.values)
        ((Config.standard.lexical alarm 9 none).program callingArrow) s.interpreter.state) =
          .value (.object ⟨0⟩) := by
  intro s
  have hs : s.Reached .standard := .after (.start .start []) 9 _
  have hsees := receivers_lexical hs
  refine ⟨hs, hsees, fun alarm ↦ ?_⟩
  rw [hsees.program]
  decide +kernel

end Session

end EcmaTree
