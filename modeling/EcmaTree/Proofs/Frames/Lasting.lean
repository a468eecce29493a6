import EcmaTree.Proofs.Frames.Scopes
import EcmaTree.Proofs.Unwinding

/-!
# What lasts

Whatever is evaluated, and whatever step a session takes, the heap lasts: frames that are still
there have the parents and the receivers that they had, and functions do what they did.
-/

namespace EcmaTree

namespace Heap

variable {h h' h'' : Heap} {f : Frame}

/-- What a function does, and in which frame. -/
def behaviour? (h : Heap) (id : FunctionId) : Option Behaviour :=
  (h.function? id).map Function.behaviour

/-- The frames and functions of the first heap that are still there in the second one are the same
but for variables and names. -/
structure Lasts (h h' : Heap) : Prop where
  frames_le : h.frames.size ≤ h'.frames.size
  functions_le : h.functions.size ≤ h'.functions.size
  scope?_eq {id : FrameId} {x : Option FrameId × Option Value} (hid : id.index < h.frames.size)
    (hx : h'.scope? id = some x) : h.scope? id = some x
  behaviour?_eq {id : FunctionId} {b : Behaviour} (hid : id.index < h.functions.size)
    (hb : h'.behaviour? id = some b) : h.behaviour? id = some b

namespace Lasts

theorem refl (h : Heap) : h.Lasts h := ⟨le_rfl, le_rfl, fun _ h ↦ h, fun _ h ↦ h⟩

theorem trans (hh : h.Lasts h') (hh' : h'.Lasts h'') : h.Lasts h'' where
  frames_le := hh.frames_le.trans hh'.frames_le
  functions_le := hh.functions_le.trans hh'.functions_le
  scope?_eq hid hx := hh.scope?_eq hid (hh'.scope?_eq (hid.trans_le hh.frames_le) hx)
  behaviour?_eq hid hb := hh.behaviour?_eq hid (hh'.behaviour?_eq (hid.trans_le hh.functions_le) hb)

theorem of_eq (hframes : h'.frames = h.frames) (hfunctions : h'.functions = h.functions) :
    h.Lasts h' where
  frames_le := by rw [hframes]
  functions_le := by rw [hfunctions]
  scope?_eq _ hx := by rwa [scope?, frame?, hframes] at hx
  behaviour?_eq _ hb := by rwa [behaviour?, function?, hfunctions] at hb

theorem newFrame (h : Heap) (f : Frame) : h.Lasts (h.newFrame f).2 where
  frames_le := by
    rw [Heap.newFrame, Store.size_push]
    exact Nat.le_succ _
  functions_le := le_rfl
  scope?_eq hid hx := by
    rwa [scope?, frame?, Heap.newFrame, Store.get?_push, if_neg hid.ne] at hx
  behaviour?_eq _ hb := hb

theorem newFunction (h : Heap) (g : Function) : h.Lasts (h.newFunction g).2 where
  frames_le := le_rfl
  functions_le := by
    rw [Heap.newFunction, Store.size_push]
    exact Nat.le_succ _
  scope?_eq _ hx := hx
  behaviour?_eq hid hb := by
    rwa [behaviour?, function?, Heap.newFunction, Store.get?_push, if_neg hid.ne] at hb

theorem modifyFrame (h : Heap) (id : FrameId) {g : Frame → Frame}
    (hg : ∀ f, (g f).parent = f.parent ∧ (g f).receiver = f.receiver) :
    h.Lasts (h.modifyFrame id g) where
  frames_le := (Store.size_modify ..).ge
  functions_le := le_rfl
  scope?_eq {other x} _ hx := by rwa [h.scope?_modifyFrame id other hg] at hx
  behaviour?_eq _ hb := hb

theorem assign (h : Heap) (id : FrameId) (name : Text) (v : Value) :
    h.Lasts (h.assign id name v).2 := by
  rw [Heap.assign]
  split
  · exact refl h
  · split
    · exact refl h
    · split
      · exact refl h
      · exact modifyFrame h _ fun _ ↦ ⟨rfl, rfl⟩

theorem nameFunction (h : Heap) (id : FunctionId) (name : Text) :
    h.Lasts (h.nameFunction id name) where
  frames_le := le_rfl
  functions_le := (Store.size_modify ..).ge
  scope?_eq _ hx := hx
  behaviour?_eq {other b} _ hb := by
    rw [behaviour?, function?, Heap.nameFunction, modifyFunction, Store.get?_modify] at hb
    rw [behaviour?, function?]
    split at hb
    · rw [Option.map_map] at hb
      rw [← hb]
      congr 1
      funext g
      dsimp only [Function.comp_apply]
      split <;> rfl
    · exact hb

theorem restrict (h : Heap) (keep : HeapRef → Bool) : h.Lasts (h.restrict keep) where
  frames_le := (Store.size_restrict ..).ge
  functions_le := (Store.size_restrict ..).ge
  scope?_eq _ hx := by
    rw [scope?, frame?, Heap.restrict, Store.get?_restrict] at hx
    split at hx
    · exact hx
    · cases hx
  behaviour?_eq _ hb := by
    rw [behaviour?, function?, Heap.restrict, Store.get?_restrict] at hb
    split at hb
    · exact hb
    · cases hb

theorem collect (h : Heap) (uses : Tally) : h.Lasts (h.collect uses).2 :=
  restrict h fun r ↦ (h.mark (h.roots uses) ∅).contains r.key

theorem of_change (hc : h.Change h') : h.Lasts h' := by
  cases hc with
  | child | sibling | call => exact newFrame h _
  | object | array | modifyObject | modifyArray => exact of_eq rfl rfl
  | function g => exact newFunction h g
  | define | setSignal => exact modifyFrame h _ fun _ ↦ ⟨rfl, rfl⟩
  | assign id name v => exact assign h id name v
  | nameFunction id name => exact nameFunction h id name

end Lasts

/-- A frame that is still there has the ancestors that it had, and sees the receiver that it saw. -/
theorem Lasts.keepsScope {roots : List HeapRef} (hh : h.Lasts h') (hs : h'.Sound roots)
    {id : FrameId} (hid : id.index < h.frames.size) (hp : h'.holds (.frame id) = true) :
    h.KeepsScope h' id := by
  have hback : h'.KeepsScope h id := by
    refine keepsScope_of
      (P := fun p ↦ h'.holds (.frame p) = true ∧ p.index < h.frames.size) ?_ ?_ ⟨hp, hid⟩
    · rintro p ⟨hp, hlt⟩
      obtain ⟨f, hf⟩ := Option.isSome_iff_exists.mp hp
      have hscope : h'.scope? p = some (f.parent, f.receiver) := congrArg (Option.map _) hf
      exact (hh.scope?_eq hlt hscope).trans hscope.symm
    · rintro p q f ⟨hp, hlt⟩ hf hq hqp
      have hcell : h'.cell? (.frame p) = some (.frame f) := congrArg (Option.map Cell.frame) hf
      exact ⟨hs.closed _ _ hcell _ (Frame.mem_references.mpr (.inl ⟨q, hq, rfl⟩)), hqp.trans hlt⟩
  exact ⟨hback.chain_eq.symm, hback.home?_eq.symm⟩

end Heap

namespace State

variable {c : Config} {moving : Bool} {s t : State}

theorem lasts_passMoment (c : Config) (m : Moment) (s : State) :
    s.heap.Lasts (s.passMoment c m).heap := by
  rw [passMoment]
  split
  · exact .collect s.heap _
  · exact .refl s.heap

theorem Course.lasts (h : s.Course c moving t) : s.heap.Lasts t.heap := by
  induction h with
  | refl s | record s | note s | enter s => exact .refl s.heap
  | trans _ _ ih ih' => exact ih.trans ih'
  | still _ ih | holding _ _ ih | inFrame _ _ ih | withCallFrame _ _ ih | deeper _ _ ih => exact ih
  | heap hc => exact .of_change hc
  | moment s m => exact s.lasts_passMoment c m

theorem keepsScope_change {h h' : Heap} (hc : h.Change h') {g : FrameId}
    (hg : g.index < h.frames.size) : h.KeepsScope h' g := by
  cases hc with
  | child | sibling | call => exact Heap.keepsScope_newFrame hg _
  | object | array | function | modifyObject | modifyArray | nameFunction =>
    exact Heap.keepsScope_of (P := fun _ ↦ True) (fun _ _ ↦ rfl)
      (fun _ _ _ _ _ _ _ ↦ trivial) trivial
  | define | setSignal => exact h.keepsScope_modifyFrame g _ fun _ ↦ ⟨rfl, rfl⟩
  | assign id name v => exact Effect.keepsScope_assign h id name v g

/-- On any way the held frames keep their scopes, and the current one does unless it is left. -/
theorem Course.keepsScope (h : s.Course c moving t) {g : FrameId}
    (hlt : g.index < s.heap.frames.size)
    (hg : moving = false ∧ g = s.frame ∨ .frame g ∈ s.held.flatMap Holder.references) :
    s.heap.KeepsScope t.heap g := by
  induction h with
  | refl s | record s | note s | enter s => exact .refl s.heap g
  | trans h h' ih ih' =>
    refine (ih hlt hg).trans (ih' (hlt.trans_le h.lasts.frames_le) ?_)
    rw [h.scopes_eq.2.2]
    rcases hg with ⟨hm, rfl⟩ | hg
    · exact .inl ⟨hm, (h.frame_eq hm).symm⟩
    · exact .inr hg
  | still _ ih => exact ih hlt (.inr (hg.resolve_left fun h ↦ nomatch h.1))
  | heap hc => exact keepsScope_change hc hlt
  | moment s m =>
    have howner : .frame g ∈ s.owners := by
      rcases hg with ⟨-, rfl⟩ | hg
      · exact List.mem_cons_self
      · exact List.mem_cons_of_mem _ hg
    rw [passMoment]
    split
    · exact Heap.keepsScope_collect howner
    · exact .refl s.heap g
  | holding x _ ih => exact ih hlt (hg.imp_right fun hg ↦ List.mem_append_right _ hg)
  | inFrame id _ ih =>
    refine ih hlt (.inr ?_)
    rcases hg with ⟨-, rfl⟩ | hg
    · exact List.mem_cons_self
    · exact List.mem_cons_of_mem _ hg
  | withCallFrame _ _ ih | deeper _ _ ih => exact ih hlt hg

end State

/-! ### Sessions -/

namespace ValueSpec

/-- Whatever is made, the heap lasts. -/
def Build.Lasts {α : Type} (m : Build α) : Prop := ∀ b : Building, b.heap.Lasts (m b).2.heap

namespace Build.Lasts

variable {α β : Type} {scope : Scope}

theorem pure (a : α) : Build.Lasts (Pure.pure a) := fun b ↦ .refl b.heap

theorem bind {m : Build α} {f : α → Build β} (hm : m.Lasts) (hf : ∀ a, (f a).Lasts) :
    (m >>= f).Lasts := fun b ↦ (hm b).trans (hf _ _)

theorem create {f : Heap → α × Heap} (hf : ∀ h : Heap, h.Lasts (f h).2) :
    (ValueSpec.create f).Lasts :=
  fun b ↦ hf b.heap

theorem changeHeap {f : Heap → Heap} (hf : ∀ h : Heap, h.Lasts (f h)) :
    (ValueSpec.changeHeap f).Lasts :=
  fun b ↦ hf b.heap

theorem tidy (hs : ∀ inUse h, scope.tidy inUse h = h) (inUse : List HeapRef) :
    (ValueSpec.tidy scope inUse).Lasts := by
  intro b
  simp only [ValueSpec.tidy, hs]
  exact .refl b.heap

theorem register (hs : ∀ inUse h, scope.tidy inUse h = h) (inUse : List HeapRef) (id : Option Nat)
    (v : Value) : (ValueSpec.register scope inUse id v).Lasts := by
  cases id with
  | none => exact pure ()
  | some n =>
    intro b
    rw [ValueSpec.register]
    dsimp only
    split
    · exact tidy hs inUse { b with numbered := (n, v) :: b.numbered.filter fun p ↦ p.1 != n }
    · exact .refl b.heap

theorem setProperty (hs : ∀ inUse h, scope.tidy inUse h = h) (inUse : List HeapRef) (id : ObjectId)
    (key : Text) (v : Value) : (ValueSpec.setProperty scope inUse id key v).Lasts := by
  intro b
  have hchanged : b.heap.Lasts (b.heap.modifyObject id (·.insert key v)) := .of_eq rfl rfl
  rw [ValueSpec.setProperty]
  split
  · exact hchanged.trans (tidy hs inUse { b with heap := b.heap.modifyObject id (·.insert key v) })
  · exact hchanged

end Build.Lasts

variable {scope : Scope}

mutual

theorem build_lasts (hs : ∀ inUse h, scope.tidy inUse h = h) (inUse : List HeapRef) :
    ∀ spec, (build scope inUse spec).Lasts
  | undefined | null | bool _ | number _ | text _ => .pure _
  | array id elements => by
    rw [build]
    exact .bind (.create fun _ ↦ .of_eq rfl rfl) fun _ ↦ .bind (.register hs _ id _) fun _ ↦
      .bind (fillArray_lasts hs _ _ elements) fun _ ↦ .pure _
  | object id members => by
    rw [build]
    exact .bind (.create fun _ ↦ .of_eq rfl rfl) fun _ ↦ .bind (.register hs _ id _) fun _ ↦
      .bind (fillObject_lasts hs _ _ members) fun _ ↦ .pure _
  | host id function name => by
    rw [build]
    exact .bind (.create fun h ↦ .newFunction h _) fun _ ↦
      .bind (.register hs _ id _) fun _ ↦ .pure _
  | numbered id => fun b ↦ .refl b.heap
  | kept name | bound name => by
    rw [build]
    exact .pure _

theorem fillArray_lasts (hs : ∀ inUse h, scope.tidy inUse h = h) (inUse : List HeapRef)
    (id : ArrayId) : ∀ specs, (fillArray scope inUse id specs).Lasts
  | [] => .pure _
  | spec :: rest => by
    rw [fillArray]
    exact .bind (build_lasts hs inUse spec) fun _ ↦ .bind (.changeHeap fun _ ↦ .of_eq rfl rfl)
      fun _ ↦ fillArray_lasts hs inUse id rest

theorem fillObject_lasts (hs : ∀ inUse h, scope.tidy inUse h = h) (inUse : List HeapRef)
    (id : ObjectId) : ∀ members, (fillObject scope inUse id members).Lasts
  | [] => .pure _
  | (key, spec) :: rest => by
    rw [fillObject]
    exact .bind (build_lasts hs inUse spec) fun _ ↦ .bind (.setProperty hs inUse id key _)
      fun _ ↦ fillObject_lasts hs inUse id rest

end

theorem buildAll_lasts (hs : ∀ inUse h, scope.tidy inUse h = h) (inUse : List HeapRef)
    (specs : List ValueSpec) : (buildAll scope inUse specs).Lasts := by
  induction specs generalizing inUse with
  | nil => exact .pure _
  | cons spec rest ih =>
    exact .bind (build_lasts hs inUse spec) fun _ ↦ .bind (ih _) fun _ ↦ .pure _

theorem buildCall_lasts (hs : ∀ inUse h, scope.tidy inUse h = h) (function : ValueSpec)
    (arguments : List ValueSpec) (receiver : ValueSpec) :
    (buildCall scope function arguments receiver).Lasts :=
  .bind (build_lasts hs _ _) fun _ ↦ .bind (buildAll_lasts hs _ _) fun _ ↦
    .bind (build_lasts hs _ _) fun _ ↦ .pure _

end ValueSpec

namespace Session

variable {α : Type} {s t u : Session}

/-- A later session, in whose heap the one before lasts, and in which the same frame is current. -/
structure Leads (s t : Session) : Prop where
  lasts : s.heap.Lasts t.heap
  frame_eq : t.interpreter.state.frame = s.interpreter.state.frame

theorem Leads.refl (s : Session) : s.Leads s := ⟨.refl s.heap, rfl⟩

theorem Leads.trans (h : s.Leads t) (h' : t.Leads u) : s.Leads u :=
  ⟨h.lasts.trans h'.lasts, h'.frame_eq.trans h.frame_eq⟩

theorem leads_keepAs (s : Session) (name : Option Text) (v : Value) :
    s.Leads (s.keepAs name v) := by
  cases name <;> exact ⟨.refl s.heap, rfl⟩

theorem leads_make (s : Session) {m : ValueSpec.Scope → ValueSpec.Build α}
    (hm : (m s.scope).Lasts) : s.Leads (s.make m).2 :=
  ⟨hm ⟨s.heap, s.interpreter.state.accounting, []⟩, rfl⟩

theorem leads_build (s : Session) (spec : ValueSpec) : s.Leads (s.make (spec.build · [])).2 :=
  s.leads_make (m := (spec.build · [])) (ValueSpec.build_lasts (fun _ _ ↦ rfl) [] spec)

theorem leads_buildCall (s : Session) (function : ValueSpec) (args : List ValueSpec)
    (receiver : ValueSpec) : s.Leads (s.make (ValueSpec.buildCall · function args receiver)).2 :=
  s.leads_make (m := (ValueSpec.buildCall · function args receiver))
    (ValueSpec.buildCall_lasts (fun _ _ ↦ rfl) function args receiver)

theorem leads_evaluate (s : Session) (level : Nat) {m : Evaluator → Eval α}
    (hm : Eval.Courses s.interpreter.config false (m (s.interpreter.config.level level))) :
    s.Leads (s.evaluate level m).2 := by
  have h := hm { s.interpreter.state with held := s.holder :: s.interpreter.state.held }
  have hlasts := h.lasts
  have hframe := h.frame_eq rfl
  rw [evaluate, Eval.holding]
  generalize m (s.interpreter.config.level level) _ = o at hlasts hframe ⊢
  cases o <;> exact ⟨hlasts, hframe⟩

theorem leads_execStatements (level : Nat) (body : List Stmt) (s : Session) :
    s.Leads (execStatements level body s).2 := by
  induction body generalizing s with
  | nil => exact .refl s
  | cons statement rest ih =>
    have h : s.Leads (s.evaluate level fun r ↦ r.stmt statement).2 :=
      s.leads_evaluate level ((s.interpreter.config.level_courses level).stmt statement)
    rw [execStatements]
    generalize s.evaluate level (fun r ↦ r.stmt statement) = result at h ⊢
    obtain ⟨_ | c, t⟩ := result
    · exact h
    · exact h.trans (ih t)

theorem leads_run (s : Session) (level : Nat) (program : Text) (keep : Option Text) :
    s.Leads (s.run level program keep).2 := by
  rw [run]
  cases Program.load program with
  | error => exact .refl s
  | ok p =>
    have hp : Eval.Courses s.interpreter.config false
        ((s.interpreter.config.level level).program p) :=
      (s.interpreter.config.level_courses level).program p
    have hran : s.Leads (s.withInterpreter (s.interpreter.run level p s.kept.values).2) := by
      have h := hp { s.interpreter.state with
        held := .values s.kept.values :: s.interpreter.state.held }
      constructor
      · change s.heap.Lasts (s.interpreter.run level p s.kept.values).2.state.heap
        rw [Interpreter.state_run, Eval.holding, Outcome.state_mapState]
        exact h.lasts
      · change (s.interpreter.run level p s.kept.values).2.state.frame = _
        rw [Interpreter.state_run, Eval.holding, Outcome.state_mapState]
        exact h.frame_eq rfl
    dsimp only
    generalize s.interpreter.run level p s.kept.values = result at hran ⊢
    obtain ⟨result, i⟩ := result
    cases result with
    | value v => exact hran.trans (leads_keepAs _ keep v)
    | uncaught | faulted | exhausted => exact hran

theorem leads_call (s : Session) (level : Nat) (function : ValueSpec) (args : List ValueSpec)
    (receiver : ValueSpec) (keep : Option Text) :
    s.Leads (s.call level function args receiver keep).2 := by
  have hmade := s.leads_buildCall function args receiver
  rw [call]
  generalize s.make (ValueSpec.buildCall · function args receiver) = made at hmade ⊢
  obtain ⟨⟨callee, vs, this⟩, t⟩ := made
  have hcall : Eval.Courses t.interpreter.config false
      ((t.interpreter.config.level level).callValue callee vs this) := by
    rw [← Config.call_succ]
    exact (t.interpreter.config.level_courses (level + 1)).call callee vs this
  have h : t.Leads (t.evaluate level fun r ↦ r.callValue callee vs this).2 :=
    t.leads_evaluate level hcall
  dsimp only
  generalize t.evaluate level (fun r ↦ r.callValue callee vs this) = result at h ⊢
  obtain ⟨_ | v, u⟩ := result
  · exact hmade.trans h
  · exact (hmade.trans h).trans (leads_keepAs u keep v)

/-- Every step but those that make another frame current leads to a later session. -/
theorem leads_perform (s : Session) (level : Nat) {x : Step} (hpush : x ≠ .push) (hpop : x ≠ .pop) :
    s.Leads (s.perform level x).2 := by
  cases x with
  | run program keep => exact s.leads_run level program keep
  | exec program =>
    rw [perform, exec]
    split
    · exact .refl s
    · exact leads_execStatements level _ s
  | call function args receiver keep => exact s.leads_call level function args receiver keep
  | keep name value | «show» value => exact ⟨(s.leads_build value).lasts, rfl⟩
  | drop | error | clear | frame => exact ⟨.refl s.heap, rfl⟩
  | push => exact absurd rfl hpush
  | pop => exact absurd rfl hpop
  | define name value kind =>
    exact ⟨(s.leads_build value).lasts.trans (.modifyFrame _ _ fun _ ↦ ⟨rfl, rfl⟩), rfl⟩
  | assign name value => exact ⟨(s.leads_build value).lasts.trans (.assign _ _ name _), rfl⟩
  | collect => exact ⟨.collect s.heap _, rfl⟩

/-- Whatever a session does, the heap lasts. -/
theorem lasts_perform (s : Session) (level : Nat) (x : Step) :
    s.heap.Lasts (s.perform level x).2.heap := by
  by_cases hpush : x = .push
  · subst hpush
    exact .newFrame s.heap _
  by_cases hpop : x = .pop
  · subst hpop
    rw [perform]
    split <;> exact .refl s.heap
  exact (s.leads_perform level hpush hpop).lasts

end Session

end EcmaTree
