import EcmaTree.Proofs.Alike.Sessions

/-!
# Alike steps

Every step but a collection has the same answer in alike sessions, and leaves alike sessions.
-/

namespace EcmaTree

open Carries

instance : Carries Answer := ⟨fun _ ↦ []⟩
instance : Carries Reply := ⟨fun _ ↦ []⟩
instance : Carries (List (Except Failure CompletionSnapshot)) := ⟨fun _ ↦ []⟩

instance : Carries RunResult := ⟨fun
  | .value v => refs v
  | .uncaught t => refs t
  | .faulted _ | .exhausted => []⟩

@[simp, grind =] theorem refs_runValue (v : Value) : refs (RunResult.value v) = refs v := rfl
@[simp, grind =] theorem refs_runUncaught (t : Thrown) : refs (RunResult.uncaught t) = refs t := rfl
@[simp, grind =] theorem refs_runFaulted (e : Fault) : refs (RunResult.faulted e) = [] := rfl
@[simp, grind =] theorem refs_runExhausted : refs RunResult.exhausted = [] := rfl

namespace Session.Alike

variable {p : Pairing} {extra : List HeapRef} {s t : Session}

/-! ### Programs, statements and calls -/

theorem errorReport_eq (ha : s.Alike p extra t) :
    s.interpreter.errorReport = t.interpreter.errorReport := by
  have hreaches : s.heap.Reaches (s.interpreter.state.roots (extra ++ refs s.holder))
      s.interpreter.error := reaches (by grind [refs_holder])
  rw [Interpreter.error] at hreaches
  rw [Interpreter.errorReport, Interpreter.errorReport, ← ha.uncaught, ha.left, ha.right,
    p.source_eq]
  cases hu : s.interpreter.uncaught with
  | none => rfl
  | some e =>
    rw [hu] at hreaches
    dsimp only
    rw [ha.state.heap.reportHeading_eq hreaches]

/-- A program that runs in both sessions has the same result. -/
theorem runProgram (hp : p.Collecting) (ha : s.Alike p extra t) (level : Nat) (q : Program) :
    let r := s.interpreter.run level q s.kept.values
    let r' := t.interpreter.run level q t.kept.values
    Gives p (r.1, s.withInterpreter r.2) (r'.1, t.withInterpreter r'.2) := by
  dsimp only
  have hkept : refs (Holder.values s.kept.values) ⊆ extra ++ refs s.holder := by
    rw [refs_holder, refs_valuesHeld]
    grind
  have hr {a : Activation} : (p.left.level level).Alike (p.entered a) (p.right.level level) :=
    (p.entered a).level_alike (.inl rfl)
  have hprogram : Eval.Alike p (extra ++ refs s.holder) [] ((p.left.level level).program q)
      ((p.right.level level).program q) :=
    Evaluator.Alike.program (.refl _ q) hp.idle hr
  have ho := hprogram.ends hp hkept ha.state
  rw [Interpreter.run, Interpreter.run, ha.left, ha.right, ← ha.kept]
  generalize Eval.holding (.values s.kept.values) ((p.left.level level).program q)
      s.interpreter.state = o,
    Eval.holding (.values s.kept.values) ((p.right.level level).program q)
      t.interpreter.state = o' at ho ⊢
  cases ho with
  | done v h | faulted e h | exhausted h =>
    refine .intro _ ⟨rfl, rfl, h.mono ?_, rfl, ha.kept⟩
    simp [refs_holder, withInterpreter, Interpreter.error]
  | thrown e h =>
    refine .intro _ ⟨rfl, rfl, h.mono ?_, rfl, ha.kept⟩
    simp [refs_holder, withInterpreter, Interpreter.error]

theorem run (hp : p.Collecting) (ha : s.Alike p [] t) (level : Nat) (program : Text)
    (keep : Option Text) : Gives p (s.run level program keep) (t.run level program keep) := by
  rw [Session.run, Session.run]
  cases Program.load program with
  | error e => exact .intro _ ha
  | ok q =>
    have hr := ha.runProgram hp level q
    dsimp only at hr ⊢
    generalize s.interpreter.run level q s.kept.values = r,
      t.interpreter.run level q t.kept.values = r' at hr ⊢
    obtain ⟨result, i⟩ := r
    obtain ⟨result', i'⟩ := r'
    dsimp only at hr ⊢
    obtain ⟨_, h⟩ := hr
    cases result with
    | value v =>
      have hsnapshot := h.snapshot_eq (v := v) (List.subset_append_left ..)
      dsimp only
      rw [hsnapshot]
      exact .intro _ (h.keepAs keep (List.Subset.refl _))
    | uncaught e =>
      have hv : refs e.value ⊆ refs (RunResult.uncaught e) ++ refs (s.withInterpreter i).holder :=
        List.subset_append_left ..
      have hsnapshot := h.snapshot_eq hv
      have herror : (s.withInterpreter i).heap.isError e.value =
          (t.withInterpreter i').heap.isError e.value := h.state.heap.isError_eq (reaches hv)
      have hreport : i.errorReport = i'.errorReport := h.errorReport_eq
      dsimp only
      rw [hsnapshot, herror, hreport]
      exact .intro _ (h.mono (List.nil_subset _))
    | faulted | exhausted => exact .intro _ h

theorem execStatements (hp : p.Collecting) (level : Nat) (body : List Stmt)
    (ha : s.Alike p [] t) :
    Gives p (Session.execStatements level body s) (Session.execStatements level body t) := by
  induction body generalizing s t with
  | nil => exact .intro _ ha
  | cons statement rest ih =>
    have he := ha.evaluate hp level fun r r' hr _ ↦ hr.stmt (.refl _ statement)
    rw [Session.execStatements, Session.execStatements]
    generalize s.evaluate level (fun r ↦ r.stmt statement) = r,
      t.evaluate level (fun r ↦ r.stmt statement) = r' at he ⊢
    obtain @⟨result, u, v, h⟩ := he
    cases result with
    | error e => exact .intro _ h
    | ok c =>
      have hc : u.heap.completionSnapshot c = v.heap.completionSnapshot c :=
        h.state.heap.completionSnapshot_eq <|
          Heap.reachesAll_of_subset (fun _ ↦ State.reachable_of_mem) (by simp)
      have hrest := ih (h.mono (List.nil_subset _))
      dsimp only
      generalize Session.execStatements level rest u = r,
        Session.execStatements level rest v = r' at hrest ⊢
      obtain ⟨endings, hlast⟩ := hrest
      rw [hc]
      exact .intro _ hlast

theorem exec (hp : p.Collecting) (ha : s.Alike p [] t) (level : Nat) (program : Text) :
    Gives p (s.exec level program) (t.exec level program) := by
  rw [Session.exec, Session.exec]
  cases Program.load program with
  | error e => exact .intro _ ha
  | ok q =>
    have hr := ha.execStatements hp level q.body
    dsimp only
    generalize Session.execStatements level q.body s = r,
      Session.execStatements level q.body t = r' at hr ⊢
    obtain ⟨endings, h⟩ := hr
    exact .intro _ h

theorem call (hp : p.Collecting) (ha : s.Alike p [] t) (level : Nat) (function : ValueSpec)
    (arguments : List ValueSpec) (receiver : ValueSpec) (keep : Option Text) :
    Gives p (s.call level function arguments receiver keep)
      (t.call level function arguments receiver keep) := by
  have hm := ha.make hp fun _ _ hs ↦ ValueSpec.buildCall_alike hs function arguments receiver
  rw [Session.call, Session.call]
  generalize s.make (ValueSpec.buildCall · function arguments receiver) = r,
    t.make (ValueSpec.buildCall · function arguments receiver) = r' at hm ⊢
  obtain @⟨⟨callee, args, this⟩, u, v, h⟩ := hm
  have he := h.evaluate hp level (m := fun r ↦ r.callValue callee args this) fun r r' hr hin ↦
    hr.callValue hin callee (by grind) (by grind) (by grind)
  dsimp only
  generalize u.evaluate level (fun r ↦ r.callValue callee args this) = r,
    v.evaluate level (fun r ↦ r.callValue callee args this) = r' at he ⊢
  obtain ⟨result, h⟩ := he
  cases result with
  | error e => exact .intro _ h
  | ok v =>
    have hsnapshot := h.snapshot_eq (v := v) (List.subset_append_left ..)
    dsimp only
    rw [hsnapshot]
    exact .intro _ (h.keepAs keep (List.Subset.refl _))

/-! ### Values that the host hands in -/

theorem makeValue (hp : p.Collecting) (ha : s.Alike p extra t) (value : ValueSpec) :
    Gives p (s.make (value.build · [])) (t.make (value.build · [])) :=
  ha.make hp fun _ _ hs ↦ ValueSpec.build_alike hs [] value

theorem define (hp : p.Collecting) (ha : s.Alike p [] t) (name : Text) (value : ValueSpec)
    (kind : BindingKind) : Gives p (s.define name value kind) (t.define name value kind) := by
  have hm := ha.makeValue hp value
  rw [Session.define, Session.define]
  generalize s.make (value.build · []) = r, t.make (value.build · []) = r' at hm ⊢
  obtain @⟨v, u, w, h⟩ := hm
  have hdefined : Session.Alike p (refs v)
      (u.withHeap (u.heap.define u.interpreter.state.frame name v kind))
      (w.withHeap (w.heap.define u.interpreter.state.frame name v kind)) :=
    h.withHeap <| h.state.heap.define State.reachable_frame name kind <|
      reaches (List.subset_append_left ..)
  dsimp only
  rw [← h.state.frame]
  generalize u.withHeap (u.heap.define u.interpreter.state.frame name v kind) = u',
    w.withHeap (w.heap.define u.interpreter.state.frame name v kind) = w' at hdefined ⊢
  have hsnapshot : u'.heap.bindingSnapshot ⟨name, kind, v⟩ =
      w'.heap.bindingSnapshot ⟨name, kind, v⟩ :=
    hdefined.state.heap.bindingSnapshot_eq (reaches (List.subset_append_left ..))
  rw [hsnapshot]
  exact .intro _ (hdefined.mono (List.nil_subset _))

theorem assign (hp : p.Collecting) (ha : s.Alike p [] t) (name : Text) (value : ValueSpec) :
    Gives p (s.assign name value) (t.assign name value) := by
  have hm := ha.makeValue hp value
  rw [Session.assign, Session.assign]
  generalize s.make (value.build · []) = r, t.make (value.build · []) = r' at hm ⊢
  obtain @⟨v, u, w, h⟩ := hm
  have hassigned : (u.heap.assign u.interpreter.state.frame name v).1 =
        (w.heap.assign u.interpreter.state.frame name v).1 ∧
      Heap.Matched p.free p.whole p.intact (u.interpreter.state.roots (refs v ++ refs u.holder))
        (u.heap.assign u.interpreter.state.frame name v).2
        (w.heap.assign u.interpreter.state.frame name v).2 :=
    h.state.heap.assign State.reachable_frame name (reaches (List.subset_append_left ..))
  dsimp only
  rw [← h.state.frame]
  generalize u.heap.assign u.interpreter.state.frame name v = r,
    w.heap.assign u.interpreter.state.frame name v = r' at hassigned ⊢
  obtain ⟨result, g⟩ := r
  obtain ⟨_, g'⟩ := r'
  obtain ⟨rfl, hg⟩ := hassigned
  exact .intro _ ((h.withHeap hg).mono (List.nil_subset _))

/-! ### Frames -/

/-- A frame that is reached can become current. -/
theorem enter (ha : s.Alike p extra t) {frame : FrameId}
    (hframe : s.heap.Reachable (s.interpreter.state.roots (extra ++ refs s.holder))
      (.frame frame)) :
    (s.enter frame).Alike p [] (t.enter frame) :=
  { ha with
    state := { ha.state with
      heap := ha.state.heap.shrink fun r hr ↦ by
        rcases List.mem_append.mp hr with hr | hr
        · exact State.reachable_of_mem (List.mem_append_right _ hr)
        · rcases List.mem_cons.mp hr with rfl | hr
          · exact hframe
          · exact State.reachable_of_mem_owners (List.mem_cons_of_mem _ hr)
      frame := rfl } }

theorem depth_eq (ha : s.Alike p extra t) : s.depth = t.depth := by
  rw [depth, depth, ← ha.state.frame]
  exact ha.state.heap.depth_eq State.reachable_frame

theorem push (ha : s.Alike p [] t) (level : Nat) :
    Gives p (s.perform level .push) (t.perform level .push) := by
  have hnew : (s.heap.newChild s.interpreter.state.frame).1 =
        (t.heap.newChild s.interpreter.state.frame).1 ∧
      Heap.Matched p.free p.whole p.intact (.frame (s.heap.newChild s.interpreter.state.frame).1 ::
          s.interpreter.state.roots (refs s.holder))
        (s.heap.newChild s.interpreter.state.frame).2
        (t.heap.newChild s.interpreter.state.frame).2 :=
    ha.state.heap.newChild _ State.reachable_frame
  rw [perform, perform, ← ha.state.frame]
  generalize s.heap.newChild s.interpreter.state.frame = r,
    t.heap.newChild s.interpreter.state.frame = r' at hnew ⊢
  obtain ⟨id, h⟩ := r
  obtain ⟨_, h'⟩ := r'
  obtain ⟨rfl, hh⟩ := hnew
  have hmade : Session.Alike p [.frame id] (s.withHeap h) (t.withHeap h') := ha.withHeap hh
  have hentered := hmade.enter (State.reachable_of_mem (List.mem_cons_self ..))
  dsimp only
  rw [hentered.depth_eq]
  exact .intro _ hentered

theorem pop (ha : s.Alike p [] t) (level : Nat) :
    Gives p (s.perform level .pop) (t.perform level .pop) := by
  have hframe : s.heap.frame? s.interpreter.state.frame = t.heap.frame? s.interpreter.state.frame :=
    ha.state.heap.frame?_eq (.inr State.reachable_frame)
  rw [perform, perform, ← ha.state.frame, ← hframe]
  cases hparent : (s.heap.frame? s.interpreter.state.frame).bind Frame.parent with
  | none =>
    dsimp only
    rw [ha.depth_eq]
    exact .intro _ ha
  | some parent =>
    obtain ⟨f, hf, hparent⟩ := Option.bind_eq_some_iff.mp hparent
    have hentered := ha.enter (State.reachable_frame.step (.parent hf hparent))
    dsimp only
    rw [hentered.depth_eq]
    exact .intro _ hentered

/-! ### All steps -/

/-- Every step but a collection has the same answer. -/
theorem perform (hp : p.Collecting) (ha : s.Alike p [] t) (level : Nat) {x : Step}
    (hx : x ≠ .collect) : Gives p (s.perform level x) (t.perform level x) := by
  cases x with
  | run program keep => exact ha.run hp level program keep
  | exec program => exact ha.exec hp level program
  | call function arguments receiver keep => exact ha.call hp level function arguments receiver keep
  | keep name value =>
    have hm := ha.makeValue hp value
    rw [Session.perform, Session.perform]
    generalize s.make (value.build · []) = r, t.make (value.build · []) = r' at hm ⊢
    obtain ⟨v, h⟩ := hm
    exact .intro _ (h.keepAs (some name) (List.Subset.refl _))
  | drop name =>
    have hkept : refs (s.kept.erase name).values ⊆ refs s.kept.values :=
      subset_refs fun v hv ↦ refs_subset_of_mem (OrderedMap.mem_values_erase hv)
    refine .intro _ { ha with
      state := ha.state.mono ?_
      kept := congrArg (·.erase name) ha.kept }
    rw [refs_holder, refs_holder]
    change [] ++ (refs s.interpreter.error ++ refs (s.kept.erase name).values) ⊆ _
    grind
  | «show» value =>
    have hm := ha.makeValue hp value
    rw [Session.perform, Session.perform]
    generalize s.make (value.build · []) = r, t.make (value.build · []) = r' at hm ⊢
    obtain ⟨v, h⟩ := hm
    dsimp only
    rw [h.snapshot_eq (List.subset_append_left ..)]
    exact .intro _ (h.mono (List.nil_subset _))
  | error =>
    have hsnapshot : s.heap.snapshot s.interpreter.error = t.heap.snapshot s.interpreter.error :=
      ha.snapshot_eq (by grind [refs_holder])
    rw [Session.perform, Session.perform]
    rw [← ha.uncaught, ← ha.error_eq, ← ha.errorReport_eq, hsnapshot]
    exact .intro _ ha
  | clear =>
    refine .intro _ { ha with
      state := ha.state.mono ?_
      uncaught := rfl }
    rw [refs_holder, refs_holder]
    change [] ++ ([] ++ refs s.kept.values) ⊆ _
    grind
  | frame =>
    have hbindings : s.heap.bindingSnapshots s.interpreter.state.frame =
        t.heap.bindingSnapshots s.interpreter.state.frame :=
      ha.state.heap.bindingSnapshots_eq State.reachable_frame
    rw [Session.perform, Session.perform, ha.depth_eq, ← ha.state.frame, hbindings]
    exact .intro _ ha
  | push => exact ha.push level
  | pop => exact ha.pop level
  | define name value kind => exact ha.define hp name value kind
  | assign name value => exact ha.assign hp name value
  | collect => exact (hx rfl).elim

/-- So does what was recorded and noted in the meantime. -/
theorem step (hp : p.Collecting) (ha : s.Alike p [] t) (level : Nat) {x : Step}
    (hx : x ≠ .collect) : Gives p (s.step level x) (t.step level x) := by
  have hperformed := ha.perform hp level hx
  rw [Session.step, Session.step]
  generalize s.perform level x = r, t.perform level x = r' at hperformed ⊢
  obtain ⟨answer, h⟩ := hperformed
  dsimp only
  rw [h.state.log, h.state.notices]
  exact .intro _ (h.withState { h.state with log := rfl, notices := rfl })

end Session.Alike

end EcmaTree
