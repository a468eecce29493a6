import EcmaTree.Proofs.Loops.Padding
import EcmaTree.Proofs.Loops.Rounds
import EcmaTree.Proofs.Reached

/-!
# The forms of loops

A `for` loop without initialiser and update is a `while` loop in an empty frame of its own, which
nothing can tell from the loop without the frame. A `do` loop is its body followed by a `while`
loop, unless the body leaves the loop.
-/

namespace EcmaTree

open Carries Eval

/-! ### Outcomes that match -/

/-- Outcomes with the same ending and the same result, which leave related states. The relation may
ask for more where the outcome still refers to it. -/
inductive Outcome.Matches {α : Type} [Carries α] (R : List HeapRef → State → State → Prop) :
    Outcome α → Outcome α → Prop where
  | done (a : α) {s t : State} (h : R (refs a) s t) : Matches R (.done a s) (.done a t)
  | thrown (e : Thrown) {s t : State} (h : R (refs e) s t) : Matches R (.thrown e s) (.thrown e t)
  | faulted (e : Fault) {s t : State} (h : R [] s t) : Matches R (.faulted e s) (.faulted e t)
  | exhausted {s t : State} (h : R [] s t) : Matches R (.exhausted s) (.exhausted t)

/-- States that are the same but for the heaps, which are related as far as owners and what is kept
reach. -/
structure State.SameBut (H : List HeapRef → Heap → Heap → Prop) (kept : List HeapRef)
    (s t : State) : Prop where
  heap : H (s.roots kept) s.heap t.heap
  frame_eq : t.frame = s.frame
  depth_eq : t.depth = s.depth
  calls_eq : t.calls = s.calls
  log_eq : t.log = s.log
  notices_eq : t.notices = s.notices
  held_eq : t.held = s.held

namespace Outcome.Matches

variable {α : Type} [Carries α] {R R' R'' : List HeapRef → State → State → Prop}
  {o o' o'' : Outcome α}

theorem mono (h : o.Matches R o') (hR : ∀ {kept s t}, R kept s t → R' kept s t) :
    o.Matches R' o' := by
  cases h with
  | done a h => exact .done a (hR h)
  | thrown e h => exact .thrown e (hR h)
  | faulted e h => exact .faulted e (hR h)
  | exhausted h => exact .exhausted (hR h)

theorem trans (h : o.Matches R o') (h' : o'.Matches R' o'') :
    o.Matches (fun kept s u ↦ ∃ t, R kept s t ∧ R' kept t u) o'' := by
  cases h with
  | done a h => cases h' with | done _ h' => exact .done a ⟨_, h, h'⟩
  | thrown e h => cases h' with | thrown _ h' => exact .thrown e ⟨_, h, h'⟩
  | faulted e h => cases h' with | faulted _ h' => exact .faulted e ⟨_, h, h'⟩
  | exhausted h => cases h' with | exhausted h' => exact .exhausted ⟨_, h, h'⟩

theorem symm (h : o.Matches R o') : o'.Matches (fun kept s t ↦ R kept t s) o := by
  cases h with
  | done a h => exact .done a h
  | thrown e h => exact .thrown e h
  | faulted e h => exact .faulted e h
  | exhausted h => exact .exhausted h

/-- The second outcome is left by a scope. -/
theorem leave (h : o.Matches R o') (g : State → State) :
    o.Matches (fun kept s t ↦ ∃ u, R kept s u ∧ t = g u) (o'.mapState g) := by
  cases h with
  | done a h => exact .done a ⟨_, h, rfl⟩
  | thrown e h => exact .thrown e ⟨_, h, rfl⟩
  | faulted e h => exact .faulted e ⟨_, h, rfl⟩
  | exhausted h => exact .exhausted ⟨_, h, rfl⟩

/-- What an ended statement refers to, values refer to. -/
theorem of_values {o o' : Outcome Completion} (h : o.Matches R o') :
    o.Matches (fun kept s t ↦ R kept s t ∧ ∀ x ∈ kept, ∃ v : Value, v.ref? = some x) o' := by
  have hvalue (v : Value) : ∀ x ∈ refs v, ∃ v : Value, v.ref? = some x :=
    fun x hx ↦ ⟨v, Option.mem_toList.mp hx⟩
  cases h with
  | done d h =>
    refine .done d ⟨h, ?_⟩
    rw [← refs_value?]
    cases d.value? with
    | none => exact nofun
    | some v => exact hvalue v
  | thrown e h => exact .thrown e ⟨h, hvalue e.value⟩
  | faulted e h => exact .faulted e ⟨h, nofun⟩
  | exhausted h => exact .exhausted ⟨h, nofun⟩

end Outcome.Matches

theorem Coupling.Ends.matches {c : Config} {Mode : Type} {k : Coupling c Mode} {mode : Mode}
    {s t : State} {α : Type} [Carries α] {o o' : Outcome α} (hk : ∀ e, ¬ k.Alarm e)
    (h : k.Ends mode s t o o') : o.Matches (fun _ ↦ k.After mode s t) o' := by
  cases h with
  | done a h => exact .done a h
  | thrown _ h => exact .thrown _ h
  | faulted e h => exact .faulted e h
  | exhausted h => exact .exhausted h
  | alarm he => exact (hk _ he).elim

/-- Alike outcomes match where the first is not cut short in ways in which the second is not. -/
theorem Outcome.Alike.matches {α : Type} [Carries α] {p : Pairing} {held : List Holder}
    {o o' : Outcome α} (h : o.Alike p held [] o') (hfree : ¬ p.free)
    (hshort : p.short → ∀ t, o ≠ .exhausted t) :
    o.Matches (fun kept s t ↦ s.Alike p kept t ∧ s.held = held) o' := by
  cases h with
  | done a h hs => exact .done a ⟨h.mono (List.subset_append_left ..), hs⟩
  | thrown e h hs => exact .thrown e ⟨h, hs⟩
  | faulted e h hs => exact .faulted e ⟨h, hs⟩
  | exhausted h hs => exact .exhausted ⟨h, hs⟩
  | free hp => exact (hfree hp).elim
  | short hp => exact (hshort hp _ rfl).elim

theorem Eval.map_holding {α β : Type} (f : α → β) (x : Holder) (m : Eval α) :
    f <$> holding x m = holding x (f <$> m) := by
  rw [map_eq_pure_bind, map_eq_pure_bind]
  funext s
  simp only [holding, bind_apply]
  cases m { s with held := x :: s.held } <;> rfl

/-! ### Without collections -/

/-- An evaluation that is compared with itself while other things are held. Without collections this
makes no difference. -/
def Coupling.unheld (c : Config) : Coupling c.uncollected Unit where
  Rel _ s t := t = { s with held := t.held }
  inner _ := ()
  resembles := by
    rintro _ s t h
    rw [h]
    exact ⟨.refl s.heap, fun _ ↦ rfl, rfl, rfl, rfl, rfl⟩
  effect := by
    rintro _ s t e - h
    rw [h]
    cases e <;> rfl
  hold := by
    rintro _ s t x - h
    rw [h]
  release := by
    rintro _ s t x hs ht - h - -
    rw [h]
  opening := by
    rintro _ s t h
    rw [h]
    rfl
  encloses _ :=
    { closing := by
        rintro s t u v h h' - -
        rw [h, h']
      throws := fun _ ↦ trivial }
  sibling := by
    rintro _ s t h
    rw [h]
  call := by
    rintro _ s t entry - h
    rw [h]
  returning := by
    rintro _ s t u v entry h h'
    rw [h, h']

namespace Coupling

variable {c : Config} {α : Type} {m m' : Eval α}

theorem unheld_level (c : Config) (n : Nat) :
    (unheld c).Evaluators (fun _ ↦ c.uncollected.level n) (c.uncollected.level n) := by
  refine level (.of_forall fun _ _ ↦ trivial)
    (fun {mode s t f code scope scope'} args this h hf ↦ ?_) n
  obtain ⟨⟨id, name, rfl, hleft⟩, ⟨_, _, ⟨⟩, hright⟩⟩ := hf
  have hrel : t = { s with held := t.held } := h
  have hheap : t.heap = s.heap := by rw [hrel]
  rw [hheap] at hright
  cases hleft.symm.trans hright
  refine ⟨(), (unheld c).encloses (), trivial, ?_⟩
  rw [hrel]
  rfl

theorem Couples.holdingLeft (x : Holder) (hm : (unheld c).Couples () m m') :
    (unheld c).Couples () (Eval.holding x m) m' := by
  intro s t h
  have hrel : t = { s with held := t.held } := h
  have hstart : (unheld c).Rel () { s with held := x :: s.held } t := hrel
  have hends : (unheld c).Ends () s t (Eval.holding x m s) ((m' t).mapState id) :=
    .leave id (hm _ _ hstart) fun {u v} ha ↦ ⟨ha.rel, rfl, ha.right⟩
  rwa [Outcome.mapState_id] at hends

theorem Couples.holdingRight (x : Holder) (hm : (unheld c).Couples () m m') :
    (unheld c).Couples () m (Eval.holding x m') := by
  intro s t h
  have hrel : t = { s with held := t.held } := h
  have hstart : (unheld c).Rel () s { t with held := x :: t.held } := by
    rw [hrel]
    rfl
  have hends : (unheld c).Ends () s t ((m s).mapState id) (Eval.holding x m' t) := by
    refine .leave id (hm _ _ hstart) fun {u v} ha ↦ ⟨?_, ha.left, rfl⟩
    have hend : v = { u with held := v.held } := ha.rel
    rw [hend]
    rfl
  rwa [Outcome.mapState_id] at hends

/-- It does not matter what is held. -/
theorem Couples.holdings (x y : Holder) (hm : (unheld c).Couples () m m') :
    (unheld c).Couples () (Eval.holding x m) (Eval.holding y m') :=
  .holdingLeft x (.holdingRight y hm)

variable (test : Expr) (body : Stmt) (labels : List Text)

/-- A loop that has a value has it at its end, unless it gets another one. -/
theorem whileRounds_orValue (level n : Nat) (last value : Option Value) :
    let r := c.uncollected.level level
    (unheld c).Couples () (iterate (r.whileRound test body labels) n (last <|> value))
      (Completion.orValue value <$> iterate (r.whileRound test body labels) n last) := by
  intro r
  have hr : (unheld c).Evaluators (fun _ ↦ r) r := unheld_level c level
  induction n generalizing last with
  | zero => exact fun _ _ h ↦ .exhausted (.self h)
  | succ n ih =>
    rw [r.whileRounds_succ, r.whileRounds_succ, map_bind]
    have htest : (unheld c).Couples () (r.forTest (some test) (last <|> value))
        (r.forTest (some test) last) :=
      .map _ (.holdings _ _ (hr.expr () test))
    refine htest.bind fun goesOn ↦ ?_
    split
    · rw [Evaluator.bodyThenRounds, Evaluator.bodyThenRounds, map_bind]
      refine (Couples.holdings _ _ (hr.loopBody body)).bind fun completion ↦ ?_
      rw [Evaluator.afterBody, Evaluator.afterBody, completion.loopValue_or]
      cases haction : completion.loopAction labels with
      | next => exact ih _
      | exit => exact .pure _
      | propagate =>
        have hvalue : completion.orValue value = completion := by
          cases completion with
          | normal => cases haction
          | returned | broke | continued => rfl
        change (unheld c).Couples () (pure completion) (pure (completion.orValue value))
        rw [hvalue]
        exact .pure _
    · exact .pure _

/-- Going on with the value of the body is a `while` loop that has this value if it has none. -/
theorem bodyThenWhile_couples (level : Nat) :
    let r := c.uncollected.level level
    (unheld c).Couples () (r.bodyThenRounds test body labels r.rounds none)
      (r.bodyThenWhile test body labels) := by
  intro r
  have hr : (unheld c).Evaluators (fun _ ↦ r) r := unheld_level c level
  refine (Couples.holdingLeft _ (hr.loopBody body)).bind fun completion ↦ ?_
  rw [Evaluator.afterBody, Evaluator.afterBody]
  split
  · rw [r.whileLoop_eq, map_holding]
    refine .holdingRight _ ?_
    exact whileRounds_orValue test body labels level r.rounds none (completion.loopValue none)
  · exact .pure _
  · exact .pure _

theorem bodyThenWhile_eq (level : Nat) :
    let r := c.uncollected.level level
    r.bodyThenRounds test body labels r.rounds none = r.bodyThenWhile test body labels := by
  intro r
  funext s
  have hends := bodyThenWhile_couples (c := c) test body labels level s s rfl
  have hstate {u v : State} (h : (unheld c).After () s s u v) : u = v := by
    have hv : v = { u with held := v.held } := h.rel
    rw [h.right, ← h.left] at hv
    exact hv.symm
  generalize r.bodyThenRounds test body labels r.rounds none s = o,
    r.bodyThenWhile test body labels s = o' at hends
  cases hends with
  | done a h => rw [hstate h]
  | thrown _ h => rw [hstate h]
  | faulted e h => rw [hstate h]
  | exhausted h => rw [hstate h]
  | alarm he => exact he.elim

end Coupling

/-! ### With collections -/

namespace Pairing

variable (c : Config)

/-- Evaluations with and without collections, of which the first may be cut short. -/
def sparing (c : Config) : Pairing :=
  { Pairing.collecting c.uncollected (fun _ _ _ ↦ false) c.collects with
    short := True
    short_of_free := fun _ ↦ trivial }

end Pairing

variable {c : Config} {s : State} {kept : List HeapRef} (test : Expr) (body : Stmt)
  (labels : List Text)

namespace Evaluator.Alike

variable {p : Pairing} {r r' : Evaluator}

theorem refs_orValue (d : Completion) (value : Option Value) :
    refs (d.orValue value) ⊆ refs d ++ (refs (Holder.values value.toList) ++ []) := by
  cases d with
  | normal own =>
    cases own with
    | none => cases value <;> simp [Completion.orValue]
    | some v => simp [Completion.orValue]
  | returned | broke | continued => exact List.subset_append_left ..

theorem bodyThenWhile (hr : r.Alike p r') :
    Eval.Alike p [] [] (r.bodyThenWhile test body labels) (r'.bodyThenWhile test body labels) := by
  refine .bind (hr.loopBody (.refl _ body)) fun completion _ ↦ ?_
  rw [Evaluator.afterBody, Evaluator.afterBody]
  have hvalue := refs_loopValue completion none
  split
  · rw [map_eq_pure_bind, map_eq_pure_bind]
    have hloop :
        Eval.Alike p [] [] (r.whileLoop test body labels) (r'.whileLoop test body labels) :=
      hr.whileLoop (.refl _ test) (.refl _ body) labels
    refine .bind (.holding (hloop.mono_left (List.nil_subset _)) (by grind)) fun d _ ↦ .finish ?_
    exact refs_orValue d _
  · exact .finish (by grind)
  · exact .finish (by grind)

end Evaluator.Alike

/-- The thing is in the same place in a heap with a frame more. -/
theorem HeapRef.past_of_mem_roots (hs : s.heap.Sound (s.roots [])) {x : HeapRef}
    {values : List HeapRef}
    (hvalues : ∀ x ∈ values, ∃ v : Value, v.ref? = some x) (hx : x ∈ s.roots values) :
    x.past ⟨s.heap.frames.size⟩ = x := by
  rcases List.mem_append.mp hx with hx | hx
  · obtain ⟨v, hv⟩ := hvalues x hx
    exact Value.past_of_ref? hv _
  · cases x with
    | frame id =>
      obtain ⟨f, hf, -⟩ := hs.exists_frame (hs.roots _ (List.mem_append_right _ hx))
      exact congrArg HeapRef.frame (FrameId.past_of_lt (Store.lt_size_of_get?_eq_some hf))
    | object | array | function => rfl

/-- Where two states are alike to a state and a padded one, one is padded as far as owners reach. -/
theorem State.sameBut_padded (hs : s.heap.Sound (s.roots []))
    {collects : Moment → Nat → Accounting → Bool} {values : List HeapRef} {u v w w' : State}
    (hvalues : ∀ x ∈ values, ∃ v : Value, v.ref? = some x)
    (hu : u.Alike (.collecting c c.collects collects) values w) (huheld : u.held = s.held)
    (hw : w.Padded s.frame ⟨s.heap.frames.size⟩ false w')
    (hv : v.Alike (.collecting c c.collects collects) values
      { w' with frame := s.frame, held := s.held })
    (hvheld : v.held = s.held) :
    u.SameBut (Heap.PadsFrom s.frame ⟨s.heap.frames.size⟩) values v := by
  have hwframe : w.frame = s.frame := (hw.frame.resolve_left fun h ↦ nomatch h.1).2.1
  have hframe : v.frame = u.frame := hv.frame.trans (hu.frame.trans hwframe).symm
  have hheld : v.held = u.held := hvheld.trans huheld.symm
  have hroots : u.roots values = s.roots values := by
    rw [roots, roots, owners, owners, huheld, hu.frame, hwframe]
  have hroots' : v.roots values = u.roots values := by
    rw [roots, roots, owners, owners, hheld, hframe]
  have halike : v.heap.Alike False False (u.roots values) w'.heap := hroots' ▸ hv.heap.toAlike
  exact {
    heap := hw.heap.padsFrom (fun x hx ↦ HeapRef.past_of_mem_roots hs hvalues (hroots ▸ hx))
      hu.heap.toAlike halike
    frame_eq := hframe
    depth_eq := (hv.depth.trans hw.depth_eq).trans hu.depth.symm
    calls_eq := (hv.calls.trans hw.calls_eq).trans hu.calls.symm
    log_eq := (hv.log.trans hw.log_eq).trans hu.log.symm
    notices_eq := (hv.notices.trans hw.notices_eq).trans hu.notices.symm
    held_eq := hheld }

/-- A `for` loop with a test alone does what the `while` loop does, in an empty frame. -/
theorem State.whileLoop_matches (hs : s.heap.Sound (s.roots [])) (level : Nat) :
    let r := c.level level
    (r.whileLoop test body labels s).Matches
      (State.SameBut (Heap.PadsFrom s.frame ⟨s.heap.frames.size⟩))
      (r.forLoop none (some test) none body labels s) := by
  intro r
  let p := Pairing.collecting c c.collects fun _ _ _ ↦ false
  let u := c.uncollected.level level
  have hself : s.Alike p [] s := .refl p [] s False.elim nofun
  have hlevel : r.Alike p u := p.level_alike (.inl (Eq.refl level))
  have hloop : Eval.Alike p [] [] (r.whileLoop test body labels) (u.whileLoop test body labels) :=
    hlevel.whileLoop (.refl _ test) (.refl _ body) labels
  have hlt : s.frame.index < s.heap.frames.size :=
    (State.scoped_of_sound hs).lt_size _ List.mem_cons_self
  have hstart : State.Padded s.frame ⟨s.heap.frames.size⟩ false s
      (s.opened (.ofParent (some s.frame))) :=
    ⟨Heap.padded_newChild hs hlt, .inr ⟨rfl, rfl, rfl⟩, rfl, rfl, rfl, rfl⟩
  have hends :=
    (Coupling.padded_level c s.frame ⟨s.heap.frames.size⟩ level).whileLoop test body labels
    s _ hstart
  have hpadded :=
    (hends.matches fun _ ↦ id).leave fun v ↦ { v with frame := s.frame, held := s.held }
  rw [← Eval.inChild_apply] at hpadded
  have hwhile := ((hloop s s hself).matches id nofun).of_values
  have hfor := (Eval.Alike.inChild hloop s s hself).matches id nofun
  rw [r.forLoop_eq_inChild]
  refine (hwhile.trans (hpadded.trans hfor.symm)).mono ?_
  rintro values v v' ⟨w, ⟨⟨hv, hheld⟩, hvalues⟩, _, ⟨w', hw, rfl⟩, hv', hheld'⟩
  exact State.sameBut_padded hs hvalues hv hheld hw.rel hv' hheld'

namespace State.SameBut

variable {t u : State}

/-- Alike states are the same as far as owners and what is kept reach. -/
theorem of_alike {p : Pairing} (hfree : p.free = False) (hwhole : p.whole = False)
    (h : s.Alike p kept t) : s.SameBut (Heap.Alike False False) kept t where
  heap := by
    have hheap := h.heap.toAlike
    rwa [hfree, hwhole] at hheap
  frame_eq := h.frame.symm
  depth_eq := h.depth.symm
  calls_eq := h.calls.symm
  log_eq := h.log.symm
  notices_eq := h.notices.symm
  held_eq := h.held.symm

theorem roots_eq {H : List HeapRef → Heap → Heap → Prop} (h : s.SameBut H kept t) :
    t.roots kept = s.roots kept := by
  rw [roots, roots, owners, owners, h.held_eq, h.frame_eq]

theorem symm (h : s.SameBut (Heap.Alike False False) kept t) :
    t.SameBut (Heap.Alike False False) kept s where
  heap := h.roots_eq ▸ h.heap.symm
  frame_eq := h.frame_eq.symm
  depth_eq := h.depth_eq.symm
  calls_eq := h.calls_eq.symm
  log_eq := h.log_eq.symm
  notices_eq := h.notices_eq.symm
  held_eq := h.held_eq.symm

theorem trans (h : s.SameBut (Heap.Alike False False) kept t)
    (h' : t.SameBut (Heap.Alike False False) kept u) :
    s.SameBut (Heap.Alike False False) kept u where
  heap := h.heap.trans (h.roots_eq ▸ h'.heap)
  frame_eq := h'.frame_eq.trans h.frame_eq
  depth_eq := h'.depth_eq.trans h.depth_eq
  calls_eq := h'.calls_eq.trans h.calls_eq
  log_eq := h'.log_eq.trans h.log_eq
  notices_eq := h'.notices_eq.trans h.notices_eq
  held_eq := h'.held_eq.trans h.held_eq

end State.SameBut

/-- Outcomes that are the same as far as they and what is held reach. -/
def Outcome.Same (o o' : Outcome Completion) : Prop :=
  o.Matches (State.SameBut (Heap.Alike False False)) o'

namespace Outcome.Same

variable {o o' o'' : Outcome Completion}

theorem symm (h : o.Same o') : o'.Same o := (Matches.symm h).mono fun h ↦ h.symm

theorem trans (h : o.Same o') (h' : o'.Same o'') : o.Same o'' :=
  (Matches.trans h h').mono fun ⟨_, h, h'⟩ ↦ h.trans h'

theorem of_alike {p : Pairing} {held : List Holder} (h : o.Alike p held [] o')
    (hfree : p.free = False) (hwhole : p.whole = False) (hshort : p.short → ∀ t, o ≠ .exhausted t) :
    o.Same o' :=
  (h.matches (fun hf ↦ hfree ▸ hf) hshort).mono fun h ↦ .of_alike hfree hwhole h.1

theorem exhausted (h : o.Same o') {t : State} (ht : o' = .exhausted t) : ∃ t, o = .exhausted t := by
  subst ht
  cases h
  exact ⟨_, rfl⟩

end Outcome.Same

/-- A `do` loop does what a `while` loop does after its body, unless it is cut short. -/
theorem State.doWhileLoop_same (s : State) (level : Nat) :
    let r := c.level level
    (∃ t, r.doWhileLoop body test labels s = .exhausted t) ∨
      (r.doWhileLoop body test labels s).Same (r.bodyThenWhile test body labels s) := by
  intro r
  let p := Pairing.collecting c c.collects fun _ _ _ ↦ false
  let u := c.uncollected.level level
  have hself : s.Alike p [] s := .refl p [] s False.elim nofun
  have hlevel : r.Alike p u := p.level_alike (.inl (Eq.refl level))
  have hloop : (r.doWhileLoop body test labels s).Same (u.doWhileLoop body test labels s) :=
    .of_alike (hlevel.doWhileLoop (.refl _ body) (.refl _ test) labels s s hself) rfl rfl nofun
  have hunrolled : (r.bodyThenWhile test body labels s).Same (u.bodyThenWhile test body labels s) :=
    .of_alike (hlevel.bodyThenWhile test body labels s s hself) rfl rfl nofun
  have happroaches := u.doWhileRounds_approaches test body labels u.rounds none s
  rw [← u.doWhileLoop_eq, Coupling.bodyThenWhile_eq] at happroaches
  rcases happroaches with ⟨t, ht⟩ | heq
  · exact .inl (hloop.exhausted ht)
  · right
    rw [heq] at hunrolled
    exact hloop.trans hunrolled.symm

/-- A `while` loop after the body of a `do` loop does what that does on the next level, unless it is
cut short. -/
theorem State.bodyThenWhile_same (s : State) (level : Nat) :
    (∃ t, (c.level level).bodyThenWhile test body labels s = .exhausted t) ∨
      ((c.level level).bodyThenWhile test body labels s).Same
        ((c.level (level + 1)).doWhileLoop body test labels s) := by
  let p := Pairing.collecting c c.collects fun _ _ _ ↦ false
  let q := Pairing.sparing c
  let u := c.uncollected.level level
  let u' : Evaluator := { u with rounds := level + 1 }
  have hlevel : (c.level level).Alike p u := p.level_alike (.inl (Eq.refl level))
  have hunrolled : ((c.level level).bodyThenWhile test body labels s).Same
      (u.bodyThenWhile test body labels s) :=
    .of_alike (hlevel.bodyThenWhile test body labels s s (.refl p [] s False.elim nofun))
      rfl rfl nofun
  have happroaches := u.bodyThenRounds_approaches test body labels level none s
  have heq : u.bodyThenRounds test body labels level none = u.bodyThenWhile test body labels :=
    Coupling.bodyThenWhile_eq test body labels level
  have hdo : u'.doWhileLoop body test labels =
      Eval.iterate (u.doWhileRound test body labels) (level + 1) none := by
    rw [u'.doWhileLoop_eq, u.doWhileRound_withRounds]
  rw [heq, ← hdo] at happroaches
  rcases happroaches with ⟨t, ht⟩ | hends
  · exact .inl (hunrolled.exhausted ht)
  · by_cases hex : ∃ t, u.bodyThenWhile test body labels s = .exhausted t
    · obtain ⟨t, ht⟩ := hex
      exact .inl (hunrolled.exhausted ht)
    · right
      have hlevel' : u'.Alike q (c.level (level + 1)) :=
        { q.level_alike (.inr ⟨trivial, Nat.le_succ level⟩) with rounds := .inl rfl }
      have hloop : (u'.doWhileLoop body test labels s).Same
          ((c.level (level + 1)).doWhileLoop body test labels s) :=
        .of_alike (hlevel'.doWhileLoop (.refl _ body) (.refl _ test) labels s s
          (.refl q [] s False.elim nofun)) rfl rfl fun _ t ht ↦ hex ⟨t, hends ▸ ht⟩
      rw [hends] at hloop
      exact hunrolled.trans hloop

/-! ### The forms of loops -/

/-- The forms of loops agree where they begin in a state. A `for` loop with a test alone ends as the
`while` loop, in the same state but for an empty frame in its place. A `do` loop ends as its body
followed by the `while` loop, in the same state as far as can be reached, unless one of them is cut
short by the bound on rounds. -/
structure State.LoopsAgree (s : State) (c : Config) : Prop where
  while_for (level : Nat) (test : Expr) (body : Stmt) (labels : List Text) :
    let r := c.level level
    (r.whileLoop test body labels s).Matches
      (State.SameBut (Heap.PadsFrom s.frame ⟨s.heap.frames.size⟩))
      (r.forLoop none (some test) none body labels s)
  doWhile_while (level : Nat) (test : Expr) (body : Stmt) (labels : List Text) :
    let r := c.level level
    (∃ t, r.doWhileLoop body test labels s = .exhausted t) ∨
      (r.doWhileLoop body test labels s).Same (r.bodyThenWhile test body labels s)
  while_doWhile (level : Nat) (test : Expr) (body : Stmt) (labels : List Text) :
    (∃ t, (c.level level).bodyThenWhile test body labels s = .exhausted t) ∨
      ((c.level level).bodyThenWhile test body labels s).Same
        ((c.level (level + 1)).doWhileLoop body test labels s)

namespace Session

/-- The forms of loops agree in every state that a session comes to. -/
theorem loops_agree {c : Config} {s : Session} (hs : s.Reached c) :
    s.Passes fun _ _ u ↦ u.LoopsAgree c := by
  obtain ⟨t, ha⟩ := hs.exists_alike
  refine ha.passes fun active kept u _ hsound ↦ ?_
  exact {
    while_for := fun level test body labels ↦
      u.whileLoop_matches test body labels
        (hsound.shrink fun r hr ↦ .root (List.mem_append_right kept hr)) level
    doWhile_while := fun level test body labels ↦ u.doWhileLoop_same test body labels level
    while_doWhile := fun level test body labels ↦ u.bodyThenWhile_same test body labels level }

/-- A session in which a loop made functions, and a `do` loop that makes more of them until there
are four. It ends as its body followed by the `while` loop. -/
theorem loops_agree_captured :
    let s := (Session.start .standard .start []).after 8 (Program.capturing .let).body
    let readers : Expr := .identifier "readers" .nowhere
    let test : Expr := .binary .less (.member readers (.text "length" .nowhere) false .nowhere)
      (.number (.ofNat 4) .nowhere) .nowhere
    let reader : Expr :=
      .function ⟨.arrow, .empty, [], .concise (.null .nowhere), .nowhere⟩ .nowhere
    let body : Stmt := .expression (.call (.member readers (.text "push" .nowhere) false .nowhere)
      [some reader] .nowhere) .nowhere
    let r := Config.standard.level 8
    s.Reached .standard ∧ (s.Passes fun _ _ u ↦ u.LoopsAgree .standard) ∧
      (r.doWhileLoop body test [] s.interpreter.state).Same
        (r.bodyThenWhile test body [] s.interpreter.state) ∧
      ((r.doWhileLoop body test [] s.interpreter.state).state.heap.elements ⟨0⟩).size = 4 := by
  intro s readers test reader body r
  have hs : s.Reached .standard := .after (.start .start []) 8 _
  have hpasses := loops_agree hs
  have hidle : s.interpreter.state.LoopsAgree .standard := hpasses.idle
  have hends : (match r.doWhileLoop body test [] s.interpreter.state with
      | .exhausted _ => true
      | _ => false) = false := by
    decide +kernel
  have hagree := hidle.doWhile_while 8 test body []
  refine ⟨hs, hpasses, hagree.resolve_left ?_, by decide +kernel⟩
  rintro ⟨t, ht⟩
  change r.doWhileLoop body test [] s.interpreter.state = .exhausted t at ht
  rw [ht] at hends
  cases hends

end Session

end EcmaTree
