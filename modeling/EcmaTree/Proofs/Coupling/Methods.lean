import EcmaTree.Proofs.Coupling.Basic

/-!
# Couplings of methods

The methods of arrays and texts and the functions of the host keep every coupling, if what they call
does.
-/

namespace EcmaTree

/-- The errors that a method of arrays raises by itself: its receiver is no array, or there is no
function to fold with, or nothing to begin a fold with. -/
inductive ArrayMethod.Refuses (h : Heap) :
    ArrayMethod → Value → List Value → RuntimeError → Prop where
  | receiver (m : ArrayMethod) {receiver : Value} (hr : ∀ id, receiver ≠ .array id)
      (args : List Value) : Refuses h m receiver args (.arrayReceiver m)
  | callback (id : ArrayId) {args : List Value} (hf : (argument args 0).isFunction = false) :
      Refuses h .reduce (.array id) args (.notCallable (h.toText (argument args 0)))
  | start (id : ArrayId) {args : List Value} (hargs : args[1]? = none)
      (hempty : (h.elements id)[0]? = none) : Refuses h .reduce (.array id) args .emptyReduce

/-- The error that a method of texts raises by itself: its receiver has no text. -/
inductive TextMethod.Refuses : TextMethod → Value → RuntimeError → Prop where
  | receiver (m : TextMethod) {receiver : Value} (hr : receiver.isNullish = true) :
      Refuses m receiver (.textReceiver m)

/-- The errors that the host raises: those of its function that fails, and those that the code of
its other functions may come to. -/
inductive Config.HostFails (c : Config) : RuntimeError → Prop where
  | failure (message : Text) : c.HostFails (.hostFailure message)
  | code {number count : Nat} {e : RuntimeError}
      (he : (c.others number count).Reaches (.fail e)) : c.HostFails e

namespace Coupling

variable {c : Config} {Mode : Type} {k : Coupling c Mode} {mode : Mode} {r r' : Evaluator}

/-- Whatever the evaluators call is coupled. -/
def Calls (k : Coupling c Mode) (mode : Mode) (r r' : Evaluator) : Prop :=
  ∀ f args this, k.Couples mode (r.call f args this) (r'.call f args this)

/-- What methods and functions of the host throw by themselves may be thrown. -/
structure Natives (k : Coupling c Mode) : Prop where
  array {mode : Mode} {s t : State} (h : k.Rel mode s t) {m : ArrayMethod} {receiver : Value}
    {args : List Value} {e : RuntimeError} (he : m.Refuses s.heap receiver args e) :
    k.Throws mode (s.raisedBare e)
  text {mode : Mode} {s t : State} (h : k.Rel mode s t) {m : TextMethod} {receiver : Value}
    {e : RuntimeError} (he : m.Refuses receiver e) : k.Throws mode (s.raisedBare e)
  host {mode : Mode} {s t : State} (h : k.Rel mode s t) {e : RuntimeError} (he : c.HostFails e) :
    k.Throws mode (s.raisedBare e)
  hostValue {mode : Mode} {s t : State} (h : k.Rel mode s t) (v : Value) :
    k.Throws mode (s.heap.thrown v [] .nowhere)

/-- What is thrown besides the errors of the evaluator may be thrown: what methods and functions of
the host throw by themselves, and the values of throw statements. -/
structure Throwable (k : Coupling c Mode) : Prop extends k.Natives where
  value {mode : Mode} {s t : State} (h : k.Rel mode s t) (v : Value) (span : Span) :
    k.Throws mode (s.heap.thrown v s.calls span)

theorem Throwable.of_forall (h : ∀ mode x, k.Throws mode x) : k.Throwable where
  array _ := by intros; exact h _ _
  text _ := by intros; exact h _ _
  host _ := by intros; exact h _ _
  hostValue _ := by intros; exact h _ _
  value _ := by intros; exact h _ _

/-! ### Documents -/

/-- Two heaps in related states after a change that had the same result on both sides. -/
structure Changed {α : Type} (k : Coupling c Mode) (mode : Mode) (s t : State) (x y : α × Heap) :
    Prop where
  fst_eq : y.1 = x.1
  rel : k.Rel mode { s with heap := x.2 } { t with heap := y.2 }

mutual

theorem changed_ofDocument : ∀ (d : Json) {s t : State}, k.Rel mode s t →
    k.Changed mode s t (s.heap.ofDocument d) (t.heap.ofDocument d)
  | .null, _, _, h | .bool _, _, _, h | .number _, _, _, h | .text _, _, _, h => ⟨rfl, h⟩
  | .array items, s, t, h => by
    obtain ⟨heq, hrel⟩ := changed_ofItems items #[] h
    have harrays : (t.heap.ofItems items #[]).2.arrays = (s.heap.ofItems items #[]).2.arrays :=
      (k.resembles hrel).heap.arrays_eq
    simp only [Heap.ofDocument, heq]
    refine ⟨?_, k.effect (.array _) nofun hrel⟩
    simp only [Heap.newArray, harrays]
  | .object members, s, t, h => by
    obtain ⟨heq, hrel⟩ := changed_ofMembers members .empty h
    have hobjects : (t.heap.ofMembers members .empty).2.objects =
        (s.heap.ofMembers members .empty).2.objects :=
      (k.resembles hrel).heap.objects_eq
    simp only [Heap.ofDocument, heq]
    refine ⟨?_, k.effect (.object _) nofun hrel⟩
    simp only [Heap.newObject, hobjects]

theorem changed_ofItems : ∀ (items : List Json) (es : Array Value) {s t : State}, k.Rel mode s t →
    k.Changed mode s t (s.heap.ofItems items es) (t.heap.ofItems items es)
  | [], _, _, _, h => ⟨rfl, h⟩
  | item :: rest, es, s, t, h => by
    obtain ⟨heq, hrel⟩ := changed_ofDocument item h
    have hrest := changed_ofItems rest (es.push (s.heap.ofDocument item).1) hrel
    simp only [Heap.ofItems, heq]
    exact ⟨hrest.fst_eq, hrest.rel⟩

theorem changed_ofMembers : ∀ (members : List (Text × Json)) (ps : Properties) {s t : State},
    k.Rel mode s t →
    k.Changed mode s t (s.heap.ofMembers members ps) (t.heap.ofMembers members ps)
  | [], _, _, _, h => ⟨rfl, h⟩
  | (key, item) :: rest, ps, s, t, h => by
    obtain ⟨heq, hrel⟩ := changed_ofDocument item h
    have hrest := changed_ofMembers rest (ps.insert key (s.heap.ofDocument item).1) hrel
    simp only [Heap.ofMembers, heq]
    exact ⟨hrest.fst_eq, hrest.rel⟩

end

namespace Couples

/-! ### Methods -/

theorem relativeIndex (arg : Value) (length fallback : Nat) :
    k.Couples mode (Eval.readHeap (·.relativeIndex arg length fallback))
      (Eval.readHeap (·.relativeIndex arg length fallback)) :=
  readHeap fun h ↦ h.relativeIndex_eq arg length fallback

theorem clampedIndex (arg : Value) (length fallback : Nat) :
    k.Couples mode (Eval.readHeap (·.clampedIndex arg length fallback))
      (Eval.readHeap (·.clampedIndex arg length fallback)) :=
  readHeap fun h ↦ h.clampedIndex_eq arg length fallback

theorem runJoin (id : ArrayId) (args : List Value) :
    k.Couples mode (ArrayMethod.runJoin id args) (ArrayMethod.runJoin id args) := by
  have hjoin (separator : Text) : k.Couples mode
      (do return Value.text (← Eval.readHeap (·.join id separator)))
      (do return .text (← Eval.readHeap (·.join id separator))) :=
    bind (readHeap fun h ↦ h.join_eq id separator) fun _ ↦ pure _
  unfold ArrayMethod.runJoin
  dsimp only
  split
  · exact bind (pure _) hjoin
  · exact bind (textOf _) hjoin

theorem runReduce (hn : k.Natives) (hcall : k.Calls mode r r') (id : ArrayId)
    (args : List Value) :
    k.Couples mode (ArrayMethod.runReduce r id args) (ArrayMethod.runReduce r' id args) := by
  unfold ArrayMethod.runReduce
  dsimp only
  split
  · next hf =>
    have hf : (argument args 0).isFunction = false := by simpa using hf
    exact readHeap_bind (fun h ↦ h.toText_eq _) fun h ↦
      ends_raiseBare h (hn.array h (.callback id hf))
  · refine readHeap_bind (fun h ↦ h.elements_eq id) fun {s t} h ↦ ?_
    cases hargs : args[1]? with
    | some first => exact forCallback _ _ _ _ (fun _ _ _ ↦ hcall _ _ _) s t h
    | none =>
      cases hempty : (s.heap.elements id)[0]? with
      | some first => exact forCallback _ _ _ _ (fun _ _ _ ↦ hcall _ _ _) s t h
      | none => exact ends_raiseBare h (hn.array h (.start id hargs hempty))

theorem runArrayMethod (hn : k.Natives) (hcall : k.Calls mode r r') (m : ArrayMethod)
    (receiver : Value) (args : List Value) :
    k.Couples mode (m.run r receiver args) (m.run r' receiver args) := by
  unfold ArrayMethod.run
  split
  · next id =>
    cases m with
    | push | unshift =>
      exact bind (modifyArray _ _) fun _ ↦ bind (elements _) fun _ ↦ pure _
    | reverse => exact bind (modifyArray _ _) fun _ ↦ pure _
    | pop | shift =>
      exact bind (elements _) fun _ ↦ bind (modifyArray _ _) fun _ ↦ pure _
    | slice =>
      exact bind (elements _) fun _ ↦ bind (relativeIndex _ _ _) fun _ ↦
        bind (relativeIndex _ _ _) fun _ ↦ newArray _
    | join => exact runJoin id args
    | indexOf => exact bind (elements _) fun _ ↦ bind (relativeIndex _ _ _) fun _ ↦ pure _
    | includes => exact bind (elements _) fun _ ↦ pure _
    | concat =>
      refine bind (elements _) fun es ↦ bind (readHeap fun {h h'} hr ↦ ?_) fun _ ↦ newArray _
      rw [show h'.elements = h.elements from funext hr.elements_eq]
    | map =>
      refine bind (elements _) fun _ ↦ bind (forCallback _ _ _ _ fun _ _ _ ↦ ?_) fun _ ↦ newArray _
      exact bind (holding rfl (hcall _ _ _)) fun _ ↦ pure _
    | filter =>
      refine bind (elements _) fun _ ↦ bind (forCallback _ _ _ _ fun _ _ _ ↦ ?_) fun _ ↦ newArray _
      exact bind (holding rfl (holding rfl (hcall _ _ _))) fun _ ↦ pure _
    | forEach =>
      refine bind (elements _) fun _ ↦ bind (forCallback _ _ _ _ fun _ _ _ ↦ ?_) fun _ ↦ pure _
      exact bind (hcall _ _ _) fun _ ↦ pure _
    | reduce => exact runReduce hn hcall id args
  · next hr => exact fun s t h ↦ ends_raiseBare h (hn.array h (.receiver m hr args))

theorem runTextMethod (hn : k.Natives) (m : TextMethod) (receiver : Value) (args : List Value) :
    k.Couples mode (m.run receiver args) (m.run receiver args) := by
  unfold TextMethod.run
  split
  · next hr => exact fun s t h ↦ ends_raiseBare h (hn.text h (.receiver m hr))
  · refine bind (textOf _) fun t ↦ ?_
    cases m with
    | charAt =>
      cases args with
      | nil => exact bind (pure _) fun _ ↦ pure _
      | cons v rest => exact bind (map _ (numberOf v)) fun _ ↦ pure _
    | indexOf => exact bind (textOf _) fun _ ↦ bind (clampedIndex _ _ _) fun _ ↦ pure _
    | slice => exact bind (relativeIndex _ _ _) fun _ ↦ bind (relativeIndex _ _ _) fun _ ↦ pure _
    | substring => exact bind (clampedIndex _ _ _) fun _ ↦ bind (clampedIndex _ _ _) fun _ ↦ pure _
    | toUpperCase | toLowerCase | trim => exact pure _
    | split =>
      dsimp only
      unfold TextMethod.runSplit
      split
      · exact newArray _
      · exact bind (textOf _) fun _ ↦ newArray _

/-! ### Functions of the host -/

theorem runParse (t : Text) :
    k.Couples mode (HostFunction.runParse t) (HostFunction.runParse t) := by
  unfold HostFunction.runParse
  split
  · next document _ =>
    intro s t h
    obtain ⟨heq, hrel⟩ := changed_ofDocument document h
    change k.Ends mode s t (.done (s.heap.ofDocument document).1 _)
      (.done (t.heap.ofDocument document).1 _)
    rw [heq]
    exact .done _ ⟨hrel, rfl, rfl⟩
  · exact fault _

theorem jsonText (v : Value) :
    k.Couples mode (Eval.readHeap (·.jsonText v)) (Eval.readHeap (·.jsonText v)) :=
  readHeap fun h ↦ h.jsonText_eq v

theorem runAction (hn : k.Natives) (hcall : k.Calls mode r r') (hand : Hand)
    (action : HostAction) (hf : ∀ e, action = .fail e → c.HostFails e) :
    k.Couples mode (action.run r hand) (action.run r' hand) := by
  cases action with
  | literal => exact pure _
  | array => exact newArray _
  | object => exact newObject _
  | function => exact newHostFunction _ _
  | string => exact bind (textOf _) fun _ ↦ pure _
  | number => exact bind (numberOf _) fun _ ↦ pure _
  | json => exact bind (jsonText _) fun _ ↦ pure _
  | element holder i =>
    simp only [HostAction.run]
    split
    · exact bind (elements _) fun _ ↦ pure _
    · exact pure _
  | member holder key =>
    simp only [HostAction.run]
    split
    · exact readHeap fun h ↦ h.property_eq _ _
    · exact pure _
  | setElements holder es =>
    refine bind ?_ fun _ ↦ pure _
    generalize hand.value holder = v
    cases v with
    | array id => exact modifyArray _ _
    | _ => exact pure ()
  | setMembers holder members =>
    refine bind ?_ fun _ ↦ pure _
    generalize hand.value holder = v
    cases v with
    | object id => exact modifyObject _ _
    | _ => exact pure ()
  | call => exact hcall _ _ _
  | record => exact bind (record _) fun _ ↦ pure _
  | throw => exact fun s t h ↦ ends_throwValue h (hn.hostValue h _)
  | fail e => exact fun s t h ↦ ends_raiseBare h (hn.host h (hf e rfl))
  | fault e => exact fault e

theorem runCode (hn : k.Natives) (hr : r.config = c) (hr' : r'.config = c)
    (hcall : k.Calls mode r r') (f : HostFunction) (code : HostCode)
    (hf : ∀ e, code.Reaches (.fail e) → c.HostFails e) (hand : Hand) :
    k.Couples mode (code.run r f hand) (code.run r' f hand) := by
  induction code generalizing hand with
  | done => exact pure _
  | act action next ih =>
    refine bind (passMoment hr hr' _ _) fun _ ↦
      bind (holding rfl (runAction hn hcall hand action ?_)) fun _ ↦ ?_
    · rintro e rfl
      exact hf e (.act next)
    · exact ih (fun e he ↦ hf e he.act_next) _
  | attempt action next caught ihnext ihcaught =>
    refine bind (passMoment hr hr' _ _) fun _ ↦
      bind (holding rfl (catching (runAction hn hcall hand action ?_))) fun outcome ↦ ?_
    · rintro e rfl
      exact hf e (.attempt next caught)
    · cases outcome with
      | ok v => exact ihnext (fun e he ↦ hf e he.attempt_next) _
      | error t => exact ihcaught (fun e he ↦ hf e he.attempt_caught) _
  | look vs next ih =>
    exact bind (readHeap fun h ↦ h.snapshots_eq _) fun _ ↦ bind (read fun h ↦ h.log_eq) fun _ ↦
      ih _ _ (fun e he ↦ hf e he.look) _

theorem runHost (hn : k.Natives) (hr : r.config = c) (hr' : r'.config = c)
    (hcall : k.Calls mode r r') (f : HostFunction) (receiver : Value) (args : List Value) :
    k.Couples mode (f.run r receiver args) (f.run r' receiver args) := by
  cases f with
  | log => exact bind (record _) fun _ ↦ pure _
  | id | self | gc => exact pure _
  | args => exact newArray _
  | add => exact bind (numberOf _) fun _ ↦ bind (numberOf _) fun _ ↦ pure _
  | string => exact bind (textOf _) fun _ ↦ pure _
  | json => exact bind (jsonText _) fun _ ↦ pure _
  | parse => exact bind (textOf _) fun _ ↦ runParse _
  | throw => exact fun s t h ↦ ends_throwValue h (hn.hostValue h _)
  | fail =>
    exact bind (textOf _) fun message s t h ↦ ends_raiseBare h (hn.host h (.failure message))
  | apply =>
    unfold HostFunction.run
    dsimp only
    split
    · exact bind (map _ (elements _)) fun _ ↦ hcall _ _ _
    · exact bind (pure _) fun _ ↦ hcall _ _ _
  | other n =>
    have hothers : r'.config.others = r.config.others := by rw [hr, hr']
    change k.Couples mode ((r.config.others n args.length).run r (.other n) ⟨receiver, args, []⟩)
      ((r'.config.others n args.length).run r' (.other n) ⟨receiver, args, []⟩)
    rw [hothers]
    refine runCode hn hr hr' hcall _ _ (fun e he ↦ ?_) _
    rw [hr] at he
    exact .code he

theorem hostCall (hn : k.Natives) (hr : r.config = c) (hr' : r'.config = c)
    (hcall : k.Calls mode r r') (f : HostFunction) (args : List Value) (receiver : Value) :
    k.Couples mode (r.hostCall f args receiver) (r'.hostCall f args receiver) :=
  bind (passMoment hr hr' _ _) fun _ ↦ bind (runHost hn hr hr' hcall f _ _) fun _ ↦
    bind (passMoment hr hr' _ _) fun _ ↦ pure _

end Couples

end Coupling

end EcmaTree
