import EcmaTree.Proofs.Discipline.Basic

/-!
# Disciplines and methods

The methods of arrays and texts and the functions of the host observe every discipline, if what they
call does.
-/

namespace EcmaTree

namespace Heap

open Relation (ReflTransGen)

mutual

/-- A document is built by making arrays and objects. -/
theorem touches_ofDocument : ∀ (h : Heap) d, ReflTransGen Touch h (h.ofDocument d).2
  | _, .null | _, .bool _ | _, .number _ | _, .text _ => .refl
  | h, .array items => .tail (touches_ofItems h items #[]) (.array _)
  | h, .object members => .tail (touches_ofMembers h members .empty) (.object _)

theorem touches_ofItems : ∀ (h : Heap) items es, ReflTransGen Touch h (h.ofItems items es).2
  | _, [], _ => .refl
  | h, item :: rest, _ => (touches_ofDocument h item).trans (touches_ofItems _ rest _)

theorem touches_ofMembers : ∀ (h : Heap) members ps, ReflTransGen Touch h (h.ofMembers members ps).2
  | _, [], _ => .refl
  | h, (_, item) :: rest, _ => (touches_ofDocument h item).trans (touches_ofMembers _ rest _)

end

end Heap

namespace Discipline

variable {c : Config} {d : Discipline c} {depth : Nat} {k : Conduct} {r : Evaluator}

/-- Changes one after another are a way of every discipline. -/
theorem touches {s : State} {h : Heap} (ht : Relation.ReflTransGen Heap.Touch s.heap h) :
    d.Way .still s { s with heap := h } := by
  induction ht with
  | refl => exact d.refl s
  | tail _ hstep ih => exact d.trans ih (d.way_quiet (.heap hstep))

/-- Whatever the evaluator calls observes the discipline. -/
def Calls (d : Discipline c) (depth : Nat) (r : Evaluator) : Prop :=
  ∀ f args receiver, d.Allows depth .still (r.call f args receiver)

namespace Allows

/-! ### Methods -/

theorem runJoin (id : ArrayId) (args : List Value) :
    d.Allows depth k (ArrayMethod.runJoin id args) := by
  unfold ArrayMethod.runJoin
  dsimp only
  split
  · exact bind (pure _) fun _ ↦ bind (readHeap _) fun _ ↦ pure _
  · exact bind (textOf _) fun _ ↦ bind (readHeap _) fun _ ↦ pure _

theorem runReduce (hcall : d.Calls depth r) (id : ArrayId) (args : List Value) :
    d.Allows depth k (ArrayMethod.runReduce r id args) := by
  unfold ArrayMethod.runReduce
  dsimp only
  split
  · exact bind (textOf _) fun _ ↦ raiseBare _
  · refine bind (readHeap _) fun _ ↦ ?_
    split
    · exact forCallback _ _ _ _ fun _ _ _ ↦ (hcall _ _ _).of_still
    · exact forCallback _ _ _ _ fun _ _ _ ↦ (hcall _ _ _).of_still
    · exact raiseBare _

theorem runArrayMethod (hcall : d.Calls depth r) (m : ArrayMethod) (receiver : Value)
    (args : List Value) : d.Allows depth k (m.run r receiver args) := by
  unfold ArrayMethod.run
  split
  · next id =>
    cases m with
    | push | unshift =>
      exact bind (modifyHeap fun _ ↦ .modifyArray ..) fun _ ↦ bind (readHeap _) fun _ ↦ pure _
    | reverse => exact bind (modifyHeap fun _ ↦ .modifyArray ..) fun _ ↦ pure _
    | pop | shift =>
      exact bind (readHeap _) fun _ ↦ bind (modifyHeap fun _ ↦ .modifyArray ..) fun _ ↦ pure _
    | slice =>
      exact bind (readHeap _) fun _ ↦ bind (readHeap _) fun _ ↦ bind (readHeap _) fun _ ↦ newArray _
    | join => exact runJoin id args
    | indexOf => exact bind (readHeap _) fun _ ↦ bind (readHeap _) fun _ ↦ pure _
    | includes => exact bind (readHeap _) fun _ ↦ pure _
    | concat => exact bind (readHeap _) fun _ ↦ bind (readHeap _) fun _ ↦ newArray _
    | map =>
      refine bind (readHeap _) fun _ ↦ bind (forCallback _ _ _ _ fun _ _ _ ↦ ?_) fun _ ↦ newArray _
      exact bind (holding _ (hcall _ _ _).of_still) fun _ ↦ pure _
    | filter =>
      refine bind (readHeap _) fun _ ↦ bind (forCallback _ _ _ _ fun _ _ _ ↦ ?_) fun _ ↦ newArray _
      exact bind (holding _ (holding _ (hcall _ _ _).of_still)) fun _ ↦ pure _
    | forEach =>
      refine bind (readHeap _) fun _ ↦ bind (forCallback _ _ _ _ fun _ _ _ ↦ ?_) fun _ ↦ pure _
      exact bind (hcall _ _ _).of_still fun _ ↦ pure _
    | reduce => exact runReduce hcall id args
  · exact raiseBare _

theorem runCharAt (t : Text) (args : List Value) :
    d.Allows depth k (TextMethod.runCharAt t args) := by
  cases args with
  | nil => exact bind (pure _) fun _ ↦ pure _
  | cons v rest => exact bind (map _ (numberOf v)) fun _ ↦ pure _

theorem runSplit (t : Text) (args : List Value) :
    d.Allows depth k (TextMethod.runSplit t args) := by
  unfold TextMethod.runSplit
  split
  · exact newArray _
  · exact bind (textOf _) fun _ ↦ newArray _

theorem runTextMethod (m : TextMethod) (receiver : Value) (args : List Value) :
    d.Allows depth k (m.run receiver args) := by
  unfold TextMethod.run
  split
  · exact raiseBare _
  · refine bind (textOf _) fun t ↦ ?_
    cases m with
    | charAt => exact runCharAt t args
    | indexOf => exact bind (textOf _) fun _ ↦ bind (readHeap _) fun _ ↦ pure _
    | slice | substring => exact bind (readHeap _) fun _ ↦ bind (readHeap _) fun _ ↦ pure _
    | toUpperCase | toLowerCase | trim => exact pure _
    | split => exact runSplit t args

/-! ### Functions of the host -/

theorem runParse (t : Text) : d.Allows depth k (HostFunction.runParse t) := by
  unfold HostFunction.runParse
  split
  · exact fun s _ _ ↦ ⟨d.of_still (d.touches (s.heap.touches_ofDocument _)), trivial⟩
  · exact fault (d.faults rfl nofun)

theorem runAction (hcall : d.Calls depth r) (hand : Hand) (action : HostAction)
    (hf : ∀ e, action = .fault e → d.Faults e) : d.Allows depth k (action.run r hand) := by
  cases action with
  | literal => exact pure _
  | array => exact newArray _
  | object => exact newObject _
  | function => exact newHostFunction _ _
  | string => exact bind (textOf _) fun _ ↦ pure _
  | number => exact bind (numberOf _) fun _ ↦ pure _
  | json => exact bind (readHeap _) fun _ ↦ pure _
  | element holder i =>
    simp only [HostAction.run]
    split
    · exact bind (readHeap _) fun _ ↦ pure _
    · exact pure _
  | member holder key =>
    simp only [HostAction.run]
    split
    · exact readHeap _
    · exact pure _
  | setElements holder elements =>
    refine bind (fun s _ _ ↦ ⟨d.of_still ?_, trivial⟩) fun _ ↦ pure _
    unfold Eval.modifyHeap
    dsimp only [Outcome.state]
    split
    · exact d.way_quiet (.heap (.modifyArray ..))
    · exact d.refl s
  | setMembers holder members =>
    refine bind (fun s _ _ ↦ ⟨d.of_still ?_, trivial⟩) fun _ ↦ pure _
    unfold Eval.modifyHeap
    dsimp only [Outcome.state]
    split
    · exact d.way_quiet (.heap (.modifyObject ..))
    · exact d.refl s
  | call => exact (hcall _ _ _).of_still
  | record => exact bind (record _) fun _ ↦ pure _
  | throw => exact throwValue _ _ _
  | fail e => exact raiseBare e
  | fault e => exact fault (hf e rfl)

theorem runCode (hr : r.config = c) (hcall : d.Calls depth r) (f : HostFunction) (code : HostCode)
    (hf : ∀ e, code.Raises e → d.Faults e) (hand : Hand) :
    d.Allows depth k (code.run r f hand) := by
  induction code generalizing hand with
  | done => exact pure _
  | act action next ih =>
    refine bind (passMoment hr _ _) fun _ ↦
      bind (holding _ (runAction hcall hand action ?_)) fun _ ↦ ?_
    · rintro e rfl
      exact hf e (.act next)
    · exact ih (fun e he ↦ hf e he.act_next) _
  | attempt action next caught ihnext ihcaught =>
    refine bind (passMoment hr _ _) fun _ ↦
      bind (holding _ (catching (runAction hcall hand action ?_))) fun outcome ↦ ?_
    · rintro e rfl
      exact hf e (.attempt next caught)
    · cases outcome with
      | ok v => exact ihnext (fun e he ↦ hf e he.attempt_next) _
      | error t => exact ihcaught (fun e he ↦ hf e he.attempt_caught) _
  | look vs next ih =>
    exact bind (readHeap _) fun _ ↦ bind (read _) fun _ ↦ ih _ _ (fun e he ↦ hf e he.look) _

theorem runHost (hr : r.config = c) (hcall : d.Calls depth r) (f : HostFunction) (receiver : Value)
    (args : List Value) : d.Allows depth k (f.run r receiver args) := by
  cases f with
  | log => exact bind (record _) fun _ ↦ pure _
  | id | self | gc => exact pure _
  | args => exact newArray _
  | add => exact bind (numberOf _) fun _ ↦ bind (numberOf _) fun _ ↦ pure _
  | string => exact bind (textOf _) fun _ ↦ pure _
  | json => exact bind (readHeap _) fun _ ↦ pure _
  | parse => exact bind (textOf _) fun _ ↦ runParse _
  | throw => exact throwValue _ _ _
  | fail => exact bind (textOf _) fun _ ↦ raiseBare _
  | apply =>
    unfold HostFunction.run
    dsimp only
    split
    · exact bind (map _ (readHeap _)) fun _ ↦ (hcall _ _ _).of_still
    · exact bind (pure _) fun _ ↦ (hcall _ _ _).of_still
  | other n =>
    subst hr
    exact runCode rfl hcall _ _ (fun e he ↦ d.host he) _

end Allows

end Discipline

end EcmaTree
