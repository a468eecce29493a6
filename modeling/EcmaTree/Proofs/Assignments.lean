import EcmaTree.Proofs.Heap.Cells
import EcmaTree.Proofs.Results
import EcmaTree.Session.Interpreter

/-!
# Where assignments write

A target that starts from a variable is kept as a name and keys, and is walked anew for each read
and each write. So an assignment writes into the container that the path denotes once the right side
was evaluated. That is the container it denoted before, and the one that the old value was read
from, if the right side left the variable and the properties along the path as they were. An update
has no right side and writes where it read.
-/

namespace EcmaTree

namespace Heap

/-- What is found from a value along a path of keys, if neither undefined nor null comes before the
end of the path. -/
def follow? (h : Heap) : List Text → Value → Option Value
  | [], v => some v
  | key :: rest, v => if v.isNullish then none else h.follow? rest (h.member v key)

/-- A property of a value, or the error of reading it. -/
def memberOrError (h : Heap) (v : Value) (key : Text) : Except RuntimeError Value :=
  if v.isNullish then .error (.unreadable (h.toText v) key) else .ok (h.member v key)

/-- What is found from a value along a path of keys, or the error of the first key that fails. -/
def followOrError (h : Heap) (v : Value) (path : List Text) : Except RuntimeError Value :=
  path.foldlM h.memberOrError v

theorem followOrError_concat (h : Heap) (v : Value) (path : List Text) (key : Text) :
    h.followOrError v (path ++ [key]) = h.followOrError v path >>= (h.memberOrError · key) := by
  rw [followOrError, List.foldlM_append]
  simp only [List.foldlM_cons, List.foldlM_nil, bind_pure]
  rfl

theorem follow?_eq_toOption (h : Heap) (path : List Text) (v : Value) :
    h.follow? path v = (h.followOrError v path).toOption := by
  induction path generalizing v with
  | nil => rfl
  | cons key rest ih =>
    rw [follow?, followOrError, List.foldlM_cons, memberOrError]
    split
    · rfl
    · exact ih (h.member v key)

/-- The properties along a path from a value are the same in another heap. -/
def SameAlong (h h' : Heap) : List Text → Value → Prop
  | [], _ => True
  | key :: rest, v =>
    h'.member v key = h.member v key ∧ h.SameAlong h' rest (h.member v key)

theorem SameAlong.follow?_eq {h h' : Heap} {path : List Text} {v : Value}
    (hsame : h.SameAlong h' path v) : h'.follow? path v = h.follow? path v := by
  induction path generalizing v with
  | nil => rfl
  | cons key rest ih =>
    obtain ⟨hmember, hrest⟩ := hsame
    rw [follow?, follow?, hmember, ih hrest]

/-- Everything that is in a heap is the same in another one, but for what a value refers to. -/
def Spares (h h' : Heap) (but : Option Value) : Prop :=
  ∀ r, h.holds r = true → but.bind Value.ref? ≠ some r → h'.cell? r = h.cell? r

namespace Spares

theorem refl (h : Heap) (but : Option Value) : h.Spares h but := fun _ _ _ ↦ rfl

theorem trans {a b c : Heap} {but : Option Value} (hab : a.Spares b but) (hbc : b.Spares c but) :
    a.Spares c but := by
  intro r hr hother
  have hkept := hab r hr hother
  have hr' : b.holds r = true := by rwa [holds_eq, hkept, ← holds_eq]
  rw [hbc r hr' hother, hkept]

/-- A new object spares everything. -/
theorem newObject (h : Heap) (ps : Properties) (but : Option Value) :
    h.Spares (h.newObject ps).2 but := by
  intro r hr _
  have hnew : r ≠ .object (h.newObject ps).1 := by
    rintro rfl
    obtain ⟨ps', hps⟩ := Option.isSome_iff_exists.mp hr
    exact Nat.lt_irrefl _ (Store.lt_size_of_get?_eq_some hps)
  rw [cell?_newObject, if_neg hnew]

theorem modifyObject (h : Heap) (id : ObjectId) (g : Properties → Properties) :
    h.Spares (h.modifyObject id g) (some (.object id)) := by
  intro r _ hr
  have hother : r ≠ .object id := by
    rintro rfl
    exact hr rfl
  rw [cell?_modifyObject, if_neg hother]

theorem modifyArray (h : Heap) (id : ArrayId) (g : Array Value → Array Value) :
    h.Spares (h.modifyArray id g) (some (.array id)) := by
  intro r _ hr
  have hother : r ≠ .array id := by
    rintro rfl
    exact hr rfl
  rw [cell?_modifyArray, if_neg hother]

end Spares

end Heap

namespace State

/-- What is found from a variable along a path of keys. -/
def denotes? (s : State) (name : Text) (path : List Text) : Option Value :=
  (s.heap.lookup s.frame name).bind fun b ↦ s.heap.follow? path b.value

/-- A variable has the same value in another state, and the properties along a path from it are the
same. -/
structure SameWay (s u : State) (name : Text) (path : List Text) : Prop where
  root : (u.heap.lookup u.frame name).map Binding.value =
    (s.heap.lookup s.frame name).map Binding.value
  along : ∀ b, s.heap.lookup s.frame name = some b → s.heap.SameAlong u.heap path b.value

theorem denotes?_eq (s : State) (name : Text) (path : List Text) :
    s.denotes? name path =
      ((s.heap.lookup s.frame name).map Binding.value).bind (s.heap.follow? path) := by
  rw [denotes?, Option.bind_map]
  rfl

/-- The path denotes the same in both states. -/
theorem SameWay.denotes?_eq {s u : State} {name : Text} {path : List Text}
    (h : s.SameWay u name path) : u.denotes? name path = s.denotes? name path := by
  rw [State.denotes?_eq, State.denotes?_eq, h.root]
  cases hlookup : s.heap.lookup s.frame name with
  | none => rfl
  | some b => exact (h.along b hlookup).follow?_eq

/-- An outcome is that of writing a value to a property of what a path denotes in a state, and then
having a result. If the path denotes nothing, something is thrown. Nothing else in the heap is
changed. -/
structure Writes (u : State) (name : Text) (path : List Text) (key : Text) (v : Value) (span : Span)
    (result : Value) (o : Outcome Value) : Prop where
  into : ∀ w, u.denotes? name path = some w →
    o = (do Eval.setMember w key v span; return result : Eval Value) u
  nowhere : u.denotes? name path = none → ∃ t s, o = .thrown t s
  spares : u.heap.Spares o.state.heap (u.denotes? name path)

end State

/-- An evaluation changes nothing in the heap but what a value refers to. -/
def Eval.Touches {α : Type} (but : Option Value) (m : Eval α) : Prop :=
  ∀ s : State, s.heap.Spares (m s).state.heap but

namespace Eval.Touches

variable {α β : Type} {but : Option Value} {m : Eval α} {f : α → Eval β}

theorem of_read (g : State → α) : Touches but (Eval.read g) := fun _ ↦ .refl _ _

theorem pure (a : α) : Touches but (Pure.pure a : Eval α) := fun _ ↦ .refl _ _

theorem bind (hm : m.Touches but) (hf : ∀ a, (f a).Touches but) : (m >>= f).Touches but := by
  intro s
  have hfirst := hm s
  rw [bind_apply]
  cases h : m s with
  | done a t =>
    rw [h] at hfirst
    exact hfirst.trans (hf a t)
  | thrown t u =>
    rw [h] at hfirst
    exact hfirst
  | faulted e u =>
    rw [h] at hfirst
    exact hfirst
  | exhausted u =>
    rw [h] at hfirst
    exact hfirst

/-- An error changes nothing, but its object is new. -/
theorem raise (e : RuntimeError) (span : Span) : Touches but (Eval.raise e span : Eval α) :=
  fun _ ↦ .newObject _ _ _

theorem setArrayMember (id : ArrayId) (key : Text) (v : Value) (span : Span) :
    Touches (some (.array id)) (Eval.setArrayMember id key v span) := by
  have hresize (g : Array Value → Array Value) :
      Touches (some (.array id)) (modifyHeap (·.modifyArray id g)) :=
    fun _ ↦ .modifyArray _ _ _
  unfold Eval.setArrayMember
  split
  · refine bind (of_read _) fun n ↦ ?_
    split
    · exact hresize _
    · exact raise _ _
  · split
    · split
      · exact hresize _
      · exact raise _ _
    · exact pure _

/-- A write of a property changes only what has the property. -/
theorem setMember (w : Value) (key : Text) (v : Value) (span : Span) :
    Touches (some w) (Eval.setMember w key v span) := by
  cases w with
  | undefined => exact bind (of_read _) fun _ ↦ raise _ _
  | null => exact bind (of_read _) fun _ ↦ raise _ _
  | object id => exact fun _ ↦ .modifyObject _ _ _
  | array id => exact setArrayMember id key v span
  | text | function | bool | number => exact pure _

end Eval.Touches

namespace Eval

variable {α : Type}

/-- Has a result, or throws an error. -/
def orRaise (span : Span) : Except RuntimeError α → Eval α
  | .ok a => pure a
  | .error e => raise e span

theorem getMember_eq_orRaise (v : Value) (key : Text) (span : Span) (s : State) :
    getMember v key span s = orRaise span (s.heap.memberOrError v key) s := by
  rw [getMember, Heap.memberOrError]
  split <;> rfl

end Eval

namespace Target

open Eval

variable {u : State} {name key : Text} {path : List Text} {span : Span}

/-- Following a path finds what is at its end or fails, and changes nothing. -/
theorem follow_eq_orRaise (path : List Text) (v : Value) (span : Span) (s : State) :
    follow span path v s = orRaise span (s.heap.followOrError v path) s := by
  induction path generalizing v with
  | nil => rfl
  | cons key rest ih =>
    rw [follow, bind_apply, getMember_eq_orRaise, Heap.followOrError, List.foldlM_cons]
    cases s.heap.memberOrError v key with
    | ok w => exact ih w
    | error e => rfl

/-- Following a path finds what it denotes. -/
theorem follow_eq {w v : Value} (h : u.heap.follow? path v = some w) :
    follow span path v u = .done w u := by
  rw [Heap.follow?_eq_toOption] at h
  rw [follow_eq_orRaise]
  cases hres : u.heap.followOrError v path with
  | ok w' =>
    rw [hres] at h
    cases h
    rfl
  | error e =>
    rw [hres] at h
    cases h

/-- A path that denotes nothing cannot be followed. -/
theorem follow_thrown {v : Value} (h : u.heap.follow? path v = none) :
    ∃ t s, follow span path v u = .thrown t s := by
  rw [Heap.follow?_eq_toOption] at h
  rw [follow_eq_orRaise]
  cases hres : u.heap.followOrError v path with
  | ok w =>
    rw [hres] at h
    cases h
  | error e => exact ⟨_, _, rfl⟩

theorem readRoot_bound {b : Binding} (hb : u.heap.lookup u.frame name = some b) (span : Span) :
    readRoot (.named name) span u = .done b.value u := by
  rw [readRoot, bind_apply]
  simp only [lookup, Eval.read, hb]
  rfl

theorem readRoot_unbound (hb : u.heap.lookup u.frame name = none) (span : Span) :
    readRoot (.named name) span u = raise (.notDefined name) span u := by
  rw [readRoot, bind_apply]
  simp only [lookup, Eval.read, hb]

/-- The container of a target is what its path denotes. -/
theorem container_eq {w : Value} (h : u.denotes? name path = some w) :
    container (.named name) path span u = .done w u := by
  obtain ⟨b, hb, hw⟩ := Option.bind_eq_some_iff.mp h
  rw [container, bind_apply, readRoot_bound hb]
  exact follow_eq hw

theorem container_thrown (span : Span) (h : u.denotes? name path = none) :
    ∃ t s, container (.named name) path span u = .thrown t s := by
  rw [container, bind_apply]
  cases hb : u.heap.lookup u.frame name with
  | none =>
    rw [readRoot_unbound hb]
    exact ⟨_, _, rfl⟩
  | some b =>
    rw [State.denotes?, hb] at h
    rw [readRoot_bound hb]
    exact follow_thrown h

/-- What is read is a property of what the path denotes. -/
theorem read_eq {w : Value} (key : Text) (span : Span) (hw : u.denotes? name path = some w)
    (hnullish : w.isNullish = false) :
    (Target.member (.named name) path key).read span u = .done (u.heap.member w key) u := by
  rw [read, bind_apply, container_eq hw]
  change getMember w key span u = _
  rw [getMember, hnullish]
  rfl

theorem follow_touches (path : List Text) (v : Value) (but : Option Value) :
    (follow span path v).Touches but := by
  induction path generalizing v with
  | nil => exact .pure _
  | cons key rest ih =>
    refine .bind ?_ ih
    unfold getMember
    split
    · exact .bind (.of_read _) fun _ ↦ .raise _ _
    · exact .of_read _

/-- To find the container changes nothing. -/
theorem container_touches (name : Text) (path : List Text) (span : Span) (but : Option Value) :
    (container (.named name) path span).Touches but := by
  refine .bind (.bind (.of_read _) fun b ↦ ?_) fun v ↦ follow_touches path v but
  split
  · exact .pure _
  · exact .raise _ _

/-- A write to a member goes to what the path denotes then. -/
theorem write_writes (u : State) (name : Text) (path : List Text) (key : Text) (v : Value)
    (span : Span) (result : Value) :
    u.Writes name path key v span result
      ((do (Target.member (.named name) path key).write v span; return result : Eval Value) u) := by
  cases hw : u.denotes? name path with
  | some w =>
    have hinto : (do (Target.member (.named name) path key).write v span; return result :
        Eval Value) u = (do setMember w key v span; return result : Eval Value) u := by
      rw [write, bind_bind, bind_apply, container_eq hw]
    refine ⟨fun w' hw' ↦ ?_, fun hnone ↦ ?_, ?_⟩
    · obtain rfl : w = w' := Option.some.inj (hw.symm.trans hw')
      exact hinto
    · rw [hw] at hnone
      cases hnone
    · rw [hw, hinto]
      exact Touches.bind (.setMember w key v span) (fun _ ↦ .pure result) u
  | none =>
    obtain ⟨t, s, hthrown⟩ := container_thrown span hw
    have hends : (do (Target.member (.named name) path key).write v span; return result :
        Eval Value) u = .thrown t s := by
      rw [write, bind_bind, bind_apply, hthrown]
    refine ⟨fun w' hw' ↦ ?_, fun _ ↦ ⟨t, s, hends⟩, ?_⟩
    · rw [hw] at hw'
      cases hw'
    · have hkept := container_touches name path span none u
      rw [hthrown] at hkept
      rw [hw, hends]
      exact hkept

end Target

/-! ### Targets that start from a variable -/

/-- The variable that an expression starts from, if it is a variable or a member of what starts from
one. -/
def Expr.root? : Expr → Option Text
  | .identifier name _ => some name
  | .member base _ _ _ => base.root?
  | _ => none

theorem Expr.isTarget_of_root? {e : Expr} {name : Text} (h : e.root? = some name) :
    e.isTarget = true := by
  cases e with
  | identifier => rfl
  | member => rfl
  | _ => cases h

namespace Target

/-- The keys from the root on. -/
def keys : Target → List Text
  | named _ => []
  | member _ path key => path ++ [key]

theorem keys_child (t : Target) (key : Text) : (t.child key).keys = t.keys ++ [key] := by
  cases t <;> rfl

theorem rootName?_child (t : Target) (key : Text) : (t.child key).rootName? = t.rootName? := by
  rcases t with _ | ⟨_ | _, _, _⟩ <;> rfl

/-- A name is no value that would have to be held. -/
theorem holder_of_rootName? {t : Target} {name : Text} (h : t.rootName? = some name) :
    t.holder = .values [] := by
  rcases t with _ | ⟨_ | v, _, _⟩
  · rfl
  · rfl
  · cases h

end Target

/-- The number after a step. -/
def UpdateOp.apply : UpdateOp → Number → Number
  | increment, old => old.add 1
  | decrement, old => old.sub 1

namespace Evaluator

open Eval

/-- The keys of an expression that starts from a variable, and the state that evaluating them
leaves. Each key is the text of what its property is evaluated to, once those nearer to the root
are. -/
inductive Resolves (r : Evaluator) (name : Text) : Expr → State → List Text → State → Prop where
  | root (span : Span) (s : State) : r.Resolves name (.identifier name span) s [] s
  | member {object property : Expr} {keys : List Text} {s t u : State} {v : Value}
      (computed : Bool) (place : Span) (hobject : r.Resolves name object s keys t)
      (hkey : holding (.values []) (r.expr property) t = .done v u) :
      r.Resolves name (.member object property computed place) s (keys ++ [u.heap.toText v]) u

/-- The target of an expression that starts from a variable has that variable and those keys. -/
theorem target_resolves {r : Evaluator} {e : Expr} {name : Text} {t : Target} {before s : State}
    (hroot : e.root? = some name) (h : r.target e before = .done t s) :
    t.rootName? = some name ∧ r.Resolves name e before t.keys s := by
  induction e using Expr.root?.induct generalizing t s with
  | case1 n span =>
    cases h
    cases hroot
    exact ⟨rfl, .root span before⟩
  | case2 object property computed place ih =>
    have hobject : object.isTarget = true := Expr.isTarget_of_root? hroot
    rw [target, if_pos hobject] at h
    obtain ⟨stem, middle, hstem, h⟩ := exists_of_bind_eq_done h
    rw [map_eq_pure_bind] at hstem
    obtain ⟨base, _, hbase, hstem⟩ := exists_of_bind_eq_done hstem
    cases hstem
    obtain ⟨v, u, hkey, h⟩ := exists_of_bind_eq_done h
    cases h
    obtain ⟨hname, hresolves⟩ := ih hroot hbase
    have hholder : (Stem.target base).holder = .values [] := Target.holder_of_rootName? hname
    rw [hholder] at hkey
    constructor
    · exact (base.rootName?_child _).trans hname
    · exact base.keys_child _ ▸ .member computed place hresolves hkey
  | case3 e hname hmember =>
    cases e with
    | identifier n span => exact (hname n span rfl).elim
    | member object property computed place => exact (hmember _ _ _ _ rfl).elim
    | _ => cases hroot

/-- The target of a member that starts from a variable is kept as the variable and the keys. -/
theorem exists_target_eq {r : Evaluator} {object property : Expr} {computed : Bool} {place : Span}
    {name : Text} (hroot : object.root? = some name) {t : Target} {before s : State}
    (h : r.target (.member object property computed place) before = .done t s) :
    ∃ path key, t = .member (.named name) path key ∧
      r.Resolves name (.member object property computed place) before (path ++ [key]) s := by
  obtain ⟨hname, hresolves⟩ := target_resolves (e := .member object property computed place) hroot h
  rcases t with n | ⟨n | v, path, key⟩
  · generalize hkeys : (Target.named n).keys = keys at hresolves
    cases hresolves
    simp [Target.keys] at hkeys
  · obtain rfl : n = name := Option.some.inj hname
    exact ⟨path, key, rfl, hresolves⟩
  · cases hname

/-- An assignment to a target whose root has a binding stores the right side. -/
theorem assignPlain_of_bound {r : Evaluator} {t : Target} {s : State}
    (hroot : ∀ x, t.rootName? = some x → (s.heap.lookup s.frame x).isSome = true) (value : Expr)
    (span : Span) : r.assignPlain t value span s = r.store t value span s := by
  rw [assignPlain]
  cases hname : t.rootName? with
  | none => rfl
  | some x =>
    change (if (s.heap.lookup s.frame x).isNone = true then raise (.notDefined x) span
      else r.store t value span : Eval Value) s = _
    rw [if_neg]
    rw [Option.isNone_iff_eq_none]
    exact Option.isSome_iff_ne_none.mp (hroot x hname)

section

variable {r : Evaluator} {left right : Expr} {name key : Text} {path : List Text} {span : Span}
  {before s u : State} {v w : Value}

/-- A plain assignment writes to what the path denotes when the right side was evaluated. -/
theorem assign_plain_writes
    (ht : r.target left before = .done (.member (.named name) path key) s)
    (hname : (s.heap.lookup s.frame name).isSome = true)
    (hv : holding (.values []) (r.expr right) s = .done v u) :
    u.Writes name path key v span v (r.exprStep (.assign .assign left right span) before) := by
  have hroot (x : Text) (hx : (Target.member (.named name) path key).rootName? = some x) :
      (s.heap.lookup s.frame x).isSome = true := Option.some.inj hx ▸ hname
  have hends : r.exprStep (.assign .assign left right span) before =
      (do (Target.member (.named name) path key).write v span; return v : Eval Value) u := by
    rw [exprStep, assign, bind_apply, ht]
    dsimp only
    rw [assignPlain_of_bound hroot, store]
    change (holding (.values []) (r.expr right) >>= _) s = _
    rw [bind_apply, hv]
  rw [hends]
  exact Target.write_writes ..

/-- What a compound assignment reads is a property of what the path denotes before the right side is
evaluated. What it stores goes to what the path denotes afterwards. -/
theorem assign_compound_writes {op : AssignOp} {arithmetic : ArithmeticOp}
    (hop : op.compound? = some arithmetic)
    (ht : r.target left before = .done (.member (.named name) path key) s)
    (hw : s.denotes? name path = some w) (hnullish : w.isNullish = false)
    (hv : holding (.values []) (holding (.values [s.heap.member w key]) (r.expr right)) s =
      .done v u) :
    u.Writes name path key (arithmetic.apply u.heap (s.heap.member w key) v) span
      (arithmetic.apply u.heap (s.heap.member w key) v)
      (r.exprStep (.assign op left right span) before) := by
  have hread := Target.read_eq key span hw hnullish
  have hcompound : r.assignCompound arithmetic (.member (.named name) path key) right span s =
      (do
        (Target.member (.named name) path key).write
          (arithmetic.apply u.heap (s.heap.member w key) v) span
        return arithmetic.apply u.heap (s.heap.member w key) v : Eval Value) u := by
    rw [assignCompound, bind_apply, hread]
    change (holding (.values []) (holding (.values [s.heap.member w key]) (r.expr right)) >>= _) s =
      _
    rw [bind_apply, hv]
    rfl
  have hends : r.exprStep (.assign op left right span) before =
      r.assignCompound arithmetic (.member (.named name) path key) right span s := by
    have hassign : r.exprStep (.assign op left right span) =
        r.target left >>= fun t ↦ r.assignCompound arithmetic t right span := by
      cases op <;> cases hop <;> rfl
    rw [hassign, bind_apply, ht]
  rw [hends, hcompound]
  exact Target.write_writes ..

/-- An update writes to what it has read from. -/
theorem update_writes (op : UpdateOp) (leading : Bool)
    (ht : r.target left before = .done (.member (.named name) path key) s)
    (hw : s.denotes? name path = some w) (hnullish : w.isNullish = false) :
    let old := s.heap.toNumber (s.heap.member w key)
    s.Writes name path key (.number (op.apply old)) span
      (.number (if leading then op.apply old else old))
      (r.exprStep (.update op leading left span) before) := by
  intro old
  have hread := Target.read_eq key span hw hnullish
  have hends : r.exprStep (.update op leading left span) before =
      (do
        (Target.member (.named name) path key).write (.number (op.apply old)) span
        return .number (if leading then op.apply old else old) : Eval Value) s := by
    rw [exprStep, update, bind_apply, ht]
    change ((Target.member (.named name) path key).read span >>= _) s = _
    rw [bind_apply, hread]
    cases op <;> rfl
  rw [hends]
  exact Target.write_writes ..

end

/-- Where assignments to a member write that is reached from a variable. The path and the last key
are the keys of the target in order, evaluated before the right side. A plain assignment writes into
what the path denotes once the right side was evaluated. So does a compound one, whose old value is
a property of what the path denotes before. Either is the same container if the variable and the
properties along the path are left as they were. An update writes where it read. -/
theorem member_assignments_write (r : Evaluator) {object property : Expr} {computed : Bool}
    {place : Span} {name : Text} (hroot : object.root? = some name) {before s : State} {t : Target}
    (ht : r.target (.member object property computed place) before = .done t s) :
    ∃ path key, t = .member (.named name) path key ∧
      r.Resolves name (.member object property computed place) before (path ++ [key]) s ∧
      (∀ right span v u, (s.heap.lookup s.frame name).isSome = true →
        holding t.holder (r.expr right) s = .done v u →
        u.Writes name path key v span v (r.exprStep
          (.assign .assign (.member object property computed place) right span) before)) ∧
      (∀ w, s.denotes? name path = some w → w.isNullish = false →
        let old := s.heap.member w key
        (∀ op arithmetic right span v u, AssignOp.compound? op = some arithmetic →
          holding t.holder (holding (.values [old]) (r.expr right)) s = .done v u →
          let new := arithmetic.apply u.heap old v
          u.Writes name path key new span new (r.exprStep
            (.assign op (.member object property computed place) right span) before)) ∧
        ∀ op leading span,
          let new := UpdateOp.apply op (s.heap.toNumber old)
          s.Writes name path key (.number new) span
            (.number (if leading then new else s.heap.toNumber old)) (r.exprStep
              (.update op leading (.member object property computed place) span) before)) ∧
      ∀ u, s.SameWay u name path → u.denotes? name path = s.denotes? name path := by
  obtain ⟨path, key, rfl, hresolves⟩ := exists_target_eq hroot ht
  refine ⟨path, key, rfl, hresolves, ?_, ?_, fun u hu ↦ hu.denotes?_eq⟩
  · intro right span v u hname hv
    exact assign_plain_writes ht hname hv
  · intro w hw hnullish
    constructor
    · intro op arithmetic right span v u hop hv
      exact assign_compound_writes hop ht hw hnullish hv
    · intro op leading span
      exact update_writes op leading ht hw hnullish

/-- A state in which a variable refers to an object with one property. -/
def oneObject : State :=
  let (id, h) := Heap.empty.newObject (.ofList [("x", .number (.ofNat 1))])
  (Interpreter.start .standard h .start [("o", .object id)]).state

/-- The property of the object. -/
def oneProperty : Expr :=
  .member (.identifier "o" .nowhere) (.text "x" .nowhere) false .nowhere

/-- A state in which the property of an object refers to another one. -/
def twoObjects : State :=
  let (inner, h) := Heap.empty.newObject (.ofList [("x", .number (.ofNat 1))])
  let (outer, h) := h.newObject (.ofList [("p", .object inner)])
  (Interpreter.start .standard h .start [("o", .object outer)]).state

/-- The property of the inner object, by a key that is computed. -/
def innerProperty : Expr :=
  .member (.member (.identifier "o" .nowhere) (.text "p" .nowhere) false .nowhere)
    (.sequence [some (.null .nowhere), some (.text "x" .nowhere)] .nowhere) true .nowhere

theorem member_assignments_write_twoObjects :
    let r := Config.standard.level 5
    r.target innerProperty twoObjects = .done (.member (.named "o") ["p"] "x") twoObjects ∧
      r.Resolves "o" innerProperty twoObjects ["p", "x"] twoObjects ∧
      twoObjects.denotes? "o" ["p"] = some (.object ⟨0⟩) ∧
      twoObjects.Writes "o" ["p"] "x" (.number (.ofNat 2)) .nowhere (.number (.ofNat 2))
        (r.exprStep (.assign .assign innerProperty (.number (.ofNat 2) .nowhere) .nowhere)
          twoObjects) := by
  intro r
  have hroot : Expr.root? (.member (.identifier "o" .nowhere) (.text "p" .nowhere) false .nowhere) =
      some "o" := rfl
  have ht : r.target innerProperty twoObjects =
      .done (.member (.named "o") ["p"] "x") twoObjects := by
    rfl
  obtain ⟨path, key, heq, hresolves, hplain, -, -⟩ := member_assignments_write r hroot ht
  cases heq
  exact ⟨ht, hresolves, by decide +kernel, hplain _ _ _ _ (by decide +kernel) rfl⟩

/-- The object that the path denoted before keeps its property, and a new one gets the value, if the
right side makes the variable refer to another object. A compound assignment changes another object
than it read from. -/
theorem member_assignment_redirected :
    let r := Config.standard.level 5
    let right := Expr.sequence
      [some (.assign .assign (.identifier "o" .nowhere)
        (.object [⟨some (.text "x" .nowhere), .number (.ofNat 5) .nowhere, false⟩] .nowhere)
        .nowhere), some (.number (.ofNat 2) .nowhere)] .nowhere
    let plain := (r.exprStep (.assign .assign oneProperty right .nowhere) oneObject).state.heap
    let compound := (r.exprStep (.assign .add oneProperty right .nowhere) oneObject).state.heap
    oneObject.denotes? "o" [] = some (.object ⟨0⟩) ∧
      plain.property ⟨0⟩ "x" = .number (.ofNat 1) ∧ plain.property ⟨1⟩ "x" = .number (.ofNat 2) ∧
      compound.property ⟨0⟩ "x" = .number (.ofNat 1) ∧
      compound.property ⟨1⟩ "x" = .number (.ofNat 3) := by
  decide +kernel

end Evaluator

end EcmaTree
