import EcmaTree.Evaluation.Level
import EcmaTree.Proofs.Assignments

/-!
# Compound assignments

A compound assignment does what the plain assignment does that names its target twice: it reads the
target, evaluates the right side, and stores what the operator makes of both. The two reach the old
value by different ways, along the keys of the target and through the members of an expression. Both
ways fail at the same key with the same error, at another place of the source.
-/

namespace EcmaTree

/-! ## Up to the place -/

/-- What is thrown, but not where. -/
def Thrown.unplaced (t : Thrown) : Thrown := { t with origin := .nowhere }

/-- An outcome without the place where something was thrown. -/
def Outcome.unplaced {α : Type} : Outcome α → Outcome α
  | thrown t s => thrown t.unplaced s
  | o => o

namespace Eval

/-- Two evaluations differ in the place where something is thrown at most. -/
def UpToPlace {α : Type} (m m' : Eval α) : Prop := ∀ s, (m s).unplaced = (m' s).unplaced

namespace UpToPlace

variable {α β : Type} {m m' : Eval α} {f f' : α → Eval β}

theorem refl (m : Eval α) : UpToPlace m m := fun _ ↦ rfl

theorem bind (hm : m.UpToPlace m') (hf : ∀ a, (f a).UpToPlace (f' a)) :
    (m >>= f).UpToPlace (m' >>= f') := by
  intro s
  have hfirst := hm s
  rw [bind_apply, bind_apply]
  generalize m s = o at hfirst
  generalize m' s = o' at hfirst
  cases o with
  | done a t =>
    cases o' with
    | done a' t' =>
      cases hfirst
      exact hf a t
    | thrown | faulted | exhausted => cases hfirst
  | thrown e t =>
    cases o' with
    | thrown e' t' =>
      obtain ⟨he, rfl⟩ := Outcome.thrown.inj hfirst
      exact congrArg (Outcome.thrown · t) he
    | done | faulted | exhausted => cases hfirst
  | faulted e t =>
    cases o' with
    | faulted e' t' =>
      cases hfirst
      rfl
    | done | thrown | exhausted => cases hfirst
  | exhausted t =>
    cases o' with
    | exhausted t' =>
      cases hfirst
      rfl
    | done | thrown | faulted => cases hfirst

theorem raise (e : RuntimeError) (span span' : Span) :
    (Eval.raise e span : Eval α).UpToPlace (Eval.raise e span') := fun _ ↦ rfl

theorem getMember (v : Value) (key : Text) (span span' : Span) :
    (getMember v key span).UpToPlace (Eval.getMember v key span') := by
  unfold Eval.getMember
  split
  · exact bind (refl _) fun _ ↦ raise _ _ _
  · exact refl _

theorem setArrayMember (id : ArrayId) (key : Text) (v : Value) (span span' : Span) :
    (setArrayMember id key v span).UpToPlace (Eval.setArrayMember id key v span') := by
  unfold Eval.setArrayMember
  split
  · refine bind (refl _) fun n ↦ ?_
    split
    · exact refl _
    · exact raise _ _ _
  · split
    · split
      · exact refl _
      · exact raise _ _ _
    · exact refl _

theorem setMember (w : Value) (key : Text) (v : Value) (span span' : Span) :
    (setMember w key v span).UpToPlace (Eval.setMember w key v span') := by
  cases w with
  | undefined | null => exact bind (refl _) fun _ ↦ raise _ _ _
  | array id => exact setArrayMember _ _ _ _ _
  | object | text | function | bool | number => exact refl _

theorem container (root : Root) (path : List Text) (span span' : Span) :
    (Target.container root path span).UpToPlace (Target.container root path span') := by
  have hroot : (Target.readRoot root span).UpToPlace (Target.readRoot root span') := by
    cases root with
    | value v => exact refl _
    | named name =>
      refine bind (refl _) fun b ↦ ?_
      split
      · exact refl _
      · exact raise _ _ _
  refine bind hroot fun v ↦ ?_
  induction path generalizing v with
  | nil => exact refl _
  | cons key rest ih => exact bind (getMember _ _ _ _) ih

theorem write (t : Target) (v : Value) (span span' : Span) :
    (t.write v span).UpToPlace (t.write v span') := by
  cases t with
  | named name =>
    refine bind (refl _) fun result ↦ ?_
    split
    · exact refl _
    · exact raise _ _ _
    · exact raise _ _ _
  | member root path key => exact bind (container _ _ _ _) fun w ↦ setMember _ _ _ _ _

end UpToPlace

end Eval

/-! ## Along a path of keys -/

namespace Eval

variable {α : Type}

theorem orRaise_upToPlace (span span' : Span) (a : Except RuntimeError α) :
    (orRaise span a).UpToPlace (orRaise span' a) := by
  cases a with
  | ok a => exact .refl _
  | error e => exact .raise _ _ _

theorem orRaise_bind_getMember (span : Span) (a : Except RuntimeError Value) (key : Text)
    (s : State) :
    (do getMember (← orRaise span a) key span : Eval Value) s =
      orRaise span (a >>= (s.heap.memberOrError · key)) s := by
  cases a with
  | ok v => exact getMember_eq_orRaise v key span s
  | error e => rfl

end Eval

/-- What a path of keys is written after: a name or the receiver. -/
inductive PathRoot where
  | name (x : Text)
  | receiver

namespace PathRoot

/-- Where a target begins. -/
def root (s : State) : PathRoot → Root
  | name x => .named x
  | receiver => .value (s.heap.receiver s.frame)

/-- The value that a path begins with. A name without a binding has none. -/
def value? (s : State) : PathRoot → Option Value
  | name x => (s.heap.lookup s.frame x).map Binding.value
  | receiver => some (s.heap.receiver s.frame)

end PathRoot

/-- An expression is a path of keys, each of them after a dot. -/
inductive Expr.IsPath : Expr → PathRoot → List Text → Prop
  | name (x : Text) (span : Span) : IsPath (.identifier x span) (.name x) []
  | receiver (span : Span) : IsPath (.receiver span) .receiver []
  | dot {root : PathRoot} {path : List Text} {object : Expr} (h : IsPath object root path)
      (key : Text) (place span : Span) :
      IsPath (.member object (.text key place) false span) root (path ++ [key])

namespace Target

open Eval

variable {s : State} {root : PathRoot} {v : Value}

theorem readRoot_eq (hv : root.value? s = some v) (span : Span) :
    readRoot (root.root s) span s = .done v s := by
  cases root with
  | name x =>
    obtain ⟨b, hb, rfl⟩ := Option.map_eq_some_iff.mp hv
    exact readRoot_bound hb span
  | receiver =>
    cases hv
    rfl

/-- A target is read along its path. -/
theorem read_eq_orRaise (hv : root.value? s = some v) (path : List Text) (key : Text)
    (span : Span) :
    (member (root.root s) path key).read span s =
      orRaise span (s.heap.followOrError v (path ++ [key])) s := by
  have hcontainer : container (root.root s) path span s =
      orRaise span (s.heap.followOrError v path) s := by
    rw [container, bind_apply, readRoot_eq hv]
    exact follow_eq_orRaise path v span s
  rw [read, bind_apply, hcontainer, ← bind_apply, orRaise_bind_getMember, Heap.followOrError_concat]

end Target

section

variable {c : Config} {s : State} {root : PathRoot} {path : List Text} {e : Expr} {v : Value}
  {key : Text} {n : Nat}

theorem Config.holding_text (c : Config) (n : Nat) (x : Holder) (key : Text) (place : Span)
    (s : State) :
    Eval.holding x ((c.level (n + 1)).expr (.text key place)) s = .done (.text key) s := by
  change Eval.holding x (c.expr (n + 1) (.text key place)) s = _
  rw [c.expr_succ]
  rfl

/-- An expression that is a path is evaluated along the path. -/
theorem Expr.IsPath.expr_eq_orRaise (h : e.IsPath root path) (hv : root.value? s = some v)
    (hn : path.length < n) :
    ∃ span, c.expr n e s = Eval.orRaise span (s.heap.followOrError v path) s := by
  obtain ⟨n, rfl⟩ : ∃ m, n = m + 1 := Nat.exists_eq_add_one.mpr (Nat.zero_lt_of_lt hn)
  induction h generalizing n with
  | name x span =>
    obtain ⟨b, hb, rfl⟩ := Option.map_eq_some_iff.mp hv
    refine ⟨span, ?_⟩
    rw [c.expr_succ, Evaluator.exprStep, Evaluator.identifier, Eval.bind_apply]
    simp only [Eval.lookup, Eval.read, hb]
    rfl
  | receiver span =>
    cases hv
    exact ⟨span, by rw [c.expr_succ]; rfl⟩
  | @dot _ path object _ key place span ih =>
    rw [List.length_append, List.length_singleton, Nat.add_lt_add_iff_right] at hn
    obtain ⟨n, rfl⟩ : ∃ m, n = m + 1 := Nat.exists_eq_add_one.mpr (Nat.zero_lt_of_lt hn)
    obtain ⟨span', hobject⟩ := ih hv n hn
    rw [Heap.followOrError_concat, c.expr_succ, Evaluator.exprStep, Evaluator.member,
      Eval.bind_apply, show (c.level (n + 1)).expr object s = _ from hobject]
    cases s.heap.followOrError v path with
    | error error => exact ⟨span', rfl⟩
    | ok w =>
      refine ⟨span, ?_⟩
      change (Eval.holding (.values [w]) ((c.level (n + 1)).expr (.text key place)) >>= _) s = _
      rw [Eval.bind_apply, c.holding_text]
      exact Eval.getMember_eq_orRaise w key span s

/-- The key is evaluated once the stem is, and comes last. -/
theorem Config.stem_child {m : Eval Stem} {stem : Stem} (hm : m s = .done stem s) (key : Text)
    (place : Span) :
    (do
      let stem ← m
      let key ← Eval.holding stem.holder ((c.level (n + 1)).expr (.text key place))
      return stem.child (← Eval.textOf key) : Eval Target) s = .done (stem.child key) s := by
  rw [Eval.bind_apply, hm]
  dsimp only
  rw [Eval.bind_apply, c.holding_text]
  rfl

theorem Config.target_of_target {t : Target} (he : e.isTarget = true)
    (ht : (c.level (n + 1)).target e s = .done t s) (key : Text) (place span : Span) :
    (c.level (n + 1)).target (.member e (.text key place) false span) s =
      .done (t.child key) s := by
  have hstem : (Stem.target <$> (c.level (n + 1)).target e) s = .done (.target t) s := by
    rw [map_eq_pure_bind, Eval.bind_apply, ht]
    rfl
  rw [Evaluator.target, if_pos he]
  exact c.stem_child hstem key place

theorem Expr.IsPath.target_dot (h : e.IsPath root path) (key : Text) (n : Nat) (place span : Span) :
    (c.level (n + 1)).target (.member e (.text key place) false span) s =
      .done (.member (root.root s) path key) s := by
  induction h generalizing key place span with
  | name x nameSpan =>
    have ht : (c.level (n + 1)).target (.identifier x nameSpan) s = .done (.named x) s := rfl
    exact Config.target_of_target rfl ht key place span
  | receiver receiverSpan =>
    have hstem : (Stem.value <$> (c.level (n + 1)).expr (.receiver receiverSpan)) s =
        .done (.value (s.heap.receiver s.frame)) s := by
      change (Stem.value <$> c.expr (n + 1) (.receiver receiverSpan)) s = _
      rw [c.expr_succ]
      rfl
    have hreceiver : ¬ (Expr.receiver receiverSpan).isTarget = true := Bool.false_ne_true
    rw [Evaluator.target, if_neg hreceiver]
    exact c.stem_child hstem key place
  | dot h inner innerPlace innerSpan ih =>
    exact Config.target_of_target rfl (ih inner innerPlace innerSpan) key place span

/-- A path is stored into at its last key. -/
theorem Expr.IsPath.target_eq (h : e.IsPath root path) (hpath : path ≠ []) (n : Nat) :
    (c.level (n + 1)).target e s =
      .done (.member (root.root s) path.dropLast (path.getLast hpath)) s := by
  cases h with
  | name | receiver => exact absurd rfl hpath
  | dot h key place span => simp only [h.target_dot, List.dropLast_concat, List.getLast_concat]

end

/-! ## The expansion -/

namespace ArithmeticOp

/-- The compound assignment with an operator. -/
def assignOp : ArithmeticOp → AssignOp
  | add => .add | sub => .sub | mul => .mul | div => .div | rem => .rem

/-- The operator between two operands. -/
def binaryOp : ArithmeticOp → BinaryOp
  | add => .add | sub => .sub | mul => .mul | div => .div | rem => .rem

theorem compound?_assignOp (op : ArithmeticOp) : op.assignOp.compound? = some op := by
  cases op <;> rfl

theorem result?_binaryOp (h : Heap) (op : ArithmeticOp) (a b : Value) :
    op.binaryOp.result? h a b = some (op.apply h a b) := by
  cases op <;> rfl

end ArithmeticOp

namespace Evaluator

open Eval

variable {r : Evaluator} {op : ArithmeticOp} {t : Target} {left right : Expr} {s : State}
    {old : Value}
  {span place : Span}

/-- What an operator makes of the old value of a target and the right side. -/
def combine (r : Evaluator) (op : ArithmeticOp) (t : Target) (old : Value) (right : Expr) :
    Eval Value := do
  let operand ← holding t.holder (holding (.values [old]) (r.expr right))
  readHeap fun h ↦ op.apply h old operand

/-- Writes a value, which is the result. -/
def put (t : Target) (span : Span) (v : Value) : Eval Value := do
  t.write v span
  return v

theorem assignCompound_eq (r : Evaluator) (op : ArithmeticOp) (t : Target) (right : Expr)
    (span : Span) :
    r.assignCompound op t right span =
      t.read span >>= fun old ↦ r.combine op t old right >>= put t span := by
  simp only [assignCompound, combine, bind_assoc]
  rfl

theorem holding_bind_readHeap {α β : Type} (x : Holder) (m : Eval α) (f : α → Heap → β) :
    holding x (m >>= fun a ↦ readHeap (f a)) = holding x m >>= fun a ↦ readHeap (f a) := by
  funext s
  rw [bind_apply, holding, holding, bind_apply]
  cases m { s with held := x :: s.held } <;> rfl

/-- The right side of the expansion makes the same of the old value, if it reads that. -/
theorem holding_binary_eq {a : Except RuntimeError Value}
    (hleft : r.expr left { s with held := t.holder :: s.held } =
      orRaise span a { s with held := t.holder :: s.held }) :
    holding t.holder (r.binary op.binaryOp left right place) s =
      (orRaise span a >>= fun old ↦ r.combine op t old right) s := by
  cases a with
  | error e =>
    rw [holding, binary, bind_apply, hleft]
    rfl
  | ok old =>
    change _ = r.combine op t old right s
    rw [combine, ← holding_bind_readHeap, holding, holding, binary, bind_apply, hleft]
    cases op <;> rfl

theorem store_binary_eq (r : Evaluator) (t : Target) (op : BinaryOp) (left right : Expr)
    (place span : Span) :
    r.store t (.binary op left right place) span =
      holding t.holder (r.expr (.binary op left right place)) >>= put t span := by
  have hname (v : Value) (name : Text) :
      nameLiteral (.binary op left right place) v name = pure () := by
    cases v with
    | function f => cases f <;> rfl
    | _ => rfl
  rw [store]
  cases t with
  | named name =>
    simp only [hname]
    rfl
  | member => rfl

end Evaluator

namespace Config

open Eval Evaluator

variable {c : Config} {n : Nat} {op : ArithmeticOp} {t : Target} {left right : Expr} {s : State}
  {span place : Span}

/-- A compound assignment combines what the target holds with the right side. -/
theorem compound_eq {a : Except RuntimeError Value} (ht : (c.level n).target left s = .done t s)
    (hread : t.read span s = orRaise span a s) :
    c.expr (n + 1) (.assign op.assignOp left right span) s =
      (orRaise span a >>= fun old ↦ (c.level n).combine op t old right >>= put t span) s := by
  have hassign (r : Evaluator) : r.assign op.assignOp left right span =
      r.target left >>= fun t ↦ r.assignCompound op t right span := by
    cases op <;> rfl
  rw [c.expr_succ, exprStep, hassign, bind_apply, ht]
  dsimp only
  rw [assignCompound_eq, bind_apply, hread, ← bind_apply]

/-- Its expansion combines what the left operand reads with the right side, on the same level. -/
theorem expansion_eq {a : Except RuntimeError Value} {old : Expr} {reading : Span}
    (ht : (c.level (n + 1)).target left s = .done t s)
    (hroot : ∀ x, t.rootName? = some x → (s.heap.lookup s.frame x).isSome = true)
    (hold : c.expr n old { s with held := t.holder :: s.held } =
      orRaise reading a { s with held := t.holder :: s.held }) :
    c.expr (n + 2) (.assign .assign left (.binary op.binaryOp old right place) span) s =
      (orRaise reading a >>= fun old ↦ (c.level n).combine op t old right >>= put t span) s := by
  have hbinary : holding t.holder ((c.level (n + 1)).expr (.binary op.binaryOp old right place)) s =
      (orRaise reading a >>= fun old ↦ (c.level n).combine op t old right) s := by
    change holding t.holder (c.expr (n + 1) (.binary op.binaryOp old right place)) s = _
    rw [c.expr_succ, exprStep, holding_binary_eq hold]
  rw [c.expr_succ, exprStep, assign, bind_apply, ht]
  dsimp only
  rw [assignPlain_of_bound hroot, store_binary_eq, bind_apply, hbinary, ← bind_apply, bind_assoc]

/-- A variable that has a binding is read on any level but the lowest. -/
theorem compound_variable (c : Config) (n : Nat) (op : ArithmeticOp) {x : Text}
    (hx : (s.heap.lookup s.frame x).isSome = true) (right : Expr)
    (site site' site'' span place : Span) :
    c.expr (n + 2) (.assign op.assignOp (.identifier x site) right span) s =
      c.expr (n + 3) (.assign .assign (.identifier x site')
        (.binary op.binaryOp (.identifier x site'') right place) span) s := by
  obtain ⟨b, hb⟩ := Option.isSome_iff_exists.mp hx
  have hv : (PathRoot.name x).value? s = some b.value := congrArg (Option.map Binding.value) hb
  have hroot (y : Text) (hy : (Target.named x).rootName? = some y) :
      (s.heap.lookup s.frame y).isSome = true := by
    cases hy
    exact hx
  have hread : (Target.named x).read span s = orRaise span (.ok b.value) s :=
    Target.readRoot_eq hv span
  obtain ⟨reading, hold⟩ := (Expr.IsPath.name x site'').expr_eq_orRaise (c := c)
    (s := { s with held := (Target.named x).holder :: s.held }) hv (Nat.succ_pos n)
  exact (compound_eq rfl hread).trans (expansion_eq rfl hroot hold).symm

/-- A variable without a binding is an error at once. -/
theorem assign_unbound (c : Config) (n : Nat) (op : ArithmeticOp) {x : Text}
    (hx : s.heap.lookup s.frame x = none) (right value : Expr) (site site' span : Span) :
    c.expr (n + 1) (.assign op.assignOp (.identifier x site) right span) s =
        raise (.notDefined x) span s ∧
      c.expr (n + 1) (.assign .assign (.identifier x site') value span) s =
        raise (.notDefined x) span s := by
  have hread : (Target.named x).read span s = orRaise span (.error (.notDefined x)) s :=
    Target.readRoot_unbound hx span
  refine ⟨compound_eq rfl hread, ?_⟩
  rw [c.expr_succ, exprStep, assign]
  change (if (s.heap.lookup s.frame x).isNone = true then raise (.notDefined x) span
    else (c.level n).store (.named x) value span : Eval Value) s = _
  rw [if_pos (Option.isNone_iff_eq_none.mpr hx)]

/-- What is reached by a path is read the same by the path of the target and by the expression. -/
theorem compound_member (c : Config) (op : ArithmeticOp) {root : PathRoot} {path : List Text}
    {p p' p'' : Expr} {n : Nat} (hp : p.IsPath root path) (hp' : p'.IsPath root path)
    (hp'' : p''.IsPath root path) (hpath : path ≠ []) (hroot : (root.value? s).isSome = true)
    (hn : path.length < n) (right : Expr) (span span' place : Span) :
    (c.expr (n + 1) (.assign op.assignOp p right span) s).unplaced =
      (c.expr (n + 2) (.assign .assign p' (.binary op.binaryOp p'' right place) span')
        s).unplaced := by
  obtain ⟨v, hv⟩ := Option.isSome_iff_exists.mp hroot
  obtain ⟨n, rfl⟩ : ∃ m, n = m + 1 := Nat.exists_eq_add_one.mpr (Nat.zero_lt_of_lt hn)
  let t := Target.member (root.root s) path.dropLast (path.getLast hpath)
  have hbound (x : Text) (hx : t.rootName? = some x) : (s.heap.lookup s.frame x).isSome = true := by
    cases root with
    | name y =>
      cases hx
      exact Option.isSome_map.symm.trans hroot
    | receiver => cases hx
  have hread : t.read span s = orRaise span (s.heap.followOrError v path) s := by
    rw [Target.read_eq_orRaise hv, List.dropLast_concat_getLast]
  obtain ⟨reading, hold⟩ := hp''.expr_eq_orRaise (c := c)
    (s := { s with held := t.holder :: s.held }) (v := v) (by cases root <;> exact hv) hn
  rw [compound_eq (hp.target_eq hpath n) hread,
    expansion_eq (hp'.target_eq hpath (n + 1)) hbound hold]
  exact (orRaise_upToPlace span reading _).bind (fun old ↦ .bind (.refl _) fun w ↦
    (UpToPlace.write t w span span').bind fun _ ↦ .refl _) s

end Config

/-- A compound assignment does what its expansion does one level higher up, where the right side is
evaluated on the same level. To a variable it does exactly the same, and both fail before the right
side is evaluated if the variable has no binding. To a path of keys from a variable or from the
receiver it does the same up to the place where something is thrown, on every level on which the
path can be read. -/
theorem Config.compound_assignment_expands (c : Config) (op : ArithmeticOp) (right : Expr)
    (s : State) :
    (∀ (n : Nat) (x : Text) (site site' site'' span place : Span),
      let left := Expr.identifier x site
      let expanded := Expr.binary op.binaryOp (.identifier x site'') right place
      ((s.heap.lookup s.frame x).isSome = true →
        c.expr (n + 2) (.assign op.assignOp left right span) s =
          c.expr (n + 3) (.assign .assign (.identifier x site') expanded span) s) ∧
      (s.heap.lookup s.frame x = none →
        c.expr (n + 1) (.assign op.assignOp left right span) s =
            Eval.raise (.notDefined x) span s ∧
          c.expr (n + 1) (.assign .assign (.identifier x site') expanded span) s =
            Eval.raise (.notDefined x) span s)) ∧
    ∀ {root : PathRoot} {path : List Text} {p p' p'' : Expr} {n : Nat} (span span' place : Span),
      p.IsPath root path → p'.IsPath root path → p''.IsPath root path → path ≠ [] →
        (root.value? s).isSome = true → path.length < n →
      (c.expr (n + 1) (.assign op.assignOp p right span) s).unplaced =
        (c.expr (n + 2) (.assign .assign p' (.binary op.binaryOp p'' right place) span')
          s).unplaced := by
  refine ⟨fun n x site site' site'' span place ↦
    ⟨fun hx ↦ ?_, fun hx ↦ c.assign_unbound n op hx right _ site site' span⟩, ?_⟩
  · exact c.compound_variable n op hx right site site' site'' span place
  · intro root path p p' p'' n span span' place hp hp' hp'' hpath hroot hn
    exact c.compound_member op hp hp' hp'' hpath hroot hn right span span' place

/-- A property of an object, a variable, and a variable that is not there. -/
theorem Config.compound_assignment_expands_oneObject :
    let c := Config.standard
    let s := Evaluator.oneObject
    let p := Evaluator.oneProperty
    let two := Expr.number (.ofNat 2) .nowhere
    let x (name : Text) := Expr.identifier name .nowhere
    let compound (e : Expr) := Expr.assign .add e two .nowhere
    let expansion (e : Expr) := Expr.assign .assign e (.binary .add e two .nowhere) .nowhere
    p.IsPath (.name "o") ["x"] ∧ ((PathRoot.name "o").value? s).isSome = true ∧
      (c.expr 3 (compound p) s).unplaced = (c.expr 4 (expansion p) s).unplaced ∧
      (c.expr 3 (compound p) s).state.heap.property ⟨0⟩ "x" = .number (.ofNat 3) ∧
      (s.heap.lookup s.frame "o").isSome = true ∧
      c.expr 2 (compound (x "o")) s = c.expr 3 (expansion (x "o")) s ∧
      s.heap.lookup s.frame "y" = none ∧
      c.expr 1 (compound (x "y")) s = c.expr 1 (expansion (x "y")) s := by
  intro c s p two x compound expansion
  have hp : p.IsPath (.name "o") ["x"] := .dot (.name "o" .nowhere) "x" .nowhere .nowhere
  have hroot : ((PathRoot.name "o").value? s).isSome = true := by decide +kernel
  have hbound : (s.heap.lookup s.frame "o").isSome = true := by decide +kernel
  have hunbound : s.heap.lookup s.frame "y" = none := by decide +kernel
  obtain ⟨hvariable, hmember⟩ := c.compound_assignment_expands .add two s
  have hbefore := (hvariable 0 "y" .nowhere .nowhere .nowhere .nowhere .nowhere).2 hunbound
  exact ⟨hp, hroot, hmember .nowhere .nowhere .nowhere hp hp hp nofun hroot (by decide),
    by decide +kernel, hbound,
    (hvariable 0 "o" .nowhere .nowhere .nowhere .nowhere .nowhere).1 hbound, hunbound,
    hbefore.1.trans hbefore.2.symm⟩

end EcmaTree
