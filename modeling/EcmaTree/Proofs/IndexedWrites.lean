import EcmaTree.Proofs.Number.Keys

/-!
# Writes to elements

What an assignment to the element of an array that a natural number counts to does. Below the
greatest length the element is stored, growing the array if it has to. From there on the write is an
error, as long as the number is written with at most 15 digits. With more digits it is no index any
more, and the write is lost without an error.
-/

namespace EcmaTree

open Eval

variable {s u : State} {x : Number} {i : Nat} {id : ArrayId} {v : Value} {span : Span}

namespace Evaluator

/-- A plain assignment to a member stores the right side into what the path denotes then. -/
theorem assign_member_eq {r : Evaluator} {left right : Expr} {before : State} {root : Root}
    {path : List Text} {key : Text} {w : Value}
    (ht : r.target left before = .done (.member root path key) s)
    (hroot : ∀ name, root = .named name → (s.heap.lookup s.frame name).isSome = true)
    (hv : holding (Target.member root path key).holder (r.expr right) s = .done v u)
    (hw : Target.container root path span u = .done w u) :
    r.exprStep (.assign .assign left right span) before =
      (do setMember w key v span; return v : Eval Value) u := by
  have hbound (name : Text) (hname : (Target.member root path key).rootName? = some name) :
      (s.heap.lookup s.frame name).isSome = true := by
    cases root with
    | named n => exact hroot name (congrArg Root.named (Option.some.inj hname))
    | value => cases hname
  have hwrite : (Target.member root path key).write v span u = setMember w key v span u := by
    rw [Target.write, bind_apply, hw]
  rw [exprStep, assign, bind_apply, ht]
  dsimp only
  rw [assignPlain_of_bound hbound, store, bind_apply, hv]
  change ((Target.member root path key).write v span >>= fun _ ↦ pure v) u = _
  rw [bind_apply, bind_apply, hwrite]

end Evaluator

namespace Eval

/-- Below the greatest length, a write is found again. -/
theorem setMember_toText_of_lt (hid : s.heap.holds (.array id) = true) (hx : x.integer? = some ↑i)
    (hi : i < maxArrayLength) (v : Value) (span : Span) :
    ∃ h, setMember (.array id) x.toText v span s = .done () { s with heap := h } ∧
      ∀ place, getMember (.array id) x.toText place { s with heap := h } =
        .done v { s with heap := h } := by
  have hindex := Number.index?_toText_eq_some_iff.mpr ⟨hx, Heap.lt_of_lt_maxArrayLength hi⟩
  refine ⟨s.heap.modifyArray id (written · i v), ?_, fun place ↦ ?_⟩
  · rw [(State.findsElement hindex).store, if_pos hi]
  · rw [(State.findsElement hindex).array, Heap.elements_modifyArray hid,
      Array.getD_eq_getD_getElem?, getElem?_written, if_pos rfl, Option.getD_some]

/-- From the greatest length on, a write is an error. -/
theorem setMember_toText_of_le (hx : x.integer? = some ↑i) (hi : maxArrayLength ≤ i)
    (hdigits : i < 10 ^ 15) (v : Value) (span : Span) :
    setMember (.array id) x.toText v span s = raise .arrayLength span s := by
  have hindex := Number.index?_toText_eq_some_iff.mpr ⟨hx, hdigits⟩
  rw [(State.findsElement hindex).store, if_neg hi.not_gt]

/-- A number with more digits finds nothing. -/
theorem findsNothing_of_le (hx : x.integer? = some ↑i) (hi : 10 ^ 15 ≤ i) (s : State) :
    s.FindsNothing x.toText := by
  apply State.findsNothing
  rw [Option.eq_none_iff_forall_ne_some]
  intro j hj
  obtain ⟨hxj, hlt⟩ := Number.index?_toText_eq_some_iff.mp hj
  rw [hx, Option.some.injEq, Int.natCast_inj] at hxj
  exact hlt.not_ge (hxj ▸ hi)

end Eval

/-- The properties of an error object give back the name and the message. -/
theorem Heap.get?_errorProperties (kind : ErrorKind) (message stack : Text) :
    (errorProperties kind message stack).get? nameKey = some (.text (.ofString kind.name)) ∧
      (errorProperties kind message stack).get? messageKey = some (.text message) := by
  have hname : ("stack" : Text) ≠ nameKey := by decide
  have hmessage : ("stack" : Text) ≠ messageKey := by decide
  have hnames : messageKey ≠ nameKey := by decide
  rw [errorProperties, OrderedMap.ofList, List.foldl_cons, List.foldl_cons, List.foldl_cons,
    List.foldl_nil]
  constructor
  · rw [OrderedMap.get?_insert, if_neg hname, OrderedMap.get?_insert, if_neg hnames,
      OrderedMap.get?_insert, if_pos rfl]
  · rw [OrderedMap.get?_insert, if_neg hmessage, OrderedMap.get?_insert, if_pos rfl]

/-- What is thrown for an error is an object with the name and the message of the error. -/
theorem Heap.errorParts?_raised (s : State) (e : RuntimeError) (span : Span) :
    (s.heap.newObject (errorProperties e.kind e.message
        (Report.stack e.kind.name e.message s.calls))).2.errorParts? (s.raised e span).value =
      some (Text.ofString e.kind.name, e.message) := by
  obtain ⟨hname, hmessage⟩ := get?_errorProperties e.kind e.message
    (Report.stack e.kind.name e.message s.calls)
  have hproperties (ps : Properties) :
      (s.heap.newObject ps).2.properties (s.heap.newObject ps).1 = ps := by
    rw [Heap.properties, Heap.newObject, Store.get?_push, if_pos rfl, Option.getD_some]
  change errorParts? _ (.object _) = _
  rw [errorParts?, property, property, hproperties, hname, hmessage]
  rfl

/-- An assignment to the element of an array that a natural number counts to. Below the greatest
length the element then has the value. From there on an error is thrown and no array changes, as
long as the number has at most 15 digits. With more digits nothing happens at all: the assignment
ends with its value, and the element is undefined. -/
theorem indexed_write_lands {r : Evaluator} {left right : Expr} {before : State} {root : Root}
    {path : List Text}
    (ht : r.target left before = .done (.member root path (s.heap.propertyKey (.number x))) s)
    (hroot : ∀ name, root = .named name → (s.heap.lookup s.frame name).isSome = true)
    (hv : holding (Target.member root path (s.heap.propertyKey (.number x))).holder (r.expr right)
      s = .done v u)
    (ha : Target.container root path span u = .done (.array id) u)
    (hid : u.heap.holds (.array id) = true) (hx : x.integer? = some ↑i) :
    let o := r.exprStep (.assign .assign left right span) before
    (i < maxArrayLength → ∃ h, o = .done v { u with heap := h } ∧
      ∀ place, getMember (.array id) (h.propertyKey (.number x)) place { u with heap := h } =
        .done v { u with heap := h }) ∧
    (maxArrayLength ≤ i → i < 10 ^ 15 → ∃ h,
      o = .thrown (u.raised .arrayLength span) { u with heap := h } ∧ h.arrays = u.heap.arrays ∧
      h.errorParts? (u.raised .arrayLength span).value =
        some (("RangeError" : Text), ("Invalid array length" : Text))) ∧
    (10 ^ 15 ≤ i → o = .done v u ∧
      ∀ place, getMember (.array id) (u.heap.propertyKey (.number x)) place u =
        .done .undefined u) := by
  intro o
  have ho : o = (do setMember (.array id) x.toText v span; return v : Eval Value) u :=
    Evaluator.assign_member_eq ht hroot hv ha
  rw [ho, bind_apply]
  refine ⟨fun hi ↦ ?_, fun hi hdigits ↦ ?_, fun hi ↦ ?_⟩
  · obtain ⟨h, hset, hget⟩ := setMember_toText_of_lt hid hx hi v span
    rw [hset]
    exact ⟨h, rfl, hget⟩
  · rw [setMember_toText_of_le hx hi hdigits]
    exact ⟨_, rfl, rfl, Heap.errorParts?_raised u .arrayLength span⟩
  · have hnothing := findsNothing_of_le hx hi u
    rw [hnothing.store]
    exact ⟨rfl, hnothing.array id⟩

/-- A state with an empty array as only variable. -/
def State.emptyArray : State :=
  (Interpreter.start .standard (Heap.empty.newArray #[]).2 .start [("a", .array ⟨0⟩)]).state

/-- The element of the array with a number. -/
def Expr.element (x : Number) : Expr :=
  .member (.identifier "a" .nowhere) (.number x .nowhere) true .nowhere

/-- The assignment of a one to an element. -/
def Expr.elementWrite (x : Number) : Expr :=
  .assign .assign (.element x) (.number (.ofNat 1) .nowhere) .nowhere

namespace State

theorem lookup_emptyArray :
    (emptyArray.heap.lookup emptyArray.frame "a").map Binding.value = some (.array ⟨0⟩) := by
  decide +kernel

theorem isSome_lookup_emptyArray (name : Text) (h : Root.named "a" = .named name) :
    (emptyArray.heap.lookup emptyArray.frame name).isSome = true := by
  obtain ⟨b, hb, -⟩ := Option.map_eq_some_iff.mp lookup_emptyArray
  cases h
  exact Option.isSome_iff_exists.mpr ⟨b, hb⟩

theorem container_emptyArray :
    Target.container (.named "a") [] .nowhere emptyArray = .done (.array ⟨0⟩) emptyArray := by
  obtain ⟨b, hb, hv⟩ := Option.map_eq_some_iff.mp lookup_emptyArray
  have hroot : Target.readRoot (.named "a") .nowhere emptyArray = .done b.value emptyArray := by
    have hlookup : lookup "a" emptyArray = .done (some b) emptyArray :=
      congrArg (Outcome.done · emptyArray) hb
    rw [Target.readRoot, bind_apply, hlookup]
    rfl
  rw [Target.container, bind_apply, hroot, hv]
  rfl

theorem target_emptyArray (x : Number) :
    (Config.standard.level 3).target (.element x) emptyArray =
      .done (.member (.named "a") [] (emptyArray.heap.propertyKey (.number x))) emptyArray := rfl

theorem holding_emptyArray (key : Text) :
    holding (Target.member (.named "a") [] key).holder
        ((Config.standard.level 3).expr (.number (.ofNat 1) .nowhere)) emptyArray =
      .done (.number (.ofNat 1)) emptyArray := rfl

end State

/-- The last element that an array can have is written, and the write to the next one is an
error. -/
theorem indexed_write_lands_greatestLength :
    let r := Config.standard.level 3
    let s := State.emptyArray
    (∃ h, r.exprStep (.elementWrite 16777215) s =
      .done (.number (.ofNat 1)) { s with heap := h } ∧
      ∀ place, getMember (.array ⟨0⟩) (h.propertyKey (.number 16777215)) place
        { s with heap := h } = .done (.number (.ofNat 1)) { s with heap := h }) ∧
    ∃ h, r.exprStep (.elementWrite 16777216) s =
      .thrown (s.raised .arrayLength .nowhere) { s with heap := h } ∧
      h.errorParts? (s.raised .arrayLength .nowhere).value =
        some (("RangeError" : Text), ("Invalid array length" : Text)) := by
  intro r s
  have hid : s.heap.holds (.array ⟨0⟩) = true := by decide +kernel
  have hlast : (16777215 : Number).integer? = some ↑(16777215 : Nat) := by decide +kernel
  have hnext : (16777216 : Number).integer? = some ↑(16777216 : Nat) := by decide +kernel
  obtain ⟨hwritten, -, -⟩ := indexed_write_lands (State.target_emptyArray 16777215)
    State.isSome_lookup_emptyArray (State.holding_emptyArray _) State.container_emptyArray hid hlast
  obtain ⟨-, hthrown, -⟩ := indexed_write_lands (State.target_emptyArray 16777216)
    State.isSome_lookup_emptyArray (State.holding_emptyArray _) State.container_emptyArray hid hnext
  obtain ⟨h, ho, -, hparts⟩ := hthrown (by decide) (by decide)
  exact ⟨hwritten (by decide), h, ho, hparts⟩

/-- The write to the element after a quadrillion others is lost: it ends with its value, and the
element is undefined afterwards. -/
theorem indexed_write_lost :
    let r := Config.standard.level 3
    let s := State.emptyArray
    (1000000000000000 : Number).integer? = some (10 ^ 15) ∧
      r.exprStep (.elementWrite 1000000000000000) s = .done (.number (.ofNat 1)) s ∧
      getMember (.array ⟨0⟩) (s.heap.propertyKey (.number 1000000000000000)) .nowhere s =
        .done .undefined s := by
  intro r s
  have hx : (1000000000000000 : Number).integer? = some ↑(10 ^ 15 : Nat) := by decide +kernel
  have hnothing := findsNothing_of_le hx le_rfl s
  refine ⟨hx, ?_, hnothing.array ⟨0⟩ .nowhere⟩
  calc r.exprStep (.elementWrite 1000000000000000) s
    _ = (do
          setMember (.array ⟨0⟩) (Number.toText 1000000000000000) (.number (.ofNat 1)) .nowhere
          return .number (.ofNat 1) : Eval Value) s :=
      Evaluator.assign_member_eq (State.target_emptyArray _) State.isSome_lookup_emptyArray
        (State.holding_emptyArray _) State.container_emptyArray
    _ = .done (.number (.ofNat 1)) s := by
      rw [bind_apply, hnothing.store]
      rfl

end EcmaTree
