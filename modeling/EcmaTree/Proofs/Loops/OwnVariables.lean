import EcmaTree.Proofs.Frames.Unvisited
import EcmaTree.Proofs.Reached

/-!
# Loops with variables of their own

Each turn of a loop with let variables runs in a frame of its own, which begins as a copy of the
frame of the turn before, as that is when the body has ended. The variables in it are those of the
code of the turn, and of the functions made there: to all other code they might as well be
constants.
-/

namespace EcmaTree

open Eval

namespace Heap

variable {h : Heap} {id g : FrameId} {f : Frame}

/-- Ancestors are older. -/
theorem index_le_of_mem_chain (hid : id ∈ h.chain g) : id.index ≤ g.index := by
  fun_induction h.chain g with
  | case1 => cases hid
  | case2 | case4 => exact (congrArg FrameId.index (List.mem_singleton.mp hid)).le
  | case3 g f hf parent hparent hlt ih =>
    rcases List.mem_cons.mp hid with rfl | hid
    · exact le_rfl
    · exact (ih hid).trans hlt.le

theorem covers_of_lt (hlt : g.index < id.index) : h.covers id g = false :=
  covers_eq_false.mpr fun hid ↦ (index_le_of_mem_chain hid).not_gt hlt

theorem covers_newFrame_self (hf : ∀ q, f.parent = some q → q.index < h.frames.size) :
    (h.newFrame f).2.covers (h.newFrame f).1 (h.newFrame f).1 = true := by
  rw [covers, chain_newFrame h hf]
  exact decide_eq_true List.mem_cons_self

theorem covers_map_of_lt {ids : List FrameId} (hlt : ∀ g ∈ ids, g.index < id.index) :
    ids.map (h.covers id) = ids.map fun _ ↦ false :=
  List.map_congr_left fun g hg ↦ covers_of_lt (hlt g hg)

/-- A new frame changes no name. -/
theorem lookup_newFrame_of_lt (h : Heap) (f : Frame) (hg : g.index < h.frames.size) (name : Text) :
    (h.newFrame f).2.lookup g name = h.lookup g name := by
  rw [lookup, (keepsScope_newFrame hg f).chain_eq, lookup]
  refine findSome?_congr fun p hp ↦ ?_
  rw [findLocal?, h.frame?_newFrame_of_lt f ((index_le_of_mem_chain hp).trans_lt hg), findLocal?]

theorem lookup_newFrame (h : Heap) (hf : ∀ q, f.parent = some q → q.index < h.frames.size)
    (name : Text) :
    (h.newFrame f).2.lookup (h.newFrame f).1 name =
      (f.find? name).or (f.parent.bind (h.lookup · name)) := by
  rw [lookup, chain_newFrame h hf, List.findSome?_cons, findLocal?, h.frame?_newFrame f,
    Option.bind_some]
  cases f.find? name with
  | some b => rfl
  | none =>
    cases hq : f.parent with
    | none => rfl
    | some q =>
      have hlookup := h.lookup_newFrame_of_lt f (hf q hq) name
      rw [lookup, (keepsScope_newFrame (hf q hq) f).chain_eq] at hlookup
      exact hlookup

theorem lookup_of_frame? (hh : h.Ordered) (hf : h.frame? g = some f) (name : Text) :
    h.lookup g name = (f.find? name).or (f.parent.bind (h.lookup · name)) := by
  rw [lookup, chain_of_frame? hh hf, List.findSome?_cons, findLocal?, hf, Option.bind_some]
  cases f.find? name with
  | some b => rfl
  | none =>
    cases f.parent with
    | none => rfl
    | some q => rfl

/-- What is covered by a frame sees the variables of the frame, unless a frame between has others of
the same name. -/
theorem lookup_of_covers {name : Text} {b : Binding} (hid : h.covers id g = true)
    (hb : h.findLocal? id name = some b)
    (hbetween : ∀ p ∈ h.chain g, id.index < p.index → h.findLocal? p name = none) :
    h.lookup g name = some b := by
  have hmem : id ∈ h.chain g := of_decide_eq_true hid
  rw [lookup]
  fun_induction h.chain g with
  | case1 => cases hmem
  | case2 | case4 =>
    rw [← List.mem_singleton.mp hmem, List.findSome?_cons, hb]
  | case3 g f hf parent hparent hlt ih =>
    rw [List.findSome?_cons]
    rcases List.mem_cons.mp hmem with rfl | hmem
    · rw [hb]
    · have hlt' : id.index < g.index := (index_le_of_mem_chain hmem).trans_lt hlt
      rw [hbetween g List.mem_cons_self hlt']
      exact ih (decide_eq_true hmem) (fun p hp ↦ hbetween p (List.mem_cons_of_mem _ hp)) hmem

end Heap

/-! ### Turns -/

namespace Coupling.Evaluators

open Couples

variable {c : Config} {Mode : Type} {k : Coupling c Mode} {mode : Mode} {r : Mode → Evaluator}
  {r' : Evaluator} (body : Stmt) (labels : List Text) (test update : Option Expr)

theorem forTurn (h : k.Evaluators r r') (last : Option Value) :
    k.Couples mode ((r mode).forTurn body test update last) (r'.forTurn body test update last) := by
  refine bind (h.forUpdate update last) fun _ ↦ bind (h.forTest test last) fun goesOn ↦ ?_
  split
  · exact map _ (holding rfl (h.loopBody body))
  · exact pure _

theorem forRest (h : k.Evaluators r r') (turn : Nat) (last : Option Value) :
    k.Couples (k.inner mode) ((r mode).forRest body labels test update turn last)
      (r'.forRest body labels test update turn last) := by
  rw [Evaluator.forRest, Evaluator.forRest, h.rounds]
  refine bind (h.inner mode ▸ h.forUpdate _ last) fun _ ↦ ?_
  exact iterate (h.forRound body labels true test update) _ _

/-- The declaration of let variables in the frame itself. -/
theorem declareLet {c : Config} {id : FrameId} {m : Standing} {r : Standing → Evaluator}
    {r' : Evaluator} (h : (reserving c id).Evaluators r r') (hm : m.inside = true)
    (declarators : List Declarator) :
    (reserving c id).Couples m ((r m).declare .let declarators) (r'.declare .let declarators) := by
  refine h.declareBy (fun name v s t hrel ↦ ?_) declarators
  obtain ⟨rfl, ht⟩ := hrel
  rw [hm, ht.recast_true]
  have hdefined : State.Stands { t with heap := t.heap.define t.frame name v .let } id m :=
    ht.define (c := c) name v
  exact .done () ⟨⟨hm ▸ hdefined.recast_true.symm, hdefined⟩, rfl, rfl⟩

end Coupling.Evaluators

namespace State

variable {s t : State}

/-- A loop that began in one state is between two of its turns in the other: the frame of the turn
before is current, which did not exist when the loop began and has let variables. -/
structure BetweenTurns (s t : State) : Prop where
  stands : t.Stands t.frame ⟨true, s.scopes.map fun _ ↦ false, true⟩
  held_eq : t.held = .frame s.frame :: s.held
  frame_new : s.heap.frames.size ≤ t.frame.index

theorem siblingOf_current {f : Frame} (hf : t.heap.frame? t.frame = some f) :
    t.heap.siblingOf t.frame = { f with signal := none } := by
  rw [Heap.siblingOf, hf]
  rfl

/-- A sibling of the current frame begins as a copy. -/
theorem frame?_inSibling {f : Frame} (hf : t.heap.frame? t.frame = some f) :
    t.inSibling.heap.frame? t.inSibling.frame = some { f with signal := none } :=
  siblingOf_current hf ▸ t.heap.frame?_newFrame (t.heap.siblingOf t.frame)

/-- A loop begins in a frame without variables. -/
theorem Scoped.betweenTurns (hs : s.Scoped) :
    s.BetweenTurns (s.opened (.ofParent (some s.frame))) := by
  have hparent (q : FrameId) (hq : (Frame.ofParent (some s.frame)).parent = some q) :
      q.index < s.heap.frames.size :=
    Option.some.inj hq ▸ hs.lt_size _ List.mem_cons_self
  have hopened := hs.opened hparent
  refine ⟨⟨hopened, hopened.lt_size _ List.mem_cons_self, ?_, ?_, ⟨fun _ ↦ rfl, fun _ ↦ rfl⟩⟩, rfl,
    le_rfl⟩
  · refine Heap.recast_eq_self_iff.mpr fun f hf ↦ ?_
    obtain rfl := Option.some.inj ((s.heap.frame?_newFrame _).symm.trans hf)
    exact List.forall_mem_nil _
  · rw [scopes_opened, List.map_cons]
    congr 1
    · exact s.heap.covers_newFrame_self hparent
    · exact Heap.covers_map_of_lt hs.lt_size

namespace BetweenTurns

/-- The variables of the frame of the turn before. -/
theorem lets (h : s.BetweenTurns t) {f : Frame} (hf : t.heap.frame? t.frame = some f) :
    ∀ b ∈ f.bindings, b.kind = .let :=
  Heap.recast_eq_self_iff.mp h.stands.lets f hf

theorem parent_lt (h : s.BetweenTurns t) (q : FrameId)
    (hq : (t.heap.siblingOf t.frame).parent = some q) : q.index < t.heap.frames.size :=
  Heap.parent_siblingOf_lt h.stands.isScoped.ordered h.stands.lt_size hq

/-- The frame of the turn before is the current one, so it is there. -/
theorem exists_frame (h : s.BetweenTurns t) : ∃ f, t.heap.frame? t.frame = some f := by
  have hcovers := h.stands.covers_current
  cases hf : t.heap.frame? t.frame with
  | none =>
    rw [Heap.covers, Heap.chain_of_none hf] at hcovers
    cases hcovers
  | some f => exact ⟨f, rfl⟩

/-- What the names mean in the next turn is what they meant in the turn before. -/
theorem lookup_inSibling (h : s.BetweenTurns t) (name : Text) :
    t.inSibling.heap.lookup t.inSibling.frame name = t.heap.lookup t.frame name := by
  obtain ⟨f, hf⟩ := h.exists_frame
  refine (t.heap.lookup_newFrame h.parent_lt name).trans ?_
  rw [siblingOf_current hf, Heap.lookup_of_frame? h.stands.isScoped.ordered hf]
  rfl

/-- The next turn stands in its own frame as the turn before stood in the other one. -/
theorem inSibling (h : s.BetweenTurns t) : s.BetweenTurns t.inSibling := by
  have houter : t.held.filterMap Holder.frame? = s.scopes := by
    rw [h.held_eq]
    rfl
  have hscoped := h.stands.isScoped.sibling
  refine ⟨⟨hscoped, hscoped.lt_size _ List.mem_cons_self, ?_, ?_, ⟨fun _ ↦ rfl, fun _ ↦ rfl⟩⟩,
    h.held_eq, h.frame_new.trans h.stands.lt_size.le⟩
  · refine Heap.recast_eq_self_iff.mpr fun f' hf' ↦ ?_
    obtain ⟨f, hf⟩ := h.exists_frame
    obtain rfl := Option.some.inj ((frame?_inSibling hf).symm.trans hf')
    have hlets := h.lets hf
    exact hlets
  · rw [scopes, List.map_cons]
    congr 1
    · exact t.heap.covers_newFrame_self h.parent_lt
    · change (t.held.filterMap Holder.frame?).map _ = _
      rw [houter]
      refine Heap.covers_map_of_lt fun g hg ↦ ?_
      have hmem : g ∈ t.scopes := List.mem_cons_of_mem _ (houter ▸ hg)
      exact h.stands.isScoped.lt_size g hmem

/-- The next turn does not see the variables of the turn before. -/
theorem leaves (h : s.BetweenTurns t) :
    t.inSibling.Stands t.frame ⟨false, s.scopes.map fun _ ↦ false, false⟩ := by
  have hopened := h.stands.opened h.parent_lt
  obtain ⟨hnew, hrest⟩ := List.cons.inj hopened.covers_eq
  have hparent : (t.heap.siblingOf t.frame).parent.elim false (t.heap.covers t.frame) = false := by
    cases hq : (t.heap.siblingOf t.frame).parent with
    | none => rfl
    | some q =>
      obtain ⟨f, hf⟩ := h.exists_frame
      rw [Heap.siblingOf, hf] at hq
      exact Heap.covers_of_lt (h.stands.isScoped.ordered.parent_lt hf hq)
  exact {
    isScoped := h.stands.isScoped.sibling
    lt_size := hopened.lt_size
    lets := hopened.lets
    covers_eq := congrArg₂ List.cons (hnew.trans hparent) (List.cons.inj hrest).2
    atop_iff := hopened.atop_iff }

end BetweenTurns

end State

/-- A loop that began in one state comes to one of its turns, with a value so far, from another
state: from the one that its initialiser leaves, or the one that the body of the turn before
leaves. -/
inductive Evaluator.Turns (r : Evaluator) (init body : Stmt) (labels : List Text)
    (test update : Option Expr) (s : State) : Nat → Option Value → State → Prop where
  | first {c : Completion} {t : State}
      (h : r.stmt init (s.opened (.ofParent (some s.frame))) = .done c t) :
      Turns r init body labels test update s 0 none t
  | next {turn : Nat} {last : Option Value} {c : Completion} {t u : State}
      (h : Turns r init body labels test update s turn last t) (hturn : turn < r.rounds)
      (hbody : r.forTurn body test (updateOf update turn) last t.inSibling = .done (some c) u)
      (hc : c.loopAction labels = .next) :
      Turns r init body labels test update s (turn + 1) (c.loopValue last) u

namespace Evaluator.Turns

variable {r : Evaluator} {init body : Stmt} {labels : List Text} {test update : Option Expr}
  {s t : State} {turn : Nat} {last : Option Value}

/-- What a loop does is what is left of it from any of its turns on. -/
theorem forLoop_eq (h : r.Turns init body labels test update s turn last t)
    (hinit : hasOwnVariables (some init) = true) :
    r.forLoop (some init) test update body labels s =
      (r.forRest body labels test update turn last t.inSibling).mapState
        fun u ↦ { u with frame := s.frame, held := s.held } := by
  induction h with
  | @first c t h =>
    rw [forLoop_eq_rest _ _ _ _ _ hinit, inChild_apply, bind_apply, h]
    rfl
  | @next turn last c t u h hturn hbody hc ih =>
    rw [ih, forRest_eq _ _ _ _ _ hturn, bind_apply, hbody]
    dsimp only
    rw [afterTurn, hc]
    rfl

end Evaluator.Turns

/-! ### Turns of evaluation -/

namespace Coupling

variable {c : Config} {alarm : Fault} {id : FrameId} {m : Standing}

/-- A let declaration respects the frame that it declares its variables in. -/
theorem Couples.stmtLet (hm : m.inside = true) (level : Nat) (declarators : List Declarator)
    (span : Span) :
    (reserving c id).Couples m
      ((c.reserved alarm id level m.inside).stmt (.declare .let declarators span))
      ((c.level level).stmt (.declare .let declarators span)) := by
  cases level with
  | zero =>
    have hzero : (c.level 0).stmt (.declare .let declarators span) = Eval.exhaust :=
      c.stmt_zero (.declare .let declarators span)
    change (reserving c id).Couples m ((c.level 0).stmt _) _
    rw [hzero]
    exact .exhaust
  | succ n =>
    have hsucc : (c.level (n + 1)).stmt (.declare .let declarators span) =
        (c.level n).declare .let declarators :=
      c.stmt_succ n (.declare .let declarators span)
    rw [hsucc]
    exact .covered ((reserving_level c alarm id n).declareLet hm declarators)

end Coupling

namespace State

variable {c : Config} {s t u : State} {level turn : Nat} {declarators : List Declarator}
    {span : Span}
  {body : Stmt} {labels : List Text} {test update : Option Expr} {last : Option Value}

/-- Where the evaluation of a loop between two turns stands, with respect to the current frame. -/
def atTurn (s : State) : Standing := ⟨true, s.scopes.map fun _ ↦ false, true⟩

/-- Where it stands with respect to the frame of an earlier turn. -/
def pastTurn (s : State) : Standing := ⟨false, s.scopes.map fun _ ↦ false, false⟩

theorem BetweenTurns.of_respects {α : Type} {f : Evaluator → Eval α} {a : α} (h : s.BetweenTurns t)
    (hf : t.Respects c level t.frame s.atTurn f) (hu : f (c.level level) t = .done a u) :
    s.BetweenTurns u := by
  obtain ⟨-, -, hstands, hheld⟩ := hf
  rw [hu] at hstands hheld
  have hframe : u.frame = t.frame := hstands.atop_iff.mpr rfl
  exact ⟨hframe ▸ hstands, hheld.trans h.held_eq, hframe ▸ h.frame_new⟩

/-- What belongs to a turn is covered by the frame of the turn. -/
theorem BetweenTurns.respects_turn (h : s.BetweenTurns t) :
    t.inSibling.Respects c level t.inSibling.frame s.atTurn
      fun r ↦ r.forTurn body test update last :=
  h.inSibling.stands.respects
    (fun alarm ↦ (Coupling.reserving_level c alarm _ level).forTurn body test update last) nofun

/-- What is left of the loop is not covered by the frame of the turn before. -/
theorem BetweenTurns.respects_rest (h : s.BetweenTurns t) :
    t.inSibling.Respects c level t.frame s.pastTurn
      fun r ↦ r.forRest body labels test update turn last := by
  let outside : Standing := ⟨false, (s.held.filterMap Holder.frame?).map fun _ ↦ false, false⟩
  have hreserved (alarm : Fault) : (Coupling.reserving c t.frame).Couples outside.inner
      ((c.reserved alarm t.frame level outside.inside).forRest body labels test update turn last)
      ((c.level level).forRest body labels test update turn last) :=
    (Coupling.reserving_level c alarm t.frame level).forRest body labels test update turn last
  have hunvisited (alarm : Fault) :
      (Coupling.unvisited c alarm t.frame t.inSibling.heap).Couples outside.inner
        ((c.unvisited alarm t.frame level).forRest body labels test update turn last)
        ((c.level level).forRest body labels test update turn last) :=
    (Coupling.unvisited_level c alarm t.frame t.inSibling.heap level).forRest body labels test
      update turn last
  exact h.leaves.respects hreserved fun _ ↦ hunvisited

theorem Scoped.respects_init (hs : s.Scoped) :
    let o := s.opened (.ofParent (some s.frame))
    o.Respects c level o.frame s.atTurn fun r ↦ r.stmt (.declare .let declarators span) :=
  hs.betweenTurns.stands.respects (fun _ ↦ Coupling.Couples.stmtLet rfl level declarators span)
    nofun

/-- Every turn begins between two turns. -/
theorem Scoped.turns (hs : s.Scoped)
    (h : (c.level level).Turns (.declare .let declarators span) body labels test update s turn last
      t) :
    s.BetweenTurns t := by
  induction h with
  | first h => exact hs.betweenTurns.of_respects hs.respects_init h
  | next _ _ hbody _ ih => exact ih.inSibling.of_respects ih.respects_turn hbody

end State

/-! ### The variables of each turn -/

/-- A loop that began in one state comes to a turn from another state. The turn runs in a frame that
did not exist before, and that holds what the frame of the turn before holds. What is evaluated in
the turn is covered by the frame of the turn. What is left of the loop, from the update on, respects
the frame of the turn before, and what comes after the loop is not covered by it either. -/
structure State.TakesTurn (s t : State) (c : Config) (level : Nat) (init body : Stmt)
    (labels : List Text) (test update : Option Expr) (turn : Nat) (last : Option Value) : Prop where
  fresh : t.inSibling.frame = ⟨t.heap.frames.size⟩
  unchanged {id : FrameId} (hid : id.index < t.heap.frames.size) :
    t.inSibling.heap.frame? id = t.heap.frame? id
  copied : ∃ f, t.heap.frame? t.frame = some f ∧
    t.inSibling.heap.frame? t.inSibling.frame = some { f with signal := none } ∧
      ∀ b ∈ f.bindings, b.kind = .let
  lookup_eq (name : Text) :
    t.inSibling.heap.lookup t.inSibling.frame name = t.heap.lookup t.frame name
  unfolds (hturn : turn < (c.level level).rounds) :
    (c.level level).forRest body labels test update turn last =
      (c.level level).forTurn body test (Evaluator.updateOf update turn) last >>=
        (c.level level).afterTurn body labels test update turn last
  own : t.inSibling.Respects c level t.inSibling.frame s.atTurn
    fun r ↦ r.forTurn body test (Evaluator.updateOf update turn) last
  rest : t.inSibling.Respects c level t.frame s.pastTurn
    fun r ↦ r.forRest body labels test update turn last
  resumes :
    (c.level level).forLoop (some init) test update body labels s =
      ((c.level level).forRest body labels test update turn last t.inSibling).mapState
        fun u ↦ { u with frame := s.frame, held := s.held }
  left : ((c.level level).forLoop (some init) test update body labels s).state.Stands t.frame
    ⟨false, (s.held.filterMap Holder.frame?).map fun _ ↦ false, false⟩

theorem State.BetweenTurns.takesTurn {c : Config} {s t : State} {level turn : Nat}
    {init body : Stmt} {labels : List Text} {test update : Option Expr} {last : Option Value}
    (h : s.BetweenTurns t) (hs : s.Scoped) (hinit : Evaluator.hasOwnVariables (some init) = true)
    (hturn : (c.level level).Turns init body labels test update s turn last t) :
    s.TakesTurn t c level init body labels test update turn last where
  fresh := rfl
  unchanged hid := t.heap.frame?_newFrame_of_lt _ hid
  copied := by
    obtain ⟨f, hf⟩ := h.exists_frame
    exact ⟨f, hf, frame?_inSibling hf, h.lets hf⟩
  lookup_eq := h.lookup_inSibling
  unfolds hturn := Evaluator.forRest_eq _ body labels test update hturn last
  own := h.respects_turn
  rest := h.respects_rest
  resumes := hturn.forLoop_eq hinit
  left := by
    have hrest : t.inSibling.Respects c level t.frame s.pastTurn
        fun r ↦ r.forRest body labels test update turn last :=
      h.respects_rest
    obtain ⟨-, -, hstands, hheld⟩ := hrest
    have hne : s.frame ≠ t.frame := fun heq ↦
      ((hs.lt_size _ List.mem_cons_self).trans_le h.frame_new).ne (congrArg FrameId.index heq)
    rw [hturn.forLoop_eq hinit, Outcome.state_mapState]
    exact .closed ⟨fun heq ↦ absurd heq hne, nofun⟩ hstands (hheld.trans h.held_eq)

/-- Nothing but the code of a turn of a loop, and of the functions made in it, has to do with the
variables of the turn. -/
structure State.KeepsTurnsApart (s : State) (c : Config) : Prop where
  /-- A name means the variable of a covering frame, unless a frame between has one of that name. -/
  reads {id g : FrameId} {name : Text} {b : Binding} (hid : s.heap.covers id g = true)
    (hb : s.heap.findLocal? id name = some b)
    (hbetween : ∀ p ∈ s.heap.chain g, id.index < p.index → s.heap.findLocal? p name = none) :
    s.heap.lookup g name = some b
  /-- An assignment changes no frame that does not cover the current one. -/
  spares {id g : FrameId} (hid : s.heap.covers id g = false) (name : Text) (v : Value) :
    (s.heap.assign g name v).2.frame? id = s.heap.frame? id
  /-- A function literal captures the current frame. -/
  literal (code : FunctionNode) : ∃ id h,
    Evaluator.makeFunction code s = .done (.function (.cell id)) { s with heap := h } ∧
      h.function? id = some ⟨code.name, .closure code s.frame⟩
  expr {id : FrameId} {m : Standing} (h : s.Stands id m) (level : Nat) (e : Expr) :
    s.Respects c level id m fun r ↦ r.expr e
  stmt {id : FrameId} {m : Standing} (h : s.Stands id m) (hm : m.atop = false) (level : Nat)
    (x : Stmt) : s.Respects c level id m fun r ↦ r.stmt x
  call {id : FrameId} {m : Standing} (h : s.Stands id m) (level : Nat) (callee : Value)
    (args : List Value) (receiver : Value) :
    s.Respects c level id m fun r ↦ r.call callee args receiver
  program {id : FrameId} {m : Standing} (h : s.Stands id m) (level : Nat) (q : Program) :
    s.Respects c level id m fun r ↦ r.program q
  init (level : Nat) (declarators : List Declarator) (span : Span) :
    let o := s.opened (.ofParent (some s.frame))
    o.Respects c level o.frame s.atTurn fun r ↦ r.stmt (.declare .let declarators span)
  turn {level turn : Nat} {declarators : List Declarator} {span : Span} {body : Stmt}
    {labels : List Text} {test update : Option Expr} {last : Option Value} {t : State} :
    let init : Stmt := .declare .let declarators span
    (c.level level).Turns init body labels test update s turn last t →
      s.TakesTurn t c level init body labels test update turn last

theorem State.Scoped.keepsTurnsApart {s : State} (hs : s.Scoped) (c : Config) :
    s.KeepsTurnsApart c where
  reads := Heap.lookup_of_covers
  spares hid name v := Heap.frame?_assign hid name v
  literal code := ⟨⟨s.heap.functions.size⟩, _, rfl, (Store.get?_push ..).trans (if_pos rfl)⟩
  expr {id m} h level e :=
    h.respects (fun alarm ↦ (Coupling.reserving_level c alarm id level).expr m e)
      fun _ alarm ↦ (Coupling.unvisited_level c alarm id s.heap level).expr m e
  stmt {id m} h hm level x :=
    h.respects (fun alarm ↦ (Coupling.reserving_level c alarm id level).stmt m hm x)
      fun _ alarm ↦ (Coupling.unvisited_level c alarm id s.heap level).stmt m hm x
  call {id m} h level f args receiver :=
    h.respects (fun alarm ↦ (Coupling.reserving_level c alarm id level).call m f args receiver)
      fun _ alarm ↦ (Coupling.unvisited_level c alarm id s.heap level).call m f args receiver
  program {id m} h level q := by
    refine h.respects (fun alarm ↦ ?_) fun hm alarm ↦ ?_
    · have hlevel := Coupling.reserving_level c alarm id level
      exact hlevel.program (fun calls ⟨hst, ht⟩ ↦ ⟨hst ▸ rfl, ht.withCalls _ calls⟩) q
    · have hlevel := Coupling.unvisited_level c alarm id s.heap level
      exact hlevel.program (fun calls ⟨hst, ht, hm⟩ ↦ ⟨hst ▸ rfl, ht.withCalls _ calls, hm⟩) q
  init level declarators span := hs.respects_init
  turn h := (hs.turns h).takesTurn hs rfl h

namespace Session

/-- The variables of each turn of a loop are apart, in every state that a session passes. -/
theorem turns_apart {c : Config} {s : Session} (hs : s.Reached c) :
    s.Passes fun _ _ u ↦ u.KeepsTurnsApart c := by
  obtain ⟨t, ha⟩ := hs.exists_alike
  exact ha.passes fun active kept u _ hsound ↦ (State.scoped_of_sound hsound).keepsTurnsApart c

/-- A session in which a function was made in each turn of a loop. Each reads the variable of its
own turn, and what the second one assigns is not seen by the first. -/
theorem turns_apart_captured :
    let s := (Session.start .standard .start []).after 8 (Program.capturing .let).body
    s.Reached .standard ∧ (s.Passes fun _ _ u ↦ u.KeepsTurnsApart .standard) ∧
      s.heap.lookup ⟨3⟩ "i" = some ⟨"i", .let, .number (.ofNat 0)⟩ ∧
      s.heap.lookup ⟨5⟩ "i" = some ⟨"i", .let, .number (.ofNat 1)⟩ ∧
      (s.heap.assign ⟨5⟩ "i" .null).2.frame? ⟨2⟩ = s.heap.frame? ⟨2⟩ := by
  intro s
  have hs : s.Reached .standard := .after (.start .start []) 8 _
  have hpasses := turns_apart hs
  have hidle : s.interpreter.state.KeepsTurnsApart .standard := hpasses.idle
  have hfirst : s.heap.covers ⟨2⟩ ⟨3⟩ = true := by decide +kernel
  have hsecond : s.heap.covers ⟨4⟩ ⟨5⟩ = true := by decide +kernel
  exact ⟨hs, hpasses, hidle.reads hfirst (by decide +kernel) (by decide +kernel),
    hidle.reads hsecond (by decide +kernel) (by decide +kernel),
    hidle.spares (by decide +kernel) "i" .null⟩

end Session

/-- The first function reads what the variable was in its turn, or what became of the one
variable. -/
example :
    let value? := fun kind ↦
      match ((Session.start .standard .start []).interpreter.run 8 (.capturing kind) []).1 with
      | .value v => some v
      | _ => none
    value? .let = some (.number (.ofNat 0)) ∧ value? .var = some (.number (.ofNat 2)) := by
  decide +kernel

end EcmaTree
