import EcmaTree.Proofs.Alike.Level
import EcmaTree.Proofs.Discipline.Guarding
import EcmaTree.Proofs.Discipline.Level
import EcmaTree.Session.Interpreter

/-!
# Termination

Without loops every evaluation ends. How far evaluations can be nested is bounded by the number of
calls that may yet become active, and between two calls by the size of what is evaluated.
-/

namespace EcmaTree

open Carries

/-- A loop. -/
def Part.isLoop : Part → Bool
  | stmt s => s.isLoop
  | expr _ | function _ => false

/-- No loop is among a node and the nodes inside of it, those in functions included. -/
def Part.LoopFree (x : Part) : Prop := x.Every fun y ↦ y.isLoop = false

/-- A program without loops. -/
def Program.LoopFree (p : Program) : Prop := ∀ s ∈ p.body, (Part.stmt s).LoopFree

/-- No function that the roots reach has a loop. -/
def Heap.LoopFree (h : Heap) (roots : List HeapRef) : Prop :=
  ∀ id name code scope, h.Reachable roots (.function id) →
    h.function? id = some ⟨name, .closure code scope⟩ → (Part.function code).LoopFree

namespace Discipline

variable {c : Config} {bound depth n : Nat} {x : Part}

/-- The discipline of code without loops that is not larger than a bound. It does not allow for
exhaustion. -/
def loopFree (c : Config) (bound : Nat) : Discipline c :=
  .guarding (fun x ↦ x.LoopFree ∧ sizeOf x ≤ bound) (fun _ ↦ True) False
    (fun hx hy ↦ ⟨hx.1.of_mem hy, (Part.sizeOf_lt_of_mem_parts hy).le.trans hx.2⟩)
    (fun _ _ ↦ trivial) (fun _ _ ↦ trivial) (fun _ ↦ trivial)
    (fun {_} hs hl ↦ Bool.false_ne_true (hs.1.1.symm.trans hl))

/-- How many levels calls can take, when so many are active. Each takes those of the code that it
runs, and one for itself. -/
def levels (c : Config) (bound depth : Nat) : Nat := (c.maxDepth - depth) * (bound + 2)

theorem levels_succ (h : depth < c.maxDepth) :
    levels c bound depth = levels c bound (depth + 1) + bound + 2 := by
  obtain ⟨rest, hrest⟩ : ∃ rest, c.maxDepth - depth = rest + 1 := ⟨c.maxDepth - depth - 1, by omega⟩
  have hnext : c.maxDepth - (depth + 1) = rest := by omega
  rw [levels, levels, hrest, hnext, Nat.succ_mul]
  omega

/-- A level is high enough for what it has to evaluate itself and for the calls that are to come. -/
theorem loopFree_level (n : Nat) : ∀ depth,
    (∀ x, (loopFree c bound).Accepts x → sizeOf x + levels c bound depth < n →
      (loopFree c bound).Serves depth (c.level n) x) ∧
    (levels c bound depth < n → (loopFree c bound).Calls depth (c.level n)) := by
  induction n with
  | zero => exact fun depth ↦
    ⟨fun x _ h ↦ (Nat.not_lt_zero _ h).elim, fun h ↦ (Nat.not_lt_zero _ h).elim⟩
  | succ n ih =>
    intro depth
    have hbelow (hn : levels c bound depth ≤ n) (hlt : depth < c.maxDepth) :
        (loopFree c bound).Below depth n := by
      rw [levels_succ hlt] at hn
      refine ⟨(ih (depth + 1)).2 (by omega), fun {code} hc y hy ↦ ?_,
        fun _ _ _ ↦ ⟨fun _ ↦ trivial, fun _ ↦ trivial⟩⟩
      have hsize : sizeOf y < bound := (Part.sizeOf_lt_of_mem_parts hy).trans_le hc.2
      exact (ih (depth + 1)).1 y ((loopFree c bound).accepts_part hc hy) (by omega)
    refine ⟨fun x hx hn ↦ ?_, fun hn ↦ Below.calls (hbelow (by omega))⟩
    refine Below.serves (hbelow (by omega)) hx fun y hy ↦ (ih depth).1 y (accepts_inside hx hy) ?_
    have hsize := Part.sizeOf_lt_of_inside hy
    omega

end Discipline

/-- The code of a closure. -/
def Function.code? (f : Function) : Option FunctionNode :=
  match f.behaviour with
  | .closure code _ => some code
  | _ => none

/-- The code in a store of functions has a largest size. -/
theorem Store.exists_bound (fs : Store Function) :
    ∃ bound, fs.Codes fun code ↦ sizeOf (Part.function code) ≤ bound := by
  let size (i : Nat) : Nat :=
    ((fs.get? i).bind Function.code?).elim 0 fun code ↦ sizeOf (Part.function code)
  refine ⟨(Finset.range fs.size).sup size, fun i name code scope hi ↦ ?_⟩
  have hmem : i ∈ Finset.range fs.size := Finset.mem_range.mpr (lt_size_of_get?_eq_some hi)
  have hsize : sizeOf (Part.function code) = size i := by
    simp only [size, hi, Option.bind_some, Function.code?, Option.elim_some]
  exact hsize.le.trans (Finset.le_sup hmem)

/-- Two runs of a configuration, of which the second may have more levels, and may have things in
its heap that it does not reach. -/
def Pairing.deepening (c : Config) : Pairing := .same c False True False False.elim

/-- A collection leaves only functions without loops, if all that are reached have none. -/
theorem State.codes_collect {s : State} (h : s.heap.LoopFree s.owners) :
    s.collect.heap.functions.Codes fun code ↦ (Part.function code).LoopFree := by
  intro i name code scope hi
  have hcell : s.collect.heap.cell? (.function ⟨i⟩) =
      some (.function ⟨name, .closure code scope⟩) := by
    rw [Heap.cell?_function]
    exact congrArg (Option.map Cell.function) hi
  obtain ⟨hbefore, hreach⟩ := (Heap.cell?_collect_uses ..).mp hcell
  rw [Heap.cell?_function] at hbefore
  obtain ⟨f, hf, heq⟩ := Option.map_eq_some_iff.mp hbefore
  cases heq
  exact h ⟨i⟩ name code scope hreach hf

/-- A program without loops ends on every level that is high enough, from any state in which all
functions have no loops. -/
theorem Config.exists_level (c : Config) {p : Program} (hp : p.LoopFree) {s : State}
    (hs : s.heap.functions.Codes fun code ↦ (Part.function code).LoopFree) :
    ∃ level, ∀ t, (c.level level).program p s ≠ .exhausted t := by
  obtain ⟨bound, hbound⟩ := s.heap.functions.exists_bound
  let most := max bound (1 + sizeOf p.body)
  let level := 2 + sizeOf p.body + Discipline.levels c most s.depth
  refine ⟨level, fun t ht ↦ ?_⟩
  have hfits : (Discipline.loopFree c most).Fits s.heap.functions := fun i name code scope hi ↦
    ⟨hs i name code scope hi, (hbound i name code scope hi).trans (le_max_left ..)⟩
  have hallows : (Discipline.loopFree c most).Allows s.depth .still
      ((c.level level).program p) := by
    refine .program (fun x hx ↦ ?_) fun x hx ↦ ⟨fun _ ↦ trivial, fun _ ↦ trivial⟩
    have hsize := Part.sizeOf_lt_of_mem_all (Part.stmt_mem_all.mpr hx)
    exact (Discipline.loopFree_level level s.depth).1 (.stmt x)
      ⟨hp x hx, hsize.le.trans (le_max_right ..)⟩ (by omega)
  have hend := (hallows s rfl hfits).2
  rw [ht] at hend
  exact hend

namespace Interpreter

/-- The state in which a program begins while the host holds some values. -/
def holdingState (i : Interpreter) (held : List Value) : State :=
  { i.state with held := .values held :: i.state.held }

theorem result_run (i : Interpreter) (level : Nat) (p : Program) (held : List Value) :
    (i.run level p held).1 =
      .ofOutcome ((i.config.level level).program p (i.holdingState held)) := by
  rw [run, Eval.holding, holdingState]
  generalize (i.config.level level).program p _ = o
  cases o <;> rfl

/-- The roots of a run are those of its first state. -/
theorem owners_holdingState (i : Interpreter) (held : List Value) {r : HeapRef}
    (hr : r ∈ (i.holdingState held).owners) : r ∈ i.state.roots (refs held) := by
  rw [State.owners, holdingState, List.flatMap_cons] at hr
  rw [State.roots, State.owners]
  rcases List.mem_cons.mp hr with rfl | hr
  · exact List.mem_append_right _ (.head _)
  · rcases List.mem_append.mp hr with hr | hr
    · exact List.mem_append_left _ hr
    · exact List.mem_append_right _ (.tail _ hr)

/-- A program without loops always ends, be it with a value, a throw or a fault, if none of the
functions that it can reach has a loop: on every level that is high enough it has the same result,
and is not cut short. -/
theorem run_terminates (i : Interpreter) {p : Program} (hp : p.LoopFree) {held : List Value}
    (hheap : i.state.heap.LoopFree (i.state.roots (refs held))) :
    ∃ level result, result ≠ .exhausted ∧
      ∀ higher, level ≤ higher → (i.run higher p held).1 = result := by
  have hs : (i.holdingState held).heap.LoopFree (i.holdingState held).owners :=
    fun id name code scope hreach hf ↦
      hheap id name code scope (hreach.mono fun _ ↦ i.owners_holdingState held) hf
  -- what cannot be reached may have loops, so the run to compare with is one that collected first
  obtain ⟨level, hlevel⟩ := i.config.exists_level hp (State.codes_collect hs)
  have hsame (higher : Nat) (hle : level ≤ higher) :
      RunResult.ofOutcome ((i.config.level level).program p (i.holdingState held).collect) =
        .ofOutcome ((i.config.level higher).program p (i.holdingState held)) := by
    have hr {a : Activation} : (i.config.level level).Alike
        ((Pairing.deepening i.config).entered a) (i.config.level higher) :=
      Pairing.level_alike _ (.inr ⟨trivial, hle⟩)
    have hcollect := (State.Alike.refl (.deepening i.config) [] (i.holdingState held) False.elim
      nofun).collect_left id
    have hprogram : Eval.Alike (.deepening i.config) [] [] ((i.config.level level).program p)
        ((i.config.level higher).program p) :=
      Evaluator.Alike.program (.refl False p) nofun hr
    have ho := hprogram _ _ hcollect
    generalize hfirst : (i.config.level level).program p (i.holdingState held).collect = o,
      (i.config.level higher).program p (i.holdingState held) = o' at ho ⊢
    cases ho with
    | done | thrown | faulted | exhausted => rfl
    | free h => exact h.elim
    | short _ t => exact (hlevel t hfirst).elim
  refine ⟨level, _, ?_, fun higher hle ↦ (i.result_run higher p held).trans (hsame higher hle).symm⟩
  intro hexhausted
  cases ho : (i.config.level level).program p (i.holdingState held).collect with
  | done | thrown | faulted =>
    rw [ho] at hexhausted
    cases hexhausted
  | exhausted t => exact hlevel t ho

/-- A function that calls itself, and does so for each element of an array, too. -/
def recursive : Program where
  body := [.function ⟨.declaration, "f", [], .statements
      [.expression (.call (.member (.array [some (.null .nowhere)] .nowhere) (.text "map" .nowhere)
        false .nowhere) [some (.identifier "f" .nowhere)] .nowhere) .nowhere,
      .returned (some (.call (.identifier "f" .nowhere) [] .nowhere)) .nowhere],
      .nowhere⟩ .nowhere,
    .expression (.call (.identifier "f" .nowhere) [] .nowhere) .nowhere]
  span := .nowhere

theorem run_terminates_recursive :
    recursive.LoopFree ∧ ∃ level result, result ≠ .exhausted ∧ ∀ higher, level ≤ higher →
      ((start .standard .empty .start []).run higher recursive []).1 = result := by
  have hp : recursive.LoopFree := by
    simp [Program.LoopFree, recursive, Part.LoopFree, Part.every_iff_forall, Part.parts,
      Part.ofStmt, Part.ofExpr, Part.ofBody, Part.ofOption, Part.present, Part.all, Part.isLoop,
      Stmt.isLoop]
  have hheap : (start .standard .empty .start []).state.heap.LoopFree
      ((start .standard .empty .start []).state.roots []) :=
    fun id name code scope _ hf ↦ Store.Codes.empty
      (P := fun code ↦ (Part.function code).LoopFree) id.index name code scope hf
  exact ⟨hp, run_terminates _ hp hheap⟩

end Interpreter

end EcmaTree
