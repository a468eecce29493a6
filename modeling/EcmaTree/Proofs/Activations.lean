import EcmaTree.Evaluation.State

/-!
# Activations

What is being run: calls of functions and programs, each with its entry on the call trace. The trace
and the number of active calls are kept apart from each other, so that they agree is a property of
the states that can be reached.
-/

namespace EcmaTree

/-- A call or a program that has begun and not ended. -/
inductive Activation where
  | call (entry : CallFrame)
  | program (entry : CallFrame)

namespace Activation

/-- The entry that an activation has on the call trace. -/
def entry : Activation → CallFrame
  | call e | program e => e

/-- Only calls are counted. -/
def isCall : Activation → Bool
  | call _ => true
  | program _ => false

/-- The run of a program. -/
def isProgram (a : Activation) : Bool := !a.isCall

end Activation

/-- A trace and a number of active calls account for activations, the innermost first: each has its
entry, each call is counted, and no more of them are active than may be. A program can only be the
outermost. -/
structure Config.Accounts (c : Config) (active : List Activation) (calls : CallTrace)
    (depth : Nat) : Prop where
  calls_eq : calls = active.map Activation.entry
  depth_eq : depth = active.countP Activation.isCall
  depth_le : depth ≤ c.maxDepth
  isCall_of_inner : ∀ a ∈ active.dropLast, a.isCall = true

namespace Config.Accounts

variable {c : Config} {active : List Activation} {calls : CallTrace} {depth : Nat}

theorem nil (c : Config) : c.Accounts [] [] 0 := ⟨rfl, rfl, Nat.zero_le _, nofun⟩

/-- A call begins, if not too many are active. -/
theorem call (h : c.Accounts active calls depth) (hlt : depth < c.maxDepth) (entry : CallFrame) :
    c.Accounts (.call entry :: active) (entry :: calls) (depth + 1) where
  calls_eq := by rw [h.calls_eq]; rfl
  depth_eq := by rw [h.depth_eq, List.countP_cons_of_pos rfl]
  depth_le := hlt
  isCall_of_inner := by
    cases active with
    | nil => exact nofun
    | cons b outer =>
      intro a ha
      rcases List.mem_cons.mp ha with rfl | ha
      · rfl
      · exact h.isCall_of_inner a ha

/-- A program begins where nothing is active. -/
theorem program (h : c.Accounts [] calls depth) (entry : CallFrame) :
    c.Accounts [.program entry] (entry :: calls) depth where
  calls_eq := by rw [h.calls_eq]; rfl
  depth_eq := by rw [h.depth_eq, List.countP_cons_of_neg Bool.false_ne_true]
  depth_le := h.depth_le
  isCall_of_inner := nofun

/-- A program ends, and the trace is again as it was before it. -/
theorem of_program {entry : CallFrame} {later : CallTrace} {depth' : Nat}
    (h : c.Accounts [] calls depth) (h' : c.Accounts [.program entry] later depth') :
    c.Accounts [] calls depth' where
  calls_eq := h.calls_eq
  depth_eq := by rw [h'.depth_eq, List.countP_cons_of_neg Bool.false_ne_true]
  depth_le := h'.depth_le
  isCall_of_inner := nofun

end Config.Accounts

end EcmaTree
