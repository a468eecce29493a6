import EcmaTree.Proofs.Alike.Host
import EcmaTree.Proofs.Calling

/-!
# Alike calls

Calls of the same function with the same arguments are alike, if the evaluations of the nodes inside
its code are. A closure can have alike code in the two heaps; everything else about it is the same.
-/

namespace EcmaTree

open Carries Eval.Alike

/-- Inside of a call both ways run functions alike. -/
def Running.Alike (p : Pairing) (run run' : Running) : Prop :=
  ∀ (entry : CallFrame) {kept : List HeapRef} (f : FunctionRef) {args : List Value}
    {receiver : Value}, refs (Value.function f) ⊆ kept → refs args ⊆ kept → refs receiver ⊆ kept →
      Eval.Alike (p.entered (.call entry)) kept [] (run entry f args receiver)
        (run' entry f args receiver)

/-- The frame that a call shows on the stack is the same both ways. -/
theorem Pairing.callFrame_eq (p : Pairing) (name : Text) (site : Span) :
    p.right.callFrame name site = p.left.callFrame name site := by
  rw [Config.callFrame, Config.callFrame, p.source_eq]

namespace Evaluator.Alike

variable {p : Pairing} {r r' : Evaluator} {kept : List HeapRef} {args : List Value}
  {receiver : Value} {code code' : FunctionNode}

theorem structural {α : Type} [Carries α] {kept' : List HeapRef} (cause : StructuralCause)
    (span : Span) :
    Eval.Alike p kept kept' (Eval.structural cause span : Eval α) (Eval.structural cause span) :=
  fault _

theorem statements (hr : r.Alike p r') {body body' : List Stmt}
    (hbody : List.Forall₂ (Stmt.Alike p.free) body body') (last : Option Value)
    (hlast : refs last ⊆ kept) :
    Eval.Alike p kept [] (r.statements body last) (r'.statements body' last) := by
  induction hbody generalizing last kept with
  | nil => exact finish hlast
  | cons hs _ ih =>
    refine bind (holding (hr.stmt hs) (by grind)) fun c _ ↦ ?_
    split
    · exact bind (setSignal (by grind)) fun _ _ ↦ finish (by grind)
    · have := refs_orElse c.value? last
      exact ih _ (by grind)

theorem body (hr : r.Alike p r') (hcode : code.Alike p.free code') :
    Eval.Alike p kept [] (r.body code) (r'.body code') := by
  obtain ⟨kind, name, params, span, hbody⟩ := hcode
  cases hbody with
  | concise he => exact hr.expr he
  | statements hss =>
    refine bind (hr.statements hss none (List.nil_subset _)) fun c _ ↦ ?_
    cases c with
    | returned v => exact finish (by grind)
    | normal v => exact finish (List.nil_subset _)
    | broke label | continued label => exact structural _ _

/-- The frame of a call refers to nothing but what the call is given. -/
theorem references_callFrame (self : FunctionRef) (code : FunctionNode) (scope : FrameId)
    (args : List Value) (receiver : Value) :
    (callFrame self code scope args receiver).references ⊆
      .frame scope :: (refs (Value.function self) ++ refs args ++ refs receiver) := by
  intro r hr
  rcases Frame.mem_references.mp hr with ⟨_, ⟨⟩, rfl⟩ | ⟨b, hb, hr⟩ | ⟨v, hv, hr⟩ | ⟨_, _, ⟨⟩, _⟩
  · exact List.mem_cons_self ..
  · have hb : refs b.value ⊆ refs (Value.function self) ++ refs args := by
      simp only [callFrame, callBindings, List.mem_reverse, List.mem_append, List.mem_map] at hb
      rcases hb with hb | ⟨⟨name, i⟩, _, rfl⟩
      · split at hb
        · obtain rfl := List.mem_singleton.mp hb
          exact List.subset_append_left ..
        · cases hb
      · exact List.subset_append_of_subset_right _ (refs_argument args i)
    have := hb (Option.mem_toList.mpr hr)
    grind
  · have hv : v = receiver := by
      simp only [callFrame] at hv
      split at hv
      · cases hv
      · exact (Option.some.inj hv).symm
    have : r ∈ refs receiver := Option.mem_toList.mpr (hv ▸ hr)
    grind

theorem closure (hr : r.Alike p r') (hcode : code.Alike p.free code') (self : FunctionRef)
    {scope : FrameId} (hscope : .frame scope ∈ kept) (hself : refs (Value.function self) ⊆ kept)
    (hargs : refs args ⊆ kept) (hreceiver : refs receiver ⊆ kept) :
    Eval.Alike p kept [] (r.closure self code scope args receiver)
      (r'.closure self code' scope args receiver) := by
  intro s t h
  have hframe : callFrame self code' scope args receiver =
      callFrame self code scope args receiver := by
    cases hcode
    rfl
  obtain ⟨hid, hh⟩ := h.heap.newFrame (callFrame self code scope args receiver) fun x hx ↦ by
    have := references_callFrame self code scope args receiver hx
    exact State.reachable_of_mem (by grind)
  rw [Evaluator.closure, Evaluator.closure, hframe]
  simp only [← hid]
  exact (hr.body hcode).inFrame h hh

theorem hostCall (hr : r.Alike p r') (f : HostFunction) (hargs : refs args ⊆ kept)
    (hreceiver : refs receiver ⊆ kept) :
    Eval.Alike p kept [] (r.hostCall f args receiver) (r'.hostCall f args receiver) := by
  refine bind (moment hr _ (by grind)) fun _ _ ↦
    bind (runHost hr f (by grind) (by grind)) fun v _ ↦ ?_
  exact bind (moment hr _ (by grind)) fun _ _ ↦ finish (by grind)

theorem apply (hr : r.Alike p r') (f : FunctionRef) (hf : refs (Value.function f) ⊆ kept)
    (hargs : refs args ⊆ kept) (hreceiver : refs receiver ⊆ kept) :
    Eval.Alike p kept [] (r.apply f args receiver) (r'.apply f args receiver) := by
  rcases f with id | m | m
  · intro s t h
    have hid : s.heap.Reachable (s.roots kept) (.function id) :=
      State.reachable_of_mem (hf (List.mem_singleton.mpr rfl))
    have hrel := h.heap.function?_rel (.inr hid)
    have hscope (g : Function) (hg : s.heap.function? id = some g) (x : HeapRef)
        (hx : x ∈ g.references) : s.heap.Reachable (s.roots kept) x :=
      hid.next (by simpa [Heap.references, hg] using hx)
    unfold Evaluator.apply
    simp only [Eval.bind_apply, Eval.readHeap]
    generalize s.heap.function? id = g, t.heap.function? id = g' at hrel hscope ⊢
    cases hrel with
    | none => exact fault _ s t h
    | some hrel =>
      cases hrel with
      | host name f => exact hr.hostCall f hargs hreceiver s t h
      | captured name scope => exact fault _ s t h
      | closure name scope hcode =>
        have h' : s.Alike p (.frame scope :: kept) t := h.keep fun x hx ↦ by
          rcases List.mem_cons.mp hx with rfl | hx
          · exact hscope _ rfl _ (List.mem_singleton.mpr rfl)
          · exact State.reachable_of_mem hx
        have hcall : Eval.Alike p (.frame scope :: kept) []
            (r.closure (.cell id) _ scope args receiver)
            (r'.closure (.cell id) _ scope args receiver) :=
          hr.closure hcode _ (by grind) (by grind) (by grind) (by grind)
        refine bind hcall (fun v _ ↦ ?_) s t h'
        exact bind (moment hr _ (by grind)) fun _ _ ↦ finish (by grind)
  · exact runArrayMethod hr m hreceiver hargs
  · exact runTextMethod m hreceiver hargs

/-- What is alike inside of every activation runs functions alike. -/
theorem running (hin : ∀ a, r.Alike (p.entered a) r') : Running.Alike p r.running r'.running :=
  fun entry _ f _ _ hf hargs hreceiver ↦ (hin (.call entry)).apply f hf hargs hreceiver

/-- A call begins both ways or neither way, as both are equally deep. -/
theorem inCall {name : Text} {site : Span} {body body' : Eval Value}
    (hbody : Eval.Alike (p.entered (.call (p.left.callFrame name site))) kept [] body body') :
    Eval.Alike p kept [] (p.left.inCall name site body) (p.right.inCall name site body') := by
  intro s t h
  rw [Config.inCall, Config.inCall, p.callFrame_eq, ← h.depth, ← p.maxDepth_eq]
  split
  · next hlt => exact called _ hbody h hlt
  · exact raise _ _ s t h

theorem callFunctionBy (hr : r.Alike p r') {run run' : Running} (hrun : Running.Alike p run run')
    (f : FunctionRef) (site : Span) (hf : refs (Value.function f) ⊆ kept)
    (hargs : refs args ⊆ kept) (hreceiver : refs receiver ⊆ kept) :
    Eval.Alike p kept [] (r.callFunctionBy run f args receiver site)
      (r'.callFunctionBy run' f args receiver site) := by
  have hname : Eval.Alike p kept kept (Eval.readHeap (·.functionName f))
      (Eval.readHeap (·.functionName f)) :=
    readHeap fun _ _ _ ha hk ↦ ⟨ha.functionName_eq (Heap.reaches_of_subset hk hf), nofun⟩
  refine bind hname fun name _ ↦ ?_
  rw [hr.left, hr.right, p.callFrame_eq]
  exact mono_right (holding (inCall (hrun _ f hf hargs hreceiver)) (by grind)) (List.nil_subset _)

theorem callValueBy (hr : r.Alike p r') {run run' : Running} (hrun : Running.Alike p run run')
    (callee : Value) (hcallee : refs callee ⊆ kept) (hargs : refs args ⊆ kept)
    (hreceiver : refs receiver ⊆ kept) :
    Eval.Alike p kept [] (r.callValueBy run callee args receiver)
      (r'.callValueBy run' callee args receiver) := by
  cases callee with
  | function f => exact hr.callFunctionBy hrun f _ hcallee hargs hreceiver
  | _ => exact bind (textOf hcallee) fun _ _ ↦ raise _ _

theorem callValue (hr : r.Alike p r') (hin : ∀ a, r.Alike (p.entered a) r') (callee : Value)
    (hcallee : refs callee ⊆ kept) (hargs : refs args ⊆ kept) (hreceiver : refs receiver ⊆ kept) :
    Eval.Alike p kept [] (r.callValue callee args receiver)
      (r'.callValue callee args receiver) := by
  rw [← callValueBy_running, ← callValueBy_running]
  exact hr.callValueBy (running hin) callee hcallee hargs hreceiver

end Evaluator.Alike

end EcmaTree
