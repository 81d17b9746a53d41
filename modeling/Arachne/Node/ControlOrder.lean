import Arachne.Node.ControlQueue

/-! The order in which control requests are taken. A poll takes the first live request; a poll for
certain requests takes the first of those among the deferred ones and the front of the channel, and
defers the others. -/

namespace Arachne.Node

open ByteCodec Transition

namespace ControlQueue

def pollControlMatching (queue : ControlQueue) (wanted : Bytes → Bool) :
    Option ControlRequest × ControlQueue :=
  queue.pollControlFirst wanted 8

end ControlQueue

/-- What happens to the queue of a node, whoever polls it. -/
inductive QueueAct where
  | send (peer : Block 32) (payload : Bytes)
  | cancel (reply : Nat)
  | poll
  | pollMatching (wanted : Bytes → Bool)
  | pollFirst (wanted : Bytes → Bool) (depth : Nat)

namespace QueueAct

def perform (queue : ControlQueue) : QueueAct → Option ControlRequest × ControlQueue
  | .send peer payload => (none, queue.trySend peer payload)
  | .cancel reply => (none, { queue with closed := reply :: queue.closed })
  | .poll => queue.pollControl
  | .pollMatching wanted => queue.pollControlMatching wanted
  | .pollFirst wanted depth => queue.pollControlFirst wanted depth

def after (queue : ControlQueue) (act : QueueAct) : ControlQueue := (act.perform queue).2

def taken (step : Taken ControlQueue QueueAct) : List ControlRequest :=
  (step.label.perform step.before).1.toList

/-- The request that a step adds to the queue. -/
def accepted (step : Taken ControlQueue QueueAct) : List ControlRequest :=
  match step.label with
  | .send peer payload =>
      if step.before.controls.length < controlCapacity then
        [⟨peer, payload, step.before.nextReply⟩]
      else []
  | _ => []

end QueueAct

namespace ControlQueue

open QueueAct

/-- How requests were taken along a trace that ends in `last`. Each request that was accepted was
taken once, or has expired, or is held; those held are in the order of their arrival, and a poll
takes the first live one of the eight at the front. -/
structure InOrder (trace : List (Taken ControlQueue QueueAct)) (last : ControlQueue) : Prop where
  held : last.held.Sublist (trace.flatMap accepted)
  once : ∃ dropped, (trace.flatMap accepted).Perm (trace.flatMap taken ++ (dropped ++ last.held)) ∧
    ∀ request ∈ dropped, last.expired request = true
  poll : ∀ step ∈ trace, step.label = .poll →
    taken step = ((step.before.held.take pollDepth).find?
      fun request => !step.before.expired request).toList ∧
    ∃ dropped, step.before.held = dropped ++ (taken step ++ step.after.held) ∧
      ∀ request ∈ dropped, step.before.expired request = true
  first : ∀ step ∈ trace, ∀ wanted depth,
    (step.label = .pollFirst wanted depth ∨ step.label = .pollMatching wanted ∧ depth = 8) →
    taken step = ((step.before.deferredControls ++ step.before.controls.take depth).find?
      fun request => !step.before.expired request && wanted request.payload).toList ∧
    ∃ before after, step.before.held = before ++ (taken step ++ after) ∧
      step.after.held = before ++ after

section Polls

variable {queue next : ControlQueue}

theorem pollLoop_takes (depth : Nat) (queue : ControlQueue) : ∃ dropped,
    queue.held = dropped ++ ((pollLoop depth queue).1.toList ++ (pollLoop depth queue).2.held) ∧
    ∀ request ∈ dropped, queue.expired request = true := by
  induction depth generalizing queue with
  | zero => exact ⟨[], rfl, List.forall_mem_nil _⟩
  | succ depth ih =>
    rw [pollLoop]
    cases hpop : queue.pop with
    | none => exact ⟨[], rfl, List.forall_mem_nil _⟩
    | some popped =>
      obtain ⟨request, rest⟩ := popped
      obtain ⟨hheld, hsame⟩ := pop_eq_some hpop
      dsimp only
      rw [hsame.expired_eq]
      cases hexpired : queue.expired request with
      | false => exact ⟨[], hheld, List.forall_mem_nil _⟩
      | true =>
        obtain ⟨dropped, hrest, hdropped⟩ := ih rest
        simp only [hsame.expired_eq] at hdropped
        refine ⟨request :: dropped, ?_, List.forall_mem_cons.mpr ⟨hexpired, hdropped⟩⟩
        rw [if_pos rfl, hheld, hrest]
        rfl

theorem pollControlFirst_takes (queue : ControlQueue) (wanted : Bytes → Bool) (depth : Nat) :
    (queue.pollControlFirst wanted depth).1 =
      (queue.deferredControls ++ queue.controls.take depth).find?
        (fun request => !queue.expired request && wanted request.payload) ∧
    ∃ before after, queue.held =
        before ++ ((queue.pollControlFirst wanted depth).1.toList ++ after) ∧
      (queue.pollControlFirst wanted depth).2.held = before ++ after := by
  have hheld : queue.held = queue.deferredControls ++ queue.controls.take depth ++
      queue.controls.drop depth := by
    rw [List.append_assoc, List.take_append_drop, held]
  simp only [pollControlFirst]
  generalize queue.deferredControls ++ queue.controls.take depth = scanned at hheld
  split
  · rename_i index hindex
    obtain ⟨hlt, hwanted, hbefore⟩ := List.findIdx?_eq_some_iff_getElem.mp hindex
    refine ⟨?_, scanned.take index, scanned.drop (index + 1) ++ queue.controls.drop depth, ?_, ?_⟩
    · rw [List.getElem?_eq_getElem hlt, eq_comm, List.find?_eq_some_iff_getElem]
      refine ⟨hwanted, index, hlt, rfl, fun j hj => ?_⟩
      simpa [imp_iff_or_not, or_comm] using hbefore j hj
    · rw [hheld, List.getElem?_eq_getElem hlt, Option.toList_some, List.singleton_append,
        ← List.cons_append, List.getElem_cons_drop, ← List.append_assoc, List.take_append_drop]
    · rw [held, List.eraseIdx_eq_take_drop_succ, List.append_assoc]
  · rename_i hnone
    refine ⟨(List.find?_eq_none.mpr ?_).symm, [], queue.held, rfl, ?_⟩
    · simpa using List.findIdx?_eq_none_iff.mp hnone
    · rw [hheld]
      rfl

end Polls

section Steps

/-- How the queue stands to what was accepted and taken. -/
def Ledger (queue : ControlQueue) (accepted taken : List ControlRequest) : Prop :=
  queue.held.Sublist accepted ∧ ∃ dropped, accepted.Perm (taken ++ (dropped ++ queue.held)) ∧
    ∀ request ∈ dropped, queue.expired request = true

variable {queue next : ControlQueue} {accepted taken : List ControlRequest}

/-- A poll drops expired requests, takes at most one, and leaves the others in order. -/
theorem Ledger.poll {result after : List ControlRequest} (h : Ledger queue accepted taken)
    (dropped before : List ControlRequest) (hclosed : next.closed = queue.closed)
    (hheld : queue.held = dropped ++ (before ++ (result ++ after)))
    (hnext : next.held = before ++ after)
    (hdropped : ∀ request ∈ dropped, queue.expired request = true) :
    Ledger next accepted (taken ++ result) := by
  obtain ⟨hsub, gone, hperm, hgone⟩ := h
  refine ⟨?_, gone ++ dropped, ?_, ?_⟩
  · refine List.Sublist.trans ?_ hsub
    rw [hheld, hnext]
    refine List.Sublist.trans ?_ (List.sublist_append_right _ _)
    exact (List.Sublist.refl before).append (List.sublist_append_right _ _)
  · rw [hheld] at hperm
    rw [hnext]
    refine hperm.trans (List.perm_iff_count.mpr fun request => ?_)
    simp only [List.count_append]
    omega
  · simp only [expired, hclosed]
    exact List.forall_mem_append.mpr ⟨hgone, hdropped⟩

theorem ledger_step (h : Ledger queue accepted taken) (act : QueueAct) :
    Ledger (act.after queue) (accepted ++ QueueAct.accepted ⟨queue, act, act.after queue⟩)
      (taken ++ QueueAct.taken ⟨queue, act, act.after queue⟩) := by
  have hfirst : ∀ wanted depth, Ledger (queue.pollControlFirst wanted depth).2 (accepted ++ [])
      (taken ++ (queue.pollControlFirst wanted depth).1.toList) := by
    intro wanted depth
    obtain ⟨_, before, after, hheld, hnext⟩ := pollControlFirst_takes queue wanted depth
    rw [List.append_nil]
    refine h.poll [] before ?_ hheld hnext nofun
    simp only [pollControlFirst]
    split <;> rfl
  cases act with
  | send peer payload =>
    simp only [QueueAct.accepted, QueueAct.taken, QueueAct.perform, QueueAct.after, trySend,
      Option.toList_none, List.append_nil]
    split
    · obtain ⟨hsub, gone, hperm, hgone⟩ := h
      have hheld := (List.append_assoc queue.deferredControls queue.controls
        [⟨peer, payload, queue.nextReply⟩]).symm
      refine ⟨?_, gone, ?_, hgone⟩ <;> rw [held, hheld]
      · exact hsub.append (List.Sublist.refl _)
      · rw [← List.append_assoc gone, ← List.append_assoc taken]
        exact hperm.append_right _
    · rwa [List.append_nil]
  | cancel reply =>
    obtain ⟨hsub, gone, hperm, hgone⟩ := h
    simp only [QueueAct.accepted, QueueAct.taken, QueueAct.perform, Option.toList_none,
      List.append_nil]
    refine ⟨hsub, gone, hperm, fun request hrequest => ?_⟩
    exact decide_eq_true (List.mem_cons_of_mem _ (of_decide_eq_true (hgone request hrequest)))
  | poll =>
    obtain ⟨dropped, hheld, hdropped⟩ := pollLoop_takes pollDepth queue
    simp only [QueueAct.accepted, List.append_nil]
    exact h.poll dropped [] (pollControl_same queue).closed hheld rfl hdropped
  | pollMatching wanted => exact hfirst wanted 8
  | pollFirst wanted depth => exact hfirst wanted depth

end Steps

/-- Whatever arrives, expires and is polled, and in whatever order. -/
theorem control_requests_in_order (acts : List QueueAct) :
    InOrder (Transition.play QueueAct.after new acts) (acts.foldl QueueAct.after new) := by
  have hrun := Transition.play_run QueueAct.after new acts
  have h := hrun.accumulated (C := fun _ => True)
    (I := fun queue past => Ledger queue (past.flatMap accepted) (past.flatMap taken))
    (fun step => [step]) ?_ ⟨List.Sublist.refl _, [], List.Perm.refl _, nofun⟩ (fun _ _ => trivial)
  · rw [List.flatMap_singleton'] at h
    refine ⟨h.1, h.2, fun step hstep hpoll => ?_, fun step hstep wanted depth hlabel => ?_⟩
    · simp only [QueueAct.taken, after_of_mem_play hstep, QueueAct.after, hpoll]
      exact ⟨congrArg _ (pollLoop_spec pollDepth step.before).2.1,
        pollLoop_takes pollDepth step.before⟩
    · obtain ⟨hfound, hrest⟩ := pollControlFirst_takes step.before wanted depth
      rcases hlabel with hlabel | ⟨hlabel, rfl⟩ <;>
        simp only [QueueAct.taken, after_of_mem_play hstep, QueueAct.after, hlabel] <;>
        exact ⟨congrArg _ hfound, hrest⟩
  · rintro queue act _ past hledger rfl _
    simpa [List.flatMap_append] using ledger_step hledger act

end ControlQueue

end Arachne.Node
