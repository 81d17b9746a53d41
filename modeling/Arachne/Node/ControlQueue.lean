import Arachne.Lib.ByteCodec
import Arachne.Lib.Transition

/-! The control queue of a node and its arrival signal. Requests arrive on a channel, each with a
notification; the host waits for the signal, polls until a poll returns nothing, and waits again.
A poll looks at no more than eight requests and drops those whose requester has gone. -/

namespace Arachne.Node

open ByteCodec Transition

def controlCapacity : Nat := 512
def pollDepth : Nat := 8

/-- A request in the queue. `reply` names the channel its requester waits on. -/
structure ControlRequest where
  peer : Block 32
  payload : Bytes
  reply : Nat
deriving DecidableEq

/-- Where the host is: polling, done with polling, or waiting for the signal. -/
inductive HostPhase where
  | polling
  | drained
  | waiting
deriving DecidableEq

/-- The queue of a node, the signal's stored permit, and what goes on around them: the replies
nobody waits for any more, and the requests whose arrival is still to raise the signal. -/
structure ControlQueue where
  deferredControls : List ControlRequest
  controls : List ControlRequest
  closed : List Nat
  announcing : List Nat
  permit : Bool
  host : HostPhase
  nextReply : Nat
deriving DecidableEq

namespace ControlQueue

/-- A node before any request, with a host that is about to wait. -/
def new : ControlQueue := ⟨[], [], [], [], false, .drained, 0⟩

/-- The requests held, in the order in which they are polled. -/
def held (queue : ControlQueue) : List ControlRequest :=
  queue.deferredControls ++ queue.controls

/-- The requester has gone. -/
def expired (queue : ControlQueue) (request : ControlRequest) : Bool :=
  decide (request.reply ∈ queue.closed)

/-- `notify_one`: a waiting host wakes, and otherwise one permit is stored. -/
def notifyOne (queue : ControlQueue) : ControlQueue :=
  match queue.host with
  | .waiting => { queue with host := .polling }
  | _ => { queue with permit := true }

/-- `notified().await`: takes the stored permit, or waits. -/
def awaitSignal (queue : ControlQueue) : ControlQueue :=
  if queue.permit = true then { queue with permit := false, host := .polling }
  else { queue with host := .waiting }

/-- The first half of `offer`; a full channel refuses the request. -/
def trySend (queue : ControlQueue) (peer : Block 32) (payload : Bytes) : ControlQueue :=
  if queue.controls.length < controlCapacity then
    { queue with
      controls := queue.controls ++ [⟨peer, payload, queue.nextReply⟩]
      announcing := queue.announcing ++ [queue.nextReply]
      nextReply := queue.nextReply + 1 }
  else queue

/-- `deferred_controls.pop_front().or_else(|| controls.try_recv().ok())`. -/
def pop (queue : ControlQueue) : Option (ControlRequest × ControlQueue) :=
  match queue.deferredControls, queue.controls with
  | request :: rest, _ => some (request, { queue with deferredControls := rest })
  | [], request :: rest => some (request, { queue with controls := rest })
  | [], [] => none

/-- The loop of `poll_control`. -/
def pollLoop : Nat → ControlQueue → Option ControlRequest × ControlQueue
  | 0, queue => (none, queue)
  | depth + 1, queue =>
      match queue.pop with
      | none => (none, queue)
      | some (request, rest) =>
          if rest.expired request = true then pollLoop depth rest else (some request, rest)

def pollControl (queue : ControlQueue) : Option ControlRequest × ControlQueue :=
  pollLoop pollDepth queue

/-- Takes the first request that is live and wanted out of those scanned, and sets the others
aside. -/
def pollControlFirst (queue : ControlQueue) (wanted : Bytes → Bool) (depth : Nat) :
    Option ControlRequest × ControlQueue :=
  let scanned := queue.deferredControls ++ queue.controls.take depth
  let rest := { queue with controls := queue.controls.drop depth }
  match scanned.findIdx? fun request => !queue.expired request && wanted request.payload with
  | some index => (scanned[index]?, { rest with deferredControls := scanned.eraseIdx index })
  | none => (none, { rest with deferredControls := scanned })

end ControlQueue

/-- What happens around the queue: a request is sent, an arrival raises the signal, a requester
goes, the host raises the signal itself, waits, polls, or polls for certain requests. -/
inductive ControlEvent where
  | send (peer : Block 32) (payload : Bytes)
  | announce (reply : Nat)
  | cancel (reply : Nat)
  | rearm
  | wait
  | poll
  | pollFirst (wanted : Bytes → Bool) (depth : Nat)

open ControlQueue in
/-- The queue after an event; `none` where the event cannot happen. -/
def ControlEvent.occur (queue : ControlQueue) : ControlEvent → Option ControlQueue
  | .send peer payload => some (queue.trySend peer payload)
  | .announce reply =>
      if reply ∈ queue.announcing then
        some ({ queue with announcing := queue.announcing.erase reply } : ControlQueue).notifyOne
      else none
  | .cancel reply => some { queue with closed := reply :: queue.closed }
  | .rearm => some queue.notifyOne
  | .wait => if queue.host = .drained then some queue.awaitSignal else none
  | .poll =>
      if queue.host = .polling then
        match queue.pollControl with
        | (some _, rest) => some rest
        | (none, rest) => some { rest with host := .drained }
      else none
  | .pollFirst wanted depth =>
      if queue.host = .polling then some (queue.pollControlFirst wanted depth).2 else none

def ControlStep (queue : ControlQueue) (event : ControlEvent) (next : ControlQueue) : Prop :=
  event.occur queue = some next

namespace ControlQueue

/-- Nobody is left to wait unheard: when the host has stopped polling and no permit is stored,
every request held has expired or is still to raise the signal. -/
def Announced (queue : ControlQueue) : Prop :=
  queue.host ≠ .polling → queue.permit = false →
    ∀ request ∈ queue.held, queue.expired request = true ∨ request.reply ∈ queue.announcing

/-- The eight requests that a poll looks at have expired, one behind them is live and has raised
the signal already, and no permit is left. -/
def Blocked (queue : ControlQueue) : Prop :=
  queue.permit = false ∧ (∀ request ∈ queue.held.take pollDepth, queue.expired request = true) ∧
    ∃ request ∈ queue.held.drop pollDepth,
      queue.expired request = false ∧ request.reply ∉ queue.announcing

instance (queue : ControlQueue) : Decidable queue.Blocked := by
  unfold Blocked
  infer_instance

section Polling

variable {queue next : ControlQueue}

/-- What a poll leaves alone. -/
structure SameAround (queue next : ControlQueue) : Prop where
  closed : next.closed = queue.closed
  announcing : next.announcing = queue.announcing
  permit : next.permit = queue.permit
  host : next.host = queue.host

theorem pop_eq_none (h : queue.pop = none) : queue.held = [] := by
  rw [pop] at h
  split at h
  · cases h
  · cases h
  · rename_i hdeferred hcontrols
    rw [held, hdeferred, hcontrols]
    rfl

theorem pop_eq_some {request : ControlRequest} (h : queue.pop = some (request, next)) :
    queue.held = request :: next.held ∧ SameAround queue next := by
  rw [pop] at h
  split at h
  · rename_i hdeferred
    cases h
    refine ⟨?_, rfl, rfl, rfl, rfl⟩
    rw [held, hdeferred]
    rfl
  · rename_i hdeferred hcontrols
    cases h
    refine ⟨?_, rfl, rfl, rfl, rfl⟩
    rw [held, hdeferred, hcontrols]
    rfl
  · cases h

theorem SameAround.expired_eq (h : SameAround queue next) (request : ControlRequest) :
    next.expired request = queue.expired request := by
  rw [expired, h.closed, expired]

/-- A poll returns the first live request among those it looks at; without one it drops them. -/
theorem pollLoop_spec (depth : Nat) (queue : ControlQueue) :
    SameAround queue (pollLoop depth queue).2 ∧
      (pollLoop depth queue).1 =
        (queue.held.take depth).find? (fun request => !queue.expired request) ∧
      ((pollLoop depth queue).1 = none →
        (pollLoop depth queue).2.held = queue.held.drop depth) := by
  induction depth generalizing queue with
  | zero => exact ⟨⟨rfl, rfl, rfl, rfl⟩, rfl, fun _ => rfl⟩
  | succ depth ih =>
    rw [pollLoop]
    cases hpop : queue.pop with
    | none =>
      have hheld := pop_eq_none hpop
      refine ⟨⟨rfl, rfl, rfl, rfl⟩, ?_, ?_⟩
      · rw [hheld]
        rfl
      · intro _
        rw [hheld]
        rfl
    | some popped =>
      obtain ⟨request, rest⟩ := popped
      obtain ⟨hheld, hsame⟩ := pop_eq_some hpop
      obtain ⟨haround, hfirst, hrest⟩ := ih rest
      simp only []
      rw [hheld, List.take_succ_cons, List.find?_cons, List.drop_succ_cons, hsame.expired_eq]
      cases hexpired : queue.expired request with
      | true =>
        rw [if_pos rfl]
        refine ⟨⟨haround.closed.trans hsame.closed, haround.announcing.trans hsame.announcing,
          haround.permit.trans hsame.permit, haround.host.trans hsame.host⟩, ?_, hrest⟩
        rw [hfirst]
        simp only [hsame.expired_eq, Bool.not_true]
      | false =>
        rw [if_neg Bool.false_ne_true]
        refine ⟨hsame, rfl, fun hnone => ?_⟩
        cases hnone

theorem pollControl_same (queue : ControlQueue) : SameAround queue queue.pollControl.2 :=
  (pollLoop_spec pollDepth queue).1

theorem pollControl_none_iff (queue : ControlQueue) :
    queue.pollControl.1 = none ↔
      ∀ request ∈ queue.held.take pollDepth, queue.expired request = true := by
  rw [pollControl, (pollLoop_spec pollDepth queue).2.1, List.find?_eq_none]
  simp only [Bool.not_eq_true', Bool.not_eq_false]

end Polling

section Steps

variable {queue next : ControlQueue}

theorem announced_of_polling (h : queue.host = .polling) : queue.Announced :=
  fun hhost => absurd h hhost

theorem notifyOne_announced (queue : ControlQueue) : queue.notifyOne.Announced := by
  rw [notifyOne]
  split
  · exact announced_of_polling rfl
  · intro _ hpermit
    cases hpermit

theorem Announced.trySend (h : queue.Announced) (peer : Block 32) (payload : Bytes) :
    (queue.trySend peer payload).Announced := by
  rw [ControlQueue.trySend]
  split
  · intro hhost hpermit request hrequest
    rw [held, ← List.append_assoc] at hrequest
    rcases List.mem_append.mp hrequest with hold | hnew
    · rcases h hhost hpermit request hold with hexpired | hannouncing
      · exact .inl hexpired
      · exact .inr (List.mem_append_left _ hannouncing)
    · rw [List.mem_singleton.mp hnew]
      exact .inr (List.mem_append_right _ (List.mem_singleton_self _))
  · exact h

theorem Announced.cancel (h : queue.Announced) (reply : Nat) :
    ({ queue with closed := reply :: queue.closed } : ControlQueue).Announced := by
  intro hhost hpermit request hrequest
  rcases h hhost hpermit request hrequest with hexpired | hannouncing
  · refine .inl (decide_eq_true ?_)
    exact List.mem_cons_of_mem _ (of_decide_eq_true hexpired)
  · exact .inr hannouncing

theorem Announced.awaitSignal (h : queue.Announced) (hhost : queue.host = .drained) :
    queue.awaitSignal.Announced := by
  rw [ControlQueue.awaitSignal]
  split
  · exact announced_of_polling rfl
  · intro _ hpermit
    exact h (by rw [hhost]; decide) hpermit

theorem announced_drained_iff (hnone : queue.pollControl.1 = none) :
    ({ queue.pollControl.2 with host := .drained } : ControlQueue).Announced ↔
      ¬ queue.Blocked := by
  have hsame := pollControl_same queue
  have hexpired := (pollControl_none_iff queue).mp hnone
  have hrest : queue.pollControl.2.held = queue.held.drop pollDepth :=
    (pollLoop_spec pollDepth queue).2.2 hnone
  constructor
  · rintro hannounced ⟨hpermit, _, request, hrequest, hlive, hsilent⟩
    have hmem : request ∈ queue.pollControl.2.held := hrest ▸ hrequest
    rcases hannounced nofun (hsame.permit.trans hpermit) request hmem with hgone | hto
    · have hgone' : queue.pollControl.2.expired request = true := hgone
      rw [hsame.expired_eq, hlive] at hgone'
      cases hgone'
    · exact hsilent (hsame.announcing ▸ hto)
  · intro hfree _ hpermit request hrequest
    have hmem : request ∈ queue.held.drop pollDepth := hrest ▸ hrequest
    by_contra hunheard
    rw [not_or] at hunheard
    refine hfree ⟨hsame.permit.symm.trans hpermit, hexpired, request, hmem, ?_, ?_⟩
    · rw [← hsame.expired_eq]
      exact Bool.eq_false_iff.mpr hunheard.1
    · exact fun hto => hunheard.2 (hsame.announcing.symm ▸ hto)

theorem pollControlFirst_host {wanted : Bytes → Bool} {depth : Nat} :
    (queue.pollControlFirst wanted depth).2.host = queue.host := by
  simp only [pollControlFirst]
  split <;> rfl

/-- One event keeps everybody heard exactly when it is not a blocked poll. -/
theorem announced_step_iff {event : ControlEvent} (h : queue.Announced)
    (hstep : ControlStep queue event next) :
    next.Announced ↔ (event = .poll → ¬ queue.Blocked) := by
  rw [ControlStep] at hstep
  cases event with
  | send peer payload =>
    cases hstep
    exact iff_of_true (h.trySend peer payload) nofun
  | announce reply =>
    simp only [ControlEvent.occur] at hstep
    split at hstep
    · cases hstep
      exact iff_of_true (notifyOne_announced _) nofun
    · cases hstep
  | cancel reply =>
    cases hstep
    exact iff_of_true (h.cancel reply) nofun
  | rearm =>
    cases hstep
    exact iff_of_true (notifyOne_announced _) nofun
  | wait =>
    simp only [ControlEvent.occur] at hstep
    split at hstep
    · rename_i hhost
      cases hstep
      exact iff_of_true (h.awaitSignal hhost) nofun
    · cases hstep
  | poll =>
    simp only [ControlEvent.occur, forall_const] at hstep ⊢
    split at hstep
    · rename_i hhost
      split at hstep
      · rename_i request rest hpoll
        cases hstep
        have hsome : queue.pollControl.1 ≠ none := by
          rw [hpoll]
          exact Option.some_ne_none request
        refine iff_of_true (announced_of_polling ?_) ?_
        · have hkept := (pollControl_same queue).host
          rw [hpoll] at hkept
          exact hkept.trans hhost
        · exact fun hblocked => hsome ((pollControl_none_iff queue).mpr hblocked.2.1)
      · rename_i rest hpoll
        cases hstep
        have hnone : queue.pollControl.1 = none := by rw [hpoll]
        have hiff := announced_drained_iff hnone
        rw [hpoll] at hiff
        exact hiff
    · cases hstep
  | pollFirst wanted depth =>
    simp only [ControlEvent.occur] at hstep
    split at hstep
    · rename_i hhost
      cases hstep
      exact iff_of_true (announced_of_polling (pollControlFirst_host.trans hhost)) nofun
    · cases hstep

end Steps

/-- In a run of the queue, whatever the interleaving, nobody is left unheard exactly when no poll
is blocked. -/
theorem control_announced_iff {trace : List (Taken ControlQueue ControlEvent)}
    {last : ControlQueue} (hrun : Run ControlStep new trace last) :
    (∀ taken ∈ trace, taken.after.Announced) ↔
      ∀ taken ∈ trace, taken.label = .poll → ¬ taken.before.Blocked := by
  refine hrun.forall_after_iff (J := fun _ => True) (P := Announced)
    (C := fun queue event => event = .poll → ¬ queue.Blocked) ?_ ?_ trivial ?_
  · exact fun _ _ _ _ _ => trivial
  · exact fun _ _ _ _ h hstep => announced_step_iff h hstep
  · exact fun _ _ request hrequest => absurd hrequest List.not_mem_nil

section Sample

/-- The steps of events that happen one after the other, up to the first that cannot. -/
def play : ControlQueue → List ControlEvent → List (Taken ControlQueue ControlEvent) :=
  attempt fun queue event => event.occur queue

theorem play_run (start : ControlQueue) (events : List ControlEvent) :
    Run ControlStep start (play start events) (outcome start (play start events)) :=
  attempt_run _ start events

/-- A request arrives, and its arrival raises the signal. -/
def arrival (reply : Nat) : List ControlEvent := [.send (zeroBlock 32) [7], .announce reply]

/-- Nine requests arrive before the host waits, and eight requesters go. The host takes the one
permit, polls once, and waits. -/
def lostEvents : List ControlEvent :=
  (List.range 9).flatMap arrival ++ (List.range 8).map .cancel ++ [.wait, .poll, .wait]

/-- Three requests arrive, and two requesters go. -/
def heardEvents : List ControlEvent :=
  (List.range 3).flatMap arrival ++ (List.range 2).map .cancel ++ [.wait, .poll, .poll, .wait]

/-- The host waits with no permit stored, while the ninth request is live. -/
theorem control_unannounced :
    Run ControlStep new (play new lostEvents) (outcome new (play new lostEvents)) ∧
      (outcome new (play new lostEvents)).host = .waiting ∧
      (outcome new (play new lostEvents)).permit = false ∧
      ∃ request ∈ (outcome new (play new lostEvents)).held,
        (outcome new (play new lostEvents)).expired request = false ∧
        request.reply ∉ (outcome new (play new lostEvents)).announcing := by
  refine ⟨play_run new lostEvents, ?_, ?_, ⟨zeroBlock 32, [7], 8⟩, ?_, ?_, ?_⟩ <;> decide

theorem control_announced_three :
    (outcome new (play new heardEvents)).host = .waiting ∧
      ∀ taken ∈ play new heardEvents, taken.after.Announced := by
  refine ⟨by decide, (control_announced_iff (play_run new heardEvents)).mpr ?_⟩
  have hfree : ∀ taken ∈ play new heardEvents, ¬ taken.before.Blocked := by decide
  exact fun taken htaken _ => hfree taken htaken

end Sample

end ControlQueue

end Arachne.Node
