import Arachne.Runtime.MembershipReplies
import Arachne.Security.WorkspaceName

/-! How a member that is behind catches up: it hears of a newer epoch, pulls the steps toward it
from a member that announced it, holds them until their turn and stages each at its epoch. Heads,
authors and steps are claims of peers until a step verifies. -/

namespace Arachne.Runtime

open ByteCodec Fallible Transition OrderedMap
open Security (Mls Workspace MembershipAuthorization ManagementUpdate)

variable {Group Signer Staged : Type}

def maxGossipStepsAhead : Nat := 32
def maxHeadAuthors : Nat := 8

/-- The codec with the side of the member that pulls. -/
structure RangeWire extends MembershipWire where
  rangeQueryOut : MembershipRangeQuery → Option Bytes
  rangeIn : Bytes → Option (MembershipRange × Bytes)
  stepIn : Bytes → Option MembershipStep

namespace RangeWire

variable (wire : RangeWire)

def encodeRangeQuery (query : MembershipRangeQuery) : Outcome Bytes :=
  encode (utf8 "DFMS" ++ [1]) (wire.rangeQueryOut query) 64

def decodeRangeReply (bytes : Bytes) : Outcome MembershipRange := do
  let reply ← decode (utf8 "DFMT" ++ [1]) wire.rangeIn maxControlReply bytes
  failIf (maxRangeSteps < reply.steps.length ∨ ∃ step ∈ reply.steps, step = [])
    "invalid membership range"
  pure reply

end RangeWire

/-- A pending request for the steps after an epoch. -/
structure RangePull where
  epoch : U64
  peer : Block 32
deriving DecidableEq

/-- What catching up reads and writes of the session, and the requests it makes, the latest last.
The buffer is keyed by the epoch that a step is to be applied at. -/
structure CatchUp (Group Signer : Type) where
  owner : Workspace Group Signer
  head : Option (U64 × List (Block 32))
  ahead : OrderedMap Nat Bytes
  pull : Option RangePull
  staged : Option (ManagementUpdate Group Signer)
  requests : List (Block 32 × Bytes)

def pickAuthor (authors administrators : List (Block 32)) (nodeId : Block 32) : Block 32 :=
  let members := authors.filter fun author => author ∉ administrators
  let choices := if members = [] then authors else members
  choices.getD ((nodeId.1.headD 0).toNat % choices.length) (zeroBlock 32)

/-- The head and the author of an announcement in the gossip of the workspace. -/
def gossipedHead (id workspace : Block 32) (payload : Bytes) : Option (U64 × Block 32) :=
  if h : payload.length = 77 then
    if workspace = id ∧ utf8 "DFMH" ++ [1] <+: payload ∧ (payload.drop 5).take 32 = id.1 then
      some (u64OfBytes ((payload.drop 37).take 8), ⟨payload.drop 45, by simp [h]⟩)
    else none
  else none

/-- The loop of `finish_range_pull`: the buffer, and how many of the steps it took. -/
def holdSteps : OrderedMap Nat Bytes → Nat → List Bytes → OrderedMap Nat Bytes × Nat
  | ahead, _, [] => (ahead, 0)
  | ahead, after, step :: steps =>
      if ahead.find? after = none ∧ maxGossipStepsAhead ≤ ahead.size then (ahead, 0)
      else
        let held := if ahead.find? after = none then ahead.insert after step else ahead
        let (ahead, pulled) := holdSteps held (after + 1) steps
        (ahead, pulled + 1)

section Session

variable (mls : Mls Group Signer Staged) (wire : RangeWire) (nodeId : Block 32)

/-- The verification of `stage_update`. A single admission is a batch of one. -/
def stageUpdate (owner : Workspace Group Signer) (now : U64) (step : MembershipStep) :
    Outcome (ManagementUpdate Group Signer) :=
  let admission (authorizations : List Security.AdmissionAuthorization) := do
    failIf (step.invitationCheckpoint.isSome)
      "admission update cannot carry an invitation checkpoint"
    let workspace ← mls.prepareAdmissionUpdate owner authorizations step.commit
    pure (.active workspace)
  match step.authorization with
  | .admission authorization => admission [authorization]
  | .admissionBatch authorizations => admission authorizations
  | .management action => do
      let prepared ← mls.prepareManagementUpdate owner now action step.commit
      match step.invitationCheckpoint, prepared with
      | none, prepared => pure prepared
      | some (grant, checkpoint), .active workspace => do
          let workspace ← mls.retainInvitationCheckpoint workspace now action grant checkpoint
          pure (.active workspace)
      | some _, .removed _ => .error "removal cannot carry an invitation checkpoint"

/-- Only the newest head is kept, with the first few members that announced it. -/
def noteHead (session : CatchUp Group Signer) (head : U64) (author : Block 32) :
    CatchUp Group Signer :=
  if head ≤ mls.epoch session.owner ∨ author = nodeId then session
  else
    match session.head with
    | none => { session with head := some (head, [author]) }
    | some (known, authors) =>
        if head < known then session
        else if head = known then
          if author ∉ authors ∧ authors.length < maxHeadAuthors then
            { session with head := some (known, authors ++ [author]) }
          else session
        else { session with head := some (head, [author]) }

def noteGossip (session : CatchUp Group Signer) (message : Block 32 × Bytes) :
    CatchUp Group Signer :=
  match gossipedHead session.owner.id message.1 message.2 with
  | some (head, author) => noteHead mls nodeId session head author
  | none => session

/-- The steps of a reply to the pending request; none if it failed or is for something else. -/
def readRange (owner : Workspace Group Signer) (pull : RangePull) (reply : Option Bytes) :
    List Bytes :=
  match reply.map wire.decodeRangeReply with
  | some (.ok range) =>
      if range.workspace = owner.id ∧ range.after = pull.epoch then range.steps else []
  | _ => []

def dropAuthor (peer : Block 32) :
    Option (U64 × List (Block 32)) → Option (U64 × List (Block 32))
  | none => none
  | some (head, authors) =>
      let authors := authors.filter fun author => author ≠ peer
      if authors = [] then none else some (head, authors)

def finishRangePull (session : CatchUp Group Signer) (reply : Option Bytes) :
    CatchUp Group Signer :=
  match session.pull with
  | none => session
  | some pull =>
      let (ahead, pulled) := holdSteps session.ahead pull.epoch.val
        (readRange wire session.owner pull reply)
      if pulled = 0 then
        { session with pull := none, ahead, head := dropAuthor pull.peer session.head }
      else { session with pull := none, ahead }

def administratorEndpoints (owner : Workspace Group Signer) : List (Block 32) :=
  ((((mls.publicGroup owner.group).memberRoster).toOption.getD []).filter (·.administrator)).map
    (·.endpoint)

def startRangePull (session : CatchUp Group Signer) : CatchUp Group Signer :=
  if session.pull ≠ none ∨ session.ahead.find? (mls.epoch session.owner).val ≠ none then session
  else
    match session.head with
    | none => session
    | some (head, authors) =>
        let authors := authors.filter fun author => mls.isMember session.owner author
        if head ≤ mls.epoch session.owner ∨ authors = [] then { session with head := none }
        else
          let session := { session with head := some (head, authors) }
          let author := pickAuthor authors (administratorEndpoints mls session.owner) nodeId
          match wire.encodeRangeQuery ⟨session.owner.id, mls.epoch session.owner, head⟩ with
          | .error _ => session
          | .ok query =>
              { session with
                pull := some ⟨mls.epoch session.owner, author⟩
                requests := session.requests ++ [(author, query)] }

/-- What is kept for later epochs, and the head while it is ahead. -/
def pruneHeld (session : CatchUp Group Signer) : CatchUp Group Signer :=
  { session with
    ahead := session.ahead.filter fun after => decide ((mls.epoch session.owner).val ≤ after)
    head := session.head.filter fun head => decide (mls.epoch session.owner < head.1) }

/-- The step for the current epoch leaves the buffer and is staged if it verifies. `ready` is what
else the session requires before a change of epoch. -/
def stageHeld (session : CatchUp Group Signer) (ready : Outcome Unit) (now : U64) :
    CatchUp Group Signer :=
  match session.ahead.find? (mls.epoch session.owner).val with
  | none => session
  | some bytes =>
      let session := { session with ahead := session.ahead.erase (mls.epoch session.owner).val }
      match wire.stepIn bytes with
      | none => session
      | some step =>
          match (do ready; stageUpdate mls session.owner now step) with
          | .ok update => { session with staged := some update }
          | .error _ => session

/-- What the node has for one poll: gossip, the outcome of the pull if it has finished (`none` in it
is a failure), whether the session may change its epoch, and the clock. -/
structure Poll where
  gossip : List (Block 32 × Bytes)
  reply : Option (Option Bytes)
  ready : Outcome Unit
  now : U64

/-- The part of `stage_gossiped_step` up to the finished pull. -/
def finished (session : CatchUp Group Signer) (poll : Poll) : CatchUp Group Signer :=
  let session := poll.gossip.foldl (noteGossip mls nodeId) session
  match poll.reply with
  | none => session
  | some reply => finishRangePull wire session reply

def stageGossipedStep (session : CatchUp Group Signer) (poll : Poll) : CatchUp Group Signer :=
  stageHeld mls wire
    (startRangePull mls wire nodeId (pruneHeld mls (finished mls wire nodeId session poll)))
    poll.ready poll.now

inductive CatchUpEvent (Group Signer : Type) where
  /-- A head from presence or from a membership reply. -/
  | note (head : U64) (author : Block 32)
  | poll (poll : Poll)
  /-- The host commits: the workspace moves on, and nothing is staged. -/
  | adopt (owner : Workspace Group Signer)
  | discard

/-- Gossip is polled while nothing is staged, and the epoch never goes back. -/
inductive CatchUpStep : CatchUp Group Signer → CatchUpEvent Group Signer → CatchUp Group Signer →
    Prop where
  | note {session : CatchUp Group Signer} (head : U64) (author : Block 32) :
      CatchUpStep session (.note head author) (noteHead mls nodeId session head author)
  | poll {session : CatchUp Group Signer} (poll : Poll) (hidle : session.staged = none) :
      CatchUpStep session (.poll poll) (stageGossipedStep mls wire nodeId session poll)
  | adopt {session : CatchUp Group Signer} (owner : Workspace Group Signer)
      (hepoch : mls.epoch session.owner ≤ mls.epoch owner) :
      CatchUpStep session (.adopt owner) { session with owner, staged := none }
  | discard {session : CatchUp Group Signer} :
      CatchUpStep session .discard { session with staged := none }

end Session

/-- The epochs of the held steps, from one epoch on. -/
def InWindow (start : Nat) (ahead : OrderedMap Nat Bytes) : Prop :=
  ∀ after bytes, ahead.find? after = some bytes →
    start ≤ after ∧ after < start + maxGossipStepsAhead

section Hold

variable {ahead : OrderedMap Nat Bytes} {start after : Nat} {steps : List Bytes}

theorem InWindow.room (hwindow : InWindow start ahead) (hstart : start ≤ after)
    (hafter : after < start + maxGossipStepsAhead) (hgap : ahead.find? after = none) :
    ahead.size < maxGossipStepsAhead := by
  have hnodup : (after :: ahead.keys).Nodup := by
    rw [List.nodup_cons, mem_keys_iff, hgap]
    exact ⟨nofun, ahead.keys_nodup⟩
  have hsubset : after :: ahead.keys ⊆ List.range' start maxGossipStepsAhead := by
    intro other hother
    rw [List.mem_range'_1]
    rcases List.mem_cons.mp hother with rfl | hother
    · exact ⟨hstart, hafter⟩
    · obtain ⟨bytes, hfind⟩ := (mem_keys_iff _ _).mp hother
      exact hwindow other bytes hfind
  have hlength := (hnodup.subperm hsubset).length_le
  rw [List.length_cons, List.length_range', OrderedMap.keys, List.length_map] at hlength
  exact hlength

theorem holdSteps_size (hsize : ahead.size ≤ maxGossipStepsAhead) :
    (holdSteps ahead after steps).1.size ≤ maxGossipStepsAhead := by
  induction steps generalizing ahead after with
  | nil => exact hsize
  | cons step steps ih =>
    rw [holdSteps]
    split
    · exact hsize
    · rename_i hroom
      dsimp only
      apply ih
      split
      · rename_i hgap
        have hinsert := ahead.size_insert after step
        rw [hgap] at hinsert
        have hlt : ahead.size < maxGossipStepsAhead :=
          Nat.lt_of_not_le fun hfull => hroom ⟨hgap, hfull⟩
        simp only [Option.isSome_none, Bool.false_eq_true, if_false] at hinsert
        omega
      · exact hsize

theorem holdSteps_keeps {k : Nat} (h : ahead.find? k ≠ none) :
    (holdSteps ahead after steps).1.find? k = ahead.find? k := by
  induction steps generalizing ahead after with
  | nil => rfl
  | cons step steps ih =>
    rw [holdSteps]
    split
    · rfl
    · dsimp only
      split
      · rename_i hgap
        have hne : after ≠ k := fun heq => h (heq ▸ hgap)
        have hfind : (ahead.insert after step).find? k = ahead.find? k := by
          rw [find?_insert, if_neg hne]
        rw [ih (by rw [hfind]; exact h), hfind]
      · exact ih h

/-- Steps within the window are all taken, each unless one is held in its place, and the window
stays. -/
theorem InWindow.holdSteps (hwindow : InWindow start ahead) (hstart : start ≤ after)
    (hsteps : after + steps.length ≤ start + maxGossipStepsAhead) :
    InWindow start (Runtime.holdSteps ahead after steps).1 ∧
      (Runtime.holdSteps ahead after steps).2 = steps.length ∧
      ∀ i bytes, steps[i]? = some bytes →
        (Runtime.holdSteps ahead after steps).1.find? (after + i) =
          some ((ahead.find? (after + i)).getD bytes) := by
  induction steps generalizing ahead after with
  | nil => exact ⟨hwindow, rfl, nofun⟩
  | cons step steps ih =>
    rw [List.length_cons] at hsteps
    have hroom : ¬(ahead.find? after = none ∧ maxGossipStepsAhead ≤ ahead.size) := by
      rintro ⟨hgap, hfull⟩
      exact absurd (hwindow.room hstart (by omega) hgap) (Nat.not_lt.mpr hfull)
    rw [Runtime.holdSteps, if_neg hroom]
    dsimp only
    generalize hheld : (if ahead.find? after = none then ahead.insert after step else ahead) = held
    have hfind : ∀ k, held.find? k =
        if after = k then some ((ahead.find? after).getD step) else ahead.find? k := by
      intro k
      rw [← hheld]
      cases hafter : ahead.find? after with
      | none =>
        rw [if_pos rfl, find?_insert]
        rfl
      | some bytes =>
        rw [if_neg nofun]
        split
        · rename_i heq
          rw [← heq, hafter]
          rfl
        · rfl
    have hnear : InWindow start held := by
      intro other bytes hother
      rw [hfind] at hother
      split at hother
      · omega
      · exact hwindow other bytes hother
    obtain ⟨hnext, hcount, hall⟩ := ih hnear (show start ≤ after + 1 by omega) (by omega)
    refine ⟨hnext, by rw [hcount, List.length_cons], ?_⟩
    intro i bytes hi
    cases i with
    | zero =>
      cases hi
      have hfirst : held.find? after = some ((ahead.find? after).getD step) := by
        rw [hfind, if_pos rfl]
      have hkept : held.find? (after + 0) ≠ none := by
        rw [Nat.add_zero, hfirst]
        nofun
      rw [holdSteps_keeps hkept, Nat.add_zero, hfirst]
    | succ i =>
      have hlater := hall i bytes hi
      rw [Nat.add_right_comm, Nat.add_assoc] at hlater
      rw [hlater, hfind, if_neg (by omega)]

end Hold

section Frames

variable {mls : Mls Group Signer Staged} {wire : RangeWire} {nodeId : Block 32}
  {session : CatchUp Group Signer} {poll : Poll}

def authorsOf (session : CatchUp Group Signer) : List (Block 32) :=
  (session.head.map Prod.snd).getD []

theorem finishRangePull_eq {pull : RangePull} (hpull : session.pull = some pull)
    (reply : Option Bytes) :
    let held := holdSteps session.ahead pull.epoch.val (readRange wire session.owner pull reply)
    finishRangePull wire session reply = { session with
      pull := none, ahead := held.1,
      head := if held.2 = 0 then dropAuthor pull.peer session.head else session.head } := by
  dsimp only
  rw [finishRangePull, hpull]
  dsimp only
  split <;> rfl

theorem finishRangePull_of_none (hpull : session.pull = none) (reply : Option Bytes) :
    finishRangePull wire session reply = session := by
  rw [finishRangePull, hpull]

theorem getD_mod_mem {α : Type} {choices : List α} (i : Nat) (default : α) (h : choices ≠ []) :
    choices.getD (i % choices.length) default ∈ choices := by
  have hindex := Nat.mod_lt i (List.length_pos_iff.mpr h)
  rw [List.getD_eq_getElem?_getD, List.getElem?_eq_getElem hindex, Option.getD_some]
  exact List.getElem_mem hindex

theorem pickAuthor_mem {authors : List (Block 32)} (administrators : List (Block 32))
    (nodeId : Block 32) (h : authors ≠ []) :
    pickAuthor authors administrators nodeId ∈ authors := by
  rw [pickAuthor]
  split
  · exact getD_mod_mem _ _ h
  · rename_i hmembers
    exact List.mem_of_mem_filter (getD_mod_mem _ _ hmembers)

variable (mls wire nodeId session)

theorem noteHead_eq (head : U64) (author : Block 32) :
    ∃ head', noteHead mls nodeId session head author = { session with head := head' } := by
  rw [noteHead]
  split
  · exact ⟨session.head, rfl⟩
  · split
    · exact ⟨_, rfl⟩
    · split
      · exact ⟨session.head, rfl⟩
      · split
        · split
          · exact ⟨_, rfl⟩
          · exact ⟨session.head, rfl⟩
        · exact ⟨_, rfl⟩

theorem foldl_noteGossip_eq (gossip : List (Block 32 × Bytes)) :
    ∃ head, gossip.foldl (noteGossip mls nodeId) session = { session with head := head } := by
  induction gossip generalizing session with
  | nil => exact ⟨session.head, rfl⟩
  | cons message gossip ih =>
    have hfirst : ∃ head,
        noteGossip mls nodeId session message = { session with head := head } := by
      rw [noteGossip]
      split
      · exact noteHead_eq mls nodeId _ _ _
      · exact ⟨session.head, rfl⟩
    obtain ⟨head, hhead⟩ := hfirst
    obtain ⟨head', hhead'⟩ := ih { session with head := head }
    exact ⟨head', by rw [List.foldl_cons, hhead, hhead']⟩

/-- A pull starts at the current epoch, from an author that stays recorded, or nothing but the head
changes, and that only by losing authors. -/
theorem startRangePull_cases :
    (∃ head, startRangePull mls wire nodeId session = { session with head := head } ∧
      ((head.map Prod.snd).getD []).Sublist (authorsOf session) ∧
      (session.pull ≠ none → head = session.head)) ∨
    ∃ head authors author query, session.pull = none ∧ author ∈ authors ∧
      authors.Sublist (authorsOf session) ∧
      startRangePull mls wire nodeId session = { session with
        head := some (head, authors)
        pull := some ⟨mls.epoch session.owner, author⟩
        requests := session.requests ++ [(author, query)] } := by
  rw [startRangePull]
  split
  · exact .inl ⟨session.head, rfl, List.Sublist.refl _, fun _ => rfl⟩
  · rename_i hidle
    rw [not_or, not_not] at hidle
    split
    · rename_i hhead
      refine .inl ⟨session.head, rfl, List.Sublist.refl _, fun _ => rfl⟩
    · rename_i head authors hhead
      have hauthors : (authors.filter fun author => mls.isMember session.owner author).Sublist
          (authorsOf session) := by
        rw [authorsOf, hhead]
        exact List.filter_sublist
      dsimp only
      split
      · exact .inl ⟨none, rfl, List.nil_sublist _, fun h => absurd hidle.1 h⟩
      · rename_i hsome
        rw [not_or] at hsome
        split
        · exact .inl ⟨_, rfl, hauthors, fun h => absurd hidle.1 h⟩
        · exact .inr ⟨_, _, _, _, hidle.1, pickAuthor_mem _ _ hsome.2, hauthors, rfl⟩

theorem startRangePull_frame :
    (startRangePull mls wire nodeId session).owner = session.owner ∧
      (startRangePull mls wire nodeId session).ahead = session.ahead ∧
      (startRangePull mls wire nodeId session).staged = session.staged := by
  rcases startRangePull_cases mls wire nodeId session with
    ⟨_, heq, _⟩ | ⟨_, _, _, _, _, _, _, heq⟩ <;> rw [heq] <;> exact ⟨rfl, rfl, rfl⟩

theorem stageHeld_cases (ready : Outcome Unit) (now : U64) :
    (stageHeld mls wire session ready now = session ∧
      session.ahead.find? (mls.epoch session.owner).val = none) ∨
    ∃ bytes staged, session.ahead.find? (mls.epoch session.owner).val = some bytes ∧
      stageHeld mls wire session ready now = { session with
        ahead := session.ahead.erase (mls.epoch session.owner).val, staged := staged } ∧
      (staged = session.staged ∨ ∃ step update, wire.stepIn bytes = some step ∧
        stageUpdate mls session.owner now step = .ok update ∧ staged = some update) := by
  rw [stageHeld]
  split
  · rename_i hnone
    exact .inl ⟨rfl, hnone⟩
  · rename_i bytes hbytes
    right
    dsimp only
    split
    · exact ⟨bytes, session.staged, hbytes, rfl, .inl rfl⟩
    · rename_i step hstep
      split
      · rename_i update hupdate
        rw [bind_eq_ok] at hupdate
        obtain ⟨_, _, hupdate⟩ := hupdate
        exact ⟨bytes, some update, hbytes, rfl, .inr ⟨step, update, hstep, hupdate, rfl⟩⟩
      · exact ⟨bytes, session.staged, hbytes, rfl, .inl rfl⟩

end Frames

section Window

variable {mls : Mls Group Signer Staged} {wire : RangeWire} {nodeId : Block 32}
  {session : CatchUp Group Signer} {poll : Poll}

theorem readRange_length (wire : RangeWire) (owner : Workspace Group Signer) (pull : RangePull)
    (reply : Option Bytes) : (readRange wire owner pull reply).length ≤ maxRangeSteps := by
  rw [readRange]
  split
  · rename_i range hreply
    split
    · obtain ⟨bytes, _, hrange⟩ := Option.map_eq_some_iff.mp hreply
      simp only [RangeWire.decodeRangeReply, bind_eq_ok, failIf_eq_ok, pure_eq_ok, not_or] at hrange
      obtain ⟨_, _, _, ⟨hlength, _⟩, rfl⟩ := hrange
      exact Nat.not_lt.mp hlength
    · exact Nat.zero_le _
  · exact Nat.zero_le _

/-- The steps held are of the next epochs, and while a pull is pending there is room for all that
it may bring. -/
structure Windowed (mls : Mls Group Signer Staged) (session : CatchUp Group Signer) : Prop where
  size : session.ahead.size ≤ maxGossipStepsAhead
  near : ∀ after bytes, session.ahead.find? after = some bytes →
    after < (mls.epoch session.owner).val + maxGossipStepsAhead
  pending : ∀ pull ∈ session.pull, pull.epoch ≤ mls.epoch session.owner ∧
    InWindow pull.epoch.val session.ahead

section

variable (h : Windowed mls session)

include h

theorem Windowed.head (head : Option (U64 × List (Block 32))) :
    Windowed mls { session with head := head } :=
  ⟨h.size, h.near, h.pending⟩

theorem Windowed.filter (keep : Nat → Bool) :
    Windowed mls { session with ahead := session.ahead.filter keep } := by
  have hsubset : ∀ after bytes, (session.ahead.filter keep).find? after = some bytes →
      session.ahead.find? after = some bytes := by
    intro after bytes hfind
    rw [find?_filter] at hfind
    split at hfind
    · exact hfind
    · cases hfind
  refine ⟨(List.length_filter_le _ _).trans h.size, fun after bytes hfind =>
    h.near after bytes (hsubset after bytes hfind),
      fun pull hpull => ⟨(h.pending pull hpull).1, ?_⟩⟩
  exact fun after bytes hfind => (h.pending pull hpull).2 after bytes (hsubset after bytes hfind)

theorem Windowed.holds {pull : RangePull} (hpull : session.pull = some pull)
    (reply : Option Bytes) :
    let steps := readRange wire session.owner pull reply
    let held := holdSteps session.ahead pull.epoch.val steps
    InWindow pull.epoch.val held.1 ∧ held.2 = steps.length ∧
      ∀ i bytes, steps[i]? = some bytes → held.1.find? (pull.epoch.val + i) =
        some ((session.ahead.find? (pull.epoch.val + i)).getD bytes) := by
  have hlength := readRange_length wire session.owner pull reply
  have hbound : maxRangeSteps ≤ maxGossipStepsAhead := by decide
  exact (h.pending pull hpull).2.holdSteps (Nat.le_refl _) (by omega)

theorem Windowed.finishRangePull (reply : Option Bytes) :
    Windowed mls (Runtime.finishRangePull wire session reply) := by
  cases hpull : session.pull with
  | none =>
    rw [finishRangePull_of_none hpull]
    exact h
  | some pull =>
    rw [finishRangePull_eq hpull]
    refine ⟨holdSteps_size h.size, ?_, nofun⟩
    intro after bytes hfind
    have hafter := ((h.holds hpull reply).1 after bytes hfind).2
    have hepoch := (h.pending pull hpull).1
    rw [Fin.le_def] at hepoch
    dsimp only
    omega

theorem Windowed.finished :
    Windowed mls (Runtime.finished mls wire nodeId session poll) := by
  obtain ⟨head, hhead⟩ := foldl_noteGossip_eq mls nodeId session poll.gossip
  rw [Runtime.finished, hhead]
  split
  · exact h.head head
  · exact (h.head head).finishRangePull _

theorem Windowed.startRangePull
    (hpruned : ∀ after bytes, session.ahead.find? after = some bytes →
      (mls.epoch session.owner).val ≤ after) :
    Windowed mls (Runtime.startRangePull mls wire nodeId session) := by
  rcases startRangePull_cases mls wire nodeId session with
    ⟨head, hstart, _⟩ | ⟨head, authors, author, query, _, _, _, hstart⟩
  · rw [hstart]
    exact h.head head
  · rw [hstart]
    refine ⟨h.size, h.near, ?_⟩
    rintro _ ⟨⟩
    exact ⟨le_rfl, fun after bytes hfind => ⟨hpruned after bytes hfind, h.near after bytes hfind⟩⟩

theorem Windowed.stageHeld (ready : Outcome Unit) (now : U64) :
    Windowed mls (Runtime.stageHeld mls wire session ready now) := by
  rcases stageHeld_cases mls wire session ready now with
    ⟨hstage, _⟩ | ⟨bytes, staged, _, hstage, _⟩
  · rw [hstage]
    exact h
  · rw [hstage]
    have herased := h.filter fun after => decide (after ≠ (mls.epoch session.owner).val)
    exact ⟨herased.size, herased.near, herased.pending⟩

theorem Windowed.stageGossipedStep :
    Windowed mls (Runtime.stageGossipedStep mls wire nodeId session poll) := by
  rw [Runtime.stageGossipedStep]
  have hfinished : Windowed mls (Runtime.finished mls wire nodeId session poll) := h.finished
  have hpruned := (hfinished.filter fun after =>
    decide ((mls.epoch (Runtime.finished mls wire nodeId session poll).owner).val ≤ after)).head
      ((Runtime.finished mls wire nodeId session poll).head.filter fun head =>
        decide (mls.epoch (Runtime.finished mls wire nodeId session poll).owner < head.1))
  refine Windowed.stageHeld (Windowed.startRangePull hpruned ?_) _ _
  intro after bytes hfind
  dsimp only at hfind ⊢
  rw [find?_filter] at hfind
  split at hfind
  · rename_i hkeep
    exact of_decide_eq_true hkeep
  · cases hfind

theorem Windowed.step {event : CatchUpEvent Group Signer} {next : CatchUp Group Signer}
    (hstep : CatchUpStep mls wire nodeId session event next) :
    Windowed mls next := by
  cases hstep with
  | note head author =>
    obtain ⟨head', hnote⟩ := noteHead_eq mls nodeId session head author
    rw [hnote]
    exact h.head head'
  | poll poll _ => exact h.stageGossipedStep
  | adopt owner hepoch =>
    rw [Fin.le_def] at hepoch
    refine ⟨h.size, ?_, ?_⟩
    · intro after bytes hfind
      have hnear := h.near after bytes hfind
      dsimp only
      omega
    · intro pull hpull
      have hpending := h.pending pull hpull
      exact ⟨hpending.1.trans hepoch, hpending.2⟩
  | discard => exact ⟨h.size, h.near, h.pending⟩

end

end Window

section Settling

variable (mls : Mls Group Signer Staged) (wire : RangeWire) (nodeId : Block 32)
  (taken : Taken (CatchUp Group Signer) (CatchUpEvent Group Signer))

/-- A step for the current epoch that verifies is held. -/
def available (session : CatchUp Group Signer) (now : U64) : Bool :=
  match (session.ahead.find? (mls.epoch session.owner).val).bind wire.stepIn with
  | some step => (stageUpdate mls session.owner now step).isOk
  | none => false

/-- The pull that a poll finds finished, with its outcome. -/
def completes : Option (Poll × RangePull × Option Bytes) :=
  match taken.label with
  | .poll poll =>
      taken.before.pull.bind fun pull => poll.reply.map fun reply => (poll, pull, reply)
  | _ => none

/-- A step of the run that ends a pull and finds a verified step for the current epoch. -/
def brings : Bool :=
  (completes taken).any fun completed =>
    available mls wire (finished mls wire nodeId taken.before completed.1) completed.1.now

/-- A pull that is answered with steps brings a verified step for the current epoch. -/
def Fruitful : Prop :=
  ∀ completed ∈ completes taken,
    readRange wire taken.before.owner completed.2.1 completed.2.2 ≠ [] →
      brings mls wire nodeId taken = true

/-- A reply with steps has one for the current epoch that verifies, and the session holds no other
one for it. -/
def Genuine : Prop :=
  ∀ completed ∈ completes taken,
    let epoch := (mls.epoch taken.before.owner).val
    let steps := readRange wire taken.before.owner completed.2.1 completed.2.2
    steps ≠ [] → ∃ bytes ∈ steps[epoch - completed.2.1.epoch.val]?,
      (∃ step ∈ wire.stepIn bytes,
        (stageUpdate mls taken.before.owner completed.1.now step).isOk = true) ∧
      ∀ held ∈ taken.before.ahead.find? epoch, held = bytes

instance : Decidable (Genuine mls wire taken) :=
  inferInstanceAs (Decidable (∀ _ ∈ _, _))

/-- A pull brings a verified step for the current epoch, or its peer is no author any more. -/
def Settles : Prop :=
  ∀ completed ∈ completes taken,
    brings mls wire nodeId taken = true ∨ completed.2.1.peer ∉ authorsOf taken.after

/-- Events that announce no head. -/
def Quiet : CatchUpEvent Group Signer → Prop
  | .note _ _ => False
  | .poll poll => poll.gossip = []
  | _ => True

/-- Whether the pending pull is to one of the authors. -/
def waiting (session : CatchUp Group Signer) : Nat :=
  if (session.pull.any fun pull => decide (pull.peer ∈ authorsOf session)) then 1 else 0

variable {mls wire nodeId} {session next : CatchUp Group Signer} {poll : Poll}

theorem finished_frame : (finished mls wire nodeId session poll).owner = session.owner ∧
    (finished mls wire nodeId session poll).staged = session.staged := by
  obtain ⟨head, hhead⟩ := foldl_noteGossip_eq mls nodeId session poll.gossip
  rw [finished, hhead]
  split
  · exact ⟨rfl, rfl⟩
  · rw [finishRangePull]
    split
    · exact ⟨rfl, rfl⟩
    · dsimp only
      split <;> exact ⟨rfl, rfl⟩

theorem authorsOf_dropAuthor (peer : Block 32) (head : Option (U64 × List (Block 32))) :
    ((dropAuthor peer head).map Prod.snd).getD [] =
      ((head.map Prod.snd).getD []).filter fun author => author ≠ peer := by
  cases head with
  | none => rfl
  | some head =>
    rw [dropAuthor]
    split
    · rename_i hnone
      exact hnone.symm
    · rfl

/-- Pruning, starting and staging only take authors away. -/
theorem authorsOf_stageGossipedStep :
    (authorsOf (stageGossipedStep mls wire nodeId session poll)).Sublist
      (authorsOf (finished mls wire nodeId session poll)) := by
  have hprune : (authorsOf (pruneHeld mls (finished mls wire nodeId session poll))).Sublist
      (authorsOf (finished mls wire nodeId session poll)) := by
    rw [authorsOf, authorsOf, pruneHeld]
    cases (finished mls wire nodeId session poll).head with
    | none => exact List.Sublist.refl _
    | some head =>
      dsimp only
      rw [Option.filter_some]
      split
      · exact List.Sublist.refl _
      · exact List.nil_sublist _
  have hstart : (authorsOf (startRangePull mls wire nodeId
      (pruneHeld mls (finished mls wire nodeId session poll)))).Sublist
        (authorsOf (pruneHeld mls (finished mls wire nodeId session poll))) := by
    rcases startRangePull_cases mls wire nodeId
        (pruneHeld mls (finished mls wire nodeId session poll)) with
      ⟨head, heq, hsublist, _⟩ | ⟨head, authors, author, query, _, _, hsublist, heq⟩
    · rw [heq]
      exact hsublist
    · rw [heq]
      exact hsublist
  have hstage : authorsOf (stageGossipedStep mls wire nodeId session poll) =
      authorsOf (startRangePull mls wire nodeId
        (pruneHeld mls (finished mls wire nodeId session poll))) := by
    rw [stageGossipedStep]
    rcases stageHeld_cases mls wire (startRangePull mls wire nodeId
        (pruneHeld mls (finished mls wire nodeId session poll))) poll.ready poll.now with
      ⟨heq, _⟩ | ⟨_, _, _, heq, _⟩ <;> rw [heq]
    rfl
  rw [hstage]
  exact hstart.trans hprune

theorem completes_eq_some {event : CatchUpEvent Group Signer} {pull : RangePull}
    {reply : Option Bytes}
    (h : completes ⟨session, event, next⟩ = some (poll, pull, reply)) :
    event = .poll poll ∧ session.pull = some pull ∧ poll.reply = some reply := by
  cases event with
  | poll poll' =>
    obtain ⟨pull', hpull, h⟩ := Option.bind_eq_some_iff.mp h
    obtain ⟨reply', hreply, heq⟩ := Option.map_eq_some_iff.mp h
    cases heq
    exact ⟨rfl, hpull, hreply⟩
  | note => cases h
  | adopt => cases h
  | discard => cases h

variable (mls wire nodeId) in
/-- What a poll makes of the pull that has finished. -/
theorem finished_of_reply {pull : RangePull} {reply : Option Bytes}
    (hpull : session.pull = some pull) (hreply : poll.reply = some reply) :
    let held := holdSteps session.ahead pull.epoch.val (readRange wire session.owner pull reply)
    ∃ head, finished mls wire nodeId session poll = { session with
      pull := none, ahead := held.1,
      head := if held.2 = 0 then dropAuthor pull.peer head else head } := by
  obtain ⟨head, hhead⟩ := foldl_noteGossip_eq mls nodeId session poll.gossip
  have hpull' : { session with head := head }.pull = some pull := hpull
  refine ⟨head, ?_⟩
  rw [finished, hhead, hreply]
  exact finishRangePull_eq hpull' reply

variable (nodeId) in
/-- The steps of a reply are held, each unless one was held in its place. -/
theorem find?_finished (h : Windowed mls session) {pull : RangePull}
    {reply : Option Bytes} (hpull : session.pull = some pull) (hreply : poll.reply = some reply)
    {i : Nat} {bytes : Bytes} (hi : (readRange wire session.owner pull reply)[i]? = some bytes) :
    (finished mls wire nodeId session poll).ahead.find? (pull.epoch.val + i) =
      some ((session.ahead.find? (pull.epoch.val + i)).getD bytes) := by
  obtain ⟨head, hfinished⟩ := finished_of_reply mls wire nodeId hpull hreply
  rw [hfinished]
  exact (h.holds hpull reply).2.2 i bytes hi

theorem fruitful_of_genuine {event : CatchUpEvent Group Signer} (h : Windowed mls session)
    (hgenuine : Genuine mls wire ⟨session, event, next⟩) :
    Fruitful mls wire nodeId ⟨session, event, next⟩ := by
  rintro ⟨poll, pull, reply⟩ hcompleted hsteps
  obtain ⟨bytes, hbytes, ⟨step, hstep, hverified⟩, hheld⟩ := hgenuine _ hcompleted hsteps
  obtain ⟨_, hpull, hreply⟩ := completes_eq_some hcompleted
  have hepoch := (h.pending pull hpull).1
  rw [Fin.le_def] at hepoch
  have hfind := find?_finished nodeId h hpull hreply hbytes
  rw [Nat.add_sub_cancel' hepoch] at hfind
  have hown : (session.ahead.find? (mls.epoch session.owner).val).getD bytes = bytes := by
    cases hsome : session.ahead.find? (mls.epoch session.owner).val with
    | none => rfl
    | some held => exact hheld held hsome
  rw [brings, hcompleted, Option.any_some, available, finished_frame.1]
  dsimp only
  rw [hfind, hown, Option.bind_some, hstep]
  exact hverified

/-- A pull that brings nothing costs its peer the place among the authors. -/
theorem settles_of_fruitful {event : CatchUpEvent Group Signer}
    (hstep : CatchUpStep mls wire nodeId session event next)
    (hfruitful : Fruitful mls wire nodeId ⟨session, event, next⟩) :
    Settles mls wire nodeId ⟨session, event, next⟩ := by
  rintro ⟨poll, pull, reply⟩ hcompleted
  by_cases hsteps : readRange wire session.owner pull reply = []
  · right
    obtain ⟨rfl, hpull, hreply⟩ := completes_eq_some hcompleted
    obtain ⟨head, hfinished⟩ := finished_of_reply mls wire nodeId hpull hreply
    cases hstep with
    | poll _ hidle =>
      rintro hmem
      have hauthor := authorsOf_stageGossipedStep.subset hmem
      rw [hfinished, authorsOf, hsteps, holdSteps, if_pos rfl, authorsOf_dropAuthor,
        List.mem_filter] at hauthor
      simp at hauthor
  · exact .inl (hfruitful _ hcompleted hsteps)

/-- The requests that one session makes on the way to another are paid for by authors that are
given up, apart from a number of them. A pending request to an author is not paid for yet. -/
def Spends (free : Nat) (session next : CatchUp Group Signer) : Prop :=
  next.requests.length + (authorsOf next).length + waiting session ≤
    session.requests.length + (authorsOf session).length + waiting next + free

variable {free : Nat} {event : CatchUpEvent Group Signer} {update : ManagementUpdate Group Signer}

theorem Spends.trans {free' : Nat} {later : CatchUp Group Signer} (h : Spends free session next)
    (h' : Spends free' next later) : Spends (free + free') session later := by
  rw [Spends] at *
  omega

theorem Spends.of_eq (hrequests : next.requests = session.requests)
    (hhead : next.head = session.head) (hpull : next.pull = session.pull) :
    Spends free session next := by
  rw [Spends, waiting, waiting, authorsOf, authorsOf, hrequests, hhead, hpull]
  omega

theorem waiting_le (session : CatchUp Group Signer) :
    waiting session ≤ 1 ∧ waiting session ≤ (authorsOf session).length := by
  rw [waiting]
  split
  · rename_i hwaiting
    obtain ⟨pull, _, hpeer⟩ := Option.any_eq_true _ _ |>.mp hwaiting
    have hpos := List.length_pos_of_mem (of_decide_eq_true hpeer)
    omega
  · omega

theorem waiting_of_idle (h : session.pull = none) : waiting session = 0 := by
  rw [waiting, h]
  rfl

theorem spends_of_idle (hidle : next.pull = none)
    (h : next.requests.length + (authorsOf next).length + waiting session ≤
      session.requests.length + (authorsOf session).length + free) :
    Spends free session next := by
  rw [Spends, waiting_of_idle hidle]
  omega

/-- A pull that brings no step costs an author, and any other one is free. -/
theorem spends_finishRangePull {reply : Option Bytes}
    (hfree : ∀ pull, session.pull = some pull → readRange wire session.owner pull reply ≠ [] →
      1 ≤ free) :
    Spends free session (finishRangePull wire session reply) := by
  have hwaiting := waiting_le session
  cases hpull : session.pull with
  | none =>
    rw [finishRangePull_of_none hpull]
    refine spends_of_idle hpull ?_
    rw [waiting_of_idle hpull]
    omega
  | some pull =>
    have hdrop : ((dropAuthor pull.peer session.head).map Prod.snd).getD [] =
        (authorsOf session).filter fun author => author ≠ pull.peer :=
      authorsOf_dropAuthor _ _
    have hfewer : ((authorsOf session).filter fun author => author ≠ pull.peer).length ≤
        (authorsOf session).length := List.length_filter_le _ _
    rw [finishRangePull_eq hpull]
    refine spends_of_idle rfl ?_
    by_cases hsteps : readRange wire session.owner pull reply = []
    · rw [hsteps, holdSteps, if_pos rfl, authorsOf, hdrop]
      dsimp only
      by_cases hpeer : pull.peer ∈ authorsOf session
      · have hless : ((authorsOf session).filter fun author => author ≠ pull.peer).length <
            (authorsOf session).length :=
          List.length_filter_lt_length_iff_exists.mpr ⟨pull.peer, hpeer, by simp⟩
        omega
      · have hnot : waiting session = 0 := by
          rw [waiting, hpull, if_neg]
          simpa using hpeer
        omega
    · have hone := hfree pull hpull hsteps
      rw [authorsOf]
      dsimp only
      split
      · rw [hdrop]
        omega
      · change _ + (authorsOf session).length + _ ≤ _
        omega

theorem spends_pruneHeld : Spends 0 session (pruneHeld mls session) := by
  cases hhead : session.head.filter fun head => decide (mls.epoch session.owner < head.1) with
  | none =>
    have hauthors : authorsOf (pruneHeld mls session) = [] := by
      rw [authorsOf, pruneHeld, hhead]
      rfl
    have hwaiting := waiting_le session
    rw [Spends, hauthors]
    change session.requests.length + _ + _ ≤ _
    rw [List.length_nil]
    omega
  | some head =>
    have hsame : session.head = some head := by
      rw [Option.filter_eq_some_iff] at hhead
      exact hhead.1
    refine Spends.of_eq rfl ?_ rfl
    rw [pruneHeld, hhead, hsame]

theorem spends_startRangePull : Spends 0 session (startRangePull mls wire nodeId session) := by
  rcases startRangePull_cases mls wire nodeId session with
    ⟨head, heq, hsublist, hsame⟩ | ⟨head, authors, author, query, hidle, hauthor, hsublist, heq⟩
  · rw [heq]
    by_cases hpull : session.pull = none
    · have hlength := hsublist.length_le
      have hidle : waiting { session with head := head } = 0 := waiting_of_idle hpull
      rw [Spends, waiting_of_idle hpull, hidle, authorsOf]
      dsimp only
      omega
    · exact Spends.of_eq rfl (hsame hpull) rfl
  · rw [heq]
    have hlength := hsublist.length_le
    have hnow : waiting { session with
        head := some (head, authors)
        pull := some ⟨mls.epoch session.owner, author⟩
        requests := session.requests ++ [(author, query)] } = 1 := by
      rw [waiting, if_pos]
      exact decide_eq_true hauthor
    rw [Spends, waiting_of_idle hidle, hnow, authorsOf]
    simp only [List.length_append, List.length_singleton, Option.map_some, Option.getD_some]
    omega

theorem spends_stageHeld (ready : Outcome Unit) (now : U64) :
    Spends 0 session (stageHeld mls wire session ready now) := by
  rcases stageHeld_cases mls wire session ready now with ⟨heq, _⟩ | ⟨_, _, _, heq, _⟩
  · rw [heq]
    exact Spends.of_eq rfl rfl rfl
  · rw [heq]
    exact Spends.of_eq rfl rfl rfl

/-- A quiet step spends an author for each request, unless a pull brought something. -/
theorem spends_step (hstep : CatchUpStep mls wire nodeId session event next)
    (hquiet : Quiet event) (hfruitful : Fruitful mls wire nodeId ⟨session, event, next⟩) :
    Spends (if brings mls wire nodeId ⟨session, event, next⟩ then 1 else 0) session next := by
  cases hstep with
  | note => exact hquiet.elim
  | adopt =>
    rw [if_neg]
    · exact Spends.of_eq rfl rfl rfl
    · nofun
  | discard =>
    rw [if_neg]
    · exact Spends.of_eq rfl rfl rfl
    · nofun
  | poll poll hidle =>
    have hrest : Spends 0 (finished mls wire nodeId session poll)
        (stageGossipedStep mls wire nodeId session poll) :=
      (spends_pruneHeld.trans spends_startRangePull).trans (spends_stageHeld _ _)
    suffices hfinished : Spends (if brings mls wire nodeId
        ⟨session, .poll poll, stageGossipedStep mls wire nodeId session poll⟩ then 1 else 0)
        session (finished mls wire nodeId session poll) from hfinished.trans hrest
    have hgossip : poll.gossip = [] := hquiet
    rw [finished, hgossip, List.foldl_nil]
    cases hreply : poll.reply with
    | none => exact Spends.of_eq rfl rfl rfl
    | some reply =>
      refine spends_finishRangePull ?_
      intro pull hpull hsteps
      have hcompletes : (poll, pull, reply) ∈ completes
          (⟨session, .poll poll, stageGossipedStep mls wire nodeId session poll⟩ :
            Taken (CatchUp Group Signer) (CatchUpEvent Group Signer)) := by
        change (session.pull.bind fun pull => poll.reply.map fun reply => _) = _
        rw [hpull, hreply]
        rfl
      rw [if_pos (hfruitful _ hcompletes hsteps)]

theorem requests_le {trace : List (Taken (CatchUp Group Signer) (CatchUpEvent Group Signer))}
    (hrun : Run (CatchUpStep mls wire nodeId) session trace next)
    (hquiet : ∀ taken ∈ trace, Quiet taken.label)
    (hfruitful : ∀ taken ∈ trace, Fruitful mls wire nodeId taken) :
    next.requests.length ≤ session.requests.length + (authorsOf session).length +
      trace.countP (brings mls wire nodeId) := by
  have hspends : Spends (trace.countP (brings mls wire nodeId)) session next := by
    induction hrun with
    | nil session => exact Spends.of_eq rfl rfl rfl
    | cons hstep _ ih =>
      rw [List.forall_mem_cons] at hquiet hfruitful
      rw [List.countP_cons, Nat.add_comm]
      exact (spends_step hstep hquiet.1 hfruitful.1).trans (ih hquiet.2 hfruitful.2)
  have hwaiting := waiting_le next
  rw [Spends] at hspends
  omega

theorem authorsOf_noteHead (head : U64) (author : Block 32)
    (h : (authorsOf session).length ≤ maxHeadAuthors) :
    (authorsOf (noteHead mls nodeId session head author)).length ≤ maxHeadAuthors := by
  have hone : 1 ≤ maxHeadAuthors := by decide
  rw [noteHead]
  split
  · exact h
  · split
    · exact hone
    · rename_i known authors hhead
      split
      · exact h
      · split
        · split
          · rename_i hroom
            change (authors ++ [author]).length ≤ maxHeadAuthors
            rw [List.length_append, List.length_singleton]
            exact hroom.2
          · exact h
        · exact hone

theorem authorsOf_finished (h : (authorsOf session).length ≤ maxHeadAuthors) :
    (authorsOf (finished mls wire nodeId session poll)).length ≤ maxHeadAuthors := by
  have hgossip : ∀ (gossip : List (Block 32 × Bytes)) (session : CatchUp Group Signer),
      (authorsOf session).length ≤ maxHeadAuthors →
      (authorsOf (gossip.foldl (noteGossip mls nodeId) session)).length ≤ maxHeadAuthors := by
    intro gossip
    induction gossip with
    | nil => exact fun _ h => h
    | cons message gossip ih =>
      intro session h
      apply ih
      rw [noteGossip]
      split
      · exact authorsOf_noteHead _ _ h
      · exact h
  rw [finished]
  split
  · exact hgossip _ _ h
  · rename_i reply _
    have hnoted := hgossip poll.gossip session h
    cases hpull : (poll.gossip.foldl (noteGossip mls nodeId) session).pull with
    | none =>
      rw [finishRangePull_of_none hpull]
      exact hnoted
    | some pull =>
      rw [finishRangePull_eq hpull, authorsOf]
      dsimp only
      split
      · rw [authorsOf_dropAuthor]
        exact (List.length_filter_le _ _).trans hnoted
      · exact hnoted

theorem authorsOf_step (hstep : CatchUpStep mls wire nodeId session event next)
    (h : (authorsOf session).length ≤ maxHeadAuthors) :
    (authorsOf next).length ≤ maxHeadAuthors := by
  cases hstep with
  | note head author => exact authorsOf_noteHead head author h
  | poll poll _ => exact authorsOf_stageGossipedStep.length_le.trans (authorsOf_finished h)
  | adopt => exact h
  | discard => exact h

/-- What is staged was held for the current epoch and has verified. -/
theorem staged_of_poll (hidle : session.staged = none)
    (h : (stageGossipedStep mls wire nodeId session poll).staged = some update) :
    ∃ bytes step, (finished mls wire nodeId session poll).ahead.find?
        (mls.epoch session.owner).val = some bytes ∧ wire.stepIn bytes = some step ∧
      stageUpdate mls session.owner poll.now step = .ok update := by
  have hstaged : (finished mls wire nodeId session poll).staged = session.staged :=
    finished_frame.2
  obtain ⟨howner, hahead, hsame⟩ := startRangePull_frame mls wire nodeId
    (pruneHeld mls (finished mls wire nodeId session poll))
  have hpruned : (pruneHeld mls (finished mls wire nodeId session poll)).owner = session.owner :=
    finished_frame.1
  rw [stageGossipedStep] at h
  rcases stageHeld_cases mls wire (startRangePull mls wire nodeId
      (pruneHeld mls (finished mls wire nodeId session poll))) poll.ready poll.now with
    ⟨heq, _⟩ | ⟨bytes, staged, hfind, heq, hstage⟩
  · rw [heq, hsame] at h
    change (finished mls wire nodeId session poll).staged = some update at h
    rw [hstaged, hidle] at h
    cases h
  · rw [heq] at h
    dsimp only at h
    rcases hstage with hstage | ⟨step, update', hstep, hupdate, hstage⟩
    · rw [hstage, hsame] at h
      change (finished mls wire nodeId session poll).staged = some update at h
      rw [hstaged, hidle] at h
      cases h
    · rw [hstage] at h
      cases h
      rw [howner, hpruned] at hupdate hfind
      rw [hahead, pruneHeld, find?_filter] at hfind
      split at hfind
      · exact ⟨bytes, step, hfind, hstep, hupdate⟩
      · cases hfind

/-- With no step to stage and no pull to wait for, no head is kept. -/
theorem head_eq_none_of_poll (hquery : ∀ query, ∃ bytes, wire.encodeRangeQuery query = .ok bytes)
    (hidle : (stageGossipedStep mls wire nodeId session poll).pull = none)
    (hgap : (finished mls wire nodeId session poll).ahead.find? (mls.epoch session.owner).val =
      none) : (stageGossipedStep mls wire nodeId session poll).head = none := by
  have hprune : (pruneHeld mls (finished mls wire nodeId session poll)).ahead.find?
      (mls.epoch (pruneHeld mls (finished mls wire nodeId session poll)).owner).val = none := by
    change ((finished mls wire nodeId session poll).ahead.filter _).find?
      (mls.epoch (finished mls wire nodeId session poll).owner).val = none
    rw [finished_frame.1, find?_filter, hgap]
    exact ite_self _
  have hstage : stageGossipedStep mls wire nodeId session poll =
      startRangePull mls wire nodeId (pruneHeld mls (finished mls wire nodeId session poll)) := by
    obtain ⟨howner, hahead, _⟩ := startRangePull_frame mls wire nodeId
      (pruneHeld mls (finished mls wire nodeId session poll))
    rw [stageGossipedStep]
    rcases stageHeld_cases mls wire (startRangePull mls wire nodeId
        (pruneHeld mls (finished mls wire nodeId session poll))) poll.ready poll.now with
      ⟨heq, _⟩ | ⟨bytes, _, hfind, _⟩
    · exact heq
    · rw [howner, hahead, hprune] at hfind
      cases hfind
  rw [hstage] at hidle ⊢
  generalize pruneHeld mls (finished mls wire nodeId session poll) = pruned at *
  rw [startRangePull] at hidle ⊢
  split at hidle
  · rename_i hbusy
    rw [if_pos hbusy]
    rcases hbusy with hbusy | hheld
    · exact absurd hidle hbusy
    · exact absurd hprune hheld
  · rename_i hfree
    rw [if_neg hfree]
    split
    · assumption
    · dsimp only
      split
      · rfl
      · rename_i head authors hhead hauthors
        rw [hhead] at hidle
        dsimp only at hidle
        rw [if_neg hauthors] at hidle
        obtain ⟨bytes, hbytes⟩ := hquery ⟨pruned.owner.id, mls.epoch pruned.owner, head⟩
        rw [hbytes] at hidle
        cases hidle

/-- The commit of a step that verifies is a message of the current epoch. -/
theorem stageUpdate_own_epoch {owner : Workspace Group Signer} {now : U64} {step : MembershipStep}
    (laws : mls.Lawful) (sound : mls.Sound owner)
    (h : stageUpdate mls owner now step = .ok update) :
    ∃ message, mls.decodeMessage step.commit = some (.protocol message) ∧
      message.epoch = mls.epoch owner := by
  have happly : ∀ proof group authorization, mls.verifierOf owner = .ok proof →
      mls.applyTransition proof step.commit authorization = .ok group →
      ∃ message, mls.decodeMessage step.commit = some (.protocol message) ∧
        message.epoch = mls.epoch owner := by
    intro proof group authorization hverifier happly
    obtain ⟨_, _, rfl⟩ := (Mls.verifierOf_eq_ok laws sound).mp hverifier
    obtain ⟨sender, staged, hprocess, _⟩ := Security.PublicMls.applyTransition_process happly
    simp only [Security.PublicMls.process, Option.bind_eq_bind, Option.bind_eq_some_iff] at hprocess
    obtain ⟨message, hdecode, protocol, hprotocol, hprocess⟩ := hprocess
    cases message with
    | protocol message =>
      cases hprotocol
      exact ⟨_, hdecode, (laws.processMessage sound.ready.wellFormed hprocess).1⟩
    | _ => cases hprotocol
  rw [stageUpdate] at h
  split at h
  · simp only [bind_eq_ok, Mls.prepareAdmissionUpdate] at h
    obtain ⟨_, _, _, ⟨_, _, proof, hproof, next, hnext, _⟩, _⟩ := h
    exact happly proof next _ hproof hnext
  · simp only [bind_eq_ok, Mls.prepareAdmissionUpdate] at h
    obtain ⟨_, _, _, ⟨_, _, proof, hproof, next, hnext, _⟩, _⟩ := h
    exact happly proof next _ hproof hnext
  · simp only [bind_eq_ok, Mls.prepareManagementUpdate] at h
    obtain ⟨_, ⟨_, _, proof, hproof, next, hnext, _⟩, _⟩ := h
    exact happly proof next _ hproof hnext

end Settling

/-- Whatever peers announce and answer, the buffer stays within its bound and takes every step that
a pull brings, unless one is held in its place, and what is staged was held for the current epoch
and has verified. Where every reply with steps has a genuine one for the current epoch, each pull
makes a verified step available or costs its peer the place among the authors. Then, while nothing
new is announced, the pulls are no more than the authors and the verified steps, and no head is
kept for nothing. -/
theorem catch_up_settles {Group Signer Staged : Type} (mls : Mls Group Signer Staged)
    (wire : RangeWire) (nodeId : Block 32) {start last : CatchUp Group Signer}
    {trace : List (Taken (CatchUp Group Signer) (CatchUpEvent Group Signer))}
    (hstart : start.head = none ∧ start.ahead = .empty ∧ start.pull = none)
    (hrun : Run (CatchUpStep mls wire nodeId) start trace last) :
    (∀ taken ∈ trace, taken.after.ahead.size ≤ maxGossipStepsAhead ∧
      (authorsOf taken.after).length ≤ maxHeadAuthors) ∧
    (∀ taken ∈ trace, ∀ completed ∈ completes taken, ∀ i bytes,
      (readRange wire taken.before.owner completed.2.1 completed.2.2)[i]? = some bytes →
        (finished mls wire nodeId taken.before completed.1).ahead.find?
            (completed.2.1.epoch.val + i) =
          some ((taken.before.ahead.find? (completed.2.1.epoch.val + i)).getD bytes)) ∧
    (∀ taken ∈ trace, ∀ poll update, taken.label = .poll poll →
      taken.after.staged = some update → ∃ bytes step,
        (finished mls wire nodeId taken.before poll).ahead.find?
          (mls.epoch taken.before.owner).val = some bytes ∧ wire.stepIn bytes = some step ∧
        stageUpdate mls taken.before.owner poll.now step = .ok update ∧
        (mls.Lawful → mls.Sound taken.before.owner → ∃ message,
          mls.decodeMessage step.commit = some (.protocol message) ∧
            message.epoch = mls.epoch taken.before.owner)) ∧
    ((∀ taken ∈ trace, Genuine mls wire taken) →
      (∀ taken ∈ trace, Settles mls wire nodeId taken) ∧
      (∀ earlier later, trace = earlier ++ later → (∀ taken ∈ later, Quiet taken.label) →
        ∃ middle, Run (CatchUpStep mls wire nodeId) start earlier middle ∧
          last.requests.length ≤ middle.requests.length + (authorsOf middle).length +
            later.countP (brings mls wire nodeId)) ∧
      ((∀ query, ∃ bytes, wire.encodeRangeQuery query = .ok bytes) → ∀ taken ∈ trace, ∀ poll,
        taken.label = .poll poll → taken.after.pull = none →
        (finished mls wire nodeId taken.before poll).ahead.find?
          (mls.epoch taken.before.owner).val = none → taken.after.head = none)) := by
  obtain ⟨hhead, hahead, hpull⟩ := hstart
  have hwindow : Windowed mls start := by
    refine ⟨?_, ?_, ?_⟩
    · rw [hahead]
      exact Nat.zero_le _
    · rw [hahead]
      nofun
    · rw [hpull]
      nofun
  have hauthors : (authorsOf start).length ≤ maxHeadAuthors := by
    rw [authorsOf, hhead]
    exact Nat.zero_le _
  have hinvariant : ∀ session event next,
      (Windowed mls session ∧ (authorsOf session).length ≤ maxHeadAuthors) →
      CatchUpStep mls wire nodeId session event next →
      Windowed mls next ∧ (authorsOf next).length ≤ maxHeadAuthors :=
    fun session event next h hstep => ⟨h.1.step hstep, authorsOf_step hstep h.2⟩
  have hsteps := (hrun.invariant hinvariant ⟨hwindow, hauthors⟩).2
  refine ⟨?_, ?_, ?_, ?_⟩
  · exact fun taken htaken => ⟨(hsteps taken htaken).2.2.1.size, (hsteps taken htaken).2.2.2⟩
  · rintro ⟨before, label, after⟩ htaken ⟨poll, pull, reply⟩ hcompleted i bytes hi
    obtain ⟨_, hpending, hreply⟩ := completes_eq_some hcompleted
    exact find?_finished nodeId (hsteps _ htaken).1.1 hpending hreply hi
  · rintro ⟨before, label, after⟩ htaken poll update rfl hstaged
    obtain ⟨_, hstep, _⟩ := hsteps _ htaken
    dsimp only at hstep
    cases hstep with
    | poll _ hidle =>
      obtain ⟨bytes, step, hfind, hdecode, hupdate⟩ := staged_of_poll hidle hstaged
      exact ⟨bytes, step, hfind, hdecode, hupdate,
        fun laws sound => stageUpdate_own_epoch laws sound hupdate⟩
  · intro hgenuine
    have hfruitful : ∀ taken ∈ trace, Fruitful mls wire nodeId taken := fun taken htaken =>
      fruitful_of_genuine (hsteps taken htaken).1.1 (hgenuine taken htaken)
    refine ⟨?_, ?_, ?_⟩
    · exact fun taken htaken =>
        settles_of_fruitful (hsteps taken htaken).2.1 (hfruitful taken htaken)
    · rintro earlier later rfl hquiet
      obtain ⟨middle, hearlier, hlater⟩ := hrun.of_append
      refine ⟨middle, hearlier, requests_le hlater hquiet ?_⟩
      exact fun taken htaken => hfruitful taken (List.mem_append_right _ htaken)
    · rintro hquery ⟨before, label, after⟩ htaken poll rfl hidle hgap
      obtain ⟨_, hstep, _⟩ := hsteps _ htaken
      dsimp only at hstep
      cases hstep with
      | poll _ _ => exact head_eq_none_of_poll hquery hidle hgap

section Sample

open Security

open Sample

/-- The step after the admission, as it is pulled. -/
def registrationStep : MembershipStep := ⟨.management registration, Script.commit 1, none⟩

/-- A codec for ranges of one step; one single step of it is readable. -/
def oneStepWire : RangeWire :=
  { plainWire with
    rangeQueryOut := fun query =>
      some (query.workspace.1 ++ beBytes 8 query.after.val ++ beBytes 8 query.untilEpoch.val)
    rangeIn := fun bytes =>
      some (⟨workspaceId, u64OfBytes (bytes.take 8), [bytes.drop 8]⟩, [])
    stepIn := fun bytes => if bytes = [1] then some registrationStep else none }

/-- A session that has heard of nothing yet. -/
def behindSession (owner : Workspace ScriptGroup Bytes) : CatchUp ScriptGroup Bytes :=
  ⟨owner, none, .empty, none, none, []⟩

/-- A member announces a head. -/
def announcement (head : Nat) (endpoint : UInt8) : Block 32 × Bytes :=
  (workspaceId, utf8 "DFMH" ++ [1] ++ workspaceId.1 ++ beBytes 8 head ++
    (block endpoint).1)

/-- A reply to the pull at the first epoch. -/
def oneStep (step : Bytes) : Option Bytes := some (utf8 "DFMT" ++ [1] ++ beBytes 8 1 ++ step)

section Events

variable (nodeId : Block 32)

def eventNext (session : CatchUp ScriptGroup Bytes) :
    CatchUpEvent ScriptGroup Bytes → CatchUp ScriptGroup Bytes
  | .note head author => noteHead pair.mls nodeId session head author
  | .poll poll => stageGossipedStep pair.mls oneStepWire nodeId session poll
  | .adopt owner => { session with owner, staged := none }
  | .discard => { session with staged := none }

def mayHappen (session : CatchUp ScriptGroup Bytes) : CatchUpEvent ScriptGroup Bytes → Bool
  | .poll _ => session.staged.isNone
  | .adopt owner => decide (pair.mls.epoch session.owner ≤ pair.mls.epoch owner)
  | _ => true

variable {nodeId}

theorem run_events {session : CatchUp ScriptGroup Bytes}
    {events : List (CatchUpEvent ScriptGroup Bytes)}
    (h : ∀ taken ∈ play (eventNext nodeId) session events,
      mayHappen taken.before taken.label = true) :
    Run (CatchUpStep pair.mls oneStepWire nodeId) session (play (eventNext nodeId) session events)
      (events.foldl (eventNext nodeId) session) := by
  refine play_run_of ?_
  rintro ⟨session, event, next⟩ htaken
  have hmay := h _ htaken
  obtain rfl : next = eventNext nodeId session event := after_of_mem_play htaken
  cases event with
  | note head author => exact .note head author
  | poll poll => exact .poll poll (Option.isNone_iff_eq_none.mp hmay)
  | adopt owner => exact .adopt owner (of_decide_eq_true hmay)
  | discard => exact .discard

end Events

/-- What the first joiner stages with the step after its admission. -/
def caughtUp : Workspace ScriptGroup Bytes :=
  match stageUpdate pair.mls (follower pair) 0 registrationStep with
  | .ok (.active workspace) => workspace
  | _ => follower pair

/-- The second joiner announces a head, brings the first step toward it and then does not answer
any more. -/
def helpfulPeer : List (CatchUpEvent ScriptGroup Bytes) :=
  [.poll ⟨[announcement 9 13], none, .ok (), 0⟩, .poll ⟨[], some (oneStep [1]), .ok (), 0⟩,
    .adopt caughtUp, .poll ⟨[], none, .ok (), 0⟩, .poll ⟨[], some none, .ok (), 0⟩]

theorem catch_up_settles_helped :
    ∃ trace last, Run (CatchUpStep pair.mls oneStepWire (block 12))
        (behindSession (follower pair)) trace last ∧
      (∀ taken ∈ trace, Genuine pair.mls oneStepWire taken) ∧
      (∃ taken ∈ trace, brings pair.mls oneStepWire (block 12) taken = true ∧
        taken.after.staged.isSome = true) ∧
      pair.mls.epoch last.owner = 2 ∧ last.requests.map Prod.fst = [block 13, block 13] ∧
      last.head = none ∧ ∀ taken ∈ trace, Settles pair.mls oneStepWire (block 12) taken := by
  have htrace : (∀ taken ∈ play (eventNext (block 12)) (behindSession (follower pair))
        helpfulPeer, mayHappen taken.before taken.label = true ∧
        Genuine pair.mls oneStepWire taken) ∧
      (∃ taken ∈ play (eventNext (block 12)) (behindSession (follower pair)) helpfulPeer,
        brings pair.mls oneStepWire (block 12) taken = true ∧
          taken.after.staged.isSome = true) ∧
      pair.mls.epoch (helpfulPeer.foldl (eventNext (block 12))
        (behindSession (follower pair))).owner = 2 ∧
      (helpfulPeer.foldl (eventNext (block 12)) (behindSession (follower pair))).requests.map
        Prod.fst = [block 13, block 13] ∧
      (helpfulPeer.foldl (eventNext (block 12)) (behindSession (follower pair))).head = none := by
    decide +kernel
  obtain ⟨hsteps, hbrings, hepoch, hrequests, hhead⟩ := htrace
  have hrun := run_events fun taken htaken => (hsteps taken htaken).1
  have hgenuine := fun taken htaken => (hsteps taken htaken).2
  exact ⟨_, _, hrun, hgenuine, hbrings, hepoch, hrequests, hhead,
    ((catch_up_settles pair.mls oneStepWire (block 12) ⟨rfl, rfl, rfl⟩ hrun).2.2.2 hgenuine).1⟩

/-- The first joiner announces a head far ahead and answers every pull with a step that is none.
Meanwhile another member announces the head it has. -/
def pinningPeer : List (CatchUpEvent ScriptGroup Bytes) :=
  .poll ⟨[announcement 9 12], none, .ok (), 0⟩ :: (List.replicate 9
    [.poll ⟨[announcement 2 13], some (oneStep [0]), .ok (), 0⟩,
      .poll ⟨[], none, .ok (), 0⟩]).flatten

/-- Ten pulls of one peer that has nothing, and it is asked again. -/
theorem pinned_catch_up :
    ∃ trace last, Run (CatchUpStep pair.mls oneStepWire (block 11)) (behindSession (leader pair))
        trace last ∧
      (∀ taken ∈ trace, brings pair.mls oneStepWire (block 11) taken = false) ∧
      last.requests.map Prod.fst = List.replicate 10 (block 12) ∧
      last.head = some (9, [block 12]) ∧
      ∃ taken ∈ trace, ¬Settles pair.mls oneStepWire (block 11) taken := by
  have htrace : (∀ taken ∈ play (eventNext (block 11)) (behindSession (leader pair)) pinningPeer,
        mayHappen taken.before taken.label = true ∧
          brings pair.mls oneStepWire (block 11) taken = false) ∧
      (∃ taken ∈ play (eventNext (block 11)) (behindSession (leader pair)) pinningPeer,
        ∃ completed ∈ completes taken, completed.2.1.peer ∈ authorsOf taken.after) ∧
      (pinningPeer.foldl (eventNext (block 11)) (behindSession (leader pair))).requests.map
        Prod.fst = List.replicate 10 (block 12) ∧
      (pinningPeer.foldl (eventNext (block 11)) (behindSession (leader pair))).head =
        some (9, [block 12]) := by
    decide +kernel
  obtain ⟨hsteps, ⟨taken, htaken, completed, hcompleted, hpeer⟩, hrequests, hhead⟩ := htrace
  refine ⟨_, _, run_events fun taken htaken => (hsteps taken htaken).1,
    fun taken htaken => (hsteps taken htaken).2, hrequests, hhead, taken, htaken, ?_⟩
  rintro hsettles
  rcases hsettles completed hcompleted with hverified | hgone
  · rw [(hsteps taken htaken).2] at hverified
    cases hverified
  · exact hgone hpeer

end Sample

end Arachne.Runtime
