import Arachne.Delivery.DirectRecovery
import Arachne.Security.SignedProfile
import Arachne.Security.WorkspaceRuns

/-! What a peer is told about the membership of a workspace: single steps, ranges of steps and
pages of profiles. A peer that is no longer a member is told of its own removal, and a peer that
never was one learns nothing. -/

namespace Arachne.Runtime

open ByteCodec Fallible
open Security (Mls Workspace Step MembershipAuthorization maxMemberProfile)

variable {Group Signer Staged : Type}

def maxControlReply : Nat := 128 * 1024
def maxRangeSteps : Nat := 32
def maxPageProfiles : Nat := 32

/-- A step as it is sent, with the checkpoint of the invitation it creates. -/
structure MembershipStep where
  authorization : MembershipAuthorization
  commit : Bytes
  invitationCheckpoint : Option (Block 261 × Bytes)
deriving DecidableEq

structure MembershipQuery where
  workspace : Block 32
  epoch : U64
  profiles : List Bytes
deriving DecidableEq

structure MembershipRangeQuery where
  workspace : Block 32
  after : U64
  untilEpoch : U64
deriving DecidableEq

structure MembershipRange where
  workspace : Block 32
  after : U64
  steps : List Bytes
deriving DecidableEq

structure ProfileQuery where
  workspace : Block 32
  after : Option (Block 32)
deriving DecidableEq

structure ProfilePage where
  workspace : Block 32
  profiles : List Bytes
deriving DecidableEq

/-- The calls into `postcard` and `serde_json`. -/
structure MembershipWire where
  query : Bytes → Option (MembershipQuery × Bytes)
  rangeQuery : Bytes → Option (MembershipRangeQuery × Bytes)
  profileQuery : Bytes → Option (ProfileQuery × Bytes)
  range : MembershipRange → Option Bytes
  page : ProfilePage → Option Bytes
  step : MembershipStep → Option Bytes

def encode (opening : Bytes) (value : Option Bytes) (limit : Nat) : Outcome Bytes := do
  let value ← orFail value "invalid membership encoding"
  failIf (limit < (opening ++ value).length) "membership packet exceeds bound"
  pure (opening ++ value)

def decode {α : Type} (opening : Bytes) (value : Bytes → Option (α × Bytes)) (limit : Nat)
    (bytes : Bytes) : Outcome α := do
  failIf (limit < bytes.length) "membership packet exceeds bound"
  let body ← orFail (opening.isPrefixOf? bytes) "invalid membership format"
  let (value, trailing) ← orFail (value body) "invalid membership packet"
  failIf (trailing ≠ []) "trailing membership bytes"
  pure value

namespace MembershipWire

variable (wire : MembershipWire)

def decodeQuery (bytes : Bytes) : Outcome MembershipQuery := do
  let query ← decode (utf8 "DFMQ" ++ [1]) wire.query (256 + 2 * maxMemberProfile) bytes
  failIf (∃ profile ∈ query.profiles, maxMemberProfile < profile.length)
    "member profile exceeds bound"
  pure query

def decodeRangeQuery (bytes : Bytes) : Outcome MembershipRangeQuery :=
  decode (utf8 "DFMS" ++ [1]) wire.rangeQuery 64 bytes

def decodeProfileQuery (bytes : Bytes) : Outcome ProfileQuery :=
  decode (utf8 "DFPQ" ++ [1]) wire.profileQuery 80 bytes

def encodeRange (range : MembershipRange) : Outcome Bytes := do
  failIf (maxRangeSteps < range.steps.length) "too many membership steps"
  encode (utf8 "DFMT" ++ [1]) (wire.range range) maxControlReply

def encodePage (page : ProfilePage) : Outcome Bytes := do
  failIf (maxPageProfiles < page.profiles.length) "too many member profiles"
  encode (utf8 "DFPS" ++ [1]) (wire.page page) maxControlReply

end MembershipWire

inductive MembershipState where
  | denied
  | current
  | updateAvailable
  | unavailable
deriving DecidableEq

/-- The fields of a reply to a membership query. -/
structure MembershipReply where
  state : MembershipState
  workspace : Option (Block 32)
  after : Option U64
  epoch : Option U64
  epochFingerprint : Option (Block 32)
  step : Option MembershipStep
deriving DecidableEq

def MembershipReply.refusal : MembershipReply := ⟨.denied, none, none, none, none, none⟩

section Replies

variable (mls : Mls Group Signer Staged) (wire : MembershipWire)

def stepWithRetainedCheckpoint (owner : Workspace Group Signer) (step : Step) : MembershipStep :=
  match step.1 with
  | .management action =>
      ⟨step.1, step.2, owner.retainedInvitationCheckpoint action⟩
  | _ => ⟨step.1, step.2, none⟩

/-- The epoch a reply states: a former member is told only of the one after its removal. -/
def statedEpoch (owner : Workspace Group Signer) (peer : Block 32) (after : U64) : Option U64 :=
  if mls.isMember owner peer then some (mls.epoch owner) else checkedSucc after

def updateState (owner : Workspace Group Signer) (after : U64) : Option Step → MembershipState
  | some _ => .updateAvailable
  | none => if after = mls.epoch owner then .current else .unavailable

/-- The reply once the query is known to be for this workspace. -/
def replyTo (owner : Workspace Group Signer) (peer : Block 32) (after : U64) : MembershipReply :=
  match mls.membershipUpdateFor owner peer after with
  | .error _ => .refusal
  | .ok step =>
      if step = none ∧ mls.isMember owner peer = false then .refusal
      else
        match statedEpoch mls owner peer after with
        | none => .refusal
        | some epoch =>
            ⟨updateState mls owner after step, some owner.id, some after, some epoch,
              if mls.isMember owner peer then some (mls.epochFingerprint owner) else none,
              step.map (stepWithRetainedCheckpoint owner)⟩

def reply (owner : Option (Workspace Group Signer)) (peer : Block 32) (bytes : Bytes) :
    MembershipReply :=
  match owner with
  | none => .refusal
  | some owner =>
      match wire.decodeQuery bytes with
      | .error _ => .refusal
      | .ok query =>
          if query.workspace = owner.id then replyTo mls owner peer query.epoch else .refusal

/-- The step loop of `range_reply`, with what is left of the count and the size so far. -/
def rangeSteps (owner : Workspace Group Signer) (peer : Block 32) (untilEpoch : U64) :
    Nat → U64 → Nat → List Bytes
  | 0, _, _ => []
  | count + 1, next, size =>
      if next < min untilEpoch (mls.epoch owner) then
        match mls.membershipUpdateFor owner peer next with
        | .ok (some step) =>
            match wire.step (stepWithRetainedCheckpoint owner step) with
            | some bytes =>
                if maxControlReply < size + (bytes.length + 8) then []
                else bytes :: rangeSteps owner peer untilEpoch count (next + 1)
                  (size + (bytes.length + 8))
            | none => []
        | _ => []
      else []

/-- What a range query is answered with: nothing where it is refused. -/
def servedRange (owner : Option (Workspace Group Signer)) (peer : Block 32) (bytes : Bytes) :
    MembershipRange :=
  match owner with
  | none => ⟨zeroBlock 32, 0, []⟩
  | some owner =>
      match wire.decodeRangeQuery bytes with
      | .error _ => ⟨zeroBlock 32, 0, []⟩
      | .ok query =>
          if query.workspace = owner.id ∧ mls.isMember owner peer = true then
            ⟨owner.id, query.after,
              rangeSteps mls wire owner peer query.untilEpoch maxRangeSteps query.after 256⟩
          else ⟨zeroBlock 32, 0, []⟩

def rangeReply (owner : Option (Workspace Group Signer)) (peer : Block 32) (bytes : Bytes) :
    Bytes :=
  (wire.encodeRange (servedRange mls wire owner peer bytes)).toOption.getD []

/-- What a profile query is answered with, from the retained profiles. -/
def servedPage (owner : Option (Workspace Group Signer)) (retained : OrderedMap (Block 32) Bytes)
    (peer : Block 32) (bytes : Bytes) : ProfilePage :=
  match owner with
  | none => ⟨zeroBlock 32, []⟩
  | some owner =>
      match wire.decodeProfileQuery bytes with
      | .error _ => ⟨zeroBlock 32, []⟩
      | .ok query =>
          if query.workspace = owner.id ∧ mls.isMember owner peer = true then
            ⟨owner.id, ((retained.entries.filter fun entry =>
              query.after.all fun after => decide (after < entry.1)).map Prod.snd).take
                maxPageProfiles⟩
          else ⟨zeroBlock 32, []⟩

def profilePageReply (owner : Option (Workspace Group Signer))
    (retained : OrderedMap (Block 32) Bytes) (peer : Block 32) (bytes : Bytes) : Bytes :=
  (wire.encodePage (servedPage mls wire owner retained peer bytes)).toOption.getD []

end Replies

section Former

variable {mls : Mls Group Signer Staged} {wire : MembershipWire}
  {owner other : Workspace Group Signer} {peer : Block 32}

/-- All that a former member is told: the id, the epoch it asked for, the next one and the step. -/
def removalReply (id : Block 32) (after : U64) : Outcome (Option Step) → MembershipReply
  | .ok (some step) =>
      match checkedSucc after with
      | some epoch =>
          ⟨.updateAvailable, some id, some after, some epoch, none, some ⟨step.1, step.2, none⟩⟩
      | none => .refusal
  | _ => .refusal

/-- A reply that looks at nothing of the workspace but its id and the step it has for the peer. -/
def formerReply (wire : MembershipWire) (id : Block 32) (update : U64 → Outcome (Option Step))
    (bytes : Bytes) : MembershipReply :=
  match wire.decodeQuery bytes with
  | .ok query =>
      if query.workspace = id then removalReply id query.epoch (update query.epoch) else .refusal
  | .error _ => .refusal

/-- The endpoint is bound to no member of the current group. -/
def NotCurrent (mls : Mls Group Signer Staged) (owner : Workspace Group Signer) (peer : Block 32) :
    Prop :=
  ∀ id, ¬(mls.publicGroup owner.group).Binds id peer

/-- Nor was it bound to one in any group of the saved history. -/
def NeverMember (mls : Mls Group Signer Staged) (owner : Workspace Group Signer) (peer : Block 32) :
    Prop :=
  NotCurrent mls owner peer ∧
    ∀ past rest group, mls.OnHistory owner past rest group → ∀ id, ¬group.Binds id peer

theorem stepWithRetainedCheckpoint_of_removed {step : Step} {id : Block 32}
    (h : step.1.removed = some id) :
    stepWithRetainedCheckpoint owner step = ⟨step.1, step.2, none⟩ := by
  obtain ⟨authorization, commit⟩ := step
  rw [stepWithRetainedCheckpoint]
  dsimp only at h ⊢
  split
  · rename_i action
    cases action with
    | remove id => rfl
    | leave id signature => rfl
    | _ => cases h
  · rfl

section

variable (hmember : mls.isMember owner peer = false)

include hmember

theorem replyTo_of_notMember (after : U64) :
    replyTo mls owner peer after =
      removalReply owner.id after (mls.membershipUpdateFor owner peer after) := by
  rw [replyTo]
  cases hupdate : mls.membershipUpdateFor owner peer after with
  | error message => rfl
  | ok step =>
    cases step with
    | none =>
      dsimp only
      rw [if_pos ⟨rfl, hmember⟩]
      rfl
    | some step =>
      obtain ⟨_, _, _, _, _, _, hremoved, _⟩ := Mls.membershipUpdateFor_eq_some hmember hupdate
      dsimp only
      rw [if_neg (fun h => nomatch h.1), statedEpoch, hmember, if_neg Bool.false_ne_true,
        if_neg Bool.false_ne_true, removalReply, Option.map_some,
        stepWithRetainedCheckpoint_of_removed hremoved]
      cases checkedSucc after <;> rfl

theorem reply_of_notMember (bytes : Bytes) :
    reply mls wire (some owner) peer bytes =
      formerReply wire owner.id (mls.membershipUpdateFor owner peer) bytes := by
  rw [reply, formerReply]
  cases wire.decodeQuery bytes with
  | error message => rfl
  | ok query =>
    dsimp only
    rw [replyTo_of_notMember hmember]

theorem servedRange_of_notMember (bytes : Bytes) :
    servedRange mls wire (some owner) peer bytes = ⟨zeroBlock 32, 0, []⟩ := by
  rw [servedRange]
  cases wire.decodeRangeQuery bytes with
  | error message => rfl
  | ok query =>
    dsimp only
    rw [if_neg]
    rintro ⟨_, hcurrent⟩
    rw [hmember] at hcurrent
    cases hcurrent

theorem servedPage_of_notMember (retained : OrderedMap (Block 32) Bytes) (bytes : Bytes) :
    servedPage mls wire (some owner) retained peer bytes = ⟨zeroBlock 32, []⟩ := by
  rw [servedPage]
  cases wire.decodeProfileQuery bytes with
  | error message => rfl
  | ok query =>
    dsimp only
    rw [if_neg]
    rintro ⟨_, hcurrent⟩
    rw [hmember] at hcurrent
    cases hcurrent

end

theorem reply_of_neverMember (hnever : NeverMember mls owner peer) (bytes : Bytes) :
    reply mls wire (some owner) peer bytes = .refusal := by
  have hmember := Mls.isMember_eq_false hnever.1
  rw [reply_of_notMember hmember, formerReply]
  cases wire.decodeQuery bytes with
  | error message => rfl
  | ok query =>
    dsimp only
    split
    · cases hupdate : mls.membershipUpdateFor owner peer query.epoch with
      | error message => rfl
      | ok step =>
        cases step with
        | none => rfl
        | some step =>
          obtain ⟨past, rest, parent, id, hhistory, _, _, hbinds⟩ :=
            Mls.membershipUpdateFor_eq_some hmember hupdate
          exact absurd hbinds (hnever.2 past _ parent hhistory id)
    · rfl

/-- A peer that is bound to no current member is told of a step only where that step removes the
member it was bound to, and what it is told then depends on nothing else of the workspace. It is
given no range and no profile. To one that never was a member, all workspaces of one id look
alike. -/
theorem former_member_learns_removal (mls : Mls Group Signer Staged) (wire : MembershipWire)
    {owner : Workspace Group Signer} {peer : Block 32} (hpeer : NotCurrent mls owner peer) :
    (∀ after step, mls.membershipUpdateFor owner peer after = .ok (some step) →
        ∃ past rest parent id, mls.OnHistory owner past (step :: rest) parent ∧
          parent.context.epoch = after ∧
          (step.1 = .management (.remove id) ∨
            ∃ signature, step.1 = .management (.leave id signature)) ∧
          parent.Binds id peer) ∧
      (∀ bytes, reply mls wire (some owner) peer bytes =
        formerReply wire owner.id (mls.membershipUpdateFor owner peer) bytes) ∧
      (∀ bytes, (servedRange mls wire (some owner) peer bytes).steps = []) ∧
      (∀ retained bytes, (servedPage mls wire (some owner) retained peer bytes).profiles = []) ∧
      (NeverMember mls owner peer → ∀ other : Workspace Group Signer, other.id = owner.id →
        NeverMember mls other peer →
        (∀ bytes, reply mls wire (some owner) peer bytes = reply mls wire (some other) peer bytes) ∧
        (∀ bytes, rangeReply mls wire (some owner) peer bytes =
          rangeReply mls wire (some other) peer bytes) ∧
        ∀ retained retained' bytes, profilePageReply mls wire (some owner) retained peer bytes =
          profilePageReply mls wire (some other) retained' peer bytes) := by
  have hmember := Mls.isMember_eq_false hpeer
  refine ⟨?_, reply_of_notMember hmember, ?_, ?_, ?_⟩
  · intro after step hupdate
    obtain ⟨past, rest, parent, id, hhistory, hepoch, hremoved, hbinds⟩ :=
      Mls.membershipUpdateFor_eq_some hmember hupdate
    refine ⟨past, rest, parent, id, hhistory, hepoch, ?_, hbinds⟩
    exact MembershipAuthorization.removed_eq_some hremoved
  · intro bytes
    rw [servedRange_of_notMember hmember]
  · intro retained bytes
    rw [servedPage_of_notMember hmember]
  · intro hnever other _ hother
    have hotherMember := Mls.isMember_eq_false hother.1
    refine ⟨?_, ?_, ?_⟩
    · intro bytes
      rw [reply_of_neverMember hnever, reply_of_neverMember hother]
    · intro bytes
      rw [rangeReply, rangeReply, servedRange_of_notMember hmember,
        servedRange_of_notMember hotherMember]
    · intro retained retained' bytes
      rw [profilePageReply, profilePageReply, servedPage_of_notMember hmember,
        servedPage_of_notMember hotherMember]

end Former

section Sample

open Security

open Sample

/-- A codec that reads a membership query off its first byte. -/
def plainWire : MembershipWire where
  query bytes := some (⟨workspaceId, ⟨(bytes.headD 0).toNat % 2 ^ 64, by omega⟩, []⟩, [])
  rangeQuery _ := none
  profileQuery _ := none
  range _ := some []
  page _ := some []
  step _ := some []

/-- The removal of the first joiner. -/
def removal : Step := (.management (.remove (block 2)), Script.commit 1)

/-- The administrator, who is alone again after the removal. -/
def aloneAgain : Workspace ScriptGroup Bytes :=
  { owner with joinHistory := some ⟨pair.infoBytes 1 0, [removal]⟩ }

theorem aloneAgain_notCurrent : NotCurrent pair.mls aloneAgain (block 12) := by
  rintro id ⟨member, hmember, hbinding⟩
  have hnone : ∀ member ∈ (pair.mls.publicGroup aloneAgain.group).members,
      (binding member.credential).toOption.map Prod.snd ≠ some (block 12) := by
    decide
  apply hnone member hmember
  rw [hbinding]
  rfl

theorem former_member_learns_removal_told :
    (∃ past rest parent id, pair.mls.OnHistory aloneAgain past (removal :: rest) parent ∧
        parent.context.epoch = 1 ∧ parent.Binds id (block 12)) ∧
      reply pair.mls plainWire (some aloneAgain) (block 12)
        (utf8 "DFMQ" ++ [1] ++ [1]) =
          ⟨.updateAvailable, some workspaceId, some 1, some 2, none,
            some ⟨removal.1, removal.2, none⟩⟩ := by
  obtain ⟨hupdate, hreply, _⟩ :=
    former_member_learns_removal pair.mls plainWire aloneAgain_notCurrent
  have hstep : pair.mls.membershipUpdateFor aloneAgain (block 12) 1 =
      .ok (some removal) := by decide
  constructor
  · obtain ⟨past, rest, parent, id, hhistory, hepoch, _, hbinds⟩ := hupdate 1 removal hstep
    exact ⟨past, rest, parent, id, hhistory, hepoch, hbinds⟩
  · rw [hreply]
    decide

end Sample

end Arachne.Runtime
