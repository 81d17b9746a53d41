import Arachne.Security.InvitationControls

/-! Verification of a management commit against the group it is applied to. -/

namespace Arachne.Security

open Fallible ByteCodec

/-- The update path may renew the committer's leaf but not replace the identity in it. -/
def keepsIdentity (actor : Member) (staged : StagedCommit) : Bool :=
  staged.updatePathLeaf.all fun leaf =>
    leaf.credential == actor.credential && leaf.signatureKey == actor.signatureKey

/-- The one member with the given id; an unreadable credential before it is an error, and so
is a second member with the same id. -/
def findTarget (id : Block 32) : List Member → Option Member → Outcome (Option Member)
  | [], target => pure target
  | member :: members, target => do
      if (← binding member.credential).1 = id then
        failIf target.isSome "ambiguous management target"
        findTarget id members (some member)
      else
        findTarget id members target

/-- The administrators after a role or removal action on `target`. -/
def expectedAdmins (members : List Member) (actor target : Member) (before : List Bytes) :
    ManagementAction → Outcome (List Bytes)
  | .promote _ => do
      failIf (target.signatureKey ∈ before) "member is already an administrator"
      failIf ((members.filter (·.signatureKey = target.signatureKey)).length ≠ 1)
        "administrator key must identify one current member"
      pure ((before ++ [target.signatureKey]).insertionSort (· ≤ ·))
  | .demote _ => do
      failIf (target.signatureKey ∉ before) "member is not an administrator"
      pure (before.filter (· ≠ target.signatureKey))
  | _ => do
      failIf (target.index = actor.index) "self removal requires a separate leave operation"
      pure (before.filter (· ≠ target.signatureKey))

/-- The extensions outside the authority. -/
def unrelated (extensions : List Extension) : List Extension :=
  extensions.filter (·.kind ≠ authorityKind)

/-- Whether a proposal is the removal of the target. -/
def isRemoval (action : ManagementAction) (target : Member) (proposal : Proposal) : Bool :=
  action.removes && proposal == .remove target.index

def isPolicyChange : Proposal → Bool
  | .groupContextExtensions _ => true
  | _ => false

/-- Each proposal is the actor's own, inline, and one the action calls for. -/
def checkProposal (sender : Sender) (action : ManagementAction) (target : Member)
    (queued : QueuedProposal) : Outcome Unit := do
  failIf (queued.sender ≠ sender ∨ queued.inline = false)
    "management requires inline actor-authored proposals"
  failIf (!(isRemoval action target queued.proposal || isPolicyChange queued.proposal))
    "management includes an unrelated proposal"

namespace PublicMls

variable (mls : PublicMls)

def leavePayload (context : GroupContext) (member : Block 32) : Outcome Bytes := do
  let encoded ← orFail (mls.encodeContext context) "leave context encoding failed"
  pure (utf8 "data-fabric/leave/v1" ++ [0] ++ encoded ++ member.1)

def verifyLeave (context : GroupContext) (key : Bytes) : ManagementAction → Outcome Unit
  | .leave id signature => do
      let payload ← mls.leavePayload context id
      failIf (!mls.verifySignature payload key signature.1)
        "invalid leave signature or membership branch"
  | _ => pure ()

/-- `invitation_controls::verify`. -/
def verifyInvitationAction (group : PublicGroup) (sender : Sender) (actor : Member)
    (staged : StagedCommit) (action : ManagementAction) : Outcome Unit := do
  let extensions ← mls.changed group.extensions action
  failIf (staged.context.extensions ≠ extensions) "invitation action changed unrelated policy"
  failIf (!keepsIdentity actor staged) "invitation action replaced actor identity"
  failIf (staged.proposals.length ≠ 1 ∨ !(staged.proposals.all fun queued =>
      queued.sender == sender && queued.inline && isPolicyChange queued.proposal))
    "invitation action requires exactly its inline policy proposal"

/-- The part of `management::verify` for roles and removals. -/
def verifyMemberAction (group : PublicGroup) (sender : Sender) (actor : Member)
    (before : List Bytes) (staged : StagedCommit) (action : ManagementAction) :
    Outcome Unit := do
  let found ← findTarget action.target group.members none
  let target ← orFail found "management target is not a current member"
  mls.verifyLeave group.context target.signatureKey action
  failIf (before.any fun key => (group.members.filter (·.signatureKey = key)).length ≠ 1)
    "administrator key must identify one current member"
  let expected ← expectedAdmins group.members actor target before action
  failIf (expected = []) "cannot remove the last administrator"
  failIf ((← policyBytes group.extensions) ≠ (← policyBytes staged.context.extensions))
    "member management changed invitation controls"
  let after ← authority staged.context.extensions
  failIf (expected ≠ after) "management authority change does not match intent"
  failIf (unrelated group.extensions ≠ unrelated staged.context.extensions)
    "management cannot change unrelated group policy"
  failIf (!keepsIdentity actor staged) "management cannot replace committer identity"
  forM staged.proposals (checkProposal sender action target)
  let removals := (staged.proposals.filter (isRemoval action target ·.proposal)).length
  let roles := (staged.proposals.filter (isPolicyChange ·.proposal)).length
  failIf (removals ≠ action.removes.toNat ∨ roles ≠ (Decidable.decide (before ≠ expected)).toNat)
    "management proposal count does not match intent"

/-- `management::verify`. -/
def verifyManagement (group : PublicGroup) (sender : Sender) (staged : StagedCommit)
    (action : ManagementAction) : Outcome Unit := do
  match sender with
  | .member actorIndex => do
      let actor ← orFail (group.members.find? (·.index = actorIndex)) "unknown management actor"
      let before ← authority group.extensions
      failIf (!action.isLeave ∧ actor.signatureKey ∉ before)
        "management actor is not an administrator"
      if action.changesInvitations then
        mls.verifyInvitationAction group sender actor staged action
      else
        mls.verifyMemberAction group sender actor before staged action
  | _ => .error "management actor is not a member"

end PublicMls

end Arachne.Security
