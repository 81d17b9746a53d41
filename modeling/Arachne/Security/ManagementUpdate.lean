import Arachne.Security.Admission

/-! Management on a device: the commit an administrator prepares, and what the other members
do with it. -/

namespace Arachne.Security

open Fallible ByteCodec

/-- The messages of the places where building a commit can stop. -/
structure CommitTexts where
  proposal : String
  state : String
  preparation : String
  staging : String
  encoding : String

def CommitTexts.of (texts : CommitTexts) : CommitFailure → String
  | .proposal => texts.proposal
  | .state => texts.state
  | .preparation => texts.preparation
  | .staging => texts.staging

def managementTexts : CommitTexts :=
  ⟨"management proposal failed", "management proposal state failed",
    "management preparation failed", "management staging failed", "management encoding failed"⟩

def invitationTexts : CommitTexts :=
  ⟨"invitation control proposal failed", "invitation control state failed",
    "invitation control preparation failed", "invitation control staging failed",
    "invitation control encoding failed"⟩

structure PreparedManagement (Group Signer : Type) where
  workspace : Workspace Group Signer
  action : ManagementAction
  commit : Bytes
  deriving DecidableEq

/-- What is left of a workspace its owner was removed from. -/
structure RemovedMembership where
  workspace : Block 32
  endpoint : Block 32
  member : MemberProfile
  epoch : U64
  commitDigest : Block 32
  solo : Bool

inductive ManagementUpdate (Group Signer : Type) where
  | active (workspace : Workspace Group Signer)
  | removed (membership : RemovedMembership)

def RetainedInvitationCheckpoint.key (saved : RetainedInvitationCheckpoint) : Block 32 :=
  PublicGrant.key saved.grant

/-- Whether an invitation can still be used at `now`. -/
def InvitationControl.usable (control : InvitationControl) (now : U64) : Bool :=
  control.enabled && (control.expiresAt == 0 || now < control.expiresAt)

/-- The administrators that `prepare_management` proposes. -/
def proposedAdmins (admins : List Bytes) (ownIndex : Nat) (target : Member) :
    ManagementAction → Outcome (List Bytes)
  | .promote _ => do
      failIf (target.signatureKey ∈ admins) "member is already an administrator"
      pure ((admins ++ [target.signatureKey]).insertionSort (· ≤ ·))
  | .demote _ => do
      failIf (target.signatureKey ∉ admins) "member is not an administrator"
      pure (admins.filter (· ≠ target.signatureKey))
  | _ => do
      failIf (target.index = ownIndex) "self removal requires a separate leave operation"
      pure (admins.filter (· ≠ target.signatureKey))

/-- Whether a credential binds the id. -/
def bindsId (id : Block 32) (member : Member) : Bool :=
  match binding member.credential with
  | .ok bound => bound.1 = id
  | .error _ => false

namespace Mls

variable {Group Signer Staged : Type} (mls : Mls Group Signer Staged)

def buildOwnCommit (texts : CommitTexts) (random : Bytes) (owner : Owner Group) (signer : Signer)
    (removals : List Nat) (extensions : Option (List Extension)) :
    Outcome (Bytes × Owner Group) :=
  match mls.buildCommit random owner signer removals extensions with
  | .ok (commit, pending) => do pure (← orFail commit texts.encoding, pending)
  | .error failure => .error (texts.of failure)

def pruneInvitationCheckpoints (now : U64) (workspace : Workspace Group Signer) :
    Outcome (Workspace Group Signer) := do
  let (_, controls) ← invitationControls (mls.extensions workspace)
  pure { workspace with
    invitationCheckpoints := workspace.invitationCheckpoints.filter fun saved =>
      controls.any fun control => control.key = saved.key && control.usable now }

/-- The candidate after a commit of one's own: checked on the state before it, merged, and
recorded. -/
def mergeOwnCommit (workspace copy : Workspace Group Signer) (pending : Owner Group)
    (action : ManagementAction) (commit : Bytes) (mergeFailed : String) :
    Outcome (PublicGroup × Workspace Group Signer) := do
  let proof ← mls.verifierOf workspace
  let proof ← mls.applyTransition proof commit (.management action)
  let owner ← orFail (mls.mergePendingCommit pending) mergeFailed
  let history ← mls.appendHistory workspace (.management action) commit
  pure (proof, { copy with
    provider := owner.provider, group := owner.group, joinHistory := some history })

/-- `invitation_controls::prepare`. -/
def prepareInvitationAction (workspace : Workspace Group Signer) (random : Bytes) (now : U64)
    (action : ManagementAction) : Outcome (PreparedManagement Group Signer) := do
  let extensions ← mls.changed (mls.extensions workspace) action
  let copy ← mls.provisionalCopy workspace "workspace state copy failed"
    "missing workspace state copy" "missing workspace signer"
  let (commit, pending) ← mls.buildOwnCommit invitationTexts random copy.owner copy.signer []
    (some extensions)
  let (proof, candidate) ← mls.mergeOwnCommit workspace copy pending action commit
    "invitation control merge failed"
  let candidate ← mls.pruneInvitationCheckpoints now candidate
  failIf (!mls.matchesWorkspace proof candidate) "invitation control branch mismatch"
  pure ⟨candidate, action, commit⟩

/-- The group context extensions of a role change; none when the roles stay. -/
def proposedExtensions (workspace : Workspace Group Signer) (admins : List Bytes) :
    Bool → Outcome (Option (List Extension))
  | true => do
      let bytes ← replaceAdmins (mls.extensions workspace) admins
      some <$> withAuthority (mls.extensions workspace) bytes "invalid management extensions"
  | false => pure none

/-- The part of `prepare_management` for roles and removals. -/
def prepareMemberAction (workspace : Workspace Group Signer) (random : Bytes)
    (admins : List Bytes) (action : ManagementAction) :
    Outcome (PreparedManagement Group Signer) := do
  let target ← orFail ((mls.members workspace).find? (bindsId action.target))
    "management target is not a current member"
  let verifier ← mls.verifierOf workspace
  mls.verifyLeave verifier.context target.signatureKey action
  let expected ← proposedAdmins admins (mls.ownLeafIndex workspace.group) target action
  failIf (expected = []) "cannot remove the last administrator"
  let copy ← mls.provisionalCopy workspace "workspace state copy failed"
    "missing workspace state copy" "missing workspace signer"
  let extensions ← mls.proposedExtensions workspace expected
    (!action.removes || admins.contains target.signatureKey)
  let (commit, pending) ← mls.buildOwnCommit managementTexts random copy.owner copy.signer
    (if action.removes then [target.index] else []) extensions
  let (proof, candidate) ← mls.mergeOwnCommit workspace copy pending action commit
    "management merge failed"
  failIf (!mls.matchesWorkspace proof candidate) "management branch mismatch"
  pure ⟨candidate, action, commit⟩

def prepareManagement (workspace : Workspace Group Signer) (random : Bytes) (now : U64)
    (action : ManagementAction) : Outcome (PreparedManagement Group Signer) := do
  let admins ← authority (mls.extensions workspace)
  failIf (!action.isLeave ∧ mls.signerPublic workspace.signer ∉ admins)
    "management actor is not an administrator"
  if action.changesInvitations then
    mls.prepareInvitationAction workspace random now action
  else
    mls.prepareMemberAction workspace random admins action

/-- A management commit processed on a copy with the group's secrets. -/
def processManagement (owner : Owner Group) (commit : Bytes) : Outcome (Staged × Owner Group) := do
  let message ← orFail (mls.decodeMessage commit) "invalid management commit"
  let message ← orFail message.toProtocol "expected management commit"
  let (staged, owner) ← orFail (mls.processPrivate owner message) "management authentication failed"
  pure (← orFail staged "not a management commit", owner)

def verifyManagementCommit (workspace : Workspace Group Signer) (action : ManagementAction)
    (commit : Bytes) : Outcome Unit := do
  let proof ← mls.joinProofOf workspace
  let _ ← mls.managementCommit proof.verifier action commit
  let loaded ← orFail (mls.load workspace.provider workspace.id.1) "workspace state copy failed"
  let group ← orFail loaded "missing workspace state copy"
  let _ ← mls.processManagement ⟨workspace.provider, group⟩ commit
  pure ()

/-- The record of an owner who finds itself removed. -/
def removedBy (workspace : Workspace Group Signer) (action : ManagementAction) (epoch : U64)
    (commit : Bytes) : Outcome RemovedMembership := do
  let member ← orFail workspace.member "removed owner lacks member identity"
  failIf (!action.removes ∨ action.target ≠ member.id) "removal does not match local member"
  pure ⟨workspace.id, workspace.endpoint, member, epoch, mls.sha256 commit, false⟩

def prepareManagementUpdate (workspace : Workspace Group Signer) (now : U64)
    (action : ManagementAction) (commit : Bytes) : Outcome (ManagementUpdate Group Signer) := do
  mls.verifyManagementCommit workspace action commit
  let proof ← mls.verifierOf workspace
  let proof ← mls.applyTransition proof commit (.management action)
  let copy ← mls.provisionalCopy workspace "workspace state copy failed"
    "missing workspace state copy" "missing workspace signer"
  let (staged, owner) ← mls.processManagement copy.owner commit
  let owner ← orFail (mls.mergeStagedCommit owner staged) "management merge failed"
  if !mls.isActive owner.group then
    .removed <$> mls.removedBy workspace action proof.context.epoch commit
  else do
    let history ← mls.appendHistory workspace (.management action) commit
    let candidate ← mls.pruneInvitationCheckpoints now { copy with
      provider := owner.provider, group := owner.group, joinHistory := some history }
    failIf (!mls.matchesWorkspace proof candidate) "management branch mismatch"
    pure (.active candidate)

end Mls

end Arachne.Security
