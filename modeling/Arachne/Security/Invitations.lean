import Arachne.Security.Joining
import Arachne.Security.ManagementUpdate

/-! Invitations that a workspace issues, and the checkpoints it retains for them. -/

namespace Arachne.Security

open Fallible ByteCodec

def maxRetainedCheckpoints : Nat := 256

def maxRetainedCheckpointBytes : Nat := 2 * 1024 * 1024

/-- `copy_from_slice` into an array of fixed size. -/
def copySlice (n : Nat) (bytes : Bytes) : Outcome (Block n) :=
  if h : bytes.length = n then .ok ⟨bytes, h⟩
  else .error "source slice length does not match destination slice length"

/-- The key of the invitation that an action creates. -/
def ManagementAction.createdKey : ManagementAction → Option (Block 32)
  | createInvitation key _ _ | createRequestInvitation key _ | createAutomaticInvitation key _ =>
      some key
  | _ => none

/-- The action that registers a link of the given mode. -/
def creationAction (key : Block 32) (expiresAt : U64) (personal automatic requestAccess : Bool) :
    ManagementAction :=
  if requestAccess then .createRequestInvitation key expiresAt
  else if automatic then .createAutomaticInvitation key expiresAt
  else .createInvitation key expiresAt personal

namespace PublicMls

variable (mls : PublicMls)

def checkpointEpoch (checkpoint : Bytes) : Outcome U64 := do
  match ← orFail (mls.decodeMessage checkpoint) "invalid checkpoint" with
  | .groupInfo info => pure info.context.epoch
  | _ => .error "expected GroupInfo"

end PublicMls

/-- The grant with its checkpoint replaced and bound again. -/
def PublicGrant.rebind (token : PublicGrant) (checkpointDigest : Block 32)
    (bindingSignature : Block 64) : PublicGrant :=
  .ofParts token.workspace checkpointDigest token.issuer token.key token.grantSignature
    bindingSignature

namespace Mls

variable {Group Signer Staged : Type} (mls : Mls Group Signer Staged)

def issueInvitation (workspace : Workspace Group Signer) (random : Bytes) :
    Outcome (Invitation × Bytes) := do
  let checkpoint ← mls.joinCheckpoint workspace
  let (secret, key) ← orFail (mls.keyPair random) "invitation randomness failed"
  let issuer ← copySlice 32 (mls.signerPublic workspace.signer)
  let key ← copySlice 32 key
  let grantSignature ← orFail (mls.sign workspace.signer (grant workspace.id.1 key))
    "invitation signing failed"
  let grantSignature ← copySlice 64 grantSignature
  let token := PublicGrant.ofParts workspace.id (mls.sha256 checkpoint) issuer key grantSignature
    (zeroBlock 64)
  let bindingSignature ← orFail (mls.sign workspace.signer token.bindingMessage)
    "checkpoint signing failed"
  let bindingSignature ← copySlice 64 bindingSignature
  let secret ← orFail (if h : secret.length = 32 then some ⟨secret, h⟩ else none)
    "invalid invitation private key"
  pure (⟨token.rebind token.checkpointDigest bindingSignature, secret⟩, checkpoint)

/-- `retain_invitation_checkpoint`, on a workspace whose expired checkpoints are dropped. -/
def retainInvitationCheckpoint (workspace : Workspace Group Signer) (now : U64)
    (action : ManagementAction) (grant : PublicGrant) (checkpoint : Bytes) :
    Outcome (Workspace Group Signer) := do
  let workspace ← mls.pruneInvitationCheckpoints now workspace
  let key ← orFail action.createdKey "checkpoint requires an invitation creation"
  mls.verifyGrant grant
  failIf (grant.workspace ≠ workspace.id ∨ grant.key ≠ key)
    "invitation checkpoint does not match action"
  let proof ← mls.joinProofFrom workspace.id grant.checkpointDigest checkpoint
  let authorized ← PublicMls.authorizesIssuer proof.verifier grant.issuer.1
  failIf (!authorized ∨ !mls.matchesWorkspace proof.verifier workspace)
    "invitation checkpoint does not match accepted workspace"
  if workspace.invitationCheckpoints.any (·.grant = grant) then
    pure workspace
  else do
    let total := checkpoint.length + (workspace.invitationCheckpoints.map (·.checkpoint.length)).sum
    failIf (maxRetainedCheckpoints ≤ workspace.invitationCheckpoints.length ∨
      maxRetainedCheckpointBytes < total) "retained invitation checkpoints exceed bounds"
    pure { workspace with
      invitationCheckpoints := workspace.invitationCheckpoints ++ [⟨grant, checkpoint⟩] }

def prepareInvitationMode (workspace : Workspace Group Signer) (random : Bytes) (now : U64)
    (expiresAt : U64) (personal automatic requestAccess : Bool) :
    Outcome (PreparedManagement Group Signer × Invitation × Bytes) := do
  failIf (expiresAt ≠ 0 ∧ expiresAt ≤ now) "Choose an expiry in the future."
  let (invitation, _) ← mls.issueInvitation workspace random
  failIf (automatic ∧ !personal) "Only a personal invitation can use automatic approval."
  let action := creationAction invitation.grant.key expiresAt personal automatic requestAccess
  let prepared ← mls.prepareManagement workspace random now action
  let checkpoint ← mls.joinCheckpoint prepared.workspace
  let rebound := invitation.grant.rebind (mls.sha256 checkpoint) invitation.grant.bindingSignature
  let bindingSignature ← orFail (mls.sign workspace.signer rebound.bindingMessage)
    "checkpoint signing failed"
  let bindingSignature ← copySlice 64 bindingSignature
  let token := rebound.rebind (mls.sha256 checkpoint) bindingSignature
  let retained ← mls.retainInvitationCheckpoint prepared.workspace now action token checkpoint
  pure ({ prepared with workspace := retained }, { invitation with grant := token }, checkpoint)

end Mls

end Arachne.Security
