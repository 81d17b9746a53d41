import Arachne.Security.Admitted
import Arachne.Security.Branch

/-! The two ways to a workspace: creating it, and joining it with a Welcome after the
invitation's checkpoint has been followed to the joiner's own admission. -/

namespace Arachne.Security

open Fallible ByteCodec

def maxWelcome : Nat := 64 * 1024

/-- What `create` and `PendingJoin::new` draw from the random source. -/
structure Randomness where
  memberId : Option (Block 32)
  id : Option (Block 32)
  signer : Bytes
  group : Bytes

/-- The RequiredCapabilities extension that asks for the authority extension alone. -/
def requiredCapabilities : Extension := ⟨3, [2, 0xff, 0x00, 0, 0]⟩

/-- A reusable bearer authorization. -/
structure Invitation where
  grant : PublicGrant
  secret : Block 32

structure PendingJoin (Signer : Type) where
  provider : Provider
  signer : Signer
  member : MemberProfile
  endpoint : Block 32
  workspace : Block 32
  checkpointDigest : Block 32
  package : KeyPackage
  request : Option Bytes
  checkpoint : Option Bytes
  invitation : Option Bytes
  deriving DecidableEq

namespace Mls

variable {Group Signer Staged : Type} (mls : Mls Group Signer Staged)

def newStoredSigner (random : Bytes) : Outcome (Signer × Provider) := do
  let signer ← orFail (mls.newSigner random) "credential creation failed"
  let provider ← orFail (mls.storeSigner OrderedMap.empty signer) "credential storage failed"
  pure (signer, provider)

def create (random : Randomness) (endpoint : Block 32) (displayName : String) :
    Outcome (Workspace Group Signer) := do
  failIf (endpoint = zeroBlock 32) "invalid workspace-facing endpoint"
  let member ← MemberProfile.new (← orFail random.memberId "member randomness failed") displayName
  let id ← orFail random.id "workspace randomness failed"
  let (signer, provider) ← mls.newStoredSigner random.signer
  let owner ← orFail (mls.newGroup random.group provider signer id.1
    (.basic (credentialIdentity endpoint (some member)))
    [⟨authorityKind, 1 :: 1 :: mls.signerPublic signer⟩, requiredCapabilities])
    "workspace creation failed"
  pure ⟨owner.provider, signer, owner.group, id, endpoint, some member, [], none, []⟩

def newPendingJoin (random : Randomness) (workspace checkpointDigest endpoint : Block 32)
    (displayName : String) : Outcome (PendingJoin Signer) := do
  failIf (workspace = zeroBlock 32 ∨ checkpointDigest = zeroBlock 32 ∨ endpoint = zeroBlock 32)
    "invalid join context"
  let member ← MemberProfile.new (← orFail random.memberId "member randomness failed") displayName
  let (signer, provider) ← mls.newStoredSigner random.signer
  let (package, provider) ← orFail (mls.newKeyPackage random.group provider signer
    (.basic (credentialIdentity endpoint (some member)))) "KeyPackage creation failed"
  pure ⟨provider, signer, member, endpoint, workspace, checkpointDigest, package, none, none, none⟩

def decodeWelcome (bytes : Bytes) : Outcome Bytes := do
  match ← orFail (mls.decodeMessage bytes) "invalid Welcome encoding" with
  | .welcome content => pure content
  | _ => .error "expected Welcome"

/-- `PendingJoin::prepare_workspace`. -/
def prepareWorkspace (pending : PendingJoin Signer) (proof : JoinProof) (welcome : Bytes) :
    Outcome (Workspace Group Signer) := do
  failIf (proof.checkpointDigest ≠ pending.checkpointDigest)
    "join proof belongs to another invitation"
  failIf (maxWelcome < welcome.length) "Welcome exceeds bounds"
  let welcome ← mls.decodeWelcome welcome
  let staged ← orFail (mls.stageWelcome pending.provider welcome proof.verifier.tree)
    "Welcome validation failed"
  let owner ← orFail staged "Welcome group creation failed"
  let group := mls.publicGroup owner.group
  failIf (group.context.groupId ≠ pending.workspace.1 ∨ group.context.ciphersuite ≠ suite)
    "Welcome belongs to another workspace"
  let own ← orFail (group.members.find? (·.index = mls.ownLeafIndex owner.group))
    "missing admitted identity"
  failIf (own.signatureKey ≠ mls.signerPublic pending.signer ∨
    own.credential ≠ pending.package.leafNode.credential) "Welcome changed join identity"
  let signer ← orFail (mls.readSigner owner.provider (mls.signerPublic pending.signer))
    "missing join signer"
  let history ← mls.historyFromInline proof.history
  failIf (proof.verifier ≠ group) "Welcome does not match authorized branch"
  pure ⟨owner.provider.insert nameRecord proof.nameCheckpoint.encode, signer, owner.group,
    pending.workspace, pending.endpoint, some pending.member, [], some history, []⟩

end Mls

end Arachne.Security
