import Arachne.Security.Management

/-! `MembershipVerifier`: a public group advanced, from a trusted checkpoint, by exact
membership transitions. -/

namespace Arachne.Security

open Fallible ByteCodec

/-- Authorization for one exact membership transition. -/
inductive MembershipAuthorization where
  | admission (authorization : AdmissionAuthorization)
  | admissionBatch (authorizations : List AdmissionAuthorization)
  | management (action : ManagementAction)
  deriving DecidableEq

/-- The loop over the roster of a checkpoint: ids and endpoints are pairwise distinct. -/
def checkRoster : List Member → List (Block 32) → List (Block 32) → Outcome Unit
  | [], _, _ => pure ()
  | member :: members, ids, endpoints => do
      let (id, endpoint) ← binding member.credential
      failIf (id ∈ ids ∨ endpoint ∈ endpoints) "duplicate member binding"
      checkRoster members (id :: ids) (endpoint :: endpoints)

/-- Whether a member binds the id or the endpoint; an unreadable credential counts as such. -/
def sharesBinding (id endpoint : Block 32) (member : Member) : Bool :=
  match binding member.credential with
  | .ok (existingId, existingEndpoint) => existingId == id || existingEndpoint == endpoint
  | .error _ => true

namespace PublicMls

variable (mls : PublicMls)

def fromCheckpointWithin (workspace digest : Block 32) (bytes : Bytes) (limit : Nat) :
    Outcome PublicGroup := do
  failIf (limit < bytes.length) "checkpoint exceeds bounds"
  failIf (mls.sha256 bytes ≠ digest) "checkpoint does not match invitation"
  match ← orFail (mls.decodeMessage bytes) "invalid checkpoint" with
  | .groupInfo info => do
      failIf (info.context.groupId ≠ workspace.1 ∨ info.context.ciphersuite ≠ suite)
        "wrong checkpoint workspace"
      let tree ← orFail info.ratchetTree "missing checkpoint tree"
      let group ← orFail (mls.fromExternal tree info) "invalid checkpoint signature or tree"
      let admins ← authority group.extensions
      checkRoster group.members [] []
      failIf (!(admins.all fun key => group.members.any (·.signatureKey = key)))
        "administrator is not a member"
      pure group
  | _ => .error "expected GroupInfo"

def fromTrustedCheckpoint (workspace digest : Block 32) (bytes : Bytes) :
    Outcome PublicGroup :=
  mls.fromCheckpointWithin workspace digest bytes maxBytes

/-- The commit in `bytes`, processed on `group`. -/
def processCommit (group : PublicGroup) (bytes : Bytes) (invalid expected rejected : String) :
    Outcome ProcessedMessage := do
  let message ← orFail (mls.decodeMessage bytes) invalid
  let message ← orFail message.toProtocol expected
  orFail (mls.processMessage group message) rejected

/-- One Add of a batch; `bindings` are those of the Adds before it. -/
def checkAdd (group : PublicGroup) (admins : List Bytes)
    (bindings : List (Block 32 × Block 32)) (authorization : AdmissionAuthorization)
    (package : KeyPackage) : Outcome (Block 32 × Block 32) := do
  let (id, endpoint) ← binding package.leafNode.credential
  failIf ((id, endpoint) ∈ bindings ∨ group.members.any (sharesBinding id endpoint))
    "duplicate member binding"
  mls.checkInvitation group.extensions authorization.invitationKey none package
  let groupId := group.context.groupId
  failIf (!(admins.any fun admin => mls.verifySignature (grant groupId authorization.invitationKey)
    admin authorization.grantSignature.1)) "unapproved invitation"
  failIf (!mls.verifySignature (redemption groupId authorization.invitationKey package)
    authorization.invitationKey.1 authorization.redemptionSignature.1)
    "redemption does not match Add"
  pure (id, endpoint)

def checkAdds (group : PublicGroup) (admins : List Bytes) :
    List (Block 32 × Block 32) → List (AdmissionAuthorization × KeyPackage) → Outcome Unit
  | _, [] => pure ()
  | bindings, (authorization, package) :: rest => do
      let added ← mls.checkAdd group admins bindings authorization package
      checkAdds group admins (added :: bindings) rest

def applyAddBatch (group : PublicGroup) (authorizations : List AdmissionAuthorization)
    (commit : Bytes) : Outcome PublicGroup := do
  failIf (authorizations = [] ∨ maxAdmissionBatch < authorizations.length)
    "invalid admission batch size"
  failIf (commit = [] ∨ maxBytes < commit.length) "admission commit exceeds bounds"
  let processed ← mls.processCommit group commit "invalid admission commit"
    "expected admission commit" "invalid admission signature or epoch"
  match processed.sender with
  | .member index => do
      let actor ← orFail (group.members.find? (·.index = index)) "unknown committer"
      match processed.content with
      | .stagedCommit staged => do
          failIf (staged.proposals.length ≠ authorizations.length ∨
              staged.context.extensions ≠ group.extensions)
            "invitation authorizes only Adds without policy changes"
          failIf (!keepsIdentity actor staged) "admission cannot replace committer identity"
          failIf (staged.adds.length ≠ authorizations.length)
            "admission authorizes only Add proposals"
          let admins ← authority group.extensions
          mls.checkAdds group admins [] (authorizations.zip staged.adds)
          pure staged.merged
      | .other => .error "not a commit"
  | _ => .error "committer is not a member"

def managementCommit (group : PublicGroup) (action : ManagementAction) (commit : Bytes) :
    Outcome StagedCommit := do
  failIf (commit = [] ∨ maxBytes < commit.length) "management commit exceeds bounds"
  let processed ← mls.processCommit group commit "invalid management commit"
    "expected management commit" "invalid management signature or epoch"
  match processed.content with
  | .stagedCommit staged => do
      mls.verifyManagement group processed.sender staged action
      pure staged
  | .other => .error "not a management commit"

def applyManagement (group : PublicGroup) (action : ManagementAction) (commit : Bytes) :
    Outcome PublicGroup := do
  pure (← mls.managementCommit group action commit).merged

/-- `MembershipVerifier::apply_transition`: validate one commit and advance one epoch. -/
def applyTransition (group : PublicGroup) (commit : Bytes) :
    MembershipAuthorization → Outcome PublicGroup
  | .admission authorization => mls.applyAddBatch group [authorization] commit
  | .admissionBatch authorizations => mls.applyAddBatch group authorizations commit
  | .management action => mls.applyManagement group action commit

end PublicMls

end Arachne.Security
