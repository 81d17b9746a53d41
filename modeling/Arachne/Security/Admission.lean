import Arachne.Security.History

/-! Admission of new members: the request a joiner sends, the checks an owner makes, the
commit it prepares, and the same commit as another member receives it. -/

namespace Arachne.Security

open Fallible ByteCodec

def requestHeader : Nat := 5 + 261 + 64

def maxRequest : Nat := requestHeader + 16 * 1024

/-- The signed public part of an invitation token. -/
abbrev PublicGrant := Block 261

namespace PublicGrant

def workspace (token : PublicGrant) : Block 32 := blockSlice 5 32 token
def checkpointDigest (token : PublicGrant) : Block 32 := blockSlice 37 32 token
def issuer (token : PublicGrant) : Block 32 := blockSlice 69 32 token
def key (token : PublicGrant) : Block 32 := blockSlice 101 32 token
def grantSignature (token : PublicGrant) : Block 64 := blockSlice 133 64 token
def bindingSignature (token : PublicGrant) : Block 64 := blockSlice 197 64 token

/-- The token of an invitation, as `issue_invitation` puts it together. -/
def ofParts (workspace checkpointDigest issuer key : Block 32)
    (grantSignature bindingSignature : Block 64) : PublicGrant :=
  ⟨utf8 "DFIV" ++ [1] ++ (workspace.1 ++ (checkpointDigest.1 ++ (issuer.1 ++ (key.1 ++
    (grantSignature.1 ++ bindingSignature.1))))), by
      simp [workspace.2, checkpointDigest.2, issuer.2, key.2, grantSignature.2,
        bindingSignature.2]
      rfl⟩

/-- `binding_message`: everything before the last signature. -/
def bindingMessage (token : PublicGrant) : Bytes :=
  utf8 "data-fabric/invitation-checkpoint/v1/" ++ token.1.take 197

end PublicGrant

structure ValidatedAdmission where
  workspace : Block 32
  checkpointDigest : Block 32
  issuer : Block 32
  package : KeyPackage
  authorization : AdmissionAuthorization
  digest : Block 32
  endpoint : Block 32
  deriving DecidableEq

inductive AdmissionAssessment where
  | ready (request : ValidatedAdmission)
  | approvalRequired (request : ValidatedAdmission)
  | automaticApprovalRequired (request : ValidatedAdmission)
  deriving DecidableEq

def readRequest : Reader (PublicGrant × Block 64) := do
  let token ← takeBlock "invalid admission request" 261
  let proof ← takeBlock "invalid admission request" 64
  pure (token, proof)

namespace PublicMls

variable (mls : PublicMls)

def verifyGrant (token : PublicGrant) : Outcome Unit := do
  failIf (¬ (utf8 "DFIV" ++ [1]) <+: token.1) "invalid invitation format"
  failIf (!mls.verifySignature (grant token.workspace.1 token.key) token.issuer.1
    token.grantSignature.1) "invalid invitation grant signature"
  failIf (!mls.verifySignature token.bindingMessage token.issuer.1 token.bindingSignature.1)
    "invalid invitation checkpoint signature"

/-- `decode_request_with_grant_check`. -/
def decodeRequest (now : U64) (bytes : Bytes) (checkGrant : Bool) :
    Outcome ValidatedAdmission := do
  failIf (bytes.length ≤ requestHeader ∨ maxRequest < bytes.length ∨
    ¬ (utf8 "DFJR" ++ [1]) <+: bytes) "invalid admission request"
  let ((token, proof), rest) ← readRequest (bytes.drop 5)
  if checkGrant then mls.verifyGrant token
  let package ← orFail (mls.decodeKeyPackage rest) "invalid admission KeyPackage"
  failIf (!mls.validateKeyPackage now package) "admission KeyPackage invalid or expired"
  failIf (package.ciphersuite ≠ suite) "wrong admission ciphersuite"
  failIf (!mls.verifySignature (redemption token.workspace.1 token.key package) token.key.1 proof.1)
    "redemption does not match KeyPackage"
  pure ⟨token.workspace, token.checkpointDigest, token.issuer, package,
    ⟨token.key, token.grantSignature, proof⟩, mls.sha256 bytes, zeroBlock 32⟩

end PublicMls

/-- The request `Invitation::request` sends, with its proof of the invitation's key. -/
def requestBytes (token : PublicGrant) (proof : Block 64) (package : KeyPackage) : Bytes :=
  utf8 "DFJR" ++ [1] ++ (token.1 ++ (proof.1 ++ package.encoded))

/-- The single authorization of a one-element batch, or the batch. -/
def batchAuthorization (authorizations : List AdmissionAuthorization) :
    MembershipAuthorization :=
  match authorizations with
  | [authorization] => .admission authorization
  | _ => .admissionBatch authorizations

structure PreparedAdmissionBatch (Group Signer : Type) where
  workspace : Workspace Group Signer
  commit : Bytes
  welcome : Bytes
  replies : List AdmissionReply
  deriving DecidableEq

/-- An admission as it arrives: the authenticated endpoint, the request's bytes and what was
read from them. -/
structure Arrival where
  remoteEndpoint : Block 32
  bytes : Bytes
  request : ValidatedAdmission

namespace Mls

variable {Group Signer Staged : Type} (mls : Mls Group Signer Staged)

/-- The loop over the roster in `check_validated_admission`. -/
def checkNotAdmitted (id endpoint : Block 32) (members : List Member) : Outcome Unit :=
  forM members fun member => do
    let existing ← binding member.credential
    failIf (existing.1 = id ∨ existing.2 = endpoint) "member already admitted"

def checkValidatedAdmission (workspace : Workspace Group Signer) (now : U64)
    (remoteEndpoint : Block 32) (request : ValidatedAdmission) : Outcome Unit := do
  failIf (request.workspace ≠ workspace.id) "admission belongs to another workspace"
  mls.checkInvitation (mls.extensions workspace) request.authorization.invitationKey (some now)
    request.package
  failIf (!(← authority (mls.extensions workspace)).contains request.issuer.1)
    "invitation issuer is no longer an administrator"
  let (memberId, endpoint) ← binding request.package.leafNode.credential
  failIf (endpoint ≠ remoteEndpoint) "admission endpoint mismatch"
  checkNotAdmitted memberId endpoint (mls.members workspace)

def assessAdmission (workspace : Workspace Group Signer) (now : U64)
    (remoteEndpoint : Block 32) (bytes : Bytes) : Outcome AdmissionAssessment := do
  let trustedGrant := workspace.invitationCheckpoints.any fun saved =>
    saved.grant.1 == (bytes.drop 5).take 261
  let request ← mls.decodeRequest now bytes !trustedGrant
  let request := { request with endpoint := remoteEndpoint }
  failIf (request.workspace ≠ workspace.id) "admission belongs to another workspace"
  match mls.checkValidatedAdmission workspace now remoteEndpoint request with
  | .ok _ => pure (.ready request)
  | .error error =>
      if error = invitationApprovalRequired then pure (.approvalRequired request)
      else if error = invitationAutomaticApprovalRequired then
        pure (.automaticApprovalRequired request)
      else .error error

/-- The checks of a batch, in its order; `bindings` are those of the arrivals before. -/
def checkArrivals (workspace : Workspace Group Signer) (now : U64) :
    List (Block 32 × Block 32) → List Arrival → Outcome Unit
  | _, [] => pure ()
  | bindings, arrival :: rest => do
      failIf (arrival.request.endpoint ≠ arrival.remoteEndpoint ∨
          arrival.request.digest ≠ mls.sha256 arrival.bytes)
        "validated admission does not match request"
      mls.checkValidatedAdmission workspace now arrival.remoteEndpoint arrival.request
      let added ← binding arrival.request.package.leafNode.credential
      failIf (added ∈ bindings) "duplicate member binding"
      checkArrivals workspace now (added :: bindings) rest

/-- A single admission starts no history; a batch does. -/
def admissionHistory (workspace : Workspace Group Signer) (count : Nat)
    (authorization : MembershipAuthorization) (commit : Bytes) :
    Outcome (Option MembershipHistory) :=
  if count = 1 ∧ workspace.joinHistory.isNone then pure none
  else some <$> mls.appendHistory workspace authorization commit

/-- `prepare_validated_admission_batch`. -/
def prepareAdmissionBatch (workspace : Workspace Group Signer) (random : Bytes) (now : U64)
    (arrivals : List Arrival) : Outcome (PreparedAdmissionBatch Group Signer) := do
  failIf (arrivals = [] ∨ maxAdmissionBatch < arrivals.length) "invalid admission batch size"
  mls.checkArrivals workspace now [] arrivals
  let copy ← mls.provisionalCopy workspace "group copy failed" "missing group copy"
    "missing copied signer"
  let owner ← orFail (mls.setConfiguration copy.owner) "admission configuration failed"
  let packages := arrivals.map (·.request.package)
  let (commit, welcome, owner) ← orFail (mls.addMembers random owner copy.signer packages)
    "admission preparation failed"
  let commit ← orFail commit "commit encoding failed"
  let welcome ← orFail welcome "Welcome encoding failed"
  failIf (64 * 1024 < welcome.length) "Welcome exceeds bounds"
  let owner ← orFail (mls.mergePendingCommit owner) "admission merge failed"
  let epoch := (mls.publicGroup owner.group).context.epoch
  let replies := arrivals.map fun arrival =>
    (⟨epoch, commit, welcome, arrival.request.authorization⟩ : AdmissionReply)
  let retained := (arrivals.zip replies).map fun (arrival, reply) =>
    (⟨mls.sha256 arrival.bytes, arrival.remoteEndpoint, arrival.request.issuer, reply⟩ :
      RetainedAdmission)
  let authorization := batchAuthorization (replies.map (·.authorization))
  let joinHistory ← mls.admissionHistory workspace replies.length authorization commit
  pure ⟨{ copy with
    provider := owner.provider, group := owner.group,
    admissions := workspace.admissions ++ retained, joinHistory }, commit, welcome, replies⟩

/-- `prepare_admission_batch_update`: another member's batch, received. -/
def prepareAdmissionUpdate (workspace : Workspace Group Signer)
    (authorizations : List AdmissionAuthorization) (commit : Bytes) :
    Outcome (Workspace Group Signer) := do
  failIf (authorizations = [] ∨ maxAdmissionBatch < authorizations.length)
    "invalid admission batch size"
  let authorization := batchAuthorization authorizations
  let proof ← mls.verifierOf workspace
  let proof ← mls.applyTransition proof commit authorization
  let copy ← mls.provisionalCopy workspace "group copy failed" "missing group copy"
    "missing copied signer"
  let message ← orFail (mls.decodeMessage commit) "invalid admission commit"
  let message ← orFail message.toProtocol "expected admission commit"
  let (staged, owner) ← orFail (mls.processPrivate copy.owner message)
    "admission update authentication failed"
  let staged ← orFail staged "not an admission commit"
  let owner ← orFail (mls.mergeStagedCommit owner staged) "admission update merge failed"
  let history ← mls.appendHistory workspace authorization commit
  let updated := { copy with
    provider := owner.provider, group := owner.group, joinHistory := some history }
  failIf (!mls.matchesWorkspace proof updated)
    "admission update does not match authorized branch"
  pure updated

end Mls

end Arachne.Security
