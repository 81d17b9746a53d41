import Arachne.Security.Workspace

/-! The accepted transitions of a workspace, and the inline history that carries them to a
joiner or into a snapshot. -/

namespace Arachne.Security

open Fallible ByteCodec

def maxHistoryBytes : Nat := 2 * 1024 * 1024

def maxLocalStateBytes : Nat := 8 * 1024 * 1024

def maxJoinHistorySteps : Nat := 64 * 64

def AdmissionAuthorization.encode (authorization : AdmissionAuthorization) : Bytes :=
  authorization.invitationKey.1 ++ authorization.grantSignature.1 ++
    authorization.redemptionSignature.1

def readAuthorization : Reader AdmissionAuthorization := do
  let invitationKey ← takeBlock truncated 32
  let grantSignature ← takeBlock truncated 64
  let redemptionSignature ← takeBlock truncated 64
  pure ⟨invitationKey, grantSignature, redemptionSignature⟩

def ManagementAction.tag : ManagementAction → Nat
  | promote _ => 1
  | demote _ => 2
  | remove _ => 3
  | leave _ _ => 4
  | createInvitation _ _ _ => 5
  | disableInvitation _ => 6
  | approveInvitation _ _ => 7
  | createAutomaticInvitation _ _ => 8
  | createRequestInvitation _ _ => 9
  | declineInvitationRequest _ _ => 10

/-- What follows the tag of an action. -/
def ManagementAction.content (action : ManagementAction) : Bytes :=
  action.target.1 ++
    match action with
    | promote _ | demote _ | remove _ | disableInvitation _ => []
    | leave _ signature => signature.1
    | createInvitation _ expires personal => beBytes 8 expires.val ++ beBytes 1 personal.toNat
    | createAutomaticInvitation _ expires | createRequestInvitation _ expires =>
        beBytes 8 expires.val
    | approveInvitation _ package | declineInvitationRequest _ package => package.1

def ManagementAction.encode (action : ManagementAction) : Bytes :=
  beBytes 1 action.tag ++ action.content

def readMode : Reader Bool := do
  let mode ← takeNat truncated 1
  check (1 < mode) "invalid invitation mode"
  pure (mode == 1)

/-- The action of a tag from 1 to 10. -/
def readAction (tag : Nat) : Reader ManagementAction := do
  let id ← takeBlock truncated 32
  match tag with
  | 1 => pure (.promote id)
  | 2 => pure (.demote id)
  | 3 => pure (.remove id)
  | 4 => do pure (.leave id (← takeBlock truncated 64))
  | 5 => do
      let expires ← takeU64 truncated
      pure (.createInvitation id expires (← readMode))
  | 6 => pure (.disableInvitation id)
  | 7 => do pure (.approveInvitation id (← takeBlock truncated 32))
  | 9 => do pure (.createRequestInvitation id (← takeU64 truncated))
  | 10 => do pure (.declineInvitationRequest id (← takeBlock truncated 32))
  | _ => do pure (.createAutomaticInvitation id (← takeU64 truncated))

def readBatch : Reader (List AdmissionAuthorization) := do
  let count ← takeNat truncated 2
  check (count = 0 ∨ maxAdmissionBatch < count) "invalid admission batch size"
  readMany readAuthorization count

/-- The authorization after its tag; an untagged history holds only single admissions. -/
def readTagged (tag : Nat) : Reader MembershipAuthorization :=
  if tag = 0 then do pure (.admission (← readAuthorization))
  else if tag = 11 then do pure (.admissionBatch (← readBatch))
  else if tag ≤ 10 then do pure (.management (← readAction tag))
  else lift (.error "unknown membership history action")

/-- The tagged encoding of an authorization. -/
def MembershipAuthorization.encode : MembershipAuthorization → Bytes
  | admission authorization => beBytes 1 0 ++ authorization.encode
  | admissionBatch authorizations =>
      beBytes 1 11 ++ beBytes 2 authorizations.length ++
        authorizations.flatMap AdmissionAuthorization.encode
  | management action => action.encode

/-- What `write_step` puts before the commit; a history of version 1 has no tag for a single
admission. -/
def writeAuthorization (tagged : Bool) (authorization : MembershipAuthorization) : Bytes :=
  match authorization with
  | .admission single => if tagged then authorization.encode else single.encode
  | _ => authorization.encode

def writeStep (tagged : Bool) (step : Step) : Bytes :=
  writeAuthorization tagged step.1 ++ beBytes 4 step.2.length ++ step.2

def readStep (tagged : Bool) : Reader Step := do
  let tag ← if tagged then takeNat truncated 1 else pure 0
  let authorization ← readTagged tag
  let length ← takeNat truncated 4
  check (length = 0) "empty membership history commit"
  pure (authorization, ← take truncated length)

/-- The steps up to the end of the bytes, `fuel` at most. -/
def readSteps (tagged : Bool) : Nat → Reader (List Step)
  | 0 => do
      check (¬ (← atEnd) = true) "join history exceeds step bounds"
      pure []
  | fuel + 1 => do
      if ← atEnd then
        pure []
      else
        let step ← readStep tagged
        pure (step :: (← readSteps tagged fuel))

def historyVersion (version : Nat) : Bytes := utf8 "DFJH" ++ beBytes 1 version

structure InlineHistory where
  digest : Block 32
  checkpoint : Bytes
  steps : List Step

def readInline (tagged : Bool) : Reader InlineHistory := do
  let digest ← takeBlock truncated 32
  let length ← takeNat truncated 4
  let checkpoint ← take truncated length
  let steps ← readSteps tagged maxJoinHistorySteps
  pure ⟨digest, checkpoint, steps⟩

/-- The parts of an encoded history, as `history_steps` and its callers read them. -/
def parseHistory (encoded : Bytes) : Outcome InlineHistory := do
  failIf (maxHistoryBytes < encoded.length ∨ ¬ (historyVersion 1 <+: encoded ∨
    historyVersion 2 <+: encoded)) "invalid join history"
  let (history, _) ← readInline (historyVersion 2 <+: encoded) (encoded.drop 5)
  pure history

/-- A branch tracked from a trusted checkpoint, with its encoded history. -/
structure JoinProof where
  checkpointDigest : Block 32
  verifier : PublicGroup
  nameCheckpoint : NameState
  history : Bytes
  steps : Nat
  deriving DecidableEq

def MembershipAuthorization.isAdmission : MembershipAuthorization → Bool
  | admission _ => true
  | _ => false

/-- The same history in the encoding with tags. -/
def upgradeHistory (history : Bytes) : Outcome Bytes := do
  let parsed ← parseHistory history
  let length := beNat ((history.drop 37).take 4)
  pure ((history.take (41 + length)).set 4 2 ++ parsed.steps.flatMap (writeStep true))

/-- The name that a checkpoint carries. -/
def GroupInfo.nameCheckpoint (info : GroupInfo) : Outcome NameState :=
  match unknown info.extensions nameKind with
  | some encoded => NameState.decode encoded
  | none => pure NameState.unnamed

namespace JoinProof

/-- The history that a step is written to: a step other than a single admission needs tags. -/
def historyFor (proof : JoinProof) (step : Step) : Outcome Bytes :=
  if proof.history.getD 4 0 = 1 ∧ !step.1.isAdmission then upgradeHistory proof.history
  else pure proof.history

def appendedHistory (proof : JoinProof) (step : Step) : Outcome Bytes := do
  failIf (maxJoinHistorySteps ≤ proof.steps ∨ step.2 = [] ∨ maxBytes < step.2.length)
    "membership history exceeds bounds"
  let history ← proof.historyFor step
  let history := history ++ writeStep (2 ≤ history.getD 4 0) step
  failIf (maxHistoryBytes < history.length) "membership history exceeds bounds"
  pure history

end JoinProof

namespace PublicMls

variable (mls : PublicMls)

def joinProofFrom (workspace digest : Block 32) (bytes : Bytes) : Outcome JoinProof := do
  failIf (maxBytes - 41 < bytes.length) "checkpoint exceeds inline history bounds"
  let verifier ← mls.fromTrustedCheckpoint workspace digest bytes
  match ← orFail (mls.decodeMessage bytes) "invalid checkpoint" with
  | .groupInfo info => do
      let name ← info.nameCheckpoint
      pure ⟨digest, verifier, name,
        historyVersion 1 ++ digest.1 ++ beBytes 4 bytes.length ++ bytes, 0⟩
  | _ => .error "expected GroupInfo"

/-- `JoinProof::apply_transition`: the extended history is adopted once the verifier has
accepted the same transition. -/
def extendProof (proof : JoinProof) (step : Step) : Outcome JoinProof := do
  let history ← proof.appendedHistory step
  let verifier ← mls.applyTransition proof.verifier step.2 step.1
  pure { proof with verifier, history, steps := proof.steps + 1 }

def authorizesIssuer (group : PublicGroup) (issuer : Bytes) : Outcome Bool := do
  pure ((← authority group.extensions).contains issuer)

/-- The verifier advanced through a list of transitions. -/
def replay (group : PublicGroup) (steps : List Step) : Outcome PublicGroup :=
  steps.foldlM (fun group step => mls.applyTransition group step.2 step.1) group

/-- `MembershipHistory::from_inline`. -/
def historyFromInline (bytes : Bytes) : Outcome MembershipHistory := do
  let parsed ← parseHistory bytes
  failIf (mls.sha256 parsed.checkpoint ≠ parsed.digest) "history checkpoint mismatch"
  pure ⟨parsed.checkpoint, parsed.steps⟩

/-- `MembershipHistory::verifier`. -/
def historyVerifier (history : MembershipHistory) (workspace : Block 32) :
    Outcome PublicGroup :=
  mls.fromTrustedCheckpoint workspace (mls.sha256 history.checkpoint) history.checkpoint

end PublicMls

namespace Mls

variable {Group Signer Staged : Type} (mls : Mls Group Signer Staged)

/-- The workspace's own group state, exported for verification on this device. -/
def exportOwnState (workspace : Workspace Group Signer) : Outcome Bytes := do
  let info ← orFail (mls.exportGroupInfo workspace.group workspace.signer [])
    "group comparison export failed"
  orFail (mls.encodeGroupInfo info) "group comparison encoding failed"

/-- `MembershipVerifier::from_workspace`. -/
def verifierOf (workspace : Workspace Group Signer) : Outcome PublicGroup := do
  let bytes ← mls.exportOwnState workspace
  mls.fromCheckpointWithin workspace.id (mls.sha256 bytes) bytes maxLocalStateBytes

/-- `JoinProof::from_workspace`. -/
def joinProofOf (workspace : Workspace Group Signer) : Outcome JoinProof := do
  let bytes ← mls.exportOwnState workspace
  mls.joinProofFrom workspace.id (mls.sha256 bytes) bytes

def matchesWorkspace (verifier : PublicGroup) (workspace : Workspace Group Signer) : Bool :=
  verifier == mls.publicGroup workspace.group

def appendHistory (workspace : Workspace Group Signer)
    (authorization : MembershipAuthorization) (commit : Bytes) : Outcome MembershipHistory := do
  let history ← match workspace.joinHistory with
    | some history => pure history
    | none => mls.historyFromInline (← mls.joinProofOf workspace).history
  pure { history with steps := history.steps ++ [(authorization, commit)] }

def epoch (workspace : Workspace Group Signer) : U64 :=
  (mls.publicGroup workspace.group).context.epoch

def extensions (workspace : Workspace Group Signer) : List Extension :=
  (mls.publicGroup workspace.group).extensions

def members (workspace : Workspace Group Signer) : List Member :=
  (mls.publicGroup workspace.group).members

/-- A copy for one provisional operation: the group and the signer are read back from the
copied storage. -/
def provisionalCopy (workspace : Workspace Group Signer)
    (copyFailed missing missingSigner : String) : Outcome (Workspace Group Signer) := do
  let loaded ← orFail (mls.load workspace.provider workspace.id.1) copyFailed
  let group ← orFail loaded missing
  let signer ← orFail (mls.readSigner workspace.provider (mls.signerPublic workspace.signer))
    missingSigner
  pure { workspace with group, signer }

variable {mls} {workspace : Workspace Group Signer}

theorem Sound.provisionalCopy (h : mls.Sound workspace) (a b c : String) :
    mls.provisionalCopy workspace a b c = .ok workspace := by
  have hload := h.ready.saved
  rw [Workspace.owner, h.groupId] at hload
  have hsigner := h.ready.stored
  rw [Workspace.owner] at hsigner
  simp [Mls.provisionalCopy, hload, hsigner]

end Mls

def nameRecord : Bytes := utf8 "data-fabric/workspace-name/current/v1"

/-- `Workspace::name_state`. -/
def nameState (provider : Provider) : Outcome NameState :=
  match provider.find? nameRecord with
  | some bytes => NameState.decode bytes
  | none => pure NameState.unnamed

def nameCheckpointExtension (provider : Provider) : Outcome (List Extension) := do
  let state ← nameState provider
  pure (if state.name.isSome then [⟨nameKind, state.encode⟩] else [])

/-- `Workspace::join_checkpoint`. -/
def Mls.joinCheckpoint {Group Signer Staged : Type} (mls : Mls Group Signer Staged)
    (workspace : Workspace Group Signer) : Outcome Bytes := do
  failIf workspace.member.isNone "member credential upgrade required"
  failIf (!(← authority (mls.extensions workspace)).contains (mls.signerPublic workspace.signer))
    "only an administrator may issue a checkpoint"
  let extension ← nameCheckpointExtension workspace.provider
  let info ← orFail (mls.exportGroupInfo workspace.group workspace.signer extension)
    "checkpoint creation failed"
  let bytes ← orFail (mls.encodeGroupInfo info) "checkpoint encoding failed"
  failIf (maxBytes < bytes.length) "checkpoint exceeds bounds"
  pure bytes

end Arachne.Security
