import Arachne.Security.ManagementUpdate
import Arachne.Security.OwnState

/-! The name of a workspace: a chain of records that administrators sign, each extending the
head before it, and signed checkpoints that stand for a chain whose records are missing. -/

namespace Arachne.Security

open Fallible ByteCodec

def nameStep : Bytes := utf8 "data-fabric/workspace-name/step/v1/"

def nameCheckpointRecord : Bytes := utf8 "data-fabric/workspace-name/checkpoint/v1"

def nameMissingRecord : Bytes := utf8 "data-fabric/workspace-name/missing/v1"

def nameMagic : Bytes := utf8 "DFNM" ++ [1]

def nameCheckpointMagic : Bytes := utf8 "DFNC" ++ [1]

def maxWorkspaceNameRecord : Nat := 5 + 32 + 8 + 32 + 32 + 8 + 32 + 320 + 64

/-- Where the record that extends a head is stored. -/
def nameStepRecord (head : Block 32) : Bytes := nameStep ++ head.1

/-- What stands before the text in a name record and in a checkpoint of the name. -/
structure NameStatement where
  workspace : Block 32
  revision : U64
  head : Block 32
  author : Block 32
  epoch : U64
  branch : Block 32
  deriving DecidableEq

namespace NameStatement

def encode (statement : NameStatement) : Bytes :=
  statement.workspace.1 ++ (beBytes 8 statement.revision.val ++ (statement.head.1 ++
    (statement.author.1 ++ (beBytes 8 statement.epoch.val ++ statement.branch.1))))

def read (message : String) : Reader NameStatement := do
  let workspace ← takeBlock message 32
  let revision ← takeU64 message
  let head ← takeBlock message 32
  let author ← takeBlock message 32
  let epoch ← takeU64 message
  let branch ← takeBlock message 32
  pure ⟨workspace, revision, head, author, epoch, branch⟩

theorem reads (message : String) (statement : NameStatement) :
    Reads (read message) statement.encode statement := by
  refine Reads.bind (Reads.takeBlock statement.workspace) ?_
  refine Reads.bind (Reads.takeU64 statement.revision) ?_
  refine Reads.bind (Reads.takeBlock statement.head) ?_
  refine Reads.bind (Reads.takeBlock statement.author) ?_
  refine Reads.bind (Reads.takeU64 statement.epoch) ?_
  exact Reads.bind_pure (Reads.takeBlock statement.branch) (Reads.pure _)

/-- The statement of a record or a checkpoint, and the text and signature after it. -/
def parse (magic : Bytes) (workspace : Block 32) (message : String) (bytes : Bytes) :
    Outcome (NameStatement × Bytes) := do
  failIf (bytes.length < 214 ∨ maxWorkspaceNameRecord < bytes.length ∨ ¬ magic <+: bytes) message
  let (statement, rest) ← read message (bytes.drop 5)
  failIf (statement.workspace ≠ workspace) message
  pure (statement, rest)

end NameStatement

/-- All but the signature at the end. -/
def unsigned (bytes : Bytes) : Bytes := bytes.take (bytes.length - 64)

def trailingSignature (bytes : Bytes) : Bytes := bytes.drop (bytes.length - 64)

structure MemberIdentity where
  id : Block 32
  endpoint : Block 32
  administrator : Bool
  deriving DecidableEq

/-- `Workspace::member_roster`. -/
def PublicGroup.memberRoster (group : PublicGroup) : Outcome (List MemberIdentity) := do
  let admins ← authority group.extensions
  group.members.mapM fun member => do
    let (id, endpoint) ← binding member.credential
    pure ⟨id, endpoint, admins.contains member.signatureKey⟩

def isAdministrator (roster : List MemberIdentity) (id : Block 32) : Bool :=
  roster.any fun entry => entry.id = id && entry.administrator

/-- The member whose credential binds an id. -/
def PublicGroup.memberOf (group : PublicGroup) (id : Block 32) : Option Member :=
  group.members.find? (bindsId id)

/-- `Workspace::workspace_name_missing_history`. -/
def nameMissingHistory (provider : Provider) : Outcome U64 :=
  match provider.find? nameMissingRecord with
  | none => pure 0
  | some bytes => do
      failIf (bytes.length ≠ 8) "invalid workspace name missing-history count"
      pure (u64OfBytes bytes)

/-- `Workspace::next_workspace_name`. -/
def nextWorkspaceName (provider : Provider) (after : Block 32) : Option Bytes :=
  provider.find? (nameStepRecord after)

/-- The storage after a name record: the new state, the record under the head it extends, and
no checkpoint. -/
def recordName (provider : Provider) (previous next : NameState) (record : Bytes) : Provider :=
  ((provider.insert nameRecord next.encode).insert (nameStepRecord previous.head) record).erase
    nameCheckpointRecord

/-- The storage after a jump to a checkpoint. -/
def recordNameCheckpoint (provider : Provider) (state : NameState) (checkpoint : Bytes)
    (missing : U64) : Provider :=
  ((provider.insert nameRecord state.encode).insert nameCheckpointRecord checkpoint).insert
    nameMissingRecord (beBytes 8 missing.val)

structure PreparedWorkspaceName (Group Signer : Type) where
  workspace : Workspace Group Signer
  record : Bytes

structure PreparedWorkspaceNameCheckpoint (Group Signer : Type) where
  workspace : Workspace Group Signer
  missing : U64

namespace PublicMls

variable (mls : PublicMls)

def branch (context : GroupContext) : Outcome (Block 32) := do
  pure (mls.sha256 (← orFail (mls.encodeContext context) "group context encoding failed"))

/-- The history replayed up to an epoch. -/
def advanceTo (epoch : U64) : PublicGroup → List Step → Outcome PublicGroup
  | group, [] => pure group
  | group, step :: steps => do
      if group.context.epoch = epoch then pure group
      else advanceTo epoch (← mls.applyTransition group step.2 step.1) steps

/-- The checks of a name record against the group of its epoch. -/
def checkNameAuthor (verifier : PublicGroup) (statement : NameStatement) (record : Bytes) :
    Outcome Unit := do
  failIf (statement.branch ≠ (← mls.branch verifier.context))
    "workspace name membership branch mismatch"
  let admins ← authority verifier.extensions
  let member ← orFail (verifier.memberOf statement.author) "workspace name author is not a member"
  failIf (member.signatureKey ∉ admins ∨
      (verifier.members.filter (·.signatureKey = member.signatureKey)).length ≠ 1)
    "workspace name author is not an administrator"
  failIf (!mls.verifySignature (unsigned record) member.signatureKey (trailingSignature record))
    "workspace name signature invalid"

end PublicMls

namespace Mls

variable {Group Signer Staged : Type} (mls : Mls Group Signer Staged)

def nameAuthorityAt (workspace : Workspace Group Signer) (epoch : U64) :
    Outcome PublicGroup := do
  if epoch = mls.epoch workspace then mls.verifierOf workspace
  else
    let history ← orFail workspace.joinHistory "workspace name authority history unavailable"
    let verifier ← mls.historyVerifier history workspace.id
    failIf (epoch.val < verifier.context.epoch.val) "workspace name predates accepted history"
    let verifier ← mls.advanceTo epoch verifier history.steps
    failIf (verifier.context.epoch ≠ epoch) "workspace name authority history unavailable"
    pure verifier

/-- The checks of `prepare_workspace_name_update`: the name before the record and after it. -/
def nameChange (workspace : Workspace Group Signer) (record : Bytes) :
    Outcome (NameState × NameState) := do
  let (statement, rest) ← NameStatement.parse nameMagic workspace.id
    "invalid workspace name record" record
  let previous ← nameState workspace.provider
  failIf (checkedSucc previous.revision ≠ some statement.revision ∨
      statement.head ≠ previous.head) "workspace name update does not extend accepted name"
  let roster ← (mls.publicGroup workspace.group).memberRoster
  failIf (!isAdministrator roster statement.author)
    "workspace name author is not a current administrator"
  let name ← orFail (fromUtf8 (unsigned rest)) "invalid workspace name text"
  failIf ((← validateWorkspaceName name) ≠ name ∨ previous.name = some name)
    "invalid workspace name change"
  let verifier ← mls.nameAuthorityAt workspace statement.epoch
  mls.checkNameAuthor verifier statement record
  pure (previous, ⟨statement.revision, mls.sha256 record, some name⟩)

/-- The history, started from the workspace's own state where there is none. -/
def startedHistory (workspace : Workspace Group Signer) : Outcome MembershipHistory :=
  match workspace.joinHistory with
  | some history => pure history
  | none => do mls.historyFromInline (← mls.joinProofOf workspace).history

def prepareWorkspaceNameUpdate (workspace : Workspace Group Signer) (record : Bytes) :
    Outcome (Workspace Group Signer) := do
  let (previous, next) ← mls.nameChange workspace record
  let candidate ← mls.provisionalCopy workspace "workspace state copy failed"
    "missing workspace state copy" "missing workspace signer"
  let history ← mls.startedHistory workspace
  pure { candidate with
    provider := recordName candidate.provider previous next record
    joinHistory := some history }

/-- The statement of a member about a name on its own branch. -/
def statementOf (workspace : Workspace Group Signer) (member : MemberProfile)
    (revision : U64) (head : Block 32) : Outcome NameStatement := do
  let branch ← mls.branch (← mls.verifierOf workspace).context
  pure ⟨workspace.id, revision, head, member.id, mls.epoch workspace, branch⟩

def signWorkspaceNameCheckpoint (workspace : Workspace Group Signer) : Outcome Bytes := do
  let state ← nameState workspace.provider
  let member ← orFail workspace.member "member profile required"
  let name ← orFail state.name "workspace name checkpoint requires a current administrator"
  failIf (!isAdministrator (← (mls.publicGroup workspace.group).memberRoster) member.id)
    "workspace name checkpoint requires a current administrator"
  let statement ← mls.statementOf workspace member state.revision state.head
  let bytes := nameCheckpointMagic ++ statement.encode ++ utf8 name
  let signature ← orFail (mls.sign workspace.signer bytes)
    "workspace name checkpoint signing failed"
  pure (bytes ++ signature)

def prepareWorkspaceName (workspace : Workspace Group Signer) (name : String) :
    Outcome (PreparedWorkspaceName Group Signer) := do
  let name ← validateWorkspaceName name
  let prior ← nameState workspace.provider
  failIf (prior.name = some name) "workspace already has this name"
  let revision ← orFail (checkedSucc prior.revision) "workspace name revision exhausted"
  let member ← orFail workspace.member "member profile required"
  let statement ← mls.statementOf workspace member revision prior.head
  let bytes := nameMagic ++ statement.encode ++ utf8 name
  let signature ← orFail (mls.sign workspace.signer bytes) "workspace name signing failed"
  let record := bytes ++ signature
  let candidate ← mls.prepareWorkspaceNameUpdate workspace record
  let checkpoint ← mls.signWorkspaceNameCheckpoint candidate
  pure ⟨{ candidate with provider := candidate.provider.insert nameCheckpointRecord checkpoint },
    record⟩

def verifyWorkspaceNameCheckpoint (workspace : Workspace Group Signer) (bytes : Bytes) :
    Outcome NameState := do
  let (statement, rest) ← NameStatement.parse nameCheckpointMagic workspace.id
    "invalid workspace name checkpoint" bytes
  let name ← orFail (fromUtf8 (unsigned rest)) "invalid workspace name checkpoint text"
  failIf (statement.revision = 0 ∨ statement.head = zeroBlock 32)
    "workspace name checkpoint does not match current membership"
  failIf ((← validateWorkspaceName name) ≠ name ∨ statement.epoch ≠ mls.epoch workspace)
    "workspace name checkpoint does not match current membership"
  failIf (statement.branch ≠ (← mls.branch (← mls.verifierOf workspace).context))
    "workspace name checkpoint does not match current membership"
  let admins ← authority (mls.extensions workspace)
  let member ← orFail ((mls.publicGroup workspace.group).memberOf statement.author)
    "workspace name checkpoint author is not a current member"
  failIf (member.signatureKey ∉ admins)
    "workspace name checkpoint author is not a current administrator"
  failIf (!mls.verifySignature (unsigned bytes) member.signatureKey (trailingSignature bytes))
    "workspace name checkpoint signature invalid"
  pure ⟨statement.revision, statement.head, some name⟩

def prepareWorkspaceNameCheckpoint (workspace : Workspace Group Signer) (checkpoint : Bytes) :
    Outcome (PreparedWorkspaceNameCheckpoint Group Signer) := do
  let state ← mls.verifyWorkspaceNameCheckpoint workspace checkpoint
  let previous ← nameState workspace.provider
  failIf (state.revision.val ≤ previous.revision.val)
    "workspace name checkpoint does not advance accepted name"
  let missing : U64 := state.revision - previous.revision
  let total ← orFail (checkedAdd (← nameMissingHistory workspace.provider) missing)
    "workspace name missing-history count exhausted"
  let candidate ← mls.provisionalCopy workspace "workspace state copy failed"
    "missing workspace state copy" "missing workspace signer"
  pure ⟨{ candidate with
    provider := recordNameCheckpoint candidate.provider state checkpoint total }, missing⟩

end Mls

end Arachne.Security
