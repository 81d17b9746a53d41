import Arachne.Lib.OrderedMap
import Arachne.Security.Profile
import Arachne.Security.Verifier

/-! The private side: a workspace's MLS group with its storage and signer, and the records
this crate keeps beside them. `Mls` are the calls into OpenMLS; randomness and the clock are
arguments. -/

namespace Arachne.Security

open Fallible ByteCodec

abbrev Provider := OrderedMap Bytes Bytes

/-- A group in memory and the storage it writes to. -/
structure Owner (Group : Type) where
  provider : Provider
  group : Group
  deriving DecidableEq

/-- Where building a commit can stop. -/
inductive CommitFailure where
  | proposal
  | state
  | preparation
  | staging

structure Mls (Group Signer Staged : Type) extends PublicMls where
  publicGroup : Group → PublicGroup
  ownLeafIndex : Group → Nat
  isActive : Group → Bool
  hasPendingCommit : Group → Bool
  epochAuthenticator : Group → Bytes
  load : Provider → Bytes → Option (Option Group)
  newSigner : (random : Bytes) → Option Signer
  storeSigner : Provider → Signer → Option Provider
  readSigner : Provider → Bytes → Option Signer
  signerPublic : Signer → Bytes
  sign : Signer → Bytes → Option Bytes
  keyPair : (random : Bytes) → Option (Bytes × Bytes)
  newGroup : (random : Bytes) → Provider → Signer → (groupId : Bytes) → Credential →
    List Extension → Option (Owner Group)
  newKeyPackage : (random : Bytes) → Provider → Signer → Credential →
    Option (KeyPackage × Provider)
  stageWelcome : Provider → (welcome : Bytes) → RatchetTree → Option (Option (Owner Group))
  exportGroupInfo : Group → Signer → List Extension → Option GroupInfo
  encodeGroupInfo : GroupInfo → Option Bytes
  setConfiguration : Owner Group → Option (Owner Group)
  addMembers : (random : Bytes) → Owner Group → Signer → List KeyPackage →
    Option (Option Bytes × Option Bytes × Owner Group)
  buildCommit : (random : Bytes) → Owner Group → Signer → (removals : List Nat) →
    Option (List Extension) → Except CommitFailure (Option Bytes × Owner Group)
  mergePendingCommit : Owner Group → Option (Owner Group)
  processPrivate : Owner Group → ProtocolMessage → Option (Option Staged × Owner Group)
  mergeStagedCommit : Owner Group → Staged → Option (Owner Group)

def credentialIdentity (endpoint : Block 32) : Option MemberProfile → Bytes
  | some member => memberCredentialText ++ member.id.1 ++ endpoint.1
  | none => utf8 "data-fabric/candidate-endpoint/v1/" ++ endpoint.1

/-- Exact response retained with the group transition. -/
structure AdmissionReply where
  epoch : U64
  commit : Bytes
  welcome : Bytes
  authorization : AdmissionAuthorization
  deriving DecidableEq

structure RetainedAdmission where
  digest : Block 32
  endpoint : Block 32
  issuer : Block 32
  reply : AdmissionReply
  deriving DecidableEq

abbrev Step := MembershipAuthorization × Bytes

structure MembershipHistory where
  checkpoint : Bytes
  steps : List Step
  deriving DecidableEq

structure RetainedInvitationCheckpoint where
  grant : Block 261
  checkpoint : Bytes
  deriving DecidableEq

structure Workspace (Group Signer : Type) where
  provider : Provider
  signer : Signer
  group : Group
  id : Block 32
  endpoint : Block 32
  member : Option MemberProfile
  admissions : List RetainedAdmission
  joinHistory : Option MembershipHistory
  invitationCheckpoints : List RetainedInvitationCheckpoint
  deriving DecidableEq

variable {Group Signer Staged : Type}

def Workspace.owner (workspace : Workspace Group Signer) : Owner Group :=
  ⟨workspace.provider, workspace.group⟩

/-- The extension of a checkpoint that carries the workspace's name. -/
def nameKind : Nat := 0xff01

/-- This crate's own entries in the provider's storage. -/
def isApplicationRecord (name : Bytes) : Prop := utf8 "data-fabric/" <+: name

def SameRecords (before after : Provider) : Prop :=
  ∀ name, isApplicationRecord name → after.find? name = before.find? name

namespace Mls

/-- A group as OpenMLS leaves it between two operations: saved, active, with nothing pending,
and the signer of its own leaf at hand. -/
structure Ready (mls : Mls Group Signer Staged) (owner : Owner Group) (signer : Signer) :
    Prop where
  saved : mls.load owner.provider (mls.publicGroup owner.group).context.groupId =
    some (some owner.group)
  stored : mls.readSigner owner.provider (mls.signerPublic signer) = some signer
  active : mls.isActive owner.group = true
  settled : mls.hasPendingCommit owner.group = false
  own : ∃ member ∈ (mls.publicGroup owner.group).members,
    member.index = mls.ownLeafIndex owner.group ∧ member.signatureKey = mls.signerPublic signer
  wellFormed : (mls.publicGroup owner.group).WellFormed

/-- What an operation of OpenMLS leaves alone: the leaf, and the application's records. -/
structure Keeps (mls : Mls Group Signer Staged) (before after : Owner Group) : Prop where
  ownLeafIndex : mls.ownLeafIndex after.group = mls.ownLeafIndex before.group
  records : SameRecords before.provider after.provider

/-- A commit this owner made and merged: others process it on the same public group and come
to the same state. -/
structure Commits (mls : Mls Group Signer Staged) (before after : Owner Group) (commit : Bytes)
    (staged : StagedCommit) : Prop where
  decoded : ∃ message, mls.decodeMessage commit = some (.protocol message) ∧
    mls.processMessage (mls.publicGroup before.group) message =
      some ⟨.member (mls.ownLeafIndex before.group), .stagedCommit staged⟩
  merged : mls.publicGroup after.group = staged.merged
  keeps : mls.Keeps before after

/-- Two copies of one group in one epoch: the same public state and the same secrets. -/
structure SameEpoch (mls : Mls Group Signer Staged) (group other : Group) : Prop where
  publicGroup : mls.publicGroup group = mls.publicGroup other
  epochAuthenticator : mls.epochAuthenticator group = mls.epochAuthenticator other

/-- A proposal the owner put into its own commit. -/
def ownProposal (mls : Mls Group Signer Staged) (group : Group) (proposal : Proposal) :
    QueuedProposal :=
  ⟨.member (mls.ownLeafIndex group), true, proposal⟩

/-- A GroupInfo that decodes to itself and that `from_external` turns into the group it was
exported from. -/
structure Exports (mls : Mls Group Signer Staged) (group : Group) (extensions : List Extension)
    (info : GroupInfo) : Prop where
  context : info.context = (mls.publicGroup group).context
  ratchetTree : info.ratchetTree = some (mls.publicGroup group).tree
  name : unknown info.extensions nameKind = unknown extensions nameKind
  accepted : mls.fromExternal (mls.publicGroup group).tree info = some (mls.publicGroup group)
  decoded : ∀ bytes, mls.encodeGroupInfo info = some bytes →
    mls.decodeMessage bytes = some (.groupInfo info)

/-- A group of one member in its first epoch. -/
structure Founded (mls : Mls Group Signer Staged) (owner : Owner Group) (groupId : Bytes)
    (member : Member) (extensions : List Extension) : Prop where
  ciphersuite : (mls.publicGroup owner.group).context.ciphersuite = suite
  groupId : (mls.publicGroup owner.group).context.groupId = groupId
  epoch : (mls.publicGroup owner.group).context.epoch = 0
  extensions : (mls.publicGroup owner.group).extensions = extensions
  members : (mls.publicGroup owner.group).members = [member]
  ownLeafIndex : mls.ownLeafIndex owner.group = member.index

/-- The documented behaviour of OpenMLS on a group this device is a member of. -/
structure Lawful (mls : Mls Group Signer Staged) : Prop extends mls.toPublicMls.Lawful where
  records {provider : Provider} {name value : Bytes} : isApplicationRecord name →
    mls.load (provider.insert name value) = mls.load provider ∧
      mls.readSigner (provider.insert name value) = mls.readSigner provider
  storeSigner {provider after : Provider} {signer : Signer} :
    mls.storeSigner provider signer = some after →
      mls.readSigner after (mls.signerPublic signer) = some signer ∧ SameRecords provider after
  newGroup {random groupId : Bytes} {provider : Provider} {signer : Signer}
      {credential : Credential} {extensions : List Extension} {after : Owner Group} :
    mls.readSigner provider (mls.signerPublic signer) = some signer →
      mls.newGroup random provider signer groupId credential extensions = some after →
        mls.Ready after signer ∧ SameRecords provider after.provider ∧
          mls.Founded after groupId ⟨0, credential, mls.signerPublic signer⟩ extensions
  newKeyPackage {random : Bytes} {provider after : Provider} {signer : Signer}
      {credential : Credential} {package : KeyPackage} :
    mls.readSigner provider (mls.signerPublic signer) = some signer →
      mls.newKeyPackage random provider signer credential = some (package, after) →
        package.leafNode = ⟨credential, mls.signerPublic signer⟩ ∧ package.ciphersuite = suite ∧
          mls.readSigner after (mls.signerPublic signer) = some signer ∧
            SameRecords provider after
  stageWelcome {provider : Provider} {welcome : Bytes} {tree : RatchetTree} {owner : Owner Group}
      {signer : Signer} {member : Member} :
    mls.readSigner provider (mls.signerPublic signer) = some signer →
      mls.stageWelcome provider welcome tree = some (some owner) →
        member ∈ (mls.publicGroup owner.group).members →
          member.index = mls.ownLeafIndex owner.group →
            member.signatureKey = mls.signerPublic signer →
              mls.Ready owner signer ∧ SameRecords provider owner.provider
  exportGroupInfo {owner : Owner Group} {signer : Signer} {extensions : List Extension}
      {info : GroupInfo} :
    mls.Ready owner signer → mls.exportGroupInfo owner.group signer extensions = some info →
      mls.Exports owner.group extensions info
  setConfiguration {owner after : Owner Group} {signer : Signer} :
    mls.Ready owner signer → mls.setConfiguration owner = some after →
      mls.Ready after signer ∧ mls.Keeps owner after ∧
        mls.publicGroup after.group = mls.publicGroup owner.group
  addMembers {random commit : Bytes} {owner pending after : Owner Group} {signer : Signer}
      {packages : List KeyPackage} {welcome : Option Bytes} :
    mls.Ready owner signer →
      mls.addMembers random owner signer packages = some (some commit, welcome, pending) →
        mls.mergePendingCommit pending = some after →
          mls.Ready after signer ∧ (∀ bytes ∈ welcome, bytes ≠ []) ∧
            ∃ staged, mls.Commits owner after commit staged ∧
              staged.updatePathLeaf = none ∧ staged.proposals =
                packages.map fun package => mls.ownProposal owner.group (.add package)
  buildCommit {random commit : Bytes} {owner pending after : Owner Group} {signer : Signer}
      {removals : List Nat} {extensions : Option (List Extension)} :
    mls.Ready owner signer →
      mls.buildCommit random owner signer removals extensions = .ok (some commit, pending) →
        mls.mergePendingCommit pending = some after →
          mls.Ready after signer ∧ ∃ staged, mls.Commits owner after commit staged
  accept {random commit : Bytes} {owner pending after other : Owner Group}
      {signer otherSigner : Signer} {removals : List Nat} {extensions : Option (List Extension)} :
    mls.Ready owner signer →
      mls.buildCommit random owner signer removals extensions = .ok (some commit, pending) →
        mls.mergePendingCommit pending = some after →
          mls.Ready other otherSigner → mls.SameEpoch other.group owner.group →
            mls.ownLeafIndex other.group ≠ mls.ownLeafIndex owner.group →
              ∃ message secret between after',
                mls.decodeMessage commit = some (.protocol message) ∧
                mls.processPrivate other message = some (some secret, between) ∧
                mls.mergeStagedCommit between secret = some after' ∧
                (mls.isActive after'.group = true ↔ mls.ownLeafIndex other.group ∉ removals) ∧
                (mls.isActive after'.group = true → mls.SameEpoch after'.group after.group)
  receive {owner between after : Owner Group} {signer : Signer} {message : ProtocolMessage}
      {secret : Staged} :
    mls.Ready owner signer → mls.processPrivate owner message = some (some secret, between) →
      mls.mergeStagedCommit between secret = some after →
        (mls.isActive after.group = true → mls.Ready after signer ∧ mls.Keeps owner after) ∧
        ∀ committer staged, mls.processMessage (mls.publicGroup owner.group) message =
            some ⟨committer, .stagedCommit staged⟩ →
          (∀ queued ∈ staged.proposals,
            queued.proposal ≠ .remove (mls.ownLeafIndex owner.group)) →
          mls.isActive after.group = true

/-- A workspace whose group is its own: the right group, and the leaf with its credential. -/
structure Sound (mls : Mls Group Signer Staged) (workspace : Workspace Group Signer) :
    Prop where
  ready : mls.Ready workspace.owner workspace.signer
  groupId : (mls.publicGroup workspace.group).context.groupId = workspace.id.1
  ciphersuite : (mls.publicGroup workspace.group).context.ciphersuite = suite
  credential : ∃ member ∈ (mls.publicGroup workspace.group).members,
    member.index = mls.ownLeafIndex workspace.group ∧
      member.credential = .basic (credentialIdentity workspace.endpoint workspace.member)

end Mls

end Arachne.Security
