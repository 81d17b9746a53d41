import Arachne.Lib.ByteCodec

/-! The public side of an MLS group (RFC 9420) as OpenMLS shows it to this crate: group
contexts, trees, messages and staged commits. What OpenMLS itself computes is a parameter,
`PublicMls`; `PublicMls.Lawful` states the documented behaviour the results rest on. -/

namespace Arachne.Security

open ByteCodec

inductive Credential where
  | basic (identity : Bytes)
  | other (kind : Nat) (content : Bytes)
  deriving DecidableEq

/-- An entry of `group.members()`. -/
structure Member where
  index : Nat
  credential : Credential
  signatureKey : Bytes
  deriving DecidableEq

structure LeafNode where
  credential : Credential
  signatureKey : Bytes
  deriving DecidableEq

/-- A validated KeyPackage with its TLS encoding. -/
structure KeyPackage where
  leafNode : LeafNode
  ciphersuite : Nat
  encoded : Bytes
  deriving DecidableEq

structure Extension where
  kind : Nat
  data : Bytes
  deriving DecidableEq

/-- The content of the first extension of a type this crate defines. -/
def unknown (extensions : List Extension) (kind : Nat) : Option Bytes :=
  (extensions.find? (·.kind = kind)).map (·.data)

structure GroupContext where
  ciphersuite : Nat
  groupId : Bytes
  epoch : U64
  treeHash : Bytes
  transcriptHash : Bytes
  extensions : List Extension
  deriving DecidableEq

/-- The members at the leaves, in index order, and everything else in the tree. -/
structure RatchetTree where
  members : List Member
  nodes : Bytes
  deriving DecidableEq

structure PublicGroup where
  context : GroupContext
  tree : RatchetTree
  confirmationTag : Bytes
  deriving DecidableEq

def PublicGroup.members (group : PublicGroup) : List Member := group.tree.members

def PublicGroup.extensions (group : PublicGroup) : List Extension := group.context.extensions

inductive Sender where
  | member (index : Nat)
  | external (index : Nat)
  | newMemberProposal
  | newMemberCommit
  deriving DecidableEq

inductive Proposal where
  | add (package : KeyPackage)
  | remove (removed : Nat)
  | groupContextExtensions (extensions : List Extension)
  | other (kind : Nat)
  deriving DecidableEq

/-- A proposal of a commit: by value (`inline`) or by reference, with its own sender. -/
structure QueuedProposal where
  sender : Sender
  inline : Bool
  proposal : Proposal
  deriving DecidableEq

structure StagedCommit where
  proposals : List QueuedProposal
  updatePathLeaf : Option LeafNode
  context : GroupContext
  tree : RatchetTree
  confirmationTag : Bytes
  deriving DecidableEq

/-- `staged.add_proposals()`. -/
def StagedCommit.adds (staged : StagedCommit) : List KeyPackage :=
  staged.proposals.filterMap fun queued =>
    match queued.proposal with
    | .add package => some package
    | _ => none

/-- `merge_commit`: the group takes over the staged state. -/
def StagedCommit.merged (staged : StagedCommit) : PublicGroup :=
  ⟨staged.context, staged.tree, staged.confirmationTag⟩

inductive ProcessedContent where
  | stagedCommit (staged : StagedCommit)
  | other

structure ProcessedMessage where
  sender : Sender
  content : ProcessedContent

structure GroupInfo where
  context : GroupContext
  extensions : List Extension
  ratchetTree : Option RatchetTree
  confirmationTag : Bytes
  signer : Nat
  signature : Bytes
  deriving DecidableEq

/-- A handshake or application message as it is framed, before it is processed. -/
structure ProtocolMessage where
  groupId : Bytes
  epoch : U64
  content : Bytes
  deriving DecidableEq

inductive MlsMessage where
  | groupInfo (info : GroupInfo)
  | protocol (message : ProtocolMessage)
  | welcome (content : Bytes)
  | other

/-- `try_into_protocol_message`. -/
def MlsMessage.toProtocol : MlsMessage → Option ProtocolMessage
  | .protocol message => some message
  | _ => none

/-- What the crate calls in OpenMLS and its crypto provider without any group secret. -/
structure PublicMls where
  sha256 : Bytes → Block 32
  verifySignature : (message key signature : Bytes) → Bool
  decodeMessage : Bytes → Option MlsMessage
  decodeKeyPackage : Bytes → Option KeyPackage
  validateKeyPackage : (now : U64) → KeyPackage → Bool
  encodeContext : GroupContext → Option Bytes
  fromExternal : RatchetTree → GroupInfo → Option PublicGroup
  processMessage : PublicGroup → ProtocolMessage → Option ProcessedMessage

/-- The new leaf takes the leftmost free index; `index` is the first one not yet seen. -/
def placeFrom (index : Nat) (leaf : LeafNode) : List Member → List Member
  | [] => [⟨index, leaf.credential, leaf.signatureKey⟩]
  | member :: members =>
      if member.index = index then member :: placeFrom (index + 1) leaf members
      else ⟨index, leaf.credential, leaf.signatureKey⟩ :: member :: members

/-- The committer's leaf after an update path with the given new leaf. -/
def refresh (committer : Sender) (path : Option LeafNode) (member : Member) : Member :=
  match path with
  | some leaf =>
      if committer = .member member.index then ⟨member.index, leaf.credential, leaf.signatureKey⟩
      else member
  | none => member

/-- The members that a commit does not remove. -/
def PublicGroup.kept (group : PublicGroup) (staged : StagedCommit) : List Member :=
  group.members.filter fun member =>
    ¬ ∃ queued ∈ staged.proposals, queued.proposal = .remove member.index

/-- The members after the Remove and Add proposals and the update path of a commit
(RFC 9420, 12.3 and 12.4.2). -/
def PublicGroup.membersAfter (group : PublicGroup) (committer : Sender)
    (staged : StagedCommit) : List Member :=
  let refreshed := (group.kept staged).map (refresh committer staged.updatePathLeaf)
  staged.adds.foldl (fun members package => placeFrom 0 package.leafNode members) refreshed

/-- The extensions after the GroupContextExtensions proposal of a commit, if it has one. -/
def PublicGroup.extensionsAfter (group : PublicGroup) (staged : StagedCommit) :
    List Extension :=
  (staged.proposals.findSome? fun queued =>
    match queued.proposal with
    | .groupContextExtensions extensions => some extensions
    | _ => none).getD group.extensions

/-- Leaf indices and signature keys are unique in a group (RFC 9420, 7.3). -/
structure PublicGroup.WellFormed (group : PublicGroup) : Prop where
  indices : (group.members.map (·.index)).Nodup
  signatureKeys : (group.members.map (·.signatureKey)).Nodup

/-- What a validated commit stages on a group. -/
structure PublicGroup.Stages (group : PublicGroup) (committer : Sender)
    (staged : StagedCommit) : Prop where
  ciphersuite : staged.context.ciphersuite = group.context.ciphersuite
  groupId : staged.context.groupId = group.context.groupId
  epoch : staged.context.epoch.val = group.context.epoch.val + 1
  extensions : staged.context.extensions = group.extensionsAfter staged
  members : (∀ queued ∈ staged.proposals, ∀ kind, queued.proposal ≠ .other kind) →
    staged.tree.members = group.membersAfter committer staged
  wellFormed : staged.merged.WellFormed

/-- The documented behaviour of OpenMLS on public state. -/
structure PublicMls.Lawful (mls : PublicMls) : Prop where
  decodeMessage : mls.decodeMessage [] = none
  fromExternal {tree : RatchetTree} {info : GroupInfo} {group : PublicGroup} :
    mls.fromExternal tree info = some group →
      group = ⟨info.context, tree, info.confirmationTag⟩ ∧ group.WellFormed
  processMessage {group : PublicGroup} {message : ProtocolMessage} {committer : Sender}
      {staged : StagedCommit} :
    group.WellFormed →
      mls.processMessage group message = some ⟨committer, .stagedCommit staged⟩ →
        message.epoch = group.context.epoch ∧ group.Stages committer staged

end Arachne.Security
