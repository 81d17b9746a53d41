import Arachne.Delivery.PublisherRuns
import Arachne.Delivery.Wire
import Arachne.Routing.Table

/-! How a publisher answers range queries from its log, and what it signs when it does. -/

namespace Arachne.Security.Mls

open Fallible ByteCodec

variable {Group Signer Staged : Type} (mls : Mls Group Signer Staged)

def memberEndpoint : Credential → Outcome (Block 32)
  | .basic identity =>
      match memberCredentialText.isPrefixOf? identity with
      | some bytes =>
          if h : bytes.length = 64 then pure ⟨bytes.drop 32, length_drop_half h⟩
          else .error "member identity binding required"
      | none => .error "member identity binding required"
  | .other _ _ => .error "unsupported member credential"

def memberEndpoints (workspace : Workspace Group Signer) : Outcome (List (Block 32)) :=
  (mls.members workspace).mapM fun member => memberEndpoint member.credential

end Arachne.Security.Mls

namespace Arachne.Delivery

open ByteCodec Fallible Routing
open Security (Mls Workspace maxApplicationContext maxApplicationCiphertext)

section Service

variable {Group Signer Staged : Type} (mls : Mls Group Signer Staged)

/-- The topic loop of `authorize_history`. -/
def authorizeTopics (policy : RoutingTable) (workspace : WorkspaceId) (revision : U64)
    (requester endpoint : PeerId) : List Topic → Except RetrievalError Unit
  | [] => .ok ()
  | topic :: topics =>
      match policy.publishers workspace revision requester topic with
      | .error _ => .error .denied
      | .ok publishers =>
          if endpoint ∈ publishers then
            authorizeTopics policy workspace revision requester endpoint topics
          else .error .denied

/-- Whether a current member may have the history of an author on these topics. -/
def authorizeHistory (owner : Workspace Group Signer) (policy : RoutingTable) (requester : PeerId)
    (author : Block 32) (revision : U64) (topics : TopicSet) : Except RetrievalError Unit :=
  if topics.val = [] ∨ maxTopics < topics.val.length then .error .denied
  else
    match mls.memberEndpoints owner, mls.endpointsForMembers owner [author] with
    | .ok endpoints, .ok (endpoint :: _) =>
        if requester ∈ endpoints then
          authorizeTopics policy owner.id revision requester endpoint topics.val
        else .error .denied
    | _, _ => .error .denied

/-- The scope of a query: workspace, author and epoch. -/
abbrev HistoryScope := WorkspaceId × Block 32 × U64

def PublisherLog.authorizeHistory (log : PublisherLog) (owner : Workspace Group Signer)
    (policy : RoutingTable) (requester : PeerId) (scope : HistoryScope) (revision : U64)
    (topics : TopicSet) : Except RetrievalError Unit :=
  if owner.id ≠ log.workspace ∨ mls.epoch owner ≠ log.epoch ∨
      owner.member.map (·.id) ≠ some log.author ∨
        scope ≠ (log.workspace, log.author, log.epoch) then
    .error .denied
  else Delivery.authorizeHistory mls owner policy requester log.author revision topics

def PublisherLog.authorizedRange (log : PublisherLog) (owner : Workspace Group Signer)
    (policy : RoutingTable) (requester : PeerId) (query : RangeQuery) :
    Except RetrievalError RetainedRange :=
  match log.authorizeHistory mls owner policy requester
    (query.workspace, query.author, query.epoch) query.policyRevision query.topics with
  | .error error => .error error
  | .ok () => (log.select mls.sha256 query.after query.through query.topics).mapError .history

def RetainedPublication.parts (record : RetainedPublication) : Bytes × Bytes :=
  (record.context.authenticatedBytes, record.ciphertext)

/-- A retained record as a receiver recovers it. -/
def RetainedPublication.recovered (record : RetainedPublication) : RecoveredPacket :=
  ⟨record.context, record.ciphertext⟩

def RetainedRange.signOffer (range : RetainedRange) (owner : Workspace Group Signer) :
    Outcome Bytes :=
  mls.signRecoveryOffer owner range.request (range.records.map RetainedPublication.parts)

def rejected (error : RetrievalError) : Bytes := rangeReplyMagic ++ [rejectionStatus error]

/-- One record of a reply. -/
def encodeRecord (sequenced : Bool) (record : RetainedPublication) : Bytes :=
  beBytes 8 record.context.revision.val ++ writeTopic record.context.topic ++
    record.context.id.val ++
    (if sequenced then beBytes 8 (NonZeroU64.orZero record.context.sequence).val else []) ++
    beBytes 4 record.ciphertext.length ++ record.ciphertext

def RetainedRange.sequenced (range : RetainedRange) : Bool :=
  range.records.any (·.context.sequence.isSome)

/-- How large the reply for a range is. -/
def replySize (range : RetainedRange) (offer : Bytes) : Nat :=
  9 + offer.length + (range.records.map fun record => 8 + 1 +
    record.context.topic.val.length + 16 + 4 + record.ciphertext.length +
    if range.sequenced then 8 else 0).sum

/-- The reply for a range and its signed offer, when it fits. -/
def encodedReply (range : RetainedRange) (offer : Bytes) : Bytes :=
  (if range.sequenced then sequencedReplyMagic else rangeReplyMagic) ++ [0] ++
    beBytes 2 offer.length ++ offer ++ [UInt8.ofNat range.records.length] ++
    range.records.flatMap (encodeRecord range.sequenced)

def offeredReply (range : RetainedRange) (offer : Bytes) : Bytes :=
  if maxReplyBytes < replySize range offer then rejected (.history .tooLarge)
  else encodedReply range offer

def serveRange (log : PublisherLog) (owner : Workspace Group Signer) (policy : RoutingTable)
    (requester : PeerId) (query : RangeQuery) : Outcome Bytes :=
  match log.authorizedRange mls owner policy requester query with
  | .error error => pure (rejected error)
  | .ok range => do
      let offer ← range.signOffer mls owner
      pure (offeredReply range offer)

/-- A receiver's durable cursor; the publisher picks the end of the range. -/
structure AvailableRangeQuery where
  workspace : WorkspaceId
  author : Block 32
  epoch : U64
  policyRevision : U64
  after : U64
  topics : TopicSet
deriving DecidableEq

def availableReplyMagic : Bytes := utf8 "DFHP" ++ [1]

def unavailableAvailableReply : Bytes := availableReplyMagic ++ [1]

def availableOffer (query : RangeQuery) (reply : Bytes) : Outcome Bytes := do
  let query ← query.toWire mls.sha256
  failIf (maxReplyBytes < availableReplyMagic.length + 1 + 4 + query.length + reply.length)
    "available-range reply exceeds bound"
  pure (availableReplyMagic ++ [0] ++ beBytes 4 query.length ++ query ++ reply)

/-- The range that a publisher offers after a cursor below its head. -/
def AvailableRangeQuery.nextRange (request : AvailableRangeQuery) (head : U64) : RangeQuery where
  workspace := request.workspace
  author := request.author
  epoch := request.epoch
  policyRevision := request.policyRevision
  after := request.after
  through := min head (saturatingAdd request.after maxRecoveryPackets)
  topics := request.topics

def serveAvailableRange (log : PublisherLog) (owner : Workspace Group Signer)
    (policy : RoutingTable) (requester : PeerId) (request : AvailableRangeQuery) :
    Outcome Bytes :=
  match log.authorizeHistory mls owner policy requester
    (request.workspace, request.author, request.epoch) request.policyRevision request.topics with
  | .error _ => pure unavailableAvailableReply
  | .ok () =>
      if log.head ≤ request.after then pure unavailableAvailableReply
      else do
        let query := request.nextRange log.head
        let reply ← serveRange mls log owner policy requester query
        match availableOffer mls query reply with
        | .ok bytes => pure bytes
        | .error _ => pure unavailableAvailableReply

end Service

end Arachne.Delivery
