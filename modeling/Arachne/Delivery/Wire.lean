import Arachne.Delivery.PublisherSnapshot
import Arachne.Delivery.Recovery

/-! Bounded control records between a receiver and the holders of history: direct heads and
ranges, and publisher-signed ranges. -/

namespace Arachne.Delivery

open ByteCodec Fallible Routing
open Security (maxApplicationCiphertext)

def maxQueryBytes : Nat := 32 * 1024
def maxReplyBytes : Nat := 128 * 1024

def truncated : String := PublisherLog.truncated

/-- `read_topic` of the control records. -/
def readWireTopic : Reader Topic :=
  readTopic truncated "invalid topic encoding" "invalid wire topic"

structure DirectHead where
  workspace : WorkspaceId
  author : Block 32
  epoch : U64
  policyRevision : U64
  topic : Topic
  recipients : List (Block 32)
  through : U64
deriving DecidableEq

def DirectHead.validate (head : DirectHead) : Outcome Unit :=
  failIf (head.through = 0 ∨ ¬ CanonicalScope head.recipients ∨ head.author ∈ head.recipients)
    "invalid direct head"

def directHeadMagic : Bytes := utf8 "DFDH" ++ [1]

def DirectHead.toWire (head : DirectHead) : Outcome Bytes := do
  head.validate
  pure (directHeadMagic ++ head.workspace.1 ++ head.author.1 ++ beBytes 8 head.epoch.val ++
    beBytes 8 head.policyRevision.val ++ beBytes 8 head.through.val ++ writeTopic head.topic ++
    [UInt8.ofNat head.recipients.length] ++ head.recipients.flatMap Subtype.val)

structure DirectRangeQuery where
  workspace : WorkspaceId
  author : Block 32
  epoch : U64
  policyRevision : U64
  topic : Topic
  recipients : List (Block 32)
  after : U64
  through : U64
deriving DecidableEq

def DirectRangeQuery.validate (query : DirectRangeQuery) : Outcome Unit :=
  failIf (query.after ≥ query.through ∨ maxRecoveryPackets < query.through.val - query.after.val ∨
    ¬ CanonicalScope query.recipients ∨ query.author ∈ query.recipients)
    "invalid direct recovery query"

structure RecoveredPacket where
  context : PublicationContext
  ciphertext : Bytes
deriving DecidableEq

inductive DirectRangeReply where
  | offered (packets : List RecoveredPacket)
  | unavailable
deriving DecidableEq

/-- The packet loop of `verify_direct_reply`; `expected` is the next sequence. -/
def readDirectPackets (owner : SecurityOwner) (query : DirectRangeQuery) :
    Nat → Nat → Reader (List RecoveredPacket)
  | 0, _ => pure []
  | count + 1, expected => do
      let revision ← takeU64 truncated
      let id ← takeBlock truncated 16
      let sequence ← takeU64 truncated
      let length ← takeNat truncated 4
      check (sequence.val ≠ expected ∨ length = 0 ∨ maxApplicationCiphertext < length)
        "invalid direct recovery packet"
      let context : PublicationContext :=
        ⟨query.workspace, revision, query.topic, id, NonZeroU64.new sequence⟩
      let object ← take truncated length
      let aad ← lift (context.directAuthenticatedBytes query.recipients)
      let authenticated ← lift (owner.unprotectObject aad object)
      check (authenticated.message.member ≠ query.author) "direct recovery author mismatch"
      return ⟨context, object⟩ :: (← readDirectPackets owner query count (expected + 1))

def directReplyMagic : Bytes := utf8 "DFDP" ++ [1]

/-- What stands after the status byte of an offer. -/
def readDirectOffer (owner : SecurityOwner) (query : DirectRangeQuery) :
    Reader DirectRangeReply := do
  let count ← takeNat truncated 1
  check (count ≠ query.through.val - query.after.val) "incomplete direct recovery reply"
  let packets ← readDirectPackets owner query count (query.after.val + 1)
  let done ← atEnd
  check (done = false) "trailing direct recovery reply"
  return .offered packets

def readDirectReply (owner : SecurityOwner) (query : DirectRangeQuery) :
    Reader DirectRangeReply := do
  let magic ← take truncated 5
  check (magic ≠ directReplyMagic) "wrong direct recovery reply format"
  let status ← takeNat truncated 1
  let done ← atEnd
  if status = 1 ∧ done = true then return .unavailable
  else if status = 0 then readDirectOffer owner query
  else throw "invalid direct recovery reply status"

def verifyDirectReply (owner : SecurityOwner) (query : DirectRangeQuery) (bytes : Bytes) :
    Outcome DirectRangeReply := do
  query.validate
  failIf (maxReplyBytes < bytes.length) "direct recovery reply exceeds bound"
  let (reply, _) ← readDirectReply owner query bytes
  return reply

/-- A publisher scope and the requested exact-topic history. -/
structure RangeQuery where
  workspace : WorkspaceId
  author : Block 32
  epoch : U64
  policyRevision : U64
  after : U64
  through : U64
  topics : TopicSet
deriving DecidableEq

inductive RetrievalError where
  | denied
  | history (error : RangeError)
deriving DecidableEq

def RangeQuery.recoveryRequest (sha256 : Bytes → Block 32) (query : RangeQuery) :
    Outcome RecoveryRequest := do
  failIf (query.after ≥ query.through ∨ query.topics.val = [] ∨
    maxTopics < query.topics.val.length) "invalid range query"
  pure {
    workspace := query.workspace
    author := query.author
    epoch := query.epoch
    selection := selectionDigest sha256 query.topics
    after := query.after
    through := query.through }

def rangeQueryMagic : Bytes := utf8 "DFRQ" ++ [1]

def RangeQuery.toWire (sha256 : Bytes → Block 32) (query : RangeQuery) : Outcome Bytes := do
  let _ ← query.recoveryRequest sha256
  pure (rangeQueryMagic ++ (query.workspace.1 ++ (query.author.1 ++ (beBytes 8 query.epoch.val ++
    (beBytes 8 query.policyRevision.val ++ (beBytes 8 query.after.val ++
      (beBytes 8 query.through.val ++ ([UInt8.ofNat query.topics.val.length] ++
        query.topics.val.flatMap writeTopic))))))))

/-- The topic loop of `read_topics`: topics after `previous`, each larger than the last. -/
def readTopicsAfter : Nat → Option Topic → Reader (List Topic)
  | 0, _ => pure []
  | count + 1, previous => do
      let topic ← readWireTopic
      check (previous.any (fun last => topic ≤ last) = true) "noncanonical query topics"
      return topic :: (← readTopicsAfter count (some topic))

/-- Topics in strictly increasing order as the set they are. -/
def topicSet (topics : List Topic) : Outcome TopicSet :=
  if h : topics.Pairwise (· < ·) then .ok ⟨topics, h⟩ else .error "noncanonical query topics"

def readTopics : Reader TopicSet := do
  let count ← takeNat truncated 1
  check (count = 0 ∨ maxTopics < count) "invalid query topic count"
  let topics ← readTopicsAfter count none
  lift (topicSet topics)

theorem topicSet_eq_ok {topics : List Topic} {set : TopicSet} :
    topicSet topics = .ok set ↔ topics = set.val := by
  rw [topicSet]
  split
  · rw [Except.ok.injEq, Subtype.ext_iff]
  · rename_i hsorted
    exact ⟨nofun, fun h => absurd (h ▸ set.property) hsorted⟩

theorem readTopicsAfter_reads :
    ReadsSorted readTopicsAfter id (fun _ : Topic => True) writeTopic where
  done _ := rfl
  next count previous bytes result := by
    obtain ⟨topics, rest⟩ := result
    simp only [readTopicsAfter, readWireTopic, reader_bind_eq_ok, readTopic_eq_ok, check_eq_ok,
      pure_apply_eq_ok, Prod.mk.injEq, existsAndEq, true_and, and_true, exists_const, id_eq]
    constructor
    · rintro ⟨topic, rest', rfl, hlast, topics, hrest, htopics⟩
      exact ⟨topic, topics, rest', hlast, rfl, hrest, htopics⟩
    · rintro ⟨topic, topics, rest', hlast, rfl, hrest, htopics⟩
      exact ⟨topic, rest', rfl, hlast, topics, hrest, htopics⟩

theorem readTopics_exact : Exact readTopics
    (fun topics => topics.val ≠ [] ∧ topics.val.length ≤ maxTopics)
    (fun topics => [UInt8.ofNat topics.val.length] ++ topics.val.flatMap writeTopic) := by
  intro bytes topics rest
  simp only [readTopics, reader_bind_eq_ok, takeNat_eq_ok, check_eq_ok,
    readTopicsAfter_reads.exact _ _ _ _, lift_eq_ok, topicSet_eq_ok, existsAndEq, true_and,
    and_true, exists_const, beBytes_one, List.append_assoc, List.map_id, not_or,
    List.length_eq_zero_iff, not_lt]
  constructor
  · rintro ⟨⟨_, rfl⟩, hcount, _⟩
    exact ⟨hcount, rfl⟩
  · rintro ⟨hcount, rfl⟩
    exact ⟨⟨lt_of_le_of_lt hcount.2 (by decide), rfl⟩, hcount, topics.property, fun _ _ => trivial⟩

theorem length_topics_le (topics : List Topic) :
    (topics.flatMap writeTopic).length ≤ 129 * topics.length := by
  induction topics with
  | nil => simp
  | cons topic topics ih =>
    have hlength := topic.length_le
    simp only [List.flatMap_cons, List.length_append, writeTopic, List.length_nil,
      List.length_cons] at ih ⊢
    omega

def readRangeQuery (sha256 : Bytes → Block 32) : Reader RangeQuery := do
  let magic ← take truncated 5
  check (magic ≠ rangeQueryMagic) "wrong range query format"
  let workspace ← takeBlock truncated 32
  let author ← takeBlock truncated 32
  let epoch ← takeU64 truncated
  let policyRevision ← takeU64 truncated
  let after ← takeU64 truncated
  let through ← takeU64 truncated
  let topics ← readTopics
  let done ← atEnd
  check (done = false) "trailing range query"
  let query : RangeQuery := { workspace, author, epoch, policyRevision, after, through, topics }
  let _ ← lift (query.recoveryRequest sha256)
  return query

def RangeQuery.fromWire (sha256 : Bytes → Block 32) (bytes : Bytes) : Outcome RangeQuery := do
  failIf (maxQueryBytes < bytes.length) "range query exceeds bound"
  let (query, _) ← readRangeQuery sha256 bytes
  return query

/-- The queries that are accepted are the ones that are written. -/
theorem RangeQuery.fromWire_eq_ok {sha256 : Bytes → Block 32} {query : RangeQuery} {bytes : Bytes} :
    RangeQuery.fromWire sha256 bytes = .ok query ↔ query.toWire sha256 = .ok bytes := by
  have hmagic : rangeQueryMagic.length = 5 := by decide
  simp only [fromWire, toWire, bind_eq_ok, failIf_eq_ok, pure_eq_ok, Prod.exists, exists_const]
  obtain ⟨workspace, author, epoch, policyRevision, after, through, topics⟩ := query
  simp only [readRangeQuery, reader_bind_eq_ok, take_eq_ok, check_eq_ok, takeBlock_eq_ok,
    takeU64_eq_ok, readTopics_exact _ _ _, atEnd_eq_ok, lift_eq_ok, pure_apply_eq_ok,
    Prod.mk.injEq, mk.injEq, not_not, Bool.not_eq_false, List.isEmpty_iff, existsAndEq, true_and,
    and_true, exists_const, List.append_nil, hmagic]
  constructor
  · rintro ⟨_, request, rfl, _, hrequest⟩
    exact ⟨request, hrequest, rfl⟩
  · rintro ⟨request, hrequest, rfl⟩
    have hvalid := hrequest
    simp only [recoveryRequest, bind_eq_ok, failIf_eq_ok, not_or, not_lt] at hvalid
    obtain ⟨_, ⟨_, htopics⟩, _⟩ := hvalid
    have hlength := length_topics_le topics.val
    refine ⟨?_, request, rfl, htopics, hrequest⟩
    simp only [List.length_append, hmagic, workspace.property, author.property, beBytes_length,
      List.length_singleton, maxQueryBytes]
    have hcount : topics.val.length ≤ 64 := htopics.2
    omega

structure VerifiedRange where
  proof : VerifiedRecoveryOffer
  packets : List RecoveredPacket
deriving DecidableEq

inductive RangeReply where
  | offered (range : VerifiedRange)
  | rejected (error : RetrievalError)
deriving DecidableEq

def rejectionStatus : RetrievalError → UInt8
  | .denied => 1
  | .history .invalid => 2
  | .history .unavailable => 3
  | .history .empty => 4
  | .history .tooLarge => 5

def rejectionOf : Nat → Outcome RetrievalError
  | 1 => .ok .denied
  | 2 => .ok (.history .invalid)
  | 3 => .ok (.history .unavailable)
  | 4 => .ok (.history .empty)
  | 5 => .ok (.history .tooLarge)
  | _ => .error "unknown range status"

def rangeReplyMagic : Bytes := utf8 "DFRP" ++ [1]

def sequencedReplyMagic : Bytes := utf8 "DFRP" ++ [2]

/-- The sequence of a packet, in replies that carry one. -/
def readSequence (sequenced : Bool) : Reader (Option NonZeroU64) :=
  if sequenced then do return NonZeroU64.new (← takeU64 truncated) else pure none

/-- The packet loop of `verify_reply`, with the ids and the highest sequence so far. -/
def readPackets (query : RangeQuery) (sequenced : Bool) :
    Nat → List (Block 16) → U64 → Reader (List RecoveredPacket)
  | 0, _, _ => pure []
  | count + 1, ids, last => do
      let revision ← takeU64 truncated
      let topic ← readWireTopic
      let id ← takeBlock truncated 16
      let sequence ← readSequence sequenced
      check (sequence.any (fun number => number.val ≤ last ∨ query.through < number.val) = true)
        "publisher sequence outside ordered requested range"
      check (topic ∉ query.topics.val ∨ id ∈ ids) "unexpected topic or repeated publication ID"
      let length ← takeNat truncated 4
      check (length = 0 ∨ maxApplicationCiphertext < length) "invalid reply ciphertext length"
      let ciphertext ← take truncated length
      let rest ← readPackets query sequenced count (id :: ids) (sequence.elim last Subtype.val)
      return ⟨⟨query.workspace, revision, topic, id, sequence⟩, ciphertext⟩ :: rest

/-- The framing of a reply: a rejection, or an offer with its packets. -/
inductive RangeFrame where
  | rejected (error : RetrievalError)
  | offered (offer : Bytes) (packets : List RecoveredPacket)
deriving DecidableEq

def readRejection (status : Nat) : Reader RangeFrame := do
  let done ← atEnd
  check (done = false) "trailing rejection"
  let error ← lift (rejectionOf status)
  return .rejected error

def readOffer (query : RangeQuery) (sequenced : Bool) : Reader RangeFrame := do
  let length ← takeNat truncated 2
  let offer ← take truncated length
  let count ← takeNat truncated 1
  check (maxRecoveryPackets < count) "invalid reply packet count"
  let packets ← readPackets query sequenced count [] query.after
  let done ← atEnd
  check (done = false) "trailing range reply"
  return .offered offer packets

def readReply (query : RangeQuery) : Reader RangeFrame := do
  let magic ← take truncated 5
  check (magic ≠ rangeReplyMagic ∧ magic ≠ sequencedReplyMagic) "wrong range reply format"
  let status ← takeNat truncated 1
  if status ≠ 0 then readRejection status
  else readOffer query (magic = sequencedReplyMagic)

def RecoveredPacket.parts (packet : RecoveredPacket) : Bytes × Bytes :=
  (packet.context.authenticatedBytes, packet.ciphertext)

def verifyReply (owner : SecurityOwner) (query : RangeQuery) (bytes : Bytes) :
    Outcome RangeReply := do
  let expected ← query.recoveryRequest owner.sha256
  failIf (maxReplyBytes < bytes.length) "range reply exceeds bound"
  let (frame, _) ← readReply query bytes
  match frame with
  | .rejected error => pure (.rejected error)
  | .offered offer packets => do
      let proof ← owner.verifyRecoveryOffer expected offer
      proof.verifyPackets owner.sha256 (packets.map RecoveredPacket.parts)
      pure (.offered ⟨proof, packets⟩)

end Arachne.Delivery
