import Arachne.Delivery.Inbox

/-! The saved form of an inbox with its publisher log, and the decoder that checks it again. -/

namespace Arachne.Delivery

open ByteCodec Fallible Routing SortedWindow

def PublisherLog.validateOwner (log : PublisherLog) (owner : SecurityOwner) : Outcome Unit :=
  failIf (owner.id ≠ log.workspace ∨ owner.epoch ≠ log.epoch ∨ owner.member ≠ some log.author)
    "publisher index does not match security owner"

namespace ObjectInbox

def bundleMagic : Bytes := utf8 "DFOI" ++ [1]

/-- The inbox takes precedence: the log loses its oldest records until both fit. -/
def snapshotWithPublisher (json : Json) (owner : SecurityOwner) (inbox : ObjectInbox)
    (publisher : PublisherLog) : Outcome Bytes := do
  inbox.validateOwner owner
  publisher.validateOwner owner
  let saved ← inbox.snapshot json
  let retained ← publisher.fitAttachment saved.length publisher.retained.length
  pure (bundleMagic ++ (beBytes 4 retained.snapshot.length ++ (retained.snapshot ++ saved)))

/-- The loop over retained ranges or views; `parse` checks a query. -/
def readReplies (parse : Bytes → Outcome Unit) (invalid noncanonical : String) :
    Nat → Option Bytes → Reader (List RetainedReply)
  | 0, _ => pure []
  | count + 1, previous => do
      let expiresAt ← takeU64 truncated
      let queryLength ← takeNat truncated 4
      let query ← take truncated queryLength
      lift (parse query)
      let replyLength ← takeNat truncated 4
      let reply ← take truncated replyLength
      check (expiresAt = 0 ∨ maxReplyBytes < reply.length) invalid
      check (previous.any (fun last => query ≤ last) = true) noncanonical
      return ⟨query, reply, expiresAt⟩ ::
        (← readReplies parse invalid noncanonical count (some query))

def parseRangeQuery (owner : SecurityOwner) (query : Bytes) : Outcome Unit := do
  let _ ← RangeQuery.fromWire owner.sha256 query

def parseCurrentQuery (query : Bytes) : Outcome Unit := do
  let _ ← CurrentViewQuery.fromWire query

/-- The saved parts of an inbox: the JSON, and what is kept beside it. -/
structure Cache where
  json : Bytes
  ranges : List RetainedReply
  views : List RetainedReply
  current : Option CurrentViewIndex

def readRanges (owner : SecurityOwner) : Reader (List RetainedReply) := do
  let count ← takeNat truncated 1
  check (maxRetainedRanges < count) "retained range capacity exceeded"
  readReplies (parseRangeQuery owner) "invalid retained range" "noncanonical retained ranges" count
    none

/-- Retained views, which only the last version of the format has. -/
def readViews (hasViews : Bool) : Reader (List RetainedReply) :=
  if hasViews then do
    let count ← takeNat truncated 1
    check (maxRetainedCurrentViews < count) "retained current-view capacity exceeded"
    readReplies parseCurrentQuery "invalid retained current view" "invalid retained current view"
      count none
  else pure []

def readIndex (owner : SecurityOwner) (length : Nat) : Reader (Option CurrentViewIndex) :=
  if length = 0 then pure none
  else do
    let authority ← lift (orFail owner.member "member required")
    let bytes ← take truncated length
    let index ← lift (CurrentViewIndex.restore owner.id authority owner.epoch bytes)
    return some index

/-- The current-value index, which the first version of the format does not have. -/
def readCurrent (owner : SecurityOwner) (hasCurrent : Bool) : Reader (Option CurrentViewIndex) :=
  if hasCurrent then do
    let length ← takeNat truncated 4
    readIndex owner length
  else pure none

def readCache (owner : SecurityOwner) (hasCurrent hasViews : Bool) : Reader Cache := do
  let length ← takeNat truncated 4
  let json ← take truncated length
  let ranges ← readRanges owner
  let views ← readViews hasViews
  let current ← readCurrent owner hasCurrent
  let done ← atEnd
  check (done = false) "trailing retained range bytes"
  return { json, ranges, views, current }

/-- The cache in any version of the format; the oldest is JSON alone. -/
def cacheOf (owner : SecurityOwner) (bytes : Bytes) : Outcome Cache :=
  if bytes.take 5 = cacheMagic 3 then Prod.fst <$> readCache owner true true (bytes.drop 5)
  else if bytes.take 5 = cacheMagic 2 then Prod.fst <$> readCache owner true false (bytes.drop 5)
  else if bytes.take 5 = cacheMagic 1 then Prod.fst <$> readCache owner false false (bytes.drop 5)
  else .ok ⟨bytes, [], [], none⟩

/-- The publisher log of a bundle, and the bytes of the inbox after it. -/
def readBundle (owner : SecurityOwner) : Reader PublisherLog := do
  let magic ← take truncated 5
  check (magic ≠ bundleMagic) "unsupported object delivery bundle"
  let length ← takeNat truncated 4
  let author ← lift (orFail owner.member "member required")
  let saved ← take truncated length
  lift (PublisherLog.restore owner.id author owner.epoch saved)

def checkRange (owner : SecurityOwner) (range : RetainedReply) : Outcome Unit := do
  let query ← RangeQuery.fromWire owner.sha256 range.query
  failIf (query.workspace ≠ owner.id ∨ query.epoch ≠ owner.epoch) "invalid retained range proof"
  match ← verifyReply owner query range.reply with
  | .offered _ => pure ()
  | .rejected _ => .error "invalid retained range proof"

def checkView (owner : SecurityOwner) (retained : RetainedReply) : Outcome Unit := do
  let query ← CurrentViewQuery.fromWire retained.query
  let verified ← verifyWireReply owner query retained.reply
  let view ← orFail verified "invalid retained current-view proof"
  failIf (query.workspace ≠ owner.id ∨ query.epoch ≠ owner.epoch ∨
    lastExpiry view.values ≠ some retained.expiresAt) "invalid retained current-view proof"

def checkProgress (inbox : ObjectInbox) : Outcome Unit :=
  failIf (maxRecoverySelections < inbox.progress.length ∨
    (∃ progress ∈ inbox.progress, progress.through = 0) ∨
    ¬ (inbox.progress.map progressKey).Pairwise (· < ·)) "invalid recovery selection progress"

def isCurrent (owner : SecurityOwner) (authority : Block 32) : Bool :=
  match owner.endpointsForMembers [authority] with
  | .ok _ => true
  | .error _ => false

def checkCurrentProgress (owner : SecurityOwner) (inbox : ObjectInbox) : Outcome Unit :=
  failIf (maxCurrentSelections < inbox.currentProgress.length ∨
    ¬ (inbox.currentProgress.map currentKey).Pairwise (· < ·) ∨
    ∃ progress ∈ inbox.currentProgress,
      Topic.isValid progress.topic = false ∨ isCurrent owner progress.authority = false)
    "invalid current-view progress"

/-- The record loop of a direct stream, with the last sequence and the ids so far. -/
def checkRecords (owner : SecurityOwner) (stream : DirectStream) (topic : Topic) :
    U64 → List (Block 16) → List DirectRecord → Outcome Unit
  | _, _, [] => pure ()
  | previous, ids, record :: records => do
      let context : PublicationContext :=
        ⟨owner.id, stream.revision, topic, record.id, NonZeroU64.new record.sequence⟩
      let aad ← context.directAuthenticatedBytes stream.recipients
      let authenticated ← owner.unprotectObject aad record.object
      failIf (record.revision ≠ stream.revision ∨ record.sequence ≤ previous ∨ record.id ∈ ids ∨
        authenticated.message.member ≠ stream.author) "invalid direct recovery record"
      checkRecords owner stream topic record.sequence (record.id :: ids) records

def directTopic (stream : DirectStream) : Outcome Topic :=
  match Topic.new stream.topic with
  | .ok topic => pure topic
  | .error _ => .error "invalid direct topic"

/-- What makes a direct stream invalid before its records are read. -/
def InvalidDirect (member : Block 32) (seen : List DirectStream.Key) (stream : DirectStream) :
    Prop :=
  (stream.records = [] ∧ stream.knownHead = 0) ∨ window < stream.records.length ∨
    stream.effectiveHead < stream.floor ∨ stream.effectiveHead < stream.recoveryFloor ∨
    (stream.knownHead ≠ 0 ∧
      stream.records.getLast?.any (fun record => stream.knownHead < record.sequence) = true) ∨
    ¬ CanonicalScope stream.recipients ∨ stream.author ∈ stream.recipients ∨
    (stream.author ≠ member ∧ member ∉ stream.recipients) ∨ stream.key ∈ seen

instance (member : Block 32) (seen : List DirectStream.Key) (stream : DirectStream) :
    Decidable (InvalidDirect member seen stream) :=
  inferInstanceAs (Decidable (_ ∨ _))

/-- The loop over the direct streams, with the keys so far. -/
def checkDirect (owner : SecurityOwner) (member : Block 32) :
    List DirectStream.Key → List DirectStream → Outcome Unit
  | _, [] => pure ()
  | seen, stream :: streams => do
      failIf (InvalidDirect member seen stream) "invalid direct recovery stream"
      let _ ← owner.endpointsForMembers stream.recipients
      let topic ← directTopic stream
      checkRecords owner stream topic stream.floor [] stream.records
      checkDirect owner member (stream.key :: seen) streams

/-- What a pending receipt says of its object. -/
def checkPending (owner : SecurityOwner) (stream : Stream) (receipt : Receipt) (aad : Bytes) :
    Option Bytes → Outcome Unit
  | none => pure ()
  | some object => do
      let authenticated ← owner.unprotectObject aad object
      failIf (authenticated.counter ≠ receipt.counter ∨
        authenticated.message.member ≠ stream.author ∨ owner.sha256 object ≠ receipt.digest)
        "invalid pending object"

/-- The receipt loop of a stream, with the last counter and the ids so far. -/
def checkReceipts (owner : SecurityOwner) (inbox : ObjectInbox) (stream : Stream) :
    U64 → List (Block 16) → List Receipt → Outcome Unit
  | _, _, [] => pure ()
  | previous, ids, receipt :: receipts => do
      let context ← inbox.context stream receipt
      let aad ← receiptAad owner context receipt.recipients receipt.current
      failIf (receipt.counter ≤ previous ∨ receipt.id ∈ ids) "invalid inbox receipt order"
      failIf (receipt.rejected = true ∧ receipt.pending.isSome = true)
        "rejected inbox object is still pending"
      checkPending owner stream receipt aad receipt.pending
      checkReceipts owner inbox stream receipt.counter (receipt.id :: ids) receipts

/-- The loop over the streams, with the keys so far. -/
def checkStreams (owner : SecurityOwner) (inbox : ObjectInbox) :
    List (Block 32 × Bytes) → List Stream → Outcome Unit
  | _, [] => pure ()
  | seen, stream :: streams => do
      failIf (stream.key ∈ seen ∨ stream.receipts = [] ∨ window < stream.receipts.length)
        "invalid inbox stream"
      checkReceipts owner inbox stream stream.floor [] stream.receipts
      checkStreams owner inbox (stream.key :: seen) streams

/-- The checks on a decoded inbox. -/
def checkRestored (owner : SecurityOwner) (inbox : ObjectInbox) : Outcome Unit := do
  inbox.validateOwner owner
  let _ ← inbox.legacyReceipts
  inbox.retainedRanges.forM (checkRange owner)
  inbox.retainedCurrentViews.forM (checkView owner)
  failIf (maxStreams < inbox.streams.length) "inbox stream capacity exceeded"
  inbox.checkProgress
  inbox.checkCurrentProgress owner
  failIf (maxDirectStreams < inbox.direct.length) "direct recovery stream capacity exceeded"
  let member ← orFail owner.member "member required"
  checkDirect owner member [] inbox.direct
  inbox.checkStreams owner [] inbox.streams

def restoreSnapshot (json : Json) (owner : SecurityOwner) (attachment : Bytes) :
    Outcome (PublisherLog × ObjectInbox) := do
  failIf (maxWorkspaceAttachment < attachment.length)
    "combined object delivery state exceeds bound"
  let (publisher, bytes) ← readBundle owner attachment
  let cache ← cacheOf owner bytes
  let parsed ← orFail (json.decode cache.json) "invalid inbox snapshot"
  let inbox : ObjectInbox := { parsed with
    retainedRanges := cache.ranges
    retainedCurrentViews := cache.views
    current := cache.current }
  inbox.checkRestored owner
  pure (publisher, inbox)

end ObjectInbox

end Arachne.Delivery
