import Arachne.Lib.SortedWindow
import Arachne.Delivery.CurrentIndex
import Arachne.Delivery.PublisherRuns
import Arachne.Delivery.Receive

/-! The inbox of a member: bounded replay evidence, durable pending objects, and copies of
direct objects for recovery. Every operation returns a new inbox; the host saves it before it
adopts it. -/

namespace Arachne.Delivery

open ByteCodec Fallible Routing SortedWindow
open Security (ApplicationMessage AuthenticatedObject)

def maxStreams : Nat := 4096
def window : Nat := maxPacketsPerTopic
def maxRetainedRanges : Nat := 4
def maxRetainedCurrentViews : Nat := 4
def maxDirectStreams : Nat := 256
def maxDirectRetainedBytes : Nat := 128 * 1024

structure Receipt where
  counter : U64
  revision : U64
  id : Block 16
  sequence : U64
  recipients : List (Block 32)
  current : Option CurrentMetadata
  digest : Block 32
  pending : Option Bytes
  rejected : Bool
deriving DecidableEq

/-- Counters at or below the floor stay refused after their receipts expired. -/
structure Stream where
  author : Block 32
  topic : Bytes
  floor : U64
  receipts : List Receipt
deriving DecidableEq

/-- A retained range or current view: the exact query and reply. -/
structure RetainedReply where
  query : Bytes
  reply : Bytes
  expiresAt : U64
deriving DecidableEq

structure SelectionProgress where
  author : Block 32
  selection : Block 32
  through : U64
deriving DecidableEq

structure CurrentProgress where
  authority : Block 32
  revision : U64
  topic : Bytes
  selector : Block 32
  cut : U64
  digest : Block 32
deriving DecidableEq

structure DirectRecord where
  revision : U64
  id : Block 16
  sequence : U64
  object : Bytes
deriving DecidableEq

structure DirectStream where
  author : Block 32
  revision : U64
  topic : Bytes
  recipients : List (Block 32)
  floor : U64
  recoveryFloor : U64
  knownHead : U64
  records : List DirectRecord
deriving DecidableEq

/-- The fields of an inbox that are saved as JSON. -/
structure Snapshot where
  workspace : WorkspaceId
  epoch : U64
  streams : List Stream
  progress : List SelectionProgress
  currentProgress : List CurrentProgress
  legacyReceiveSnapshot : Option Bytes
  direct : List DirectStream
deriving DecidableEq

structure ObjectInbox extends Snapshot where
  retainedRanges : List RetainedReply
  retainedCurrentViews : List RetainedReply
  current : Option CurrentViewIndex
deriving DecidableEq

/-- The calls into `serde_json`: the inbox as it is saved, and how long its direct streams are
when they are encoded alone. -/
structure Json where
  encode : Snapshot → Option Bytes
  decode : Bytes → Option Snapshot
  directLength : List DirectStream → Option Nat

structure Json.Lawful (json : Json) : Prop where
  decode {snapshot : Snapshot} {bytes : Bytes} :
    json.encode snapshot = some bytes → json.decode bytes = some snapshot

inductive InboxStage where
  | duplicate
  | outsideWindow
  | prepared (inbox : ObjectInbox)
deriving DecidableEq

structure PendingObject where
  context : PublicationContext
  message : ApplicationMessage
  counter : U64
  recipients : List (Block 32)
  current : Option CurrentMetadata
deriving DecidableEq

structure DeferredDeliveryStream where
  member : Block 32
  revision : U64
  topic : Bytes
  recipients : List (Block 32)
deriving DecidableEq

structure DirectGap where
  author : Block 32
  revision : U64
  topic : Topic
  recipients : List (Block 32)
  after : U64
  through : U64
deriving DecidableEq

def audienceAad (owner : SecurityOwner) (context : PublicationContext)
    (recipients : List (Block 32)) : Outcome Bytes :=
  if recipients = [] then do
    let _ ← orFail context.sequence "object publication requires sequence"
    pure context.authenticatedBytes
  else do
    let aad ← context.directAuthenticatedBytes recipients
    let local_ ← orFail owner.member "member required"
    failIf (local_ ∉ recipients) "object audience excludes local member"
    pure aad

def receiptAad (owner : SecurityOwner) (context : PublicationContext)
    (recipients : List (Block 32)) : Option CurrentMetadata → Outcome Bytes
  | some metadata =>
      if recipients = [] then pure (metadata.authenticatedContext context)
      else .error "current value cannot have direct recipients"
  | none => audienceAad owner context recipients

namespace Stream

def key (stream : Stream) : Block 32 × Bytes := (stream.author, stream.topic)

def new (key : Block 32 × Bytes) : Stream := ⟨key.1, key.2, 0, []⟩

/-- Adds a receipt in counter order; a full window drops its first, which must not be pending. -/
def push (stream : Stream) (receipt : Receipt) : Outcome Stream :=
  let receipts := sortBy Receipt.counter (stream.receipts ++ [receipt])
  if receipts.length ≤ window then .ok { stream with receipts }
  else
    match receipts with
    | [] => .ok { stream with receipts }
    | first :: rest => do
        failIf first.pending.isSome "pending inbox window full"
        pure { stream with floor := first.counter, receipts := rest }

end Stream

namespace DirectStream

abbrev Key := Block 32 × U64 × Bytes × List (Block 32)

def key (stream : DirectStream) : Key :=
  (stream.author, stream.revision, stream.topic, stream.recipients)

def new (key : Key) : DirectStream := ⟨key.1, key.2.1, key.2.2.1, key.2.2.2, 0, 0, 0, []⟩

def effectiveHead (stream : DirectStream) : U64 :=
  max stream.knownHead
    (stream.records.getLast?.elim (max stream.floor stream.recoveryFloor) (·.sequence))

/-- Adds a record in sequence order; a full window drops its first and takes its sequence for
the floor. -/
def push (stream : DirectStream) (record : DirectRecord) : DirectStream :=
  let records := sortBy DirectRecord.sequence (stream.records ++ [record])
  let knownHead := max stream.knownHead record.sequence
  if records.length ≤ window then { stream with records, knownHead }
  else
    match records with
    | [] => { stream with records, knownHead }
    | first :: rest => { stream with floor := first.sequence, records := rest, knownHead }

def weight (stream : DirectStream) : Nat := (stream.records.map (·.object.length)).sum

/-- Drops the first record for the byte budget. -/
def dropFirst (stream : DirectStream) : DirectStream :=
  match stream.records with
  | [] => stream
  | first :: rest => { stream with floor := max stream.floor first.sequence, records := rest }

/-- The first sequence that may be missing. -/
def firstExpected (stream : DirectStream) : U64 :=
  saturatingAdd (max stream.floor stream.recoveryFloor) 1

/-- Walks the records from `expected` on: the first missing sequence, and the record after it. -/
def findGap : U64 → List DirectRecord → Outcome (U64 × Option DirectRecord)
  | expected, [] => pure (expected, none)
  | expected, record :: records =>
      if expected < record.sequence then pure (expected, some record)
      else if record.sequence = expected then do
        let next ← orFail (checkedSucc expected) "direct sequence exhausted"
        findGap next records
      else findGap expected records

/-- Whether a gap before the sequence holds it back. -/
def blocks (sequence : U64) : U64 → List DirectRecord → Bool
  | _, [] => false
  | expected, record :: records =>
      if expected < record.sequence then record.sequence ≤ sequence
      else if record.sequence = expected then blocks sequence (saturatingAdd expected 1) records
      else blocks sequence expected records

end DirectStream

/-- The stream of the largest copies; of equals, the last. -/
def heaviest (direct : List DirectStream) : Option DirectStream :=
  (direct.filter fun stream => stream.records ≠ []).reverse.argmax DirectStream.weight

/-- The loop of `retain_direct` over the byte budget. Each pass drops one record, so their
number bounds it. -/
def trimDirect (json : Json) : Nat → List DirectStream → Outcome (List DirectStream)
  | 0, direct => do
      let length ← orFail (json.directLength direct) "direct recovery encoding failed"
      failIf (maxDirectRetainedBytes < length) "direct recovery metadata capacity exhausted"
      pure direct
  | fuel + 1, direct => do
      let length ← orFail (json.directLength direct) "direct recovery encoding failed"
      if length ≤ maxDirectRetainedBytes then pure direct
      else do
        let stream ← orFail (heaviest direct) "direct recovery metadata capacity exhausted"
        trimDirect json fuel (Keyed.put DirectStream.key stream.dropFirst direct)

/-- The stream of a key, or a new one while there is room. -/
def directStream (direct : List DirectStream) (key : DirectStream.Key) : Outcome DirectStream :=
  match Keyed.lookup DirectStream.key key direct with
  | some stream => pure stream
  | none => do
      failIf (direct.length = maxDirectStreams) "direct recovery stream capacity exhausted"
      pure (DirectStream.new key)

/-- What `retain_direct` does about a record at the same sequence: `true` is its early return. -/
def knownRecord (stream : DirectStream) (record : DirectRecord) : Outcome Bool :=
  match stream.records.find? (·.sequence = record.sequence) with
  | some known =>
      if known.revision = record.revision ∧ known.id = record.id ∧ known.object = record.object then
        pure true
      else .error "conflicting direct recovery sequence"
  | none => do
      failIf (∃ known ∈ stream.records, known.id = record.id) "direct recovery identity reused"
      pure false

/-- The record and the key of the stream that a direct object belongs to. -/
def directKey (author : Block 32) (context : PublicationContext) (recipients : List (Block 32)) :
    DirectStream.Key :=
  (author, context.revision, context.topic.val, recipients)

def retainDirect (json : Json) (direct : List DirectStream) (author : Block 32)
    (context : PublicationContext) (recipients : List (Block 32)) (object : Bytes) :
    Outcome (List DirectStream) := do
  let sequence ← orFail context.sequence "direct recovery requires sequence"
  let stream ← directStream direct (directKey author context recipients)
  let record : DirectRecord := ⟨context.revision, context.id, sequence.val, object⟩
  let known ← knownRecord stream record
  if known then pure direct
  else
    let direct := Keyed.put DirectStream.key (stream.push record) direct
    trimDirect json (direct.map (·.records.length)).sum direct

namespace ObjectInbox

def new (workspace : WorkspaceId) (epoch : U64) : ObjectInbox where
  workspace := workspace
  epoch := epoch
  streams := []
  progress := []
  currentProgress := []
  legacyReceiveSnapshot := none
  direct := []
  retainedRanges := []
  retainedCurrentViews := []
  current := none

def legacyReceipts (inbox : ObjectInbox) : Outcome (Option ReceiveJournal) :=
  inbox.legacyReceiveSnapshot.mapM (ReceiveJournal.restore inbox.workspace inbox.epoch)

def recoveryProgress (sha256 : Bytes → Block 32) (inbox : ObjectInbox) (author : Block 32)
    (topics : TopicSet) : U64 :=
  ((inbox.progress.find? fun progress =>
    progress.author = author ∧ progress.selection = selectionDigest sha256 topics).map
      (·.through)).getD 0

def validateOwner (inbox : ObjectInbox) (owner : SecurityOwner) : Outcome Unit :=
  failIf (inbox.workspace ≠ owner.id ∨ inbox.epoch ≠ owner.epoch)
    "inbox epoch/workspace not current"

def cacheMagic (version : UInt8) : Bytes := utf8 "DFIC" ++ [version]

def encodeReply (retained : RetainedReply) : Bytes :=
  beBytes 8 retained.expiresAt.val ++ (beBytes 4 retained.query.length ++ (retained.query ++
    (beBytes 4 retained.reply.length ++ retained.reply)))

/-- The saved index of current values; nothing where there is none. -/
def encodeCurrent : Option CurrentViewIndex → Outcome Bytes
  | none => pure []
  | some index => index.snapshot

def snapshot (json : Json) (inbox : ObjectInbox) : Outcome Bytes := do
  let encoded ← orFail (json.encode inbox.toSnapshot) "inbox encoding failed"
  let current ← encodeCurrent inbox.current
  let bytes := cacheMagic 3 ++ (beBytes 4 encoded.length ++ (encoded ++
    ([UInt8.ofNat inbox.retainedRanges.length] ++ (inbox.retainedRanges.flatMap encodeReply ++
      ([UInt8.ofNat inbox.retainedCurrentViews.length] ++
        (inbox.retainedCurrentViews.flatMap encodeReply ++
          (beBytes 4 current.length ++ current)))))))
  failIf (maxWorkspaceAttachment < bytes.length) "inbox byte capacity exhausted"
  pure bytes

/-- A candidate that fits its saved form. -/
def checked (json : Json) (inbox : ObjectInbox) : Outcome ObjectInbox := do
  let _ ← inbox.snapshot json
  pure inbox

def context (inbox : ObjectInbox) (stream : Stream) (receipt : Receipt) :
    Outcome PublicationContext :=
  match Topic.new stream.topic with
  | .ok topic =>
      pure ⟨inbox.workspace, receipt.revision, topic, receipt.id, NonZeroU64.new receipt.sequence⟩
  | .error _ => .error "invalid inbox topic"

/-- An object to stage: its context, audience and current-value metadata. -/
structure Staging where
  context : PublicationContext
  recipients : List (Block 32)
  current : Option CurrentMetadata
  object : Bytes
deriving DecidableEq

/-- The receipt of an authenticated object, still pending. -/
def Staging.receipt (staging : Staging) (counter : U64) (digest : Block 32) : Receipt where
  counter := counter
  revision := staging.context.revision
  id := staging.context.id
  sequence := NonZeroU64.orZero staging.context.sequence
  recipients := staging.recipients
  current := staging.current
  digest := digest
  pending := some staging.object
  rejected := false

/-- What `stage_scoped` does about a stream it already has: `some` is its early return. -/
def recalled (inbox : ObjectInbox) (stream : Stream) (staging : Staging) (counter : U64)
    (digest : Block 32) : Outcome (Option InboxStage) :=
  if counter ≤ stream.floor then pure (some .outsideWindow)
  else
    match stream.receipts.find? (·.counter = counter) with
    | some known => do
        failIf (known.digest ≠ digest) "conflicting object identity"
        let context ← inbox.context stream known
        failIf (context ≠ staging.context ∨ known.recipients ≠ staging.recipients ∨
          known.current ≠ staging.current) "conflicting object identity"
        pure (some .duplicate)
    | none => do
        failIf (∃ receipt ∈ stream.receipts, receipt.id = staging.context.id)
          "publication identity reused"
        if stream.receipts.length = window ∧
            stream.receipts.head?.any (fun first => counter < first.counter) = true then
          pure (some .outsideWindow)
        else pure none

/-- The direct streams after a staging: only objects with an audience and a sequence are kept. -/
def retainStaged (json : Json) (inbox : ObjectInbox) (author : Block 32) (staging : Staging) :
    Outcome (List DirectStream) :=
  if staging.recipients ≠ [] ∧ staging.context.sequence.isSome = true then
    retainDirect json inbox.direct author staging.context staging.recipients staging.object
  else pure inbox.direct

/-- The part of `stage_scoped` that writes. -/
def accept (json : Json) (inbox : ObjectInbox) (stream : Stream) (author : Block 32)
    (staging : Staging) (counter : U64) (digest : Block 32) : Outcome InboxStage := do
  let stream ← stream.push (staging.receipt counter digest)
  let direct ← inbox.retainStaged json author staging
  let next ← checked json { inbox with
    streams := Keyed.put Stream.key stream inbox.streams
    direct }
  pure (.prepared next)

def stageScoped (json : Json) (owner : SecurityOwner) (inbox : ObjectInbox) (staging : Staging) :
    Outcome InboxStage := do
  inbox.validateOwner owner
  failIf (staging.context.workspace ≠ inbox.workspace) "wrong inbox workspace"
  let aad ← receiptAad owner staging.context staging.recipients staging.current
  let authenticated ← owner.unprotectObject aad staging.object
  let author := authenticated.message.member
  let counter := authenticated.counter
  let digest := owner.sha256 staging.object
  let key := (author, staging.context.topic.val)
  match Keyed.lookup Stream.key key inbox.streams with
  | some stream => do
      match ← inbox.recalled stream staging counter digest with
      | some stage => pure stage
      | none => inbox.accept json stream author staging counter digest
  | none => do
      failIf (inbox.streams.length = maxStreams) "inbox stream capacity exhausted"
      inbox.accept json (Stream.new key) author staging counter digest

def stageWithRecipients (json : Json) (owner : SecurityOwner) (inbox : ObjectInbox)
    (context : PublicationContext) (recipients : List (Block 32)) (object : Bytes) :
    Outcome InboxStage :=
  inbox.stageScoped json owner ⟨context, recipients, none, object⟩

def stageLiveCurrent (json : Json) (owner : SecurityOwner) (inbox : ObjectInbox)
    (context : PublicationContext) (metadata : CurrentMetadata) (object : Bytes) :
    Outcome InboxStage :=
  inbox.stageScoped json owner ⟨context, [], some metadata, object⟩

def stageCurrent (json : Json) (owner : SecurityOwner) (inbox : ObjectInbox)
    (context : PublicationContext) (selector replacementKey : Block 32) (expiresAt : U64)
    (tombstone : Bool) (packet : Bytes) : Outcome ObjectInbox := do
  inbox.validateOwner owner
  let authority ← orFail owner.member "member required"
  let index := inbox.current.getD (CurrentViewIndex.new owner.id authority owner.epoch)
  let index ← index.insert context selector replacementKey expiresAt tombstone packet
  checked json { inbox with current := some index }

def currentKey (progress : CurrentProgress) : Block 32 ×ₗ U64 ×ₗ Bytes ×ₗ Block 32 :=
  toLex (progress.authority, toLex (progress.revision, toLex (progress.topic, progress.selector)))

/-- One value of a current view that is still fresh. -/
def stageValue (json : Json) (owner : SecurityOwner) (inbox : ObjectInbox)
    (query : CurrentViewQuery) (endpoint : PeerId) (value : CurrentValue) : Outcome InboxStage := do
  let (context, ciphertext) ← PublicationContext.unpack query.workspace query.policyRevision
    query.topic value.packet
  let metadata : CurrentMetadata :=
    ⟨query.selector, value.replacementKey, value.expiresAt, value.tombstone⟩
  let authenticated ← owner.unprotectObject (metadata.authenticatedContext context) ciphertext
  failIf (authenticated.message.member ≠ query.authority ∨
    authenticated.message.endpoint ≠ endpoint) "current-view value has wrong author"
  inbox.stageLiveCurrent json owner context metadata ciphertext

/-- The value loop of `accept_current_view`, with the counts of staged and of stale values. -/
def stageValues (json : Json) (owner : SecurityOwner) (query : CurrentViewQuery) (endpoint : PeerId)
    (now : U64) : List CurrentValue → ObjectInbox × Nat × Nat → Outcome (ObjectInbox × Nat × Nat)
  | [], state => pure state
  | value :: values, (inbox, pending, stale) =>
      if value.expiresAt ≤ now then
        stageValues json owner query endpoint now values (inbox, pending, stale + 1)
      else do
        match ← inbox.stageValue json owner query endpoint value with
        | .prepared next =>
            stageValues json owner query endpoint now values (next, pending + 1, stale)
        | .duplicate => stageValues json owner query endpoint now values (inbox, pending, stale)
        | .outsideWindow => .error "current value outside receive window"

/-- What `accept_current_view` does about progress it already has: `true` is its early return. -/
def currentSeen (inbox : ObjectInbox) (progress : CurrentProgress) : Outcome Bool :=
  match Keyed.lookup currentKey (currentKey progress) inbox.currentProgress with
  | some known =>
      if progress.cut < known.cut then .error "current-view rollback"
      else if progress.cut = known.cut then
        if progress.digest = known.digest then pure true else .error "conflicting current view"
      else pure false
  | none => do
      failIf (inbox.currentProgress.length = maxCurrentSelections)
        "current-view selection capacity exhausted"
      pure false

/-- The progress list after a new cut: replaced in place, or put in order. -/
def putCurrentProgress (progress : CurrentProgress) (list : List CurrentProgress) :
    List CurrentProgress :=
  match Keyed.lookup currentKey (currentKey progress) list with
  | some _ => Keyed.put currentKey progress list
  | none => sortBy currentKey (list ++ [progress])

def acceptCurrentView (json : Json) (owner : SecurityOwner) (inbox : ObjectInbox)
    (query : CurrentViewQuery) (reply : Bytes) (now : U64) :
    Outcome (ObjectInbox × Nat × Nat) := do
  inbox.validateOwner owner
  let verified ← verifyWireReply owner query reply
  let view ← orFail verified "current view unavailable"
  let progress : CurrentProgress :=
    ⟨query.authority, query.policyRevision, query.topic.val, query.selector, view.cut,
      owner.sha256 reply⟩
  let seen ← inbox.currentSeen progress
  if seen then pure (inbox, 0, 0)
  else do
    let endpoints ← owner.endpointsForMembers [query.authority]
    let endpoint ← orFail endpoints.head? "index out of bounds"
    let (next, pending, stale) ← stageValues json owner query endpoint now view.values (inbox, 0, 0)
    let next ← checked json { next with
      currentProgress := putCurrentProgress progress next.currentProgress }
    pure (next, pending, stale)

def progressKey (progress : SelectionProgress) : SelectionKey :=
  toLex (progress.author, progress.selection)

/-- The progress list after an accepted range: replaced in place, or put in order. -/
def putProgress (progress : SelectionProgress) (list : List SelectionProgress) :
    List SelectionProgress :=
  match Keyed.lookup progressKey (progressKey progress) list with
  | some _ => Keyed.put progressKey progress list
  | none => sortBy progressKey (list ++ [progress])

def acceptRecoveryCoverage (json : Json) (owner : SecurityOwner) (inbox : ObjectInbox)
    (query : RangeQuery) (reply : Bytes) : Outcome ObjectInbox := do
  inbox.validateOwner owner
  failIf (query.workspace ≠ inbox.workspace ∨ query.epoch ≠ inbox.epoch)
    "recovery coverage has wrong workspace or epoch"
  match ← verifyReply owner query reply with
  | .rejected _ => .error "only an authenticated range can advance recovery"
  | .offered _ => do
      let progress : SelectionProgress :=
        ⟨query.author, selectionDigest owner.sha256 query.topics, query.through⟩
      let known := Keyed.lookup progressKey (progressKey progress) inbox.progress
      let current := known.elim 0 (·.through)
      if query.through ≤ current then pure inbox
      else do
        failIf (query.after ≠ current) "recovery range does not continue accepted progress"
        failIf (known = none ∧ inbox.progress.length = maxRecoverySelections)
          "recovery selection capacity exhausted"
        checked json { inbox with progress := putProgress progress inbox.progress }

def nextDirectSequence (owner : SecurityOwner) (inbox : ObjectInbox) (revision : U64)
    (topic : Topic) (recipients : List (Block 32)) : Outcome NonZeroU64 := do
  inbox.validateOwner owner
  let _ ← owner.endpointsForMembers recipients
  let author ← orFail owner.member "member required"
  let head := (Keyed.lookup DirectStream.key (author, revision, topic.val, recipients)
    inbox.direct).elim 0 DirectStream.effectiveHead
  let next ← orFail (checkedSucc head) "direct sequence exhausted"
  orFail (NonZeroU64.new next) "direct sequence exhausted"

def stageSentDirect (json : Json) (owner : SecurityOwner) (inbox : ObjectInbox)
    (context : PublicationContext) (recipients : List (Block 32)) (object : Bytes) :
    Outcome ObjectInbox := do
  inbox.validateOwner owner
  let sender ← orFail owner.member "member required"
  failIf (sender ∈ recipients) "direct sender cannot be a recipient"
  let _ ← owner.endpointsForMembers recipients
  let aad ← context.directAuthenticatedBytes recipients
  let authenticated ← owner.unprotectObject aad object
  failIf (authenticated.message.member ≠ sender ∨ authenticated.message.endpoint ≠ owner.endpoint)
    "direct recovery author mismatch"
  let direct ← retainDirect json inbox.direct authenticated.message.member context recipients object
  checked json { inbox with direct }

/-- The gap of one stream, as `next_direct_gap` reports it. -/
def gapOf (stream : DirectStream) : Outcome (Option DirectGap) := do
  let (expected, record) ← DirectStream.findGap stream.firstExpected stream.records
  let after := predU64 expected
  let advertised := record.elim stream.effectiveHead (·.sequence)
  if expected ≤ advertised then
    match Topic.new stream.topic with
    | .ok topic => pure (some
        { author := stream.author
          revision := stream.revision
          topic
          recipients := stream.recipients
          after
          through := min advertised (saturatingAdd after maxRecoveryPackets) })
    | .error _ => .error "invalid direct topic"
  else pure none

/-- The stream loop of `next_direct_gap`. -/
def firstGap (member : Block 32) : List DirectStream → Outcome (Option DirectGap)
  | [] => pure none
  | stream :: streams =>
      if member ∈ stream.recipients then do
        match ← gapOf stream with
        | some gap => pure (some gap)
        | none => firstGap member streams
      else firstGap member streams

def nextDirectGap (owner : SecurityOwner) (inbox : ObjectInbox) : Outcome (Option DirectGap) := do
  inbox.validateOwner owner
  let member ← orFail owner.member "member required"
  firstGap member inbox.direct

/-- Heads go to their audience only, in the order of their streams' keys. -/
def directHeadsFor (owner : SecurityOwner) (inbox : ObjectInbox) (recipient : Block 32) :
    Outcome (List DirectHead) := do
  inbox.validateOwner owner
  let _ ← owner.endpointsForMembers [recipient]
  let heads ← (inbox.direct.filter fun stream => recipient ∈ stream.recipients).mapM
    fun stream => do
      let topic ← orFail (Topic.new stream.topic).toOption "invalid direct topic"
      pure (⟨inbox.workspace, stream.author, inbox.epoch, stream.revision, topic,
        stream.recipients, stream.effectiveHead⟩ : DirectHead)
  pure (sortBy (fun head => toLex (head.author,
    toLex (head.policyRevision, toLex (head.topic, head.recipients)))) heads)

/-- `none` where the stream already knows of the head. -/
def stageDirectHead (json : Json) (owner : SecurityOwner) (inbox : ObjectInbox)
    (announcer : PeerId) (head : DirectHead) : Outcome (Option ObjectInbox) := do
  inbox.validateOwner owner
  let member ← orFail owner.member "member required"
  let announcer ← owner.memberIdForEndpoint announcer
  let _ ← head.toWire
  failIf (head.workspace ≠ inbox.workspace ∨ head.epoch ≠ inbox.epoch ∨
    member ∉ head.recipients ∨ (announcer ≠ head.author ∧ announcer ∉ head.recipients))
    "direct head is outside authenticated audience"
  let _ ← owner.endpointsForMembers head.recipients
  let key : DirectStream.Key := (head.author, head.policyRevision, head.topic.val, head.recipients)
  let known := Keyed.lookup DirectStream.key key inbox.direct
  if known.any (fun stream => head.through ≤ stream.effectiveHead) then pure none
  else do
    let stream ← directStream inbox.direct key
    let next ← checked json { inbox with
      direct := Keyed.put DirectStream.key { stream with knownHead := head.through } inbox.direct }
    pure (some next)

/-- The packet loop of `stage_direct_range`, with the count of staged packets. -/
def stagePackets (json : Json) (owner : SecurityOwner) (recipients : List (Block 32)) :
    List RecoveredPacket → ObjectInbox × Nat → Outcome (ObjectInbox × Nat)
  | [], state => pure state
  | packet :: packets, (inbox, count) => do
      match ← inbox.stageWithRecipients json owner packet.context recipients packet.ciphertext with
      | .prepared next => stagePackets json owner recipients packets (next, count + 1)
      | .duplicate => stagePackets json owner recipients packets (inbox, count)
      | .outsideWindow => .error "direct recovery outside receive window"

def stageDirectRange (json : Json) (owner : SecurityOwner) (inbox : ObjectInbox)
    (query : DirectRangeQuery) (reply : Bytes) : Outcome (ObjectInbox × Nat) := do
  match ← verifyDirectReply owner query reply with
  | .unavailable => .error "direct recovery unavailable"
  | .offered packets => stagePackets json owner query.recipients packets (inbox, 0)

/-- The stream after giving up its gap, and how many sequences that skips. -/
def skipGap (stream : DirectStream) (query : DirectRangeQuery) : Outcome (DirectStream × Nat) := do
  let (expected, record) ← DirectStream.findGap stream.firstExpected stream.records
  let after := predU64 expected
  let advertised := record.elim stream.effectiveHead (·.sequence)
  failIf (advertised < expected) "direct recovery gap no longer exists"
  let through := min advertised (saturatingAdd after maxRecoveryPackets)
  failIf (query.after ≠ after ∨ query.through ≠ through) "direct recovery gap changed"
  let present : Bool := record.map (·.sequence) = some through
  pure ({ stream with recoveryFloor := if present then predU64 through else through },
    through.val - expected.val + if present then 0 else 1)

def skipDirectGap (json : Json) (owner : SecurityOwner) (inbox : ObjectInbox)
    (query : DirectRangeQuery) : Outcome (ObjectInbox × Nat) := do
  inbox.validateOwner owner
  let key : DirectStream.Key :=
    (query.author, query.policyRevision, query.topic.val, query.recipients)
  let stream ← orFail (Keyed.lookup DirectStream.key key inbox.direct)
    "unknown direct recovery stream"
  let (stream, skipped) ← skipGap stream query
  let next ← checked json { inbox with
    direct := Keyed.put DirectStream.key stream inbox.direct }
  pure (next, skipped)

def pendingCount (inbox : ObjectInbox) : Nat :=
  ((inbox.streams.flatMap (·.receipts)).filter (·.pending.isSome)).length

def DeferredDeliveryStream.valid (scope : DeferredDeliveryStream) : Prop :=
  scope.revision ≠ 0 ∧ Topic.isValid scope.topic = true ∧ scope.recipients.length ≤ 64 ∧
    scope.recipients.Pairwise (· < ·)

instance (scope : DeferredDeliveryStream) : Decidable (DeferredDeliveryStream.valid scope) :=
  inferInstanceAs (Decidable (_ ∧ _ ∧ _ ∧ _))

/-- Whether the caller asked to leave the scope of a receipt alone. -/
def isDeferred (deferred : List DeferredDeliveryStream) (stream : Stream) (receipt : Receipt) :
    Bool :=
  deferred.any fun scope => scope.member = stream.author ∧ scope.revision = receipt.revision ∧
    scope.topic = stream.topic ∧ scope.recipients = receipt.recipients

/-- Whether a gap in its direct stream holds a receipt back. -/
def heldBack (inbox : ObjectInbox) (stream : Stream) (receipt : Receipt)
    (context : PublicationContext) : Bool :=
  receipt.recipients ≠ [] ∧ context.sequence.any (fun sequence =>
    inbox.direct.any fun direct =>
      direct.key = (stream.author, context.revision, context.topic.val, receipt.recipients) ∧
        DirectStream.blocks sequence.val direct.firstExpected direct.records = true) = true

/-- A pending receipt as it is handed out. -/
def deliver (owner : SecurityOwner) (stream : Stream) (receipt : Receipt)
    (context : PublicationContext) (object : Bytes) : Outcome PendingObject := do
  let aad ← receiptAad owner context receipt.recipients receipt.current
  let authenticated ← owner.unprotectObject aad object
  failIf (authenticated.counter ≠ receipt.counter ∨ authenticated.message.member ≠ stream.author ∨
    owner.sha256 object ≠ receipt.digest) "pending object identity mismatch"
  pure ⟨context, authenticated.message, receipt.counter, receipt.recipients, receipt.current⟩

/-- The receipt loop of `pending_excluding` over one stream. -/
def pendingIn (owner : SecurityOwner) (inbox : ObjectInbox)
    (deferred : List DeferredDeliveryStream) (stream : Stream) :
    List Receipt → Outcome (Option PendingObject)
  | [] => pure none
  | receipt :: receipts =>
      match receipt.pending with
      | none => pendingIn owner inbox deferred stream receipts
      | some object =>
          if isDeferred deferred stream receipt then
            pendingIn owner inbox deferred stream receipts
          else do
            let context ← inbox.context stream receipt
            if inbox.heldBack stream receipt context then
              pendingIn owner inbox deferred stream receipts
            else some <$> deliver owner stream receipt context object

/-- The stream loop of `pending_excluding`. -/
def pendingAmong (owner : SecurityOwner) (inbox : ObjectInbox)
    (deferred : List DeferredDeliveryStream) : List Stream → Outcome (Option PendingObject)
  | [] => pure none
  | stream :: streams => do
      match ← inbox.pendingIn owner deferred stream stream.receipts with
      | some object => pure (some object)
      | none => pendingAmong owner inbox deferred streams

def pendingExcluding (owner : SecurityOwner) (inbox : ObjectInbox)
    (deferred : List DeferredDeliveryStream) : Outcome (Option PendingObject) := do
  inbox.validateOwner owner
  failIf (64 < deferred.length) "too many deferred delivery streams"
  failIf (∃ scope ∈ deferred, ¬ DeferredDeliveryStream.valid scope)
    "invalid deferred delivery stream"
  inbox.pendingAmong owner deferred inbox.streams

/-- The receipt that an acknowledgement or a rejection names. -/
def names (counter : U64) (id : Block 16) (receipt : Receipt) : Bool :=
  receipt.counter = counter ∧ receipt.id = id

/-- The receipts with the first one named replaced. -/
def resolveFirst (counter : U64) (id : Block 16) (rejected : Bool) : List Receipt → List Receipt
  | [] => []
  | receipt :: receipts =>
      if names counter id receipt then { receipt with pending := none, rejected } :: receipts
      else receipt :: resolveFirst counter id rejected receipts

def resolve (inbox : ObjectInbox) (stream : Stream) (counter : U64) (id : Block 16)
    (rejected : Bool) : ObjectInbox :=
  { inbox with
    streams := Keyed.put Stream.key
      { stream with receipts := resolveFirst counter id rejected stream.receipts } inbox.streams }

def acknowledge (inbox : ObjectInbox) (author : Block 32) (topic : Topic) (counter : U64)
    (id : Block 16) : Outcome ObjectInbox := do
  let stream ← orFail (Keyed.lookup Stream.key (author, topic.val) inbox.streams)
    "unknown pending stream"
  let _ ← orFail (stream.receipts.find? (names counter id)) "unknown pending object"
  pure (inbox.resolve stream counter id false)

def reject (inbox : ObjectInbox) (author : Block 32) (topic : Topic) (counter : U64)
    (id : Block 16) : Outcome ObjectInbox := do
  let stream ← orFail (Keyed.lookup Stream.key (author, topic.val) inbox.streams)
    "unknown pending object"
  let receipt ← orFail (stream.receipts.find? (names counter id)) "unknown pending object"
  failIf (receipt.pending = none) "object is not pending"
  pure (inbox.resolve stream counter id true)

/-- Room for one more retained range: the one that expires first goes. -/
def makeRoom (ranges : List RetainedReply) (query : Bytes) : List RetainedReply :=
  if Keyed.lookup RetainedReply.query query ranges = none ∧ ranges.length = maxRetainedRanges then
    (ranges.argmin (·.expiresAt)).elim ranges ranges.erase
  else ranges

def retainRange (json : Json) (owner : SecurityOwner) (inbox : ObjectInbox) (query : RangeQuery)
    (reply : Bytes) (expiresAt now : U64) : Outcome ObjectInbox := do
  inbox.validateOwner owner
  failIf (expiresAt ≤ now) "retained range expiry must be in the future"
  match ← verifyReply owner query reply with
  | .rejected _ => .error "only an authenticated range offer can be retained"
  | .offered _ => do
      let encoded ← query.toWire owner.sha256
      let fresh := makeRoom (inbox.retainedRanges.filter fun range => now < range.expiresAt) encoded
      checked json { inbox with
        retainedRanges := sortBy RetainedReply.query
          (Keyed.put RetainedReply.query ⟨encoded, reply, expiresAt⟩ fresh) }

/-- When the last value of a view expires. -/
def lastExpiry (values : List CurrentValue) : Option U64 :=
  (values.map (·.expiresAt)).max?

def retainCurrentView (json : Json) (owner : SecurityOwner) (inbox : ObjectInbox)
    (query : CurrentViewQuery) (reply : Bytes) (now : U64) : Outcome ObjectInbox := do
  inbox.validateOwner owner
  let verified ← verifyWireReply owner query reply
  let view ← orFail verified "only an authenticated current view can be retained"
  let expiresAt ← orFail ((lastExpiry view.values).filter fun expiresAt => now < expiresAt)
    "current view has no fresh value"
  let encoded ← query.toWire
  let fresh := inbox.retainedCurrentViews.filter fun view => now < view.expiresAt
  failIf (Keyed.lookup RetainedReply.query encoded fresh = none ∧
    fresh.length = maxRetainedCurrentViews) "retained current-view capacity exhausted"
  checked json { inbox with
    retainedCurrentViews := sortBy RetainedReply.query
      (Keyed.put RetainedReply.query ⟨encoded, reply, expiresAt⟩ fresh) }

end ObjectInbox

end Arachne.Delivery
