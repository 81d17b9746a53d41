import Mathlib.Data.List.MinMax
import Arachne.Routing.Publication
import Arachne.Security.Object

/-! Bounded publisher retention. A log keeps, per topic, the newest publications and the
sequence through which older ones were evicted. -/

namespace Arachne.Delivery

open ByteCodec Fallible Routing
open Security (maxApplicationCiphertext)

def maxTopics : Nat := 64
def maxPacketsPerTopic : Nat := 32
def maxRetainedBytes : Nat := 512 * 1024
def maxSnapshotBytes : Nat := maxRetainedBytes + 16 * 1024
def maxRecoveryPackets : Nat := 32

structure RetainedPublication where
  sequence : U64
  context : PublicationContext
  ciphertext : Bytes
deriving DecidableEq

def RetainedPublication.weight (r : RetainedPublication) : Nat :=
  r.context.authenticatedBytes.length + r.ciphertext.length + 12

structure History where
  evictedThrough : U64
  records : List RetainedPublication
deriving DecidableEq

/-- Append-only sequence within one author, workspace and epoch. -/
structure PublisherLog where
  workspace : WorkspaceId
  author : Block 32
  epoch : U64
  head : U64
  bytes : Nat
  topics : OrderedMap Topic History
deriving DecidableEq

inductive RangeError where
  | invalid
  | unavailable
  | empty
  | tooLarge
deriving DecidableEq, Repr

structure RecoveryRequest where
  workspace : WorkspaceId
  author : Block 32
  epoch : U64
  selection : Block 32
  after : U64
  through : U64
deriving DecidableEq

structure RetainedRange where
  request : RecoveryRequest
  records : List RetainedPublication
deriving DecidableEq

abbrev TopicSet := { topics : List Topic // topics.Pairwise (· < ·) }

/-- Canonical exact-topic selection binding. -/
def selectionDigest (sha256 : Bytes → Block 32) (topics : TopicSet) : Block 32 :=
  sha256 (utf8 "data-fabric/exact-topic-selection/v1\x00" ++ beBytes 2 topics.val.length ++
    topics.val.flatMap fun topic => UInt8.ofNat topic.val.length :: topic.val)

namespace PublisherLog

def new (workspace : WorkspaceId) (author : Block 32) (epoch : U64) : PublisherLog :=
  { workspace, author, epoch, head := 0, bytes := 0, topics := OrderedMap.empty }

def retained (log : PublisherLog) : List RetainedPublication :=
  log.topics.values.flatMap History.records

def dropFront (log : PublisherLog) (topic : Topic) (record : RetainedPublication)
    (rest : List RetainedPublication) : PublisherLog :=
  { log with
    bytes := log.bytes - record.weight
    topics := log.topics.insert topic ⟨record.sequence, rest⟩ }

/-- Drops the oldest record of a topic and raises its watermark. `none` is the panic of
evicting from a topic without records. -/
def evict (log : PublisherLog) (topic : Topic) : Option PublisherLog :=
  match log.topics.find? topic with
  | some ⟨_, record :: rest⟩ => some (log.dropFront topic record rest)
  | _ => none

def fronts (log : PublisherLog) : List (U64 × Topic) :=
  log.topics.entries.filterMap fun (topic, history) =>
    history.records.head?.map fun record => (record.sequence, topic)

def evictOldest (log : PublisherLog) : Option PublisherLog :=
  match log.fronts.argmin Prod.fst with
  | some (_, topic) => log.evict topic
  | none => none

def history (log : PublisherLog) (topic : Topic) : History :=
  (log.topics.find? topic).getD ⟨0, []⟩

def push (log : PublisherLog) (record : RetainedPublication) : PublisherLog :=
  let history := log.history record.context.topic
  { log with
    bytes := log.bytes + record.weight
    head := record.sequence
    topics := log.topics.insert record.context.topic
      { history with records := history.records ++ [record] } }

/-- The `while self.bytes > MAX_RETAINED_BYTES` loop. Each pass evicts one record, so the
number of retained records bounds it; the error is its failed assertion. -/
def evictToBytes : Nat → PublisherLog → Outcome PublisherLog
  | 0, log =>
      if log.bytes ≤ maxRetainedBytes then .ok log
      else .error "assertion failed: self.evict_oldest()"
  | fuel + 1, log =>
      if log.bytes ≤ maxRetainedBytes then .ok log
      else do
        let log ← orFail log.evictOldest "assertion failed: self.evict_oldest()"
        evictToBytes fuel log

/-- The eviction of `append` once a topic holds more than its share of packets. -/
def evictToCount (log : PublisherLog) (topic : Topic) : Outcome PublisherLog :=
  match log.topics.find? topic with
  | some history =>
      if history.records.length > maxPacketsPerTopic then
        orFail (log.evict topic) "called `Option::unwrap()` on a `None` value"
      else .ok log
  | none => .error "no entry found for key"

def append (log : PublisherLog) (context : PublicationContext) (ciphertext : Bytes) :
    Outcome (U64 × PublisherLog) := do
  failIf (context.workspace ≠ log.workspace ∨ ciphertext = [] ∨
    ciphertext.length > maxApplicationCiphertext) "invalid retained publication"
  failIf (log.topics.find? context.topic = none ∧ log.topics.size = maxTopics)
    "retention topic limit"
  failIf (∃ r ∈ log.retained, r.context.id = context.id) "publication already retained"
  let sequence ← orFail (checkedSucc log.head) "publisher sequence exhausted"
  failIf (context.sequence.any (fun number => number.val ≠ sequence) = true)
    "authenticated sequence does not match publisher index"
  let pushed := log.push { sequence, context, ciphertext }
  let counted ← pushed.evictToCount context.topic
  let trimmed ← evictToBytes counted.retained.length counted
  return (sequence, trimmed)

/-- The topic loop of `select`, with the records gathered so far. -/
def gather (log : PublisherLog) (after through : U64) :
    List Topic → List RetainedPublication → Except RangeError (List RetainedPublication)
  | [], records => .ok records
  | topic :: topics, records =>
      match log.topics.find? topic with
      | none => gather log after through topics records
      | some history =>
          if after < history.evictedThrough then .error .unavailable
          else
            let records := records ++
              history.records.filter fun r => after < r.sequence ∧ r.sequence ≤ through
            if records.length > maxRecoveryPackets then .error .tooLarge
            else gather log after through topics records

/-- Exact-topic selection over a fixed `(after, through]` range. -/
def select (sha256 : Bytes → Block 32) (log : PublisherLog) (after through : U64)
    (topics : TopicSet) : Except RangeError RetainedRange :=
  if after ≥ through ∨ through > log.head ∨ topics.val = [] ∨ topics.val.length > maxTopics then
    .error .invalid
  else do
    let records ← log.gather after through topics.val []
    return {
      request := {
        workspace := log.workspace
        author := log.author
        epoch := log.epoch
        selection := selectionDigest sha256 topics
        after
        through }
      records := records.insertionSort fun a b => a.sequence ≤ b.sequence }

end PublisherLog

end Arachne.Delivery
