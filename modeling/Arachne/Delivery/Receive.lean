import Mathlib.Data.Prod.Lex
import Arachne.Delivery.Wire

/-! Exact receive evidence: a digest for each publication, and the progress of each exact-topic
selection. Nothing is evicted. -/

namespace Arachne.Delivery

open ByteCodec Fallible Routing
open Security (ApplicationMessage maxApplicationCiphertext)

def maxReceiveRecords : Nat := 256
def maxRecoverySelections : Nat := 64
def maxReceiveSnapshot : Nat := 49 + 80 * maxReceiveRecords + 72 * maxRecoverySelections

inductive ReceiveStatus where
  | unseen
  | known
  | conflicting
deriving DecidableEq

/-- An author with a publication id, and an author with a selection. -/
abbrev PublicationKey := Block 32 ×ₗ Block 16

abbrev SelectionKey := Block 32 ×ₗ Block 32

structure ReceiveJournal where
  workspace : WorkspaceId
  epoch : U64
  records : OrderedMap PublicationKey (Block 32)
  progress : OrderedMap SelectionKey U64
deriving DecidableEq

namespace ReceiveJournal

def new (workspace : WorkspaceId) (epoch : U64) : ReceiveJournal :=
  ⟨workspace, epoch, OrderedMap.empty, OrderedMap.empty⟩

def digest (sha256 : Bytes → Block 32) (journal : ReceiveJournal) (context : PublicationContext)
    (packet : Bytes) : Outcome (Block 32) := do
  failIf (context.workspace ≠ journal.workspace ∨ packet = [] ∨
    maxApplicationCiphertext < packet.length) "invalid receive record scope or packet"
  let context := context.authenticatedBytes
  pure (sha256 (utf8 "data-fabric/receive-record/v1\x00" ++ beBytes 4 context.length ++ context ++
    beBytes 4 packet.length ++ packet))

def check (sha256 : Bytes → Block 32) (journal : ReceiveJournal) (author : Block 32)
    (context : PublicationContext) (packet : Bytes) : Outcome ReceiveStatus := do
  let digest ← journal.digest sha256 context packet
  match journal.records.find? (toLex (author, context.id)) with
  | none => pure .unseen
  | some known => pure (if known = digest then .known else .conflicting)

def recordVerified (sha256 : Bytes → Block 32) (journal : ReceiveJournal)
    (message : ApplicationMessage) (context : PublicationContext) (packet : Bytes) :
    Outcome ReceiveJournal := do
  match ← journal.check sha256 message.member context packet with
  | .known => pure journal
  | .conflicting => .error "conflicting received publication"
  | .unseen => do
      failIf (journal.records.size = maxReceiveRecords) "receive evidence capacity exhausted"
      let digest ← journal.digest sha256 context packet
      pure { journal with
        records := journal.records.insert (toLex (message.member, context.id)) digest }

def snapshot (journal : ReceiveJournal) : Bytes :=
  utf8 "DFRR" ++ [2] ++ journal.workspace.1 ++ beBytes 8 journal.epoch.val ++
  beBytes 2 journal.records.size ++
  (journal.records.entries.flatMap fun (key, digest) =>
    (ofLex key).1.1 ++ (ofLex key).2.1 ++ digest.1) ++
  beBytes 2 journal.progress.size ++
  journal.progress.entries.flatMap fun (key, through) =>
    (ofLex key).1.1 ++ (ofLex key).2.1 ++ beBytes 8 through.val

/-- The record loop of `restore`. -/
def restoreRecords : Nat → Option PublicationKey → OrderedMap PublicationKey (Block 32) →
    Reader (OrderedMap PublicationKey (Block 32))
  | 0, _, records => pure records
  | count + 1, last, records => do
      let author ← takeBlock truncated 32
      let id ← takeBlock truncated 16
      let key : PublicationKey := toLex (author, id)
      ByteCodec.check (last.any (fun previous => key ≤ previous) = true)
        "noncanonical receive records"
      let digest ← takeBlock truncated 32
      restoreRecords count (some key) (records.insert key digest)

/-- The progress loop of `restore`. -/
def restoreProgress : Nat → Option SelectionKey → OrderedMap SelectionKey U64 →
    Reader (OrderedMap SelectionKey U64)
  | 0, _, progress => pure progress
  | count + 1, last, progress => do
      let author ← takeBlock truncated 32
      let selection ← takeBlock truncated 32
      let through ← takeU64 truncated
      let key : SelectionKey := toLex (author, selection)
      ByteCodec.check (through = 0 ∨ last.any (fun previous => key ≤ previous) = true)
        "noncanonical recovery progress"
      restoreProgress count (some key) (progress.insert key through)

/-- How many bytes are left to read. -/
def remaining : Reader Nat := fun bytes => .ok (bytes.length, bytes)

/-- The progress part, which the first version of the format does not have. -/
def restoreSelections (versioned : Bool) : Reader (OrderedMap SelectionKey U64) :=
  if versioned then do
    let count ← takeNat truncated 2
    let left ← remaining
    ByteCodec.check (maxRecoverySelections < count ∨ left ≠ count * 72)
      "invalid recovery progress length"
    restoreProgress count none OrderedMap.empty
  else pure OrderedMap.empty

def restoreBody (workspace : WorkspaceId) (epoch : U64) : Reader ReceiveJournal := do
  let version ← take truncated 5
  ByteCodec.check (version ≠ utf8 "DFRR" ++ [2] ∧ version ≠ utf8 "DFRR" ++ [1])
    "wrong receive snapshot scope"
  let savedWorkspace ← takeBlock truncated 32
  ByteCodec.check (savedWorkspace ≠ workspace) "wrong receive snapshot scope"
  let savedEpoch ← takeU64 truncated
  ByteCodec.check (savedEpoch ≠ epoch) "wrong receive snapshot scope"
  let count ← takeNat truncated 2
  let left ← remaining
  ByteCodec.check (maxReceiveRecords < count ∨ left < count * 80) "invalid receive snapshot length"
  let records ← restoreRecords count none OrderedMap.empty
  let progress ← restoreSelections (version = utf8 "DFRR" ++ [2])
  let done ← atEnd
  ByteCodec.check (done = false) "trailing receive snapshot"
  return { workspace, epoch, records, progress }

def restore (workspace : WorkspaceId) (epoch : U64) (bytes : Bytes) : Outcome ReceiveJournal := do
  failIf (maxReceiveSnapshot < bytes.length) "receive snapshot exceeds bound"
  let (journal, _) ← restoreBody workspace epoch bytes
  return journal

end ReceiveJournal

end Arachne.Delivery
