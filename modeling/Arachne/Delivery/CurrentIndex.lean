import Mathlib.Data.Prod.Lex
import Arachne.Delivery.CurrentView
import Arachne.Delivery.Wire

/-! Bounded current views: the authority's index of latest values, its saved form, and the
signed views that readers verify. -/

namespace Arachne.Delivery

open ByteCodec Fallible Routing
open Security (maxApplicationCiphertext)

def maxCurrentValues : Nat := 64
def maxCurrentSelections : Nat := 64
def maxPacketBytes : Nat := maxReplyBytes - maxApplicationCiphertext

def truncatedCurrent : String := "truncated current-view snapshot"

/-- A current value as it is published and retained: its metadata and its packet. -/
structure LiveCurrentPacket where
  metadata : CurrentMetadata
  packet : Bytes
deriving DecidableEq

def liveText : Bytes := utf8 "DFVL"

def liveMagic : Bytes := liveText ++ [1]

def tombstoneLiveMagic : Bytes := liveText ++ [2]

namespace LiveCurrentPacket

def validLength (length : Nat) : Prop := 22 ≤ length ∧ length ≤ 16 * 1024

instance (length : Nat) : Decidable (validLength length) :=
  inferInstanceAs (Decidable (_ ∧ _))

def toWire (live : LiveCurrentPacket) : Outcome Bytes := do
  failIf (live.metadata.expiresAt = 0 ∨ ¬ validLength live.packet.length)
    "invalid live current packet"
  pure ((if live.metadata.tombstone then tombstoneLiveMagic else liveMagic) ++
    live.metadata.selector.1 ++ live.metadata.replacementKey.1 ++
    beBytes 8 live.metadata.expiresAt.val ++ (if live.metadata.tombstone then [1] else []) ++
    beBytes 4 live.packet.length ++ live.packet)

/-- The mark of a tombstone, in packets that carry one. -/
def readTombstone (tombstone : Bool) : Reader Unit :=
  if tombstone then do
    let mark ← takeNat truncatedCurrent 1
    check (mark ≠ 1) "invalid current tombstone"
  else pure ()

def read : Reader LiveCurrentPacket := do
  let format ← take truncatedCurrent 5
  check (format ≠ liveMagic ∧ format ≠ tombstoneLiveMagic) "wrong live current format"
  let selector ← takeBlock truncatedCurrent 32
  let replacementKey ← takeBlock truncatedCurrent 32
  let expiresAt ← takeU64 truncatedCurrent
  let tombstone : Bool := format = tombstoneLiveMagic
  readTombstone tombstone
  let length ← takeNat truncatedCurrent 4
  check (expiresAt = 0 ∨ ¬ validLength length) "invalid live current packet"
  let packet ← take truncatedCurrent length
  let done ← atEnd
  check (done = false) "trailing live current packet"
  return ⟨⟨selector, replacementKey, expiresAt, tombstone⟩, packet⟩

def fromWire (bytes : Bytes) : Outcome LiveCurrentPacket := do
  let (live, _) ← read bytes
  return live

end LiveCurrentPacket

def readCurrentTopic : Reader Topic :=
  readTopic truncatedCurrent "invalid current-view topic" "invalid current-view topic"

structure CurrentViewQuery where
  workspace : WorkspaceId
  authority : Block 32
  epoch : U64
  policyRevision : U64
  topic : Topic
  selector : Block 32
deriving DecidableEq

/-- The fields of a query, as its wire form and the signed context have them. -/
def CurrentViewQuery.fields (query : CurrentViewQuery) : Bytes :=
  query.workspace.1 ++ (query.authority.1 ++ (beBytes 8 query.epoch.val ++
    (beBytes 8 query.policyRevision.val ++ (writeTopic query.topic ++ query.selector.1))))

def CurrentViewQuery.context (query : CurrentViewQuery) : Bytes :=
  utf8 "data-fabric/current-view/v1\x00" ++ query.fields

def currentQueryMagic : Bytes := utf8 "DFVQ" ++ [1]

def CurrentViewQuery.toWire (query : CurrentViewQuery) : Outcome Bytes := do
  let bytes := currentQueryMagic ++ query.fields
  failIf (maxQueryBytes < bytes.length) "current-view query exceeds bound"
  pure bytes

def readCurrentViewQuery : Reader CurrentViewQuery := do
  let magic ← take truncatedCurrent 5
  check (magic ≠ currentQueryMagic) "wrong current-view query format"
  let workspace ← takeBlock truncatedCurrent 32
  let authority ← takeBlock truncatedCurrent 32
  let epoch ← takeU64 truncatedCurrent
  let policyRevision ← takeU64 truncatedCurrent
  let topic ← readCurrentTopic
  let selector ← takeBlock truncatedCurrent 32
  let done ← atEnd
  check (done = false) "trailing current-view query"
  return { workspace, authority, epoch, policyRevision, topic, selector }

def CurrentViewQuery.fromWire (bytes : Bytes) : Outcome CurrentViewQuery := do
  failIf (maxQueryBytes < bytes.length) "current-view query exceeds bound"
  let (query, _) ← readCurrentViewQuery bytes
  return query

structure CurrentValue where
  replacementKey : Block 32
  expiresAt : U64
  tombstone : Bool
  packet : Bytes
deriving DecidableEq

structure CurrentView where
  manifest : Bytes
  packets : List Bytes
deriving DecidableEq

def currentReplyMagic : Bytes := utf8 "DFVR" ++ [1]

def readCurrentPacket : Reader Bytes := do
  let length ← takeNat truncatedCurrent 4
  check (length < 22 ∨ 16 * 1024 < length) "invalid current-view packet length"
  take truncatedCurrent length

/-- What stands after the status byte of a served view. -/
def readServedView : Reader (Option CurrentView) := do
  let length ← takeNat truncatedCurrent 4
  check (length = 0 ∨ maxApplicationCiphertext < length) "invalid current-view manifest length"
  let manifest ← take truncatedCurrent length
  let count ← takeNat truncatedCurrent 1
  check (maxCurrentValues < count) "current-view reply exceeds bounds"
  let packets ← readMany readCurrentPacket count
  let done ← atEnd
  check (done = false) "trailing current-view reply"
  return some { manifest, packets }

def readCurrentView : Reader (Option CurrentView) := do
  let magic ← take truncatedCurrent 5
  check (magic ≠ currentReplyMagic) "wrong current-view reply format"
  let status ← takeNat truncatedCurrent 1
  let done ← atEnd
  if status = 1 ∧ done = true then return none
  else if status = 0 then readServedView
  else throw "invalid current-view reply status"

def CurrentView.fromWire (bytes : Bytes) : Outcome (Option CurrentView) := do
  failIf (maxReplyBytes < bytes.length) "current-view reply exceeds bounds"
  let (view, _) ← readCurrentView bytes
  return view

structure VerifiedCurrentView where
  cut : U64
  values : List CurrentValue
deriving DecidableEq

/-- The total of the packets, within the limits. -/
def boundedPacketBytes (packets : List Bytes) : Option Nat :=
  let total := (packets.map List.length).sum
  if packets.length ≤ maxCurrentValues ∧ total ≤ maxPacketBytes then some total else none

/-- The value loop of `entries`, with the ids so far. -/
def encodeEntries (sha256 : Bytes → Block 32) (query : CurrentViewQuery) (tombstones : Bool) :
    List (Block 16) → List CurrentValue → Outcome Bytes
  | _, [] => pure []
  | ids, value :: values => do
      let (context, _) ← PublicationContext.unpack query.workspace query.policyRevision query.topic
        value.packet
      let sequence ← orFail context.sequence "current value lacks publisher sequence"
      failIf (value.expiresAt = 0 ∨ context.id ∈ ids) "invalid current value"
      let rest ← encodeEntries sha256 query tombstones (context.id :: ids) values
      pure (value.replacementKey.1 ++ context.id.1 ++ beBytes 8 sequence.val.val ++
        beBytes 8 value.expiresAt.val ++
        (if tombstones then [if value.tombstone then 1 else 0] else []) ++
        (sha256 value.packet).1 ++ rest)

def manifestMagic (tombstones : Bool) : Bytes :=
  utf8 "DFCV" ++ [if tombstones then 2 else 1]

/-- The signed statement of a view. -/
def entries (sha256 : Bytes → Block 32) (query : CurrentViewQuery) (cut : U64)
    (values : List CurrentValue) : Outcome Bytes := do
  failIf (maxCurrentValues < values.length ∨
    ¬ (values.map (·.replacementKey)).Pairwise (· < ·) ∨
    boundedPacketBytes (values.map (·.packet)) = none)
    "current-view values exceed bounds or are not canonical"
  let tombstones := values.any (·.tombstone)
  let encoded ← encodeEntries sha256 query tombstones [] values
  pure (manifestMagic tombstones ++ beBytes 8 cut.val ++ beBytes 2 values.length ++ encoded)

structure ManifestEntry where
  replacementKey : Block 32
  expiresAt : U64
  tombstone : Bool
  digest : Block 32
deriving DecidableEq

def tombstoneOf : Nat → Outcome Bool
  | 0 => .ok false
  | 1 => .ok true
  | _ => .error "invalid current tombstone"

/-- The tombstone byte, in the forms that have one. -/
def readTombstone (tombstones : Bool) : Reader Bool :=
  if tombstones then do
    let flag ← takeNat truncatedCurrent 1
    lift (tombstoneOf flag)
  else pure false

def readManifestEntry (tombstones : Bool) : Reader ManifestEntry := do
  let replacementKey ← takeBlock truncatedCurrent 32
  let _ ← take truncatedCurrent 24
  let expiresAt ← takeU64 truncatedCurrent
  let tombstone ← readTombstone tombstones
  let digest ← takeBlock truncatedCurrent 32
  return { replacementKey, expiresAt, tombstone, digest }

def parseManifest (bytes : Bytes) : Outcome (U64 × List ManifestEntry) := do
  failIf (bytes.length < 15 ∨
    (bytes.take 5 ≠ manifestMagic false ∧ bytes.take 5 ≠ manifestMagic true))
    "invalid current-view manifest"
  let tombstones := decide (bytes.take 5 = manifestMagic true)
  let cut := u64OfBytes ((bytes.drop 5).take 8)
  let count := beNat ((bytes.drop 13).take 2)
  failIf (maxCurrentValues < count ∨
    (bytes.drop 15).length ≠ count * (if tombstones then 97 else 96))
    "invalid current-view manifest size"
  let (metadata, _) ← readMany (readManifestEntry tombstones) count (bytes.drop 15)
  pure (cut, metadata)

/-- A packet with what the manifest says of it. -/
def matchPacket (sha256 : Bytes → Block 32) (entry : ManifestEntry) (packet : Bytes) :
    Outcome CurrentValue := do
  failIf (sha256 packet ≠ entry.digest) "current-view packet digest mismatch"
  pure ⟨entry.replacementKey, entry.expiresAt, entry.tombstone, packet⟩

def CurrentView.verify (owner : SecurityOwner) (query : CurrentViewQuery) (view : CurrentView) :
    Outcome VerifiedCurrentView := do
  failIf (owner.id ≠ query.workspace ∨ owner.epoch ≠ query.epoch)
    "current-view scope is not current"
  let packetBytes ← orFail (boundedPacketBytes view.packets) "current-view packets exceed bounds"
  failIf (maxReplyBytes < view.manifest.length + packetBytes) "current-view packets exceed bounds"
  let authenticated ← owner.verifyCurrentView query.authority query.context view.manifest
  let (cut, metadata) ← parseManifest authenticated
  failIf (metadata.length ≠ view.packets.length) "current-view packet count mismatch"
  let values ← (metadata.zip view.packets).mapM fun (entry, packet) =>
    matchPacket owner.sha256 entry packet
  let expected ← entries owner.sha256 query cut values
  failIf (expected ≠ authenticated) "current-view manifest does not match packets"
  pure ⟨cut, values⟩

/-- `none` is a denial; it establishes nothing. -/
def verifyWireReply (owner : SecurityOwner) (query : CurrentViewQuery) (bytes : Bytes) :
    Outcome (Option VerifiedCurrentView) := do
  match ← CurrentView.fromWire bytes with
  | none => pure none
  | some view => some <$> view.verify owner query

structure IndexedValue where
  context : PublicationContext
  selector : Block 32
  value : CurrentValue
deriving DecidableEq

/-- Revision, topic and selector; with the replacement key it names one value. -/
abbrev Selection := U64 ×ₗ Topic ×ₗ Block 32

abbrev ValueKey := U64 ×ₗ Topic ×ₗ Block 32 ×ₗ Block 32

def selection (revision : U64) (topic : Topic) (selector : Block 32) : Selection :=
  toLex (revision, toLex (topic, selector))

def valueKey (revision : U64) (topic : Topic) (selector replacementKey : Block 32) : ValueKey :=
  toLex (revision, toLex (topic, toLex (selector, replacementKey)))

structure CurrentViewIndex where
  workspace : WorkspaceId
  authority : Block 32
  epoch : U64
  cuts : OrderedMap Selection U64
  values : OrderedMap ValueKey IndexedValue
deriving DecidableEq

namespace CurrentViewIndex

def new (workspace : WorkspaceId) (authority : Block 32) (epoch : U64) : CurrentViewIndex :=
  ⟨workspace, authority, epoch, OrderedMap.empty, OrderedMap.empty⟩

def retainedBytes (index : CurrentViewIndex) : Nat :=
  (index.values.values.map fun entry => entry.value.packet.length).sum

/-- The fields of a key, with the key's own order forgotten. -/
def keyParts (key : ValueKey) : U64 × Topic × Block 32 × Block 32 :=
  let rest := ofLex (ofLex key).2
  ((ofLex key).1, rest.1, (ofLex rest.2).1, (ofLex rest.2).2)

/-- The value loop of `validate`, with the ids so far. -/
def validateValues (index : CurrentViewIndex) :
    List (Block 16) → List (ValueKey × IndexedValue) → Outcome Unit
  | _, [] => pure ()
  | ids, (key, entry) :: rest => do
      let (revision, topic, selector, replacementKey) := keyParts key
      let (context, _) ← PublicationContext.unpack index.workspace entry.context.revision topic
        entry.value.packet
      failIf (context ≠ entry.context ∨ entry.context.sequence = none ∨
        entry.context.revision ≠ revision ∨ entry.selector ≠ selector ∨
        entry.value.replacementKey ≠ replacementKey ∨ entry.value.expiresAt = 0 ∨
        entry.context.id ∈ ids ∨
        index.cuts.find? (Delivery.selection entry.context.revision topic selector) = none)
        "invalid current-view index"
      validateValues index (entry.context.id :: ids) rest

def validate (index : CurrentViewIndex) : Outcome Unit := do
  failIf (maxCurrentSelections < index.cuts.size ∨ maxCurrentValues < index.values.size ∨
    0 ∈ index.cuts.values ∨
    boundedPacketBytes (index.values.values.map fun entry => entry.value.packet) = none)
    "invalid current-view index bounds"
  index.validateValues [] index.values.entries

def encodeCut (entry : Selection × U64) : Bytes :=
  beBytes 8 (ofLex entry.1).1.val ++ (writeTopic (ofLex (ofLex entry.1).2).1 ++
    ((ofLex (ofLex entry.1).2).2.1 ++ beBytes 8 entry.2.val))

def encodeValue (entry : ValueKey × IndexedValue) : Bytes :=
  let (revision, topic, selector, replacementKey) := keyParts entry.1
  let value := entry.2.value
  beBytes 8 revision.val ++ (writeTopic topic ++ (selector.1 ++ (replacementKey.1 ++
    (beBytes 8 value.expiresAt.val ++ ([if value.tombstone then 1 else 0] ++
      (beBytes 4 value.packet.length ++ value.packet))))))

def indexMagic : Bytes := utf8 "DFCI" ++ [1]

def tombstoneIndexMagic : Bytes := utf8 "DFCI" ++ [2]

def snapshot (index : CurrentViewIndex) : Outcome Bytes := do
  index.validate
  let bytes := tombstoneIndexMagic ++ (index.workspace.1 ++ (index.authority.1 ++
    (beBytes 8 index.epoch.val ++ ([UInt8.ofNat index.cuts.size] ++
      (index.cuts.entries.flatMap encodeCut ++ ([UInt8.ofNat index.values.size] ++
        index.values.entries.flatMap encodeValue))))))
  failIf (maxReplyBytes < bytes.length) "current-view snapshot exceeds bound"
  pure bytes

/-- The cut loop of `restore`. -/
def restoreCuts : Nat → Option Selection → OrderedMap Selection U64 →
    Reader (OrderedMap Selection U64)
  | 0, _, cuts => pure cuts
  | count + 1, previous, cuts => do
      let revision ← takeU64 truncatedCurrent
      let topic ← readCurrentTopic
      let selector ← takeBlock truncatedCurrent 32
      let cut ← takeU64 truncatedCurrent
      let key := Delivery.selection revision topic selector
      check (cut = 0 ∨ previous.any (fun last => key ≤ last) = true ∨ cuts.find? key ≠ none)
        "invalid current-view cut"
      restoreCuts count (some key) (cuts.insert key cut)

/-- The value loop of `restore`. -/
def restoreValues (workspace : WorkspaceId) (tombstones : Bool) :
    Nat → Option ValueKey → OrderedMap ValueKey IndexedValue →
      Reader (OrderedMap ValueKey IndexedValue)
  | 0, _, values => pure values
  | count + 1, previous, values => do
      let revision ← takeU64 truncatedCurrent
      let topic ← readCurrentTopic
      let selector ← takeBlock truncatedCurrent 32
      let replacementKey ← takeBlock truncatedCurrent 32
      let expiresAt ← takeU64 truncatedCurrent
      let tombstone ← readTombstone tombstones
      let length ← takeNat truncatedCurrent 4
      let packet ← take truncatedCurrent length
      let (context, _) ← lift (PublicationContext.unpack workspace revision topic packet)
      let key := valueKey revision topic selector replacementKey
      check (previous.any (fun last => key ≤ last) = true ∨ values.find? key ≠ none)
        "duplicate current value"
      restoreValues workspace tombstones count (some key)
        (values.insert key ⟨context, selector, ⟨replacementKey, expiresAt, tombstone, packet⟩⟩)

def restoreBody (workspace : WorkspaceId) (authority : Block 32) (epoch : U64) :
    Reader CurrentViewIndex := do
  let format ← take truncatedCurrent 5
  check (format ≠ indexMagic ∧ format ≠ tombstoneIndexMagic)
    "current-view snapshot has wrong owner"
  let savedWorkspace ← takeBlock truncatedCurrent 32
  check (savedWorkspace ≠ workspace) "current-view snapshot has wrong owner"
  let savedAuthority ← takeBlock truncatedCurrent 32
  check (savedAuthority ≠ authority) "current-view snapshot has wrong owner"
  let savedEpoch ← takeU64 truncatedCurrent
  check (savedEpoch ≠ epoch) "current-view snapshot has wrong owner"
  let cutCount ← takeNat truncatedCurrent 1
  check (maxCurrentSelections < cutCount) "current-view selection capacity exceeded"
  let cuts ← restoreCuts cutCount none OrderedMap.empty
  let valueCount ← takeNat truncatedCurrent 1
  check (maxCurrentValues < valueCount) "current-view value capacity exhausted"
  let values ← restoreValues workspace (format = tombstoneIndexMagic) valueCount none
    OrderedMap.empty
  let done ← atEnd
  check (done = false) "trailing current-view snapshot"
  return { workspace, authority, epoch, cuts, values }

def restore (workspace : WorkspaceId) (authority : Block 32) (epoch : U64) (bytes : Bytes) :
    Outcome CurrentViewIndex := do
  failIf (maxReplyBytes < bytes.length) "current-view snapshot exceeds bound"
  let (index, _) ← restoreBody workspace authority epoch bytes
  index.validate
  pure index

/-- What `insert` does about a value that is already there: `some` is its early return. -/
def priorValue (index : CurrentViewIndex) (key : ValueKey) (sequence : U64)
    (entry : IndexedValue) : Outcome (Option CurrentViewIndex) :=
  match index.values.find? key with
  | none =>
      if index.values.size = maxCurrentValues then .error "current-view value capacity exhausted"
      else .ok none
  | some existing =>
      match existing.context.sequence with
      | none => .error "called `Option::unwrap()` on a `None` value"
      | some current =>
          if sequence < current.val then .ok (some index)
          else if sequence = current.val then
            if existing.context = entry.context ∧ existing.value.expiresAt = entry.value.expiresAt ∧
                existing.value.tombstone = entry.value.tombstone ∧
                existing.value.packet = entry.value.packet then .ok (some index)
            else .error "conflicting current value"
          else .ok none

/-- The part of `insert` that writes. -/
def replaceValue (index : CurrentViewIndex) (key : ValueKey) (entry : IndexedValue) :
    Outcome CurrentViewIndex := do
  failIf (∃ stored ∈ index.values.entries, stored.1 ≠ key ∧
    stored.2.context.id = entry.context.id)
    "publication identity already indexes another current value"
  let prior := (index.values.find? key).elim 0 fun entry => entry.value.packet.length
  failIf (index.retainedBytes < prior ∨
    maxPacketBytes < index.retainedBytes - prior + entry.value.packet.length)
    "current-view byte capacity exhausted"
  let scope := Delivery.selection entry.context.revision entry.context.topic entry.selector
  failIf (index.cuts.find? scope = none ∧ index.cuts.size = maxCurrentSelections)
    "current-view selection capacity exhausted"
  let cut ← orFail (checkedSucc ((index.cuts.find? scope).getD 0)) "current-view cut exhausted"
  pure { index with
    values := index.values.insert key entry
    cuts := index.cuts.insert scope cut }

def insert (index : CurrentViewIndex) (context : PublicationContext)
    (selector replacementKey : Block 32) (expiresAt : U64) (tombstone : Bool) (packet : Bytes) :
    Outcome CurrentViewIndex := do
  let sequence ← orFail context.sequence "current value lacks publisher sequence"
  let (unpacked, _) ← PublicationContext.unpack context.workspace context.revision context.topic
    packet
  failIf (context ≠ unpacked ∨ context.workspace ≠ index.workspace ∨ expiresAt = 0)
    "invalid current value"
  let key := valueKey context.revision context.topic selector replacementKey
  let entry : IndexedValue := ⟨context, selector, ⟨replacementKey, expiresAt, tombstone, packet⟩⟩
  match ← index.priorValue key sequence.val entry with
  | some index => pure index
  | none => index.replaceValue key entry

/-- A value that an insertion does not replace: a later one, or the same. -/
structure Outdates (existing entry : IndexedValue) (sequence : U64) : Prop where
  later : ∃ current, existing.context.sequence = some current ∧ sequence ≤ current.val
  same : (∃ current, existing.context.sequence = some current ∧ sequence = current.val) →
    existing.context = entry.context ∧ existing.value.expiresAt = entry.value.expiresAt ∧
      existing.value.tombstone = entry.value.tombstone ∧ existing.value.packet = entry.value.packet

variable {index : CurrentViewIndex} {key : ValueKey} {sequence : U64} {entry : IndexedValue}

theorem priorValue_eq_some {known : CurrentViewIndex}
    (h : index.priorValue key sequence entry = .ok (some known)) : known = index ∧
      ∃ existing, index.values.find? key = some existing ∧ Outdates existing entry sequence := by
  rw [priorValue] at h
  split at h
  · split at h <;> cases h
  · rename_i existing hfind
    split at h
    · cases h
    · rename_i current hcurrent
      have hunique : ∀ other, existing.context.sequence = some other → other = current := by
        intro other hother
        exact Option.some.inj (hother.symm.trans hcurrent)
      split at h
      · rename_i hlt
        cases h
        refine ⟨rfl, existing, hfind, ⟨current, hcurrent, hlt.le⟩, ?_⟩
        rintro ⟨other, hother, rfl⟩
        rw [hunique other hother] at hlt
        exact absurd hlt (lt_irrefl _)
      · split at h
        · rename_i heq
          rw [ite_else_error_eq_ok] at h
          obtain ⟨hsame, h⟩ := h
          cases h
          exact ⟨rfl, existing, hfind, ⟨current, hcurrent, heq.le⟩, fun _ => hsame⟩
        · cases h

theorem priorValue_eq_none (h : index.priorValue key sequence entry = .ok none) :
    (index.values.find? key = none → index.values.size ≠ maxCurrentValues) ∧
      ∀ existing, index.values.find? key = some existing →
        ∃ current, existing.context.sequence = some current ∧ current.val < sequence := by
  rw [priorValue] at h
  split at h
  · rename_i hfind
    rw [ite_error_eq_ok] at h
    refine ⟨fun _ => h.1, ?_⟩
    intro existing hexisting
    rw [hfind] at hexisting
    cases hexisting
  · rename_i existing hfind
    split at h
    · cases h
    · rename_i current hcurrent
      split at h
      · cases h
      · rename_i hge
        split at h
        · rw [ite_else_error_eq_ok] at h
          cases h.2
        · rename_i hne
          refine ⟨?_, ?_⟩
          · rw [hfind]
            exact nofun
          · intro other hother
            rw [hfind] at hother
            cases hother
            exact ⟨current, hcurrent, lt_of_le_of_ne (not_lt.mp hge) (Ne.symm hne)⟩

end CurrentViewIndex

end Arachne.Delivery
