import Arachne.Lib.MapCodec
import Arachne.Delivery.Retention

/-! The saved form of a publisher log and its decoder. -/

namespace Arachne.Delivery

open ByteCodec Fallible Routing Watermark
open RetainedPublication (weight)
open Security (maxApplicationCiphertext)

variable {log : PublisherLog} {α : Type} {known items : List α} {last : U64}
  {records : List RetainedPublication}

namespace PublisherLog

def isSequenced (log : PublisherLog) : Bool :=
  log.retained.any fun r => r.context.sequence.isSome

def encodeRecord (sequenced : Bool) (r : RetainedPublication) : Bytes :=
  beBytes 8 r.sequence.val ++
  (if sequenced then [if r.context.sequence.isSome then 1 else 0] else []) ++
  beBytes 8 r.context.revision.val ++ r.context.id.val ++
  beBytes 4 r.ciphertext.length ++ r.ciphertext

def encodeTopic (sequenced : Bool) (entry : Topic × History) : Bytes :=
  [UInt8.ofNat entry.1.val.length] ++ entry.1.val ++
  beBytes 8 entry.2.evictedThrough.val ++ beBytes 2 entry.2.records.length ++
  entry.2.records.flatMap (encodeRecord sequenced)

def snapshot (log : PublisherLog) : Bytes :=
  (if log.isSequenced then utf8 "DFRL\x02" else utf8 "DFRL\x01") ++
  log.workspace.val ++ log.author.val ++ beBytes 8 log.epoch.val ++ beBytes 8 log.head.val ++
  beBytes 2 log.topics.size ++ log.topics.entries.flatMap (encodeTopic log.isSequenced)

def truncated : String := "truncated retention snapshot"

/-- What the decoder has met so far: byte total, sequences and watermarks, ids, and the
highest sequence. -/
structure Met where
  bytes : Nat
  sequences : List U64
  ids : List (Block 16)
  highest : U64

def Met.watermark (met : Met) (mark : U64) : Met :=
  { met with
    sequences := met.sequences ++ (if mark ≠ 0 then [mark] else [])
    highest := max met.highest mark }

def Met.record (met : Met) (r : RetainedPublication) : Met :=
  { bytes := met.bytes + r.weight
    sequences := met.sequences ++ [r.sequence]
    ids := met.ids ++ [r.context.id]
    highest := max met.highest r.sequence }

/-- The authenticated sequence marker of a record. -/
def readMarker (sequenced : Bool) (sequence : U64) : Reader (Option NonZeroU64) :=
  if sequenced then do
    match ← take truncated 1 with
    | [0] => pure none
    | [1] =>
        if h : sequence ≠ 0 then pure (some ⟨sequence, h⟩)
        else throw "zero publisher sequence"
    | _ => throw "invalid sequence marker"
  else pure none

def restoreRecords (workspace : WorkspaceId) (topic : Topic) (sequenced : Bool) (head : U64) :
    Nat → U64 → List RetainedPublication → Met → Reader (List RetainedPublication × Met)
  | 0, _, records, met => pure (records, met)
  | count + 1, last, records, met => do
      let sequence ← takeU64 truncated
      let authenticated ← readMarker sequenced sequence
      let revision ← takeU64 truncated
      let id ← takeBlock truncated 16
      let length ← takeNat truncated 4
      check (sequence ≤ last ∨ sequence > head ∨ sequence ∈ met.sequences ∨ id ∈ met.ids ∨
        length = 0 ∨ length > maxApplicationCiphertext) "invalid retained packet"
      let ciphertext ← take truncated length
      let record : RetainedPublication :=
        { sequence
          context := { sequence := authenticated, workspace, revision, topic, id }
          ciphertext }
      check ((met.record record).bytes > maxRetainedBytes) "retained bytes exceed limit"
      restoreRecords workspace topic sequenced head count sequence (records ++ [record])
        (met.record record)

def restoreTopics (workspace : WorkspaceId) (sequenced : Bool) (head : U64) :
    Nat → Option Topic → OrderedMap Topic History → Met →
      Reader (OrderedMap Topic History × Met)
  | 0, _, topics, met => pure (topics, met)
  | count + 1, previous, topics, met => do
      let topic ← readTopic truncated "invalid topic encoding" "invalid retained topic"
      check (previous.any (fun p => topic ≤ p) = true) "noncanonical retention topics"
      let mark ← takeU64 truncated
      check (mark > head ∨ (mark ≠ 0 ∧ mark ∈ met.sequences))
        "invalid or duplicate eviction watermark"
      let packets ← takeNat truncated 2
      check (packets > maxPacketsPerTopic) "retention packet limit"
      let (records, met) ← restoreRecords workspace topic sequenced head packets mark []
        (met.watermark mark)
      check (records = [] ∧ mark = 0) "empty unobserved topic"
      restoreTopics workspace sequenced head count (some topic)
        (topics.insert topic ⟨mark, records⟩)
        met

def restoreBody (workspace : WorkspaceId) (author : Block 32) (epoch : U64) :
    Reader PublisherLog := do
  let magic ← take truncated 5
  check (magic ≠ utf8 "DFRL\x01" ∧ magic ≠ utf8 "DFRL\x02") "wrong retention snapshot scope"
  let savedWorkspace ← takeBlock truncated 32
  check (savedWorkspace ≠ workspace) "wrong retention snapshot scope"
  let savedAuthor ← takeBlock truncated 32
  check (savedAuthor ≠ author) "wrong retention snapshot scope"
  let savedEpoch ← takeU64 truncated
  check (savedEpoch ≠ epoch) "wrong retention snapshot scope"
  let head ← takeU64 truncated
  let count ← takeNat truncated 2
  check (count > maxTopics) "retention topic limit"
  let (topics, met) ← restoreTopics workspace (magic = utf8 "DFRL\x02") head count none
    OrderedMap.empty ⟨0, [], [], 0⟩
  let done ← atEnd
  check (done = false ∨ met.highest ≠ head) "invalid retention tail or head"
  return { workspace, author, epoch, head, bytes := met.bytes, topics }

def restore (workspace : WorkspaceId) (author : Block 32) (epoch : U64) (bytes : Bytes) :
    Outcome PublisherLog := do
  failIf (bytes.length > maxSnapshotBytes) "retention snapshot exceeds bounds"
  let (log, _) ← restoreBody workspace author epoch bytes
  return log

end PublisherLog

/-- A record as an author could have appended it. -/
structure WellFormed (workspace : WorkspaceId) (topic : Topic) (r : RetainedPublication) :
    Prop where
  workspace : r.context.workspace = workspace
  topic : r.context.topic = topic
  nonempty : r.ciphertext ≠ []
  bounded : r.ciphertext.length ≤ maxApplicationCiphertext
  numbered : ∀ number, r.context.sequence = some number → number.val = r.sequence

/-- All sequences and watermarks a list of topic histories carries. -/
def allSequences (entries : List (Topic × History)) : List U64 :=
  entries.flatMap fun entry =>
    (if entry.2.evictedThrough ≠ 0 then [entry.2.evictedThrough] else []) ++
      entry.2.records.map RetainedPublication.sequence

def allRecords (entries : List (Topic × History)) : List RetainedPublication :=
  entries.flatMap fun entry => entry.2.records

namespace PublisherLog

open PublisherLog

/-- Items that are distinct and not known yet. -/
def Fresh {α : Type} (known items : List α) : Prop :=
  items.Nodup ∧ ∀ item ∈ items, item ∉ known

theorem fresh_append {more : List α} :
    Fresh known (items ++ more) ↔ Fresh known items ∧ Fresh (known ++ items) more := by
  simp only [Fresh, List.nodup_append, List.mem_append, not_or]
  grind

theorem fresh_cons {item : α} :
    Fresh known (item :: items) ↔ item ∉ known ∧ Fresh (known ++ [item]) items := by
  rw [← List.singleton_append, fresh_append]
  simp [Fresh]

section Decoder

variable {workspace : WorkspaceId} {topic : Topic} {sequenced : Bool} {head : U64}
  {bytes rest : Bytes}

theorem readMarker_eq_ok {sequence : U64} {marker : Option NonZeroU64} :
    readMarker sequenced sequence bytes = .ok (marker, rest) ↔
      ((∀ number, marker = some number → number.val = sequence) ∧
        (sequenced = false → marker = none)) ∧
      bytes = (if sequenced then [if marker.isSome then 1 else 0] else []) ++ rest := by
  cases sequenced with
  | false =>
    simp only [readMarker, Bool.false_eq_true, if_false, pure_apply_eq_ok, Prod.mk.injEq,
      forall_const, List.nil_append]
    constructor
    · rintro ⟨rfl, rfl⟩
      exact ⟨⟨nofun, rfl⟩, rfl⟩
    · rintro ⟨⟨_, rfl⟩, rfl⟩
      exact ⟨rfl, rfl⟩
  | true =>
    simp only [readMarker, if_true, reader_bind_eq_ok, take_eq_ok, reduceCtorEq, false_implies,
      and_true]
    constructor
    · rintro ⟨mark, after, ⟨_, rfl⟩, h⟩
      split at h
      · rw [pure_apply_eq_ok, Prod.mk.injEq] at h
        obtain ⟨rfl, rfl⟩ := h
        exact ⟨nofun, rfl⟩
      · split at h
        · rw [pure_apply_eq_ok, Prod.mk.injEq] at h
          obtain ⟨rfl, rfl⟩ := h
          refine ⟨?_, rfl⟩
          rintro number ⟨⟩
          rfl
        · cases h
      · cases h
    · rintro ⟨hnumber, rfl⟩
      refine ⟨_, rest, ⟨rfl, rfl⟩, ?_⟩
      cases marker with
      | none => rfl
      | some number =>
        obtain ⟨number, hne⟩ := number
        obtain rfl := hnumber _ rfl
        simp [hne, pure_apply_eq_ok]

/-- The records that the packet loop accepts after what it has met. -/
structure RecordsFit (workspace : WorkspaceId) (topic : Topic) (sequenced : Bool) (head last : U64)
    (met : Met) (records : List RetainedPublication) : Prop where
  formed : ∀ r ∈ records, WellFormed workspace topic r
  marked : ∀ r ∈ records, sequenced = false → r.context.sequence = none
  sorted : (last :: records.map RetainedPublication.sequence).Pairwise (· < ·)
  bounded : ∀ r ∈ records, r.sequence ≤ head
  sequences : Fresh met.sequences (records.map RetainedPublication.sequence)
  ids : Fresh met.ids (records.map fun r => r.context.id)
  bytes : met.bytes + (records.map weight).sum ≤ maxRetainedBytes

theorem recordsFit_cons {met : Met} {r : RetainedPublication} :
    RecordsFit workspace topic sequenced head last met (r :: records) ↔
      (WellFormed workspace topic r ∧ (sequenced = false → r.context.sequence = none) ∧
        last < r.sequence ∧ r.sequence ≤ head ∧ r.sequence ∉ met.sequences ∧
        r.context.id ∉ met.ids ∧ (met.record r).bytes ≤ maxRetainedBytes) ∧
      RecordsFit workspace topic sequenced head r.sequence (met.record r) records := by
  have hsum : ((r :: records).map weight).sum =
      r.weight + (records.map weight).sum := by simp
  constructor
  · rintro ⟨hformed, hmarked, hsorted, hbounded, hsequences, hids, hbytes⟩
    rw [List.forall_mem_cons] at hformed hmarked hbounded
    rw [List.map_cons, List.pairwise_cons] at hsorted
    rw [List.map_cons, fresh_cons] at hsequences hids
    rw [hsum] at hbytes
    refine ⟨⟨hformed.1, hmarked.1, hsorted.1 _ List.mem_cons_self, hbounded.1, hsequences.1, hids.1,
      ?_⟩, hformed.2, hmarked.2, hsorted.2, hbounded.2, hsequences.2, hids.2, ?_⟩ <;>
    · simp only [Met.record]
      omega
  · rintro ⟨⟨hr, hmark, hlast, hhead, hsequence, hid, _⟩, hformed, hmarked, hsorted, hbounded,
      hsequences, hids, hbytes⟩
    refine ⟨List.forall_mem_cons.mpr ⟨hr, hformed⟩, List.forall_mem_cons.mpr ⟨hmark, hmarked⟩, ?_,
      List.forall_mem_cons.mpr ⟨hhead, hbounded⟩, fresh_cons.mpr ⟨hsequence, hsequences⟩,
      fresh_cons.mpr ⟨hid, hids⟩, ?_⟩
    · refine List.pairwise_cons.mpr ⟨?_, hsorted⟩
      rw [List.map_cons, List.forall_mem_cons]
      exact ⟨hlast, fun s hs => hlast.trans ((List.pairwise_cons.mp hsorted).1 s hs)⟩
    · simp only [Met.record] at hbytes
      omega

theorem restoreRecords_eq_ok {count : Nat} {acc : List RetainedPublication} {met met' : Met}
    (hmet : met.bytes ≤ maxRetainedBytes) :
    restoreRecords workspace topic sequenced head count last acc met bytes =
        .ok ((records, met'), rest) ↔
      ∃ rs, records = acc ++ rs ∧ rs.length = count ∧ met' = rs.foldl Met.record met ∧
        RecordsFit workspace topic sequenced head last met rs ∧
        bytes = rs.flatMap (encodeRecord sequenced) ++ rest := by
  induction count generalizing last acc met bytes with
  | zero =>
    rw [restoreRecords, pure_apply_eq_ok, Prod.mk.injEq, Prod.mk.injEq]
    constructor
    · rintro ⟨⟨rfl, rfl⟩, rfl⟩
      exact ⟨[], by simp, rfl, rfl, ⟨nofun, nofun, List.pairwise_singleton _ _, nofun,
        ⟨List.nodup_nil, nofun⟩, ⟨List.nodup_nil, nofun⟩, hmet⟩, rfl⟩
    · rintro ⟨rs, rfl, hlength, rfl, _, rfl⟩
      obtain rfl := List.length_eq_zero_iff.mp hlength
      exact ⟨⟨List.append_nil _, rfl⟩, rfl⟩
  | succ count ih =>
    simp only [restoreRecords, reader_bind_eq_ok, takeU64_eq_ok, readMarker_eq_ok, takeBlock_eq_ok,
      takeNat_eq_ok, check_eq_ok, take_eq_ok, existsAndEq, true_and, and_true, exists_const,
      not_or, not_le, not_lt]
    constructor
    · rintro ⟨sequence, marker, revision, id, ciphertext, after, rfl, hmarker, _,
        ⟨hlast, hhead, hsequence, hid, hnonempty, hshort⟩, hfits, h⟩
      obtain ⟨rs, rfl, rfl, rfl, hfit, rfl⟩ := (ih hfits).mp h
      refine ⟨_ :: rs, by rw [List.append_assoc]; rfl, rfl, rfl, recordsFit_cons.mpr
        ⟨⟨⟨rfl, rfl, ?_, hshort, hmarker.1⟩, hmarker.2, hlast, hhead, hsequence, hid, hfits⟩, hfit⟩,
        by simp only [List.flatMap_cons, encodeRecord, List.append_assoc]⟩
      exact fun hnil => hnonempty (congrArg List.length hnil)
    · rintro ⟨rs, rfl, hlength, rfl, hfit, rfl⟩
      obtain ⟨r, rs, rfl⟩ := List.exists_cons_of_length_eq_add_one hlength
      obtain ⟨⟨hr, hmark, hlast, hhead, hsequence, hid, hfits⟩, hfit⟩ := recordsFit_cons.mp hfit
      obtain ⟨sequence, ⟨_, revision, _, id, marker⟩, ciphertext⟩ := r
      obtain ⟨rfl, rfl, hnonempty, hshort, hnumbered⟩ := hr
      refine ⟨sequence, marker, revision, id, ciphertext,
        rs.flatMap (encodeRecord sequenced) ++ rest,
        by simp only [List.flatMap_cons, encodeRecord, List.append_assoc], ⟨hnumbered, hmark⟩,
        lt_of_le_of_lt hshort (by decide), ⟨hlast, hhead, hsequence, hid,
          fun hzero => hnonempty (List.length_eq_zero_iff.mp hzero), hshort⟩, hfits, ?_⟩
      exact (ih hfits).mpr
        ⟨rs, by rw [List.append_assoc]; rfl, Nat.succ.inj hlength, rfl, hfit, rfl⟩

theorem met_records (rs : List RetainedPublication) (met : Met) :
    (rs.foldl Met.record met).bytes =
        met.bytes + (rs.map weight).sum ∧
      (rs.foldl Met.record met).sequences =
        met.sequences ++ rs.map RetainedPublication.sequence ∧
      (rs.foldl Met.record met).ids = met.ids ++ (rs.map fun r => r.context.id) ∧
      (rs.foldl Met.record met).highest =
        (rs.map RetainedPublication.sequence).foldl max met.highest := by
  induction rs generalizing met with
  | nil => simp
  | cons r rs ih =>
    obtain ⟨hbytes, hsequences, hids, hhighest⟩ := ih (met.record r)
    rw [List.foldl_cons, hbytes, hsequences, hids, hhighest]
    simp [Met.record, Nat.add_assoc]

/-- What the decoder has met after whole topics. -/
def Met.topics (met : Met) (entries : List (Topic × History)) : Met :=
  entries.foldl (fun met entry =>
    entry.2.records.foldl Met.record (met.watermark entry.2.evictedThrough)) met

theorem met_topics (entries : List (Topic × History)) (met : Met) :
    (met.topics entries).bytes =
        met.bytes + ((allRecords entries).map weight).sum ∧
      (met.topics entries).highest = (allSequences entries).foldl max met.highest := by
  induction entries generalizing met with
  | nil => simp [Met.topics, allRecords, allSequences]
  | cons entry entries ih =>
    obtain ⟨topic, mark, records⟩ := entry
    obtain ⟨hbytes, hhighest⟩ := ih (records.foldl Met.record (met.watermark mark))
    obtain ⟨hrecords, _, _, hmax⟩ := met_records records (met.watermark mark)
    have hmark : (met.watermark mark).highest =
        (if mark ≠ 0 then [mark] else []).foldl max met.highest := by
      by_cases h : mark = 0
      · simp [Met.watermark, h]
      · simp [Met.watermark, h]
    rw [show met.topics ((topic, ⟨mark, records⟩) :: entries) =
      (records.foldl Met.record (met.watermark mark)).topics entries from rfl]
    rw [hbytes, hhighest, hrecords, hmax, hmark]
    simp [allRecords, allSequences, Met.watermark, Nat.add_assoc]

/-- The histories that the topic loop accepts after what it has met. -/
structure TopicsFit (workspace : WorkspaceId) (sequenced : Bool) (head : U64) (met : Met)
    (entries : List (Topic × History)) : Prop where
  formed : ∀ entry ∈ entries, ∀ r ∈ entry.2.records, WellFormed workspace entry.1 r
  marked : ∀ r ∈ allRecords entries, sequenced = false → r.context.sequence = none
  sorted : ∀ entry ∈ entries,
    (entry.2.evictedThrough :: entry.2.records.map RetainedPublication.sequence).Pairwise (· < ·)
  observed : ∀ entry ∈ entries, ¬(entry.2.records = [] ∧ entry.2.evictedThrough = 0)
  packets : ∀ entry ∈ entries, entry.2.records.length ≤ maxPacketsPerTopic
  bounded : ∀ s ∈ allSequences entries, s ≤ head
  sequences : Fresh met.sequences (allSequences entries)
  ids : Fresh met.ids ((allRecords entries).map fun r => r.context.id)
  bytes : met.bytes + ((allRecords entries).map weight).sum ≤ maxRetainedBytes

theorem topicsFit_cons {met : Met} {mark : U64} {entries : List (Topic × History)} :
    TopicsFit workspace sequenced head met ((topic, ⟨mark, records⟩) :: entries) ↔
      (¬(mark > head ∨ (mark ≠ 0 ∧ mark ∈ met.sequences)) ∧
        records.length ≤ maxPacketsPerTopic ∧ ¬(records = [] ∧ mark = 0) ∧
        RecordsFit workspace topic sequenced head mark (met.watermark mark) records) ∧
      TopicsFit workspace sequenced head
        (records.foldl Met.record (met.watermark mark)) entries := by
  have hmet := met_records records (met.watermark mark)
  have hsequences : allSequences ((topic, ⟨mark, records⟩) :: entries) =
      (if mark ≠ 0 then [mark] else []) ++ (records.map RetainedPublication.sequence ++
        allSequences entries) := by simp [allSequences]
  have hrecords : allRecords ((topic, ⟨mark, records⟩) :: entries) =
      records ++ allRecords entries := rfl
  have hmark : (¬(mark > head ∨ (mark ≠ 0 ∧ mark ∈ met.sequences))) ↔
      (∀ s ∈ (if mark ≠ 0 then [mark] else []), s ≤ head) ∧
        Fresh met.sequences (if mark ≠ 0 then [mark] else []) := by
    by_cases h : mark = 0
    · simp [h, Fresh]
    · simp [h, Fresh]
  have hbytes : met.bytes + ((records ++ allRecords entries).map weight).sum =
      met.bytes + (records.map weight).sum +
        ((allRecords entries).map weight).sum := by
    rw [List.map_append, List.sum_append, Nat.add_assoc]
  constructor
  · rintro ⟨hformed, hmarked, hsorted, hobserved, hpackets, hbounded, hfresh, hids, hlimit⟩
    rw [List.forall_mem_cons] at hformed hsorted hobserved hpackets
    rw [hsequences, fresh_append, fresh_append] at hfresh
    rw [hsequences, List.forall_mem_append, List.forall_mem_append] at hbounded
    rw [hrecords, List.forall_mem_append] at hmarked
    rw [hrecords, List.map_append, fresh_append] at hids
    rw [hrecords, hbytes] at hlimit
    refine ⟨⟨hmark.mpr ⟨hbounded.1, hfresh.1⟩, hpackets.1, hobserved.1, hformed.1, hmarked.1,
      hsorted.1, List.forall_mem_map.mp hbounded.2.1, hfresh.2.1, hids.1,
      le_trans (Nat.le_add_right _ _) hlimit⟩, hformed.2, hmarked.2, hsorted.2, hobserved.2,
      hpackets.2, hbounded.2.2, ?_, ?_, ?_⟩
    · exact hmet.2.1 ▸ hfresh.2.2
    · exact hmet.2.2.1 ▸ hids.2
    · exact hmet.1 ▸ hlimit
  · rintro ⟨⟨hwatermark, hcount, hseen, hfit⟩, hformed, hmarked, hsorted, hobserved, hpackets,
      hbounded, hfresh, hids, hlimit⟩
    obtain ⟨hmarkBounded, hmarkFresh⟩ := hmark.mp hwatermark
    rw [hmet.2.1] at hfresh
    rw [hmet.2.2.1] at hids
    rw [hmet.1] at hlimit
    refine ⟨List.forall_mem_cons.mpr ⟨hfit.formed, hformed⟩, ?_,
      List.forall_mem_cons.mpr ⟨hfit.sorted, hsorted⟩,
      List.forall_mem_cons.mpr ⟨hseen, hobserved⟩, List.forall_mem_cons.mpr ⟨hcount, hpackets⟩,
      ?_, ?_, ?_, ?_⟩
    · rw [hrecords, List.forall_mem_append]
      exact ⟨hfit.marked, hmarked⟩
    · rw [hsequences, List.forall_mem_append, List.forall_mem_append]
      exact ⟨hmarkBounded, List.forall_mem_map.mpr hfit.bounded, hbounded⟩
    · rw [hsequences, fresh_append, fresh_append]
      exact ⟨hmarkFresh, hfit.sequences, hfresh⟩
    · rw [hrecords, List.map_append, fresh_append]
      exact ⟨hfit.ids, hids⟩
    · rw [hrecords, hbytes]
      exact hlimit

theorem restoreTopics_eq_ok {count : Nat} {topics topics' : OrderedMap Topic History}
    {met met' : Met} (hmet : met.bytes ≤ maxRetainedBytes) :
    restoreTopics workspace sequenced head count topics.keys.getLast? topics met bytes =
        .ok ((topics', met'), rest) ↔
      ∃ entries, topics'.entries = topics.entries ++ entries ∧ entries.length = count ∧
        met' = met.topics entries ∧ TopicsFit workspace sequenced head met entries ∧
        bytes = entries.flatMap (encodeTopic sequenced) ++ rest := by
  induction count generalizing topics met bytes with
  | zero =>
    rw [restoreTopics, pure_apply_eq_ok, Prod.mk.injEq, Prod.mk.injEq]
    constructor
    · rintro ⟨⟨rfl, rfl⟩, rfl⟩
      exact ⟨[], by simp, rfl, rfl, ⟨nofun, nofun, nofun, nofun, nofun, nofun,
        ⟨List.nodup_nil, nofun⟩, ⟨List.nodup_nil, nofun⟩, hmet⟩, rfl⟩
    · rintro ⟨entries, hentries, hlength, rfl, _, rfl⟩
      obtain rfl := List.length_eq_zero_iff.mp hlength
      exact ⟨⟨OrderedMap.ext_entries (hentries.trans (List.append_nil _)), rfl⟩, rfl⟩
  | succ count ih =>
    have hnext {topic : Topic} {history : History} (hkeys : ∀ k ∈ topics.keys, k < topic)
        {met : Met} (hmet : met.bytes ≤ maxRetainedBytes) {after : Bytes} :
        restoreTopics workspace sequenced head count (some topic) (topics.insert topic history) met
            after = .ok ((topics', met'), rest) ↔
          ∃ entries, topics'.entries = topics.entries ++ (topic, history) :: entries ∧
            entries.length = count ∧ met' = met.topics entries ∧
            TopicsFit workspace sequenced head met entries ∧
            after = entries.flatMap (encodeTopic sequenced) ++ rest := by
      have hinsert := topics.entries_insert_of_lt history hkeys
      have hlast : (topics.insert topic history).keys.getLast? = some topic := by
        simp [OrderedMap.keys, hinsert]
      simp only [← hlast, ih hmet, hinsert, List.append_assoc, List.singleton_append]
    have hfirst (mark : U64) : (met.watermark mark).bytes ≤ maxRetainedBytes := hmet
    have hwrite (topic : Topic) (mark : U64) (records : List RetainedPublication) :
        encodeTopic sequenced (topic, ⟨mark, records⟩) = writeTopic topic ++
          (beBytes 8 mark.val ++ (beBytes 2 records.length ++
            records.flatMap (encodeRecord sequenced))) := by
      simp [encodeTopic, writeTopic]
    simp only [restoreTopics, reader_bind_eq_ok, readTopic_eq_ok, takeU64_eq_ok, takeNat_eq_ok,
      check_eq_ok, any_getLast_le, restoreRecords_eq_ok (hfirst _), existsAndEq, true_and,
      and_true, exists_const, Prod.exists, List.nil_append, not_lt]
    constructor
    · rintro ⟨topic, mark, records, after, rfl, hkeys, hmark, _, hcount, hfit, hseen, h⟩
      have hbytes := (met_records records (met.watermark mark)).1 ▸ hfit.bytes
      obtain ⟨entries, hentries, rfl, rfl, hrest, rfl⟩ := (hnext hkeys hbytes).mp h
      exact ⟨_, hentries, rfl, rfl, topicsFit_cons.mpr ⟨⟨hmark, hcount, hseen, hfit⟩, hrest⟩,
        by simp only [List.flatMap_cons, hwrite, List.append_assoc]⟩
    · rintro ⟨entries, hentries, hlength, rfl, hfits, rfl⟩
      obtain ⟨⟨topic, mark, records⟩, entries, rfl⟩ := List.exists_cons_of_length_eq_add_one hlength
      obtain ⟨⟨hmark, hcount, hseen, hfit⟩, hrest⟩ := topicsFit_cons.mp hfits
      have hkeys : ∀ key ∈ topics.keys, key < topic := by
        have hsorted := topics'.keys_sorted
        rw [OrderedMap.keys, hentries, List.map_append, List.pairwise_append] at hsorted
        exact fun key hkey => hsorted.2.2 key hkey topic (by simp)
      have hbytes := (met_records records (met.watermark mark)).1 ▸ hfit.bytes
      refine ⟨topic, mark, records, entries.flatMap (encodeTopic sequenced) ++ rest,
        by simp only [List.flatMap_cons, hwrite, List.append_assoc], hkeys, hmark,
        lt_of_le_of_lt hcount (by decide), hcount, hfit, hseen, ?_⟩
      exact (hnext hkeys hbytes).mpr ⟨entries, hentries, Nat.succ.inj hlength, rfl, hrest, rfl⟩

theorem restoreTopics_new {count : Nat} {topics : OrderedMap Topic History} {met : Met} :
    restoreTopics workspace sequenced head count none .empty ⟨0, [], [], 0⟩ bytes =
        .ok ((topics, met), rest) ↔
      topics.size = count ∧ met = Met.topics ⟨0, [], [], 0⟩ topics.entries ∧
        TopicsFit workspace sequenced head ⟨0, [], [], 0⟩ topics.entries ∧
        bytes = topics.entries.flatMap (encodeTopic sequenced) ++ rest := by
  have hloop := @restoreTopics_eq_ok workspace sequenced head bytes rest count .empty topics
    ⟨0, [], [], 0⟩ met (Nat.zero_le _)
  rw [OrderedMap.entries_empty] at hloop
  simp only [List.nil_append] at hloop
  refine hloop.trans ⟨?_, ?_⟩
  · rintro ⟨entries, rfl, rfl, h⟩
    exact ⟨rfl, h⟩
  · rintro ⟨rfl, h⟩
    exact ⟨_, rfl, rfl, h⟩

end Decoder

private theorem foldl_max_eq {values : List U64} {start head : U64} (hstart : start ≤ head)
    (hle : ∀ s ∈ values, s ≤ head) (hmem : head ∈ values ∨ start = head) :
    values.foldl max start = head := by
  induction values generalizing start with
  | nil => simpa using hmem
  | cons s values ih =>
    have hs := hle s (by simp)
    refine ih (max_le hstart hs) (fun x hx => hle x (by simp [hx])) ?_
    rcases hmem with hmem | rfl
    · rcases List.mem_cons.mp hmem with rfl | hmem
      · exact .inr (max_eq_right hstart)
      · exact .inl hmem
    · exact .inr (max_eq_left hs)

end PublisherLog

/-- What the decoder demands of a log. -/
structure Restorable (log : PublisherLog) : Prop extends WithinLimits log where
  formed : ∀ entry ∈ log.topics.entries, ∀ r ∈ entry.2.records,
    WellFormed log.workspace entry.1 r
  sorted : ∀ entry ∈ log.topics.entries,
    (entry.2.evictedThrough :: entry.2.records.map RetainedPublication.sequence).Pairwise (· < ·)
  observed : ∀ entry ∈ log.topics.entries,
    ¬(entry.2.records = [] ∧ entry.2.evictedThrough = 0)
  distinct : (allSequences log.topics.entries).Nodup
  bounded : ∀ s ∈ allSequences log.topics.entries, s ≤ log.head
  reached : log.head ∈ allSequences log.topics.entries ∨ log.head = 0
  ids : ((allRecords log.topics.entries).map fun r => r.context.id).Nodup
  total : log.bytes = ((allRecords log.topics.entries).map weight).sum

namespace Restorable

open PublisherLog

theorem snapshot_length_le (h : Restorable log) : log.snapshot.length ≤ maxSnapshotBytes := by
  have hmagic : ∀ b : Bool, (if b then utf8 "DFRL\x02" else utf8 "DFRL\x01").length = 5 := by
    intro b
    cases b <;> rfl
  have hrecord (sequenced : Bool) (r : RetainedPublication) :
      (encodeRecord sequenced r).length ≤ r.weight := by
    have hcontext := r.context.le_authenticatedBytes_length
    have hmarker : (if sequenced then [if r.context.sequence.isSome then (1 : UInt8) else 0]
        else []).length ≤ 1 := by
      cases sequenced <;> simp
    simp only [encodeRecord, List.length_append, beBytes_length, r.context.id.property,
      weight]
    omega
  have hrecords (sequenced : Bool) (rs : List RetainedPublication) :
      (rs.flatMap (encodeRecord sequenced)).length ≤
        (rs.map weight).sum := by
    induction rs with
    | nil => simp
    | cons r rs ih =>
      have hr := hrecord sequenced r
      simp only [List.flatMap_cons, List.length_append, List.map_cons, List.sum_cons]
      omega
  have htopics (sequenced : Bool) (entries : List (Topic × History)) :
      (entries.flatMap (encodeTopic sequenced)).length ≤
        139 * entries.length + ((allRecords entries).map weight).sum := by
    induction entries with
    | nil => simp [allRecords]
    | cons entry entries ih =>
      have htopic := entry.1.length_le
      have hrs := hrecords sequenced entry.2.records
      simp only [allRecords, List.flatMap_cons, List.length_append, List.map_append,
        List.sum_append, List.length_cons, encodeTopic, beBytes_length, List.length_nil] at ih ⊢
      omega
  have hentries := htopics log.isSequenced log.topics.entries
  have hcount := h.topics
  have hbytes := h.bytes
  rw [h.total] at hbytes
  simp only [snapshot, List.length_append, beBytes_length, hmagic, log.workspace.property,
    log.author.property]
  have hlimits : maxSnapshotBytes = maxRetainedBytes + 16384 := rfl
  have hsize : log.topics.size = log.topics.entries.length := rfl
  have htopics64 : maxTopics = 64 := rfl
  omega

theorem of_topicsFit {sequenced : Bool}
    (hfit : TopicsFit log.workspace sequenced log.head ⟨0, [], [], 0⟩ log.topics.entries)
    (hcount : log.topics.size ≤ maxTopics)
    (hhead : (Met.topics ⟨0, [], [], 0⟩ log.topics.entries).highest = log.head)
    (htotal : log.bytes = (Met.topics ⟨0, [], [], 0⟩ log.topics.entries).bytes) :
    Restorable log := by
  obtain ⟨hbytes, hhighest⟩ := met_topics log.topics.entries ⟨0, [], [], 0⟩
  rw [hbytes, Nat.zero_add] at htotal
  refine ⟨⟨⟨hcount, fun topic history hfind => hfit.packets _ ((log.topics.mem_entries_iff topic
    history).mpr hfind)⟩, ?_⟩, hfit.formed, hfit.sorted, hfit.observed, hfit.sequences.1,
    hfit.bounded, ?_, hfit.ids.1, htotal⟩
  · rw [htotal, ← Nat.zero_add (List.sum _)]
    exact hfit.bytes
  · rw [← hhead, hhighest]
    exact (foldl_max_mem _ _).symm

theorem topicsFit (h : Restorable log) {sequenced : Bool}
    (hmarked : ∀ r ∈ allRecords log.topics.entries, sequenced = false → r.context.sequence = none) :
    TopicsFit log.workspace sequenced log.head ⟨0, [], [], 0⟩ log.topics.entries ∧
      (Met.topics ⟨0, [], [], 0⟩ log.topics.entries).highest = log.head ∧
      (Met.topics ⟨0, [], [], 0⟩ log.topics.entries).bytes = log.bytes := by
  obtain ⟨hbytes, hhighest⟩ := met_topics log.topics.entries ⟨0, [], [], 0⟩
  have hlimit := h.toWithinLimits.bytes
  rw [h.total] at hlimit
  refine ⟨⟨h.formed, hmarked, h.sorted, h.observed, fun entry hentry => h.packets entry.1 entry.2
    ((log.topics.mem_entries_iff entry.1 entry.2).mp hentry), h.bounded, ⟨h.distinct, nofun⟩,
    ⟨h.ids, nofun⟩, ?_⟩, ?_, ?_⟩
  · rw [Nat.zero_add]
    exact hlimit
  · rw [hhighest]
    exact foldl_max_eq (Fin.zero_le _) h.bounded (h.reached.imp id Eq.symm)
  · rw [hbytes, Nat.zero_add, h.total]

end Restorable

namespace PublisherLog

/-- The saved form of a log, with or without sequence markers. -/
def write (sequenced : Bool) (log : PublisherLog) : Bytes :=
  (if sequenced then utf8 "DFRL\x02" else utf8 "DFRL\x01") ++ (log.workspace.val ++
    (log.author.val ++ (beBytes 8 log.epoch.val ++ (beBytes 8 log.head.val ++
      (beBytes 2 log.topics.size ++ log.topics.entries.flatMap (encodeTopic sequenced))))))

theorem restoreBody_eq_ok {workspace : WorkspaceId} {author : Block 32} {epoch : U64}
    {bytes rest : Bytes} : restoreBody workspace author epoch bytes = .ok (log, rest) ↔
      (log.workspace = workspace ∧ log.author = author ∧ log.epoch = epoch) ∧ Restorable log ∧
        rest = [] ∧ ∃ sequenced, bytes = log.write sequenced ∧
          ∀ r ∈ allRecords log.topics.entries, sequenced = false → r.context.sequence = none := by
  have hmagic : (utf8 "DFRL\x01").length = 5 ∧ (utf8 "DFRL\x02").length = 5 ∧
      utf8 "DFRL\x01" ≠ utf8 "DFRL\x02" := by decide
  obtain ⟨workspace', author', epoch', head, total, topics⟩ := log
  simp only [restoreBody, reader_bind_eq_ok, take_eq_ok, check_eq_ok, takeBlock_eq_ok,
    takeU64_eq_ok, takeNat_eq_ok, restoreTopics_new, atEnd_eq_ok, pure_apply_eq_ok, Prod.mk.injEq,
    mk.injEq, not_not, not_or, Bool.not_eq_false, List.isEmpty_iff, existsAndEq, true_and, and_true,
    exists_const, Prod.exists, not_lt, List.append_nil]
  constructor
  · rintro ⟨magic, ⟨_, rfl⟩, hformat, _, hcount, hfit, ⟨rfl, rfl, rfl, rfl, rfl⟩, rfl⟩
    refine ⟨⟨rfl, rfl, rfl⟩, Restorable.of_topicsFit hfit hcount rfl rfl, rfl, _, ?_, hfit.marked⟩
    by_cases htwo : magic = utf8 "DFRL\x02"
    · simp [write, htwo]
    · have hone : magic = utf8 "DFRL\x01" := by
        by_contra hother
        exact hformat ⟨hother, htwo⟩
      simp [write, hone, hmagic.2.2]
  · rintro ⟨⟨rfl, rfl, rfl⟩, hrestorable, rfl, sequenced, rfl, hmarked⟩
    obtain ⟨hfit, hhead, hbytes⟩ := hrestorable.topicsFit hmarked
    dsimp only at hfit hhead hbytes
    have hcount := hrestorable.topics
    rw [hhead, hbytes]
    refine ⟨if sequenced then utf8 "DFRL\x02" else utf8 "DFRL\x01", ?_, ?_,
      lt_of_le_of_lt hcount (by decide), hcount, ?_, ⟨rfl, rfl, rfl, rfl, rfl⟩, rfl⟩
    · cases sequenced <;> simp [write, hmagic]
    · cases sequenced <;> simp
    · cases sequenced <;> simpa [hmagic] using hfit

theorem restore_eq_ok {workspace : WorkspaceId} {author : Block 32} {epoch : U64} {bytes : Bytes}
    (h : restore workspace author epoch bytes = .ok log) :
    (log.workspace = workspace ∧ log.author = author ∧ log.epoch = epoch) ∧ Restorable log := by
  simp only [restore, bind_eq_ok, pure_eq_ok] at h
  obtain ⟨_, _, ⟨restored, _⟩, hbody, rfl⟩ := h
  obtain ⟨hscope, hrestorable, _⟩ := restoreBody_eq_ok.mp hbody
  exact ⟨hscope, hrestorable⟩

end PublisherLog

/-- Restoring a saved log gives the log. -/
theorem Restorable.restore_snapshot (h : Restorable log) :
    PublisherLog.restore log.workspace log.author log.epoch log.snapshot = .ok log := by
  have hmarked : ∀ r ∈ allRecords log.topics.entries, log.isSequenced = false →
      r.context.sequence = none := by
    intro r hr hfalse
    have hall := List.any_eq_false.mp hfalse r
      (by simpa [PublisherLog.retained, OrderedMap.values, allRecords, List.flatMap_map] using hr)
    simpa using hall
  have hbody : PublisherLog.restoreBody log.workspace log.author log.epoch log.snapshot =
      .ok (log, []) :=
    PublisherLog.restoreBody_eq_ok.mpr ⟨⟨rfl, rfl, rfl⟩, h, rfl, log.isSequenced,
      by simp only [PublisherLog.snapshot, PublisherLog.write, List.append_assoc], hmarked⟩
  simp only [PublisherLog.restore, failIf_of_not h.snapshot_length_le.not_gt, hbody]
  rfl

end Arachne.Delivery
