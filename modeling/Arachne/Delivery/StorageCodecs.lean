import Arachne.Delivery.JournalRecovery
import Arachne.Delivery.QueryCodecs

/-! What is stored and sent is read back as it was: receive journals, live current values, catalog
entries and packets. -/

namespace Arachne.Delivery

open ByteCodec Fallible Routing
open Security (ApplicationMessage Applications Mls SFrame Workspace maxApplicationPayload)

/-- An application's entry in a catalog; the topic is the catalog. -/
structure CatalogEntry where
  key : Block 32
  payload : Bytes
  tombstone : Bool
deriving DecidableEq

namespace CatalogEntry

def magic : Bytes := utf8 "DFCE" ++ [1]

def maxCatalogPayload : Nat := maxApplicationPayload - (5 + 32 + 1 + 4)

def toWire (entry : CatalogEntry) : Outcome Bytes := do
  failIf (entry.tombstone = true ∧ entry.payload ≠ []) "catalog tombstone has payload"
  failIf (entry.tombstone = false ∧
    (entry.payload = [] ∨ maxCatalogPayload < entry.payload.length))
    "catalog entry payload is out of bounds"
  pure (magic ++ entry.key.1 ++ [if entry.tombstone then 1 else 0] ++
    beBytes 4 entry.payload.length ++ entry.payload)

def truncatedEntry : String := "truncated catalog entry"

def tombstoneOf : Nat → Outcome Bool
  | 0 => .ok false
  | 1 => .ok true
  | _ => .error "invalid catalog tombstone"

def read : Reader CatalogEntry := do
  let format ← take truncatedEntry 5
  check (format ≠ magic) "wrong catalog entry format"
  let key ← takeBlock truncatedEntry 32
  let mark ← takeNat truncatedEntry 1
  let tombstone ← lift (tombstoneOf mark)
  let length ← takeNat truncatedEntry 4
  let payload ← take truncatedEntry length
  let done ← atEnd
  check (done = false) "trailing catalog entry"
  let entry : CatalogEntry := ⟨key, payload, tombstone⟩
  let _ ← lift entry.toWire
  return entry

def fromWire (bytes : Bytes) : Outcome CatalogEntry := do
  let (entry, _) ← read bytes
  return entry

theorem fromWire_eq_ok {entry : CatalogEntry} {bytes : Bytes} :
    fromWire bytes = .ok entry ↔ entry.toWire = .ok bytes := by
  have hmagic : magic.length = 5 := by decide
  have hmark {mark : Nat} {flag : Bool} :
      tombstoneOf mark = .ok flag ↔ mark = if flag then 1 else 0 := by
    rcases mark with _ | _ | mark <;> cases flag <;> simp [tombstoneOf]
  simp only [fromWire, bind_eq_ok, pure_eq_ok, Prod.exists]
  obtain ⟨key, payload, tombstone⟩ := entry
  simp only [read, reader_bind_eq_ok, take_eq_ok, check_eq_ok, takeBlock_eq_ok, takeNat_eq_ok,
    lift_eq_ok, hmark, atEnd_eq_ok, pure_apply_eq_ok, Prod.mk.injEq, mk.injEq, not_not,
    Bool.not_eq_false, List.isEmpty_iff, existsAndEq, true_and, and_true, exists_const,
    List.append_nil, hmagic]
  have hwire : ∀ wire, toWire ⟨key, payload, tombstone⟩ = .ok wire →
      payload.length < 256 ^ 4 ∧
        wire = magic ++ (key.1 ++ (beBytes 1 (if tombstone then 1 else 0) ++
        (beBytes 4 payload.length ++ payload))) := by
    intro wire h
    simp only [toWire, bind_eq_ok, failIf_eq_ok, pure_eq_ok, exists_const] at h
    obtain ⟨hempty, hbound, rfl⟩ := h
    cases tombstone with
    | false =>
      have hlength : payload.length ≤ maxCatalogPayload := by
        by_contra hlong
        exact hbound ⟨rfl, .inr (not_le.mp hlong)⟩
      exact ⟨lt_of_le_of_lt hlength (by decide), by simp [beBytes]⟩
    | true =>
      obtain rfl : payload = [] := by
        by_contra hne
        exact hempty ⟨rfl, hne⟩
      exact ⟨by decide, by simp [beBytes]⟩
  constructor
  · rintro ⟨wire, rfl, _, _, h⟩
    rw [h, (hwire wire h).2]
  · intro h
    obtain ⟨hlength, rfl⟩ := hwire bytes h
    exact ⟨_, rfl, by cases tombstone <;> decide, hlength, h⟩

end CatalogEntry

theorem LiveCurrentPacket.readTombstone_eq_ok {tombstone : Bool} {u : Unit} {bytes rest : Bytes} :
    readTombstone tombstone bytes = .ok (u, rest) ↔
      bytes = (if tombstone then [1] else []) ++ rest := by
  cases tombstone with
  | false =>
    simp only [readTombstone, Bool.false_eq_true, if_false, pure_apply_eq_ok, Prod.mk.injEq,
      true_and, List.nil_append]
    exact eq_comm
  | true =>
    simp only [readTombstone, if_true, reader_bind_eq_ok, takeNat_eq_ok, check_eq_ok, not_not,
      existsAndEq, and_true]
    exact and_iff_right (by decide)

theorem LiveCurrentPacket.fromWire_eq_ok {live : LiveCurrentPacket} {bytes : Bytes} :
    LiveCurrentPacket.fromWire bytes = .ok live ↔ live.toWire = .ok bytes := by
  have hmagic : liveMagic.length = 5 ∧ tombstoneLiveMagic.length = 5 := by decide
  have hne : liveMagic ≠ tombstoneLiveMagic := by decide
  simp only [fromWire, toWire, bind_eq_ok, failIf_eq_ok, pure_eq_ok, Prod.exists, exists_const]
  obtain ⟨⟨selector, replacementKey, expiresAt, tombstone⟩, packet⟩ := live
  simp only [read, reader_bind_eq_ok, take_eq_ok, check_eq_ok, takeBlock_eq_ok, takeU64_eq_ok,
    takeNat_eq_ok, readTombstone_eq_ok, atEnd_eq_ok, pure_apply_eq_ok, Prod.mk.injEq, mk.injEq,
    CurrentMetadata.mk.injEq, Bool.not_eq_false, List.isEmpty_iff, existsAndEq, true_and, and_true,
    exists_const, List.append_nil, List.append_assoc]
  constructor
  · rintro ⟨format, ⟨⟨_, rfl⟩, hformat, _, hvalid⟩, rfl⟩
    refine ⟨hvalid, ?_⟩
    by_cases hmark : format = tombstoneLiveMagic
    · simp [hmark]
    · have hplain : format = liveMagic := by
        by_contra hother
        exact hformat ⟨hother, hmark⟩
      simp [hplain, hne]
  · rintro ⟨hvalid, rfl⟩
    have hlength : packet.length < 256 ^ 4 := by
      have hbound := not_not.mp (not_or.mp hvalid).2
      exact lt_of_le_of_lt hbound.2 (by decide)
    cases tombstone with
    | false =>
      exact ⟨liveMagic, ⟨⟨hmagic.1, by simp [hne]⟩, by simp, hlength, hvalid⟩, by simp [hne]⟩
    | true => exact ⟨tombstoneLiveMagic, ⟨⟨hmagic.2, by simp⟩, by simp, hlength, hvalid⟩, by simp⟩

namespace ReceiveJournal

def encodeRecord (entry : PublicationKey × Block 32) : Bytes :=
  (ofLex entry.1).1.1 ++ (ofLex entry.1).2.1 ++ entry.2.1

def encodeProgress (entry : SelectionKey × U64) : Bytes :=
  (ofLex entry.1).1.1 ++ (ofLex entry.1).2.1 ++ beBytes 8 entry.2.val

theorem restoreRecords_reads : ReadsEntries restoreRecords (fun _ => True) encodeRecord where
  done _ _ := rfl
  next count records bytes result := by
    simp only [restoreRecords, reader_bind_eq_ok, takeBlock_eq_ok, check_eq_ok, any_getLast_le,
      encodeRecord, List.append_assoc, existsAndEq, true_and, and_true, exists_const, Prod.exists]
    constructor
    · rintro ⟨author, id, digest, rest, rfl, hkeys, hrest⟩
      exact ⟨_, digest, rest, hkeys, rfl, hrest⟩
    · rintro ⟨key, digest, rest, hkeys, rfl, hrest⟩
      exact ⟨_, _, digest, rest, rfl, hkeys, hrest⟩

theorem restoreProgress_reads :
    ReadsEntries restoreProgress (fun entry => entry.2 ≠ 0) encodeProgress where
  done _ _ := rfl
  next count progress bytes result := by
    simp only [restoreProgress, reader_bind_eq_ok, takeBlock_eq_ok, takeU64_eq_ok, check_eq_ok,
      not_or, any_getLast_le, encodeProgress, List.append_assoc, existsAndEq, true_and, and_true,
      exists_const, Prod.exists]
    constructor
    · rintro ⟨author, selection, through, rest, rfl, ⟨hthrough, hkeys⟩, hrest⟩
      exact ⟨_, through, rest, hthrough, hkeys, rfl, hrest⟩
    · rintro ⟨key, through, rest, hthrough, hkeys, rfl, hrest⟩
      exact ⟨_, _, through, rest, rfl, ⟨hthrough, hkeys⟩, hrest⟩

theorem remaining_eq_ok {n : Nat} {bytes rest : Bytes} :
    remaining bytes = .ok (n, rest) ↔ n = bytes.length ∧ rest = bytes := by
  simp [remaining, eq_comm]

theorem length_records (records : OrderedMap PublicationKey (Block 32)) :
    (records.entries.flatMap encodeRecord).length = 80 * records.size := by
  have hlength : ∀ entry, (encodeRecord entry).length = 80 := by
    intro entry
    have hauthor := (ofLex entry.1).1.property
    have hid := (ofLex entry.1).2.property
    simp only [encodeRecord, List.length_append, hauthor, hid, entry.2.property]
  rw [List.length_flatMap, List.map_congr_left fun entry _ => hlength entry]
  simp [OrderedMap.size, Nat.mul_comm]

theorem length_progress (progress : OrderedMap SelectionKey U64) :
    (progress.entries.flatMap encodeProgress).length = 72 * progress.size := by
  have hlength : ∀ entry, (encodeProgress entry).length = 72 := by
    intro entry
    have hauthor := (ofLex entry.1).1.property
    have hselection := (ofLex entry.1).2.property
    simp only [encodeProgress, List.length_append, hauthor, hselection, beBytes_length]
  rw [List.length_flatMap, List.map_congr_left fun entry _ => hlength entry]
  simp [OrderedMap.size, Nat.mul_comm]

/-- The bounds within which a journal can be stored. -/
structure Bounded (journal : ReceiveJournal) : Prop where
  records : journal.records.size ≤ maxReceiveRecords
  progress : journal.progress.size ≤ maxRecoverySelections
  through : ∀ entry ∈ journal.progress.entries, entry.2 ≠ 0

theorem restoreSelections_eq_ok {versioned : Bool} {progress : OrderedMap SelectionKey U64}
    {bytes : Bytes} : restoreSelections versioned bytes = .ok (progress, []) ↔
      (progress.size ≤ maxRecoverySelections ∧ ∀ entry ∈ progress.entries, entry.2 ≠ 0) ∧
        if versioned then
          bytes = beBytes 2 progress.size ++ progress.entries.flatMap encodeProgress
        else progress = .empty ∧ bytes = [] := by
  cases versioned with
  | false =>
    simp only [restoreSelections, Bool.false_eq_true, if_false, pure_apply_eq_ok, Prod.mk.injEq]
    constructor
    · rintro ⟨rfl, hbytes⟩
      exact ⟨⟨Nat.zero_le _, List.forall_mem_nil _⟩, rfl, hbytes.symm⟩
    · rintro ⟨_, rfl, rfl⟩
      exact ⟨rfl, rfl⟩
  | true =>
    simp only [restoreSelections, if_true, reader_bind_eq_ok, takeNat_eq_ok, remaining_eq_ok,
      check_eq_ok, restoreProgress_reads.exact _ _ _ _, existsAndEq, true_and, and_true,
      exists_const, List.append_nil, length_progress, not_or, not_lt, not_not, Nat.mul_comm 72]
    constructor
    · rintro ⟨⟨_, rfl⟩, hcount, hthrough⟩
      exact ⟨⟨hcount, hthrough⟩, rfl⟩
    · rintro ⟨⟨hcount, hthrough⟩, rfl⟩
      exact ⟨⟨lt_of_le_of_lt hcount (by decide), rfl⟩, hcount, hthrough⟩

/-- A snapshot of the first version, which ends with the records. -/
def legacySnapshot (journal : ReceiveJournal) : Bytes :=
  utf8 "DFRR" ++ [1] ++ (journal.workspace.1 ++ (beBytes 8 journal.epoch.val ++
    (beBytes 2 journal.records.size ++ journal.records.entries.flatMap encodeRecord)))

variable {journal : ReceiveJournal} {workspace : WorkspaceId} {epoch : U64} {bytes : Bytes}

theorem snapshot_eq (journal : ReceiveJournal) : journal.snapshot = utf8 "DFRR" ++ [2] ++
    (journal.workspace.1 ++ (beBytes 8 journal.epoch.val ++ (beBytes 2 journal.records.size ++
      (journal.records.entries.flatMap encodeRecord ++ (beBytes 2 journal.progress.size ++
        journal.progress.entries.flatMap encodeProgress))))) := by
  have hparts : journal.snapshot = utf8 "DFRR" ++ [2] ++ journal.workspace.1 ++
      beBytes 8 journal.epoch.val ++ beBytes 2 journal.records.size ++
      journal.records.entries.flatMap encodeRecord ++ beBytes 2 journal.progress.size ++
      journal.progress.entries.flatMap encodeProgress := rfl
  rw [hparts]
  simp only [List.append_assoc]

theorem restore_eq_ok : restore workspace epoch bytes = .ok journal ↔
    (journal.workspace = workspace ∧ journal.epoch = epoch) ∧ journal.Bounded ∧
      (bytes = journal.snapshot ∨ bytes = journal.legacySnapshot ∧ journal.progress = .empty) := by
  have hlegacy : (utf8 "DFRR" ++ [1]).length = 5 := by decide
  have hcurrent : (utf8 "DFRR" ++ [2]).length = 5 := by decide
  have hne : utf8 "DFRR" ++ [1] ≠ utf8 "DFRR" ++ [2] := by decide
  simp only [restore, bind_eq_ok, failIf_eq_ok, pure_eq_ok, Prod.exists, exists_const]
  obtain ⟨workspace', epoch', records, progress⟩ := journal
  simp only [restoreBody, reader_bind_eq_ok, take_eq_ok, check_eq_ok, takeBlock_eq_ok,
    takeU64_eq_ok, takeNat_eq_ok, remaining_eq_ok, restoreRecords_reads.exact _ _ _ _,
    restoreSelections_eq_ok, atEnd_eq_ok, pure_apply_eq_ok, Prod.mk.injEq, mk.injEq,
    Bool.not_eq_false, List.isEmpty_iff, not_not, existsAndEq, true_and, and_true, exists_const,
    length_records, List.length_append, Nat.mul_comm 80, not_or, not_lt]
  constructor
  · rintro ⟨_, version, rest, ⟨⟨_, rfl⟩, hversion, _, ⟨hrecords, _⟩, _, ⟨hcount, hthrough⟩, hrest⟩,
      rfl, rfl⟩
    refine ⟨⟨rfl, rfl⟩, ⟨hrecords, hcount, hthrough⟩, ?_⟩
    by_cases htwo : version = utf8 "DFRR" ++ [2]
    · rw [if_pos (decide_eq_true htwo)] at hrest
      subst hrest
      left
      rw [htwo, snapshot_eq]
    · rw [decide_eq_false htwo, if_neg Bool.false_ne_true] at hrest
      obtain ⟨rfl, rfl⟩ := hrest
      have hone : version = utf8 "DFRR" ++ [1] := by
        by_contra hother
        exact hversion ⟨htwo, hother⟩
      right
      rw [hone, legacySnapshot]
      simp only [List.append_nil, and_self]
  · rintro ⟨⟨rfl, rfl⟩, ⟨hrecords, hcount, hthrough⟩, rfl | ⟨rfl, rfl⟩⟩
    · refine ⟨?_, utf8 "DFRR" ++ [2], beBytes 2 progress.size ++
        progress.entries.flatMap encodeProgress, ⟨⟨hcurrent, snapshot_eq _⟩, fun h => h.1 rfl,
          lt_of_le_of_lt hrecords (by decide), ⟨hrecords, Nat.le_add_right _ _⟩, fun _ _ => trivial,
          ⟨hcount, hthrough⟩, by rw [if_pos (decide_eq_true rfl)]⟩, rfl, rfl⟩
      rw [snapshot_eq, List.length_append, hcurrent]
      simp only [List.length_append, length_records, length_progress, workspace'.property,
        beBytes_length, maxReceiveSnapshot]
      dsimp only at hrecords hcount
      omega
    · refine ⟨?_, utf8 "DFRR" ++ [1], [],
        ⟨⟨hlegacy, by rw [List.append_nil]; rfl⟩, fun h => h.2 rfl,
        lt_of_le_of_lt hrecords (by decide), ⟨hrecords, Nat.le_add_right _ _⟩, fun _ _ => trivial,
        ⟨hcount, hthrough⟩, by rw [decide_eq_false hne]; exact ⟨rfl, rfl⟩⟩, rfl, rfl⟩
      rw [legacySnapshot, List.length_append, hlegacy]
      simp only [List.length_append, length_records, workspace'.property, beBytes_length,
        maxReceiveSnapshot]
      dsimp only at hrecords
      omega

section Reached

variable {Group Signer Staged Key : Type} (mls : Mls Group Signer Staged)
  (sframe : SFrame Group Key) (applications : Applications Group)

/-- The journals that receiving and recovering lead to, over restarts. -/
inductive Reached : ReceiveJournal → Prop
  | new (workspace : WorkspaceId) (epoch : U64) : Reached (new workspace epoch)
  | restored {workspace : WorkspaceId} {epoch : U64} {bytes : Bytes} {journal : ReceiveJournal}
      (h : restore workspace epoch bytes = .ok journal) : Reached journal
  | recorded {journal next : ReceiveJournal} {message : ApplicationMessage}
      {context : PublicationContext} {packet : Bytes} (hreached : Reached journal)
      (h : journal.recordVerified mls.sha256 message context packet = .ok next) : Reached next
  | recovered {journal : ReceiveJournal} {owner : Workspace Group Signer}
      {publisher : PublisherLog} {query : RangeQuery} {reply : Bytes}
      {staged : StagedRecovery Group Signer} (hreached : Reached journal)
      (h : journal.prepareRecovery mls sframe applications owner publisher query reply =
        .ok (.prepared staged)) : Reached staged.received

variable {mls sframe applications}

theorem Bounded.recordVerified {next : ReceiveJournal} {sha256 : Bytes → Block 32}
    {message : ApplicationMessage} {context : PublicationContext} {packet : Bytes}
    (hbounded : journal.Bounded)
    (h : journal.recordVerified sha256 message context packet = .ok next) :
    next.Bounded ∧ next.progress = journal.progress := by
  simp only [ReceiveJournal.recordVerified, bind_eq_ok] at h
  obtain ⟨status, _, h⟩ := h
  cases status with
  | known =>
    cases h
    exact ⟨hbounded, rfl⟩
  | conflicting => cases h
  | unseen =>
    simp only [bind_eq_ok, failIf_eq_ok, pure_eq_ok] at h
    obtain ⟨_, hroom, digest, _, rfl⟩ := h
    refine ⟨⟨?_, hbounded.progress, hbounded.through⟩, rfl⟩
    have hsize := hbounded.records
    have hinsert := OrderedMap.size_insert journal.records
      (toLex (message.member, context.id)) digest
    dsimp only
    omega

theorem Bounded.receivePackets {author : Block 32} {proof : VerifiedRecoveryOffer}
    {packets : List RecoveredPacket} {staged next : StagedRecovery Group Signer}
    (hbounded : staged.received.Bounded)
    (h : receivePackets mls applications author proof packets staged = .ok next) :
    next.received.Bounded ∧ next.received.progress = staged.received.progress := by
  induction packets generalizing staged with
  | nil =>
    cases h
    exact ⟨hbounded, rfl⟩
  | cons packet packets ih =>
    simp only [Delivery.receivePackets, bind_eq_ok] at h
    obtain ⟨status, _, h⟩ := h
    cases status with
    | known =>
      dsimp only at h
      have hrest := ih (by exact hbounded) h
      exact hrest
    | conflicting => cases h
    | unseen =>
      simp only [bind_eq_ok, Prod.exists] at h
      obtain ⟨message, owner, _, _, _, received, hreceived, h⟩ := h
      obtain ⟨hreceivedBounded, hprogress⟩ := hbounded.recordVerified hreceived
      have hrest := ih (by exact hreceivedBounded) h
      exact ⟨hrest.1, hrest.2.trans hprogress⟩

theorem Bounded.prepareRecovery {owner : Workspace Group Signer} {publisher : PublisherLog}
    {query : RangeQuery} {reply : Bytes} {staged : StagedRecovery Group Signer}
    (hbounded : journal.Bounded)
    (h : journal.prepareRecovery mls sframe applications owner publisher query reply =
      .ok (.prepared staged)) : staged.received.Bounded := by
  simp only [ReceiveJournal.prepareRecovery, bind_eq_ok] at h
  obtain ⟨_, _, _, _, verified, _, h⟩ := h
  cases verified with
  | rejected error => cases h
  | offered offer =>
    dsimp only at h
    split at h
    · cases h
    · rename_i hahead
      simp only [bind_eq_ok, failIf_eq_ok, pure_eq_ok] at h
      obtain ⟨_, _, _, hroom, received, hreceived, h⟩ := h
      cases h
      obtain ⟨hnext, hprogress⟩ := Bounded.receivePackets (by exact hbounded) hreceived
      dsimp only at hprogress
      refine ⟨hnext.records, ?_, ?_⟩
      · have hsize := hbounded.progress
        have hinsert := OrderedMap.size_insert journal.progress
          (toLex (query.author, selectionDigest mls.sha256 query.topics)) query.through
        dsimp only
        rw [hprogress]
        cases hknown : journal.progress.find?
            (toLex (query.author, selectionDigest mls.sha256 query.topics)) with
        | none =>
          have hfull : journal.progress.size ≠ maxRecoverySelections :=
            fun hfull => hroom ⟨hknown, hfull⟩
          rw [hknown] at hinsert
          simp at hinsert
          omega
        | some through =>
          rw [hknown] at hinsert
          simp at hinsert
          omega
      · intro entry hentry
        rcases OrderedMap.mem_insertEntry hentry with rfl | hold
        · intro hzero
          dsimp only at hzero
          rw [hzero] at hahead
          exact hahead (Fin.zero_le _)
        · rw [hprogress] at hold
          exact hbounded.through entry hold

theorem Reached.bounded (h : Reached mls sframe applications journal) : journal.Bounded := by
  induction h with
  | new workspace epoch => exact ⟨Nat.zero_le _, Nat.zero_le _, nofun⟩
  | restored h => exact (restore_eq_ok.mp h).2.1
  | recorded _ h ih => exact (ih.recordVerified h).1
  | recovered _ h ih => exact ih.prepareRecovery h

end Reached

theorem take_version {version : UInt8} {rest : Bytes} :
    (utf8 "DFRR" ++ [version] ++ rest).take 5 = utf8 "DFRR" ++ [version] := by
  have htext : (utf8 "DFRR").length = 4 := by decide
  exact List.take_left' (by simp [htext])

end ReceiveJournal

open ReceiveJournal in
/-- What is stored or sent decodes to itself, and what is accepted is written back byte for byte. A
snapshot of the first version keeps its records. -/
theorem canonical_storage {Group Signer Staged Key : Type} (mls : Mls Group Signer Staged)
    (sframe : SFrame Group Key) (applications : Applications Group) :
    ((∀ journal, Reached mls sframe applications journal →
        restore journal.workspace journal.epoch journal.snapshot = .ok journal) ∧
      ∀ workspace epoch bytes journal, restore workspace epoch bytes = .ok journal →
        bytes.take 5 = utf8 "DFRR" ++ [2] → journal.snapshot = bytes) ∧
    ((∀ journal : ReceiveJournal, journal.records.size ≤ maxReceiveRecords →
        restore journal.workspace journal.epoch journal.legacySnapshot =
          .ok { journal with progress := .empty }) ∧
      ∀ workspace epoch bytes journal, restore workspace epoch bytes = .ok journal →
        bytes.take 5 = utf8 "DFRR" ++ [1] → journal.legacySnapshot = bytes) ∧
    Canonical LiveCurrentPacket.toWire LiveCurrentPacket.fromWire ∧
    Canonical CatalogEntry.toWire CatalogEntry.fromWire ∧
    (∀ context ciphertext bytes, PublicationContext.packet context ciphertext = .ok bytes →
      PublicationContext.unpack context.workspace context.revision context.topic bytes =
        .ok (context, ciphertext)) ∧
    ∀ workspace revision topic bytes context ciphertext,
      PublicationContext.unpack workspace revision topic bytes = .ok (context, ciphertext) →
        context.packet ciphertext = .ok bytes := by
  have hne : utf8 "DFRR" ++ [1] ≠ utf8 "DFRR" ++ [2] := by decide
  refine ⟨⟨?_, ?_⟩, ⟨?_, ?_⟩, ⟨fun _ _ => LiveCurrentPacket.fromWire_eq_ok.mpr,
    fun _ _ => LiveCurrentPacket.fromWire_eq_ok.mp⟩, ⟨fun _ _ => CatalogEntry.fromWire_eq_ok.mpr,
    fun _ _ => CatalogEntry.fromWire_eq_ok.mp⟩, ?_, ?_⟩
  · intro journal hreached
    exact restore_eq_ok.mpr ⟨⟨rfl, rfl⟩, hreached.bounded, .inl rfl⟩
  · intro workspace epoch bytes journal h hversion
    obtain ⟨_, _, rfl | ⟨rfl, _⟩⟩ := restore_eq_ok.mp h
    · rfl
    · rw [legacySnapshot, take_version] at hversion
      exact absurd hversion hne
  · intro journal hrecords
    exact restore_eq_ok.mpr ⟨⟨rfl, rfl⟩, ⟨hrecords, Nat.zero_le _, nofun⟩, .inr ⟨rfl, rfl⟩⟩
  · intro workspace epoch bytes journal h hversion
    obtain ⟨_, _, rfl | ⟨rfl, _⟩⟩ := restore_eq_ok.mp h
    · rw [snapshot_eq, take_version] at hversion
      exact absurd hversion.symm hne
    · rfl
  · intro context ciphertext bytes h
    exact PublicationContext.unpack_iff_packet.mpr ⟨⟨rfl, rfl, rfl⟩, h⟩
  · intro workspace revision topic bytes context ciphertext h
    exact (PublicationContext.unpack_iff_packet.mp h).2

end Arachne.Delivery
