import Arachne.Delivery.SignedStatements

/-! The control records by which a receiver asks for history. Each is accepted in one encoding
only, so that what is kept for a query can be looked up by its bytes. -/

namespace Arachne.Delivery

open ByteCodec Fallible Routing

def readRecipients : Reader (List (Block 32)) := do
  let count ← takeNat truncated 1
  readMany (takeBlock truncated 32) count

theorem readRecipients_exact : Exact readRecipients (fun recipients => recipients.length < 256)
    (fun recipients => [UInt8.ofNat recipients.length] ++ recipients.flatMap Subtype.val) := by
  intro bytes recipients rest
  have hblock : Exact (takeBlock truncated 32) (fun _ => True) Subtype.val :=
    fun _ _ _ => takeBlock_eq_ok.trans (iff_of_eq (true_and _)).symm
  simp only [readRecipients, reader_bind_eq_ok, takeNat_eq_ok, hblock.readMany _ _ _ _, existsAndEq,
    and_true, implies_true, beBytes_one, List.append_assoc, Nat.pow_one]

def readDirectHead : Reader DirectHead := do
  let magic ← take truncated 5
  check (magic ≠ directHeadMagic) "wrong direct head format"
  let workspace ← takeBlock truncated 32
  let author ← takeBlock truncated 32
  let epoch ← takeU64 truncated
  let policyRevision ← takeU64 truncated
  let through ← takeU64 truncated
  let topic ← readWireTopic
  let recipients ← readRecipients
  let done ← atEnd
  check (done = false) "trailing direct head"
  let head : DirectHead := { workspace, author, epoch, policyRevision, topic, recipients, through }
  lift head.validate
  return head

def DirectHead.fromWire (bytes : Bytes) : Outcome DirectHead := do
  failIf (maxQueryBytes < bytes.length) "direct head exceeds bound"
  let (head, _) ← readDirectHead bytes
  return head

def directQueryMagic : Bytes := utf8 "DFDQ" ++ [1]

def DirectRangeQuery.toWire (query : DirectRangeQuery) : Outcome Bytes := do
  query.validate
  pure (directQueryMagic ++ query.workspace.1 ++ query.author.1 ++ beBytes 8 query.epoch.val ++
    beBytes 8 query.policyRevision.val ++ beBytes 8 query.after.val ++
    beBytes 8 query.through.val ++ writeTopic query.topic ++
    [UInt8.ofNat query.recipients.length] ++ query.recipients.flatMap Subtype.val)

def readDirectQuery : Reader DirectRangeQuery := do
  let magic ← take truncated 5
  check (magic ≠ directQueryMagic) "wrong direct recovery query format"
  let workspace ← takeBlock truncated 32
  let author ← takeBlock truncated 32
  let epoch ← takeU64 truncated
  let policyRevision ← takeU64 truncated
  let after ← takeU64 truncated
  let through ← takeU64 truncated
  let topic ← readWireTopic
  let recipients ← readRecipients
  let done ← atEnd
  check (done = false) "trailing direct recovery query"
  let query : DirectRangeQuery :=
    { workspace, author, epoch, policyRevision, topic, recipients, after, through }
  lift query.validate
  return query

def DirectRangeQuery.fromWire (bytes : Bytes) : Outcome DirectRangeQuery := do
  failIf (maxQueryBytes < bytes.length) "direct recovery query exceeds bound"
  let (query, _) ← readDirectQuery bytes
  return query

def availableQueryMagic : Bytes := utf8 "DFHQ" ++ [1]

def AvailableRangeQuery.toWire (query : AvailableRangeQuery) : Outcome Bytes := do
  failIf (query.topics.val = [] ∨ maxTopics < query.topics.val.length)
    "invalid available-range selection"
  pure (availableQueryMagic ++ query.workspace.1 ++ query.author.1 ++ beBytes 8 query.epoch.val ++
    beBytes 8 query.policyRevision.val ++ beBytes 8 query.after.val ++
    [UInt8.ofNat query.topics.val.length] ++ query.topics.val.flatMap writeTopic)

def readAvailableQuery : Reader AvailableRangeQuery := do
  let magic ← take truncated 5
  check (magic ≠ availableQueryMagic) "wrong available-range query format"
  let workspace ← takeBlock truncated 32
  let author ← takeBlock truncated 32
  let epoch ← takeU64 truncated
  let policyRevision ← takeU64 truncated
  let after ← takeU64 truncated
  let topics ← readTopics
  let done ← atEnd
  check (done = false) "trailing available-range query"
  return { workspace, author, epoch, policyRevision, after, topics }

def AvailableRangeQuery.fromWire (bytes : Bytes) : Outcome AvailableRangeQuery := do
  failIf (maxQueryBytes < bytes.length) "available-range query exceeds bound"
  let (query, _) ← readAvailableQuery bytes
  return query

/-- A question for the retained window of one author's topics. -/
structure CutoffQuery where
  workspace : WorkspaceId
  author : Block 32
  epoch : U64
  policyRevision : U64
  topics : TopicSet
  nonce : Block 32
deriving DecidableEq

def CutoffQuery.request (sha256 : Bytes → Block 32) (query : CutoffQuery) :
    Outcome RecoveryCutoffRequest := do
  failIf (query.topics.val = [] ∨ maxTopics < query.topics.val.length) "invalid cutoff selection"
  pure {
    workspace := query.workspace
    author := query.author
    epoch := query.epoch
    policyRevision := query.policyRevision
    selection := selectionDigest sha256 query.topics
    nonce := query.nonce }

def cutoffQueryMagic : Bytes := utf8 "DFCQ" ++ [1]

def CutoffQuery.toWire (sha256 : Bytes → Block 32) (query : CutoffQuery) : Outcome Bytes := do
  let _ ← query.request sha256
  pure (cutoffQueryMagic ++ query.workspace.1 ++ query.author.1 ++ beBytes 8 query.epoch.val ++
    beBytes 8 query.policyRevision.val ++ query.nonce.1 ++
    [UInt8.ofNat query.topics.val.length] ++ query.topics.val.flatMap writeTopic)

def readCutoffQuery : Reader CutoffQuery := do
  let magic ← take truncated 5
  check (magic ≠ cutoffQueryMagic) "wrong cutoff query format"
  let workspace ← takeBlock truncated 32
  let author ← takeBlock truncated 32
  let epoch ← takeU64 truncated
  let policyRevision ← takeU64 truncated
  let nonce ← takeBlock truncated 32
  let topics ← readTopics
  let done ← atEnd
  check (done = false) "trailing cutoff query"
  return { workspace, author, epoch, policyRevision, topics, nonce }

def CutoffQuery.fromWire (bytes : Bytes) : Outcome CutoffQuery := do
  failIf (maxQueryBytes < bytes.length) "cutoff query exceeds bound"
  let (query, _) ← readCutoffQuery bytes
  return query

/-! What is accepted is what is written. -/

section Accepted

variable {bytes : Bytes}

theorem DirectHead.fromWire_eq_ok {head : DirectHead} :
    DirectHead.fromWire bytes = .ok head ↔ head.toWire = .ok bytes := by
  have hmagic : directHeadMagic.length = 5 := by decide
  simp only [fromWire, toWire, bind_eq_ok, failIf_eq_ok, pure_eq_ok, Prod.exists, exists_const]
  obtain ⟨workspace, author, epoch, policyRevision, topic, recipients, through⟩ := head
  simp only [readDirectHead, readWireTopic, reader_bind_eq_ok, take_eq_ok, check_eq_ok,
    takeBlock_eq_ok, takeU64_eq_ok, readTopic_eq_ok, readRecipients_exact _ _ _, atEnd_eq_ok,
    lift_eq_ok, pure_apply_eq_ok, Prod.mk.injEq, mk.injEq, not_not, Bool.not_eq_false,
    List.isEmpty_iff, existsAndEq, true_and, and_true, exists_const, List.append_nil, hmagic,
    List.append_assoc]
  constructor
  · rintro ⟨_, u, rfl, _, hvalid⟩
    exact ⟨u, hvalid, rfl⟩
  · rintro ⟨u, hvalid, rfl⟩
    have hscope := hvalid
    simp only [validate, failIf_eq_ok, not_or, not_not] at hscope
    obtain ⟨_, ⟨_, hcount, _⟩, _⟩ := hscope
    have htopic := topic.length_le
    refine ⟨?_, u, rfl, by omega, hvalid⟩
    simp only [List.length_append, hmagic, workspace.property, author.property, beBytes_length,
      length_flatMap_block, writeTopic, List.length_singleton, maxQueryBytes]
    omega

theorem DirectRangeQuery.fromWire_eq_ok {query : DirectRangeQuery} :
    DirectRangeQuery.fromWire bytes = .ok query ↔ query.toWire = .ok bytes := by
  have hmagic : directQueryMagic.length = 5 := by decide
  simp only [fromWire, toWire, bind_eq_ok, failIf_eq_ok, pure_eq_ok, Prod.exists, exists_const]
  obtain ⟨workspace, author, epoch, policyRevision, topic, recipients, after, through⟩ := query
  simp only [readDirectQuery, readWireTopic, reader_bind_eq_ok, take_eq_ok, check_eq_ok,
    takeBlock_eq_ok, takeU64_eq_ok, readTopic_eq_ok, readRecipients_exact _ _ _, atEnd_eq_ok,
    lift_eq_ok, pure_apply_eq_ok, Prod.mk.injEq, mk.injEq, not_not, Bool.not_eq_false,
    List.isEmpty_iff, existsAndEq, true_and, and_true, exists_const, List.append_nil, hmagic,
    List.append_assoc]
  constructor
  · rintro ⟨_, u, rfl, _, hvalid⟩
    exact ⟨u, hvalid, rfl⟩
  · rintro ⟨u, hvalid, rfl⟩
    have hscope := hvalid
    simp only [validate, failIf_eq_ok, not_or, not_not] at hscope
    obtain ⟨_, _, ⟨_, hcount, _⟩, _⟩ := hscope
    have htopic := topic.length_le
    refine ⟨?_, u, rfl, by omega, hvalid⟩
    simp only [List.length_append, hmagic, workspace.property, author.property, beBytes_length,
      length_flatMap_block, writeTopic, List.length_singleton, maxQueryBytes]
    omega

theorem AvailableRangeQuery.fromWire_eq_ok {query : AvailableRangeQuery} :
    AvailableRangeQuery.fromWire bytes = .ok query ↔ query.toWire = .ok bytes := by
  have hmagic : availableQueryMagic.length = 5 := by decide
  simp only [fromWire, toWire, bind_eq_ok, failIf_eq_ok, pure_eq_ok, Prod.exists, exists_const]
  obtain ⟨workspace, author, epoch, policyRevision, after, topics⟩ := query
  simp only [readAvailableQuery, reader_bind_eq_ok, take_eq_ok, check_eq_ok, takeBlock_eq_ok,
    takeU64_eq_ok, readTopics_exact _ _ _, atEnd_eq_ok, pure_apply_eq_ok, Prod.mk.injEq, mk.injEq,
    not_not, Bool.not_eq_false, List.isEmpty_iff, existsAndEq, true_and, and_true, exists_const,
    List.append_nil, hmagic, List.append_assoc, not_or, not_lt]
  constructor
  · rintro ⟨_, rfl, htopics⟩
    exact ⟨htopics, rfl⟩
  · rintro ⟨htopics, rfl⟩
    have hcount : topics.val.length ≤ 64 := htopics.2
    have hlength := length_topics_le topics.val
    refine ⟨?_, rfl, htopics⟩
    simp only [List.length_append, hmagic, workspace.property, author.property, beBytes_length,
      List.length_singleton, maxQueryBytes]
    omega

theorem CutoffQuery.fromWire_eq_ok {sha256 : Bytes → Block 32} {query : CutoffQuery} :
    CutoffQuery.fromWire bytes = .ok query ↔ query.toWire sha256 = .ok bytes := by
  have hmagic : cutoffQueryMagic.length = 5 := by decide
  simp only [fromWire, toWire, request, bind_eq_ok, failIf_eq_ok, pure_eq_ok, Prod.exists,
    exists_const]
  obtain ⟨workspace, author, epoch, policyRevision, topics, nonce⟩ := query
  simp only [readCutoffQuery, reader_bind_eq_ok, take_eq_ok, check_eq_ok, takeBlock_eq_ok,
    takeU64_eq_ok, readTopics_exact _ _ _, atEnd_eq_ok, pure_apply_eq_ok, Prod.mk.injEq, mk.injEq,
    not_not, Bool.not_eq_false, List.isEmpty_iff, existsAndEq, true_and, and_true, exists_const,
    List.append_nil, hmagic, List.append_assoc, not_or, not_lt]
  constructor
  · rintro ⟨_, rfl, htopics⟩
    exact ⟨htopics, rfl⟩
  · rintro ⟨htopics, rfl⟩
    have hcount : topics.val.length ≤ 64 := htopics.2
    have hlength := length_topics_le topics.val
    refine ⟨?_, rfl, htopics⟩
    simp only [List.length_append, hmagic, workspace.property, author.property, nonce.property,
      beBytes_length, List.length_singleton, maxQueryBytes]
    omega

end Accepted

/-- A wire form under which a value is accepted exactly in the bytes it is written to. -/
structure Canonical {α : Type} (toWire : α → Outcome Bytes) (fromWire : Bytes → Outcome α) :
    Prop where
  read : ∀ x bytes, toWire x = .ok bytes → fromWire bytes = .ok x
  written : ∀ bytes x, fromWire bytes = .ok x → toWire x = .ok bytes

theorem canonical_queries (sha256 : Bytes → Block 32) :
    Canonical (RangeQuery.toWire sha256) (RangeQuery.fromWire sha256) ∧
      Canonical AvailableRangeQuery.toWire AvailableRangeQuery.fromWire ∧
      Canonical (CutoffQuery.toWire sha256) CutoffQuery.fromWire ∧
      Canonical DirectHead.toWire DirectHead.fromWire ∧
      Canonical DirectRangeQuery.toWire DirectRangeQuery.fromWire ∧
      Canonical CurrentViewQuery.toWire CurrentViewQuery.fromWire :=
  ⟨⟨fun _ _ => RangeQuery.fromWire_eq_ok.mpr, fun _ _ => RangeQuery.fromWire_eq_ok.mp⟩,
    ⟨fun _ _ => AvailableRangeQuery.fromWire_eq_ok.mpr,
      fun _ _ => AvailableRangeQuery.fromWire_eq_ok.mp⟩,
    ⟨fun _ _ => CutoffQuery.fromWire_eq_ok.mpr, fun _ _ => CutoffQuery.fromWire_eq_ok.mp⟩,
    ⟨fun _ _ => DirectHead.fromWire_eq_ok.mpr, fun _ _ => DirectHead.fromWire_eq_ok.mp⟩,
    ⟨fun _ _ => DirectRangeQuery.fromWire_eq_ok.mpr, fun _ _ => DirectRangeQuery.fromWire_eq_ok.mp⟩,
    ⟨fun _ _ => CurrentViewQuery.fromWire_eq_ok.mpr,
      fun _ _ => CurrentViewQuery.fromWire_eq_ok.mp⟩⟩

end Arachne.Delivery
