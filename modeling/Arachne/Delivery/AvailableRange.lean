import Mathlib.Order.Interval.Finset.Nat
import Arachne.Delivery.RangeRoundTrip

/-! Automatic recovery: a receiver sends its cursor, the publisher picks the range that comes next
and echoes it before the signed reply. The range is picked by its number of packets; whether the
receiver gets it depends on their size. -/

namespace Arachne.Delivery

open ByteCodec Fallible Routing Watermark
open Security (Mls SFrame Workspace maxApplicationContext maxApplicationCiphertext)

variable {sha256 : Bytes → Block 32} {log : PublisherLog} {wire offer : Bytes}

/-- The range that a reply names is one that the request asked for. -/
def AvailableRangeQuery.Matches (request : AvailableRangeQuery) (range : RangeQuery) : Prop :=
  request.workspace = range.workspace ∧ request.author = range.author ∧
    request.epoch = range.epoch ∧ request.policyRevision = range.policyRevision ∧
    request.after = range.after ∧ request.topics = range.topics

instance (request : AvailableRangeQuery) (range : RangeQuery) :
    Decidable (request.Matches range) :=
  inferInstanceAs (Decidable (_ ∧ _))

/-- What stands after the status of an offer: the echoed query, and the reply for it. -/
def readAvailableOffer (sha256 : Bytes → Block 32) (request : AvailableRangeQuery) :
    Reader (RangeQuery × Bytes) := do
  let length ← takeNat truncated 4
  let bytes ← take truncated length
  let query ← lift (RangeQuery.fromWire sha256 bytes)
  check (¬ request.Matches query) "available range does not match request"
  let done ← atEnd
  check (done = true) "missing available-range proof"
  let reply ← takeRest
  return (query, reply)

def readAvailableReply (sha256 : Bytes → Block 32) (request : AvailableRangeQuery) :
    Reader (Option (RangeQuery × Bytes)) := do
  let magic ← take truncated 5
  check (magic ≠ availableReplyMagic) "wrong available-range reply format"
  let status ← takeNat truncated 1
  let done ← atEnd
  if status = 1 ∧ done = true then return none
  else if status = 0 then return some (← readAvailableOffer sha256 request)
  else throw "invalid available-range reply status"

def parseAvailableReply (sha256 : Bytes → Block 32) (request : AvailableRangeQuery)
    (bytes : Bytes) : Outcome (Option (RangeQuery × Bytes)) := do
  failIf (maxReplyBytes < bytes.length) "available-range reply exceeds bound"
  let (reply, _) ← readAvailableReply sha256 request bytes
  return reply

section Parsing

variable {request : AvailableRangeQuery}

theorem length_availableReplyMagic : availableReplyMagic.length = 5 := by
  decide

theorem AvailableRangeQuery.matches_nextRange (request : AvailableRangeQuery) (head : U64) :
    request.Matches (request.nextRange head) :=
  ⟨rfl, rfl, rfl, rfl, rfl, rfl⟩

theorem parseAvailableReply_unavailable :
    parseAvailableReply sha256 request unavailableAvailableReply = .ok none := by
  have hmagic : Reads (take truncated 5) availableReplyMagic availableReplyMagic :=
    Reads.take length_availableReplyMagic
  have hstatus : Reads (takeNat truncated 1) [1] 1 :=
    Reads.takeNat (n := 1) (by decide)
  have hread : readAvailableReply sha256 request (availableReplyMagic ++ ([1] ++ [])) =
      .ok (none, []) := by
    rw [readAvailableReply, hmagic.bind_apply, (Reads.check (not_not.mpr rfl)).bind_apply_nil,
      hstatus.bind_apply, atEnd_bind]
    rfl
  rw [parseAvailableReply, failIf_of_not (by decide), ok_bind, unavailableAvailableReply,
    ← List.append_nil [1], hread]
  rfl

theorem parseAvailableReply_offer {query : RangeQuery} {reply : Bytes}
    (hwire : query.toWire sha256 = .ok wire) (hmatches : request.Matches query)
    (hreply : reply ≠ [])
    (hfits : availableReplyMagic.length + 1 + 4 + wire.length + reply.length ≤ maxReplyBytes) :
    parseAvailableReply sha256 request
        (availableReplyMagic ++ [0] ++ beBytes 4 wire.length ++ wire ++ reply) =
      .ok (some (query, reply)) := by
  have hmagic : Reads (take truncated 5) availableReplyMagic availableReplyMagic :=
    Reads.take length_availableReplyMagic
  have hstatus : Reads (takeNat truncated 1) [0] 0 :=
    Reads.takeNat (n := 0) (by decide)
  have hlength : wire.length < 256 ^ 4 := by
    have hmax : maxReplyBytes < 256 ^ 4 := by decide
    omega
  have hquery : Reads (lift (RangeQuery.fromWire sha256 wire)) [] query :=
    Reads.lift (RangeQuery.fromWire_eq_ok.mpr hwire)
  have hoffer : readAvailableOffer sha256 request (beBytes 4 wire.length ++ (wire ++ reply)) =
      .ok ((query, reply), []) := by
    rw [readAvailableOffer, (Reads.takeNat hlength).bind_apply, (Reads.take rfl).bind_apply,
      hquery.bind_apply_nil, (Reads.check (not_not.mpr hmatches)).bind_apply_nil, atEnd_bind,
      (Reads.check (by simp [hreply])).bind_apply_nil, takeRest_bind]
    rfl
  have hread : readAvailableReply sha256 request (availableReplyMagic ++ ([0] ++
      (beBytes 4 wire.length ++ (wire ++ reply)))) = .ok (some (query, reply), []) := by
    rw [readAvailableReply, hmagic.bind_apply, (Reads.check (not_not.mpr rfl)).bind_apply_nil,
      hstatus.bind_apply, atEnd_bind, if_neg (by simp), if_pos rfl]
    change (do let r ← readAvailableOffer sha256 request _; _) = _
    rw [hoffer]
    rfl
  have hbytes : availableReplyMagic ++ [0] ++ beBytes 4 wire.length ++ wire ++ reply =
      availableReplyMagic ++ ([0] ++ (beBytes 4 wire.length ++ (wire ++ reply))) := by
    simp only [List.append_assoc]
  have hsize : ¬ maxReplyBytes < (availableReplyMagic ++ ([0] ++ (beBytes 4 wire.length ++
      (wire ++ reply)))).length := by
    simp only [List.length_append, List.length_singleton, beBytes_length]
    omega
  rw [parseAvailableReply, hbytes, failIf_of_not hsize, ok_bind, hread]
  rfl

end Parsing

/-- The publications that come next after a cursor. -/
def AvailableRangeQuery.window (request : AvailableRangeQuery) (head : U64)
    (published : List RetainedPublication) : List RetainedPublication :=
  published.filter fun p => p.context.topic ∈ request.topics.val ∧ request.after < p.sequence ∧
    p.sequence ≤ (request.nextRange head).through

/-- What the offer of these publications takes up: framing, the echoed query with its topics, and
per publication its digest, context and ciphertext. -/
def AvailableRangeQuery.replySize (request : AvailableRangeQuery)
    (records : List RetainedPublication) : Nat :=
  337 + (request.topics.val.map fun topic => 1 + topic.val.length).sum +
    (records.map fun record => 61 + record.context.topic.val.length + record.ciphertext.length +
      if records.any (·.context.sequence.isSome) then 8 else 0).sum

section Sizes

theorem RangeQuery.length_toWire {query : RangeQuery} (h : query.toWire sha256 = .ok wire) :
    wire.length = 102 + (query.topics.val.map fun topic => 1 + topic.val.length).sum := by
  simp only [toWire, bind_eq_ok, pure_eq_ok] at h
  obtain ⟨_, _, rfl⟩ := h
  have hmagic : rangeQueryMagic.length = 5 := by decide
  simp only [List.length_append, hmagic, query.workspace.property, query.author.property,
    beBytes_length, List.length_singleton, List.length_flatMap, length_writeTopic]
  omega

theorem length_offerMessage {request : RecoveryRequest} {packets : List (Bytes × Bytes)}
    {message : Bytes} (h : offerMessage sha256 request packets = .ok message) :
    message.length = 152 + 32 * packets.length := by
  simp only [offerMessage, bind_eq_ok, pure_eq_ok] at h
  obtain ⟨header, hheader, digests, hdigests, rfl⟩ := h
  rw [header_eq_ok hheader, (offerDigests_eq_ok hdigests).1, List.length_append, List.length_append,
    length_headerText, beBytes_length, length_flatMap_block, List.nil_append, List.length_map]

theorem replySize_eq (range : RetainedRange)
    (hoffer : offer.length = 216 + 32 * range.records.length) :
    replySize range offer = 225 + (range.records.map fun record =>
      61 + record.context.topic.val.length + record.ciphertext.length +
        if range.records.any (·.context.sequence.isSome) then 8 else 0).sum := by
  have hsum : ∀ records : List RetainedPublication, ∀ extra : Nat,
      32 * records.length + (records.map fun record => 8 + 1 +
        record.context.topic.val.length + 16 + 4 + record.ciphertext.length + extra).sum =
      (records.map fun record =>
        61 + record.context.topic.val.length + record.ciphertext.length + extra).sum := by
    intro records extra
    induction records with
    | nil => rfl
    | cons record records ih =>
      simp only [List.length_cons, List.map_cons, List.sum_cons]
      omega
  rw [replySize, hoffer, ← hsum, RetainedRange.sequenced]
  omega

end Sizes

section Window

variable {published : List RetainedPublication}

theorem Retains.length_window_le (h : Retains log published) (after through : U64)
    (topics : List Topic) :
    (published.filter fun p =>
      p.context.topic ∈ topics ∧ after < p.sequence ∧ p.sequence ≤ through).length ≤
        through.val - after.val := by
  have hnodup : ((published.filter fun p => p.context.topic ∈ topics ∧ after < p.sequence ∧
      p.sequence ≤ through).map fun p => p.sequence.val).Nodup := by
    refine List.Nodup.sublist (List.filter_sublist.map _) ?_
    rw [h.sequences]
    exact List.nodup_range'
  have hsubset : ((published.filter fun p => p.context.topic ∈ topics ∧ after < p.sequence ∧
      p.sequence ≤ through).map fun p => p.sequence.val).toFinset ⊆
        Finset.Ioc after.val through.val := by
    intro n hn
    simp only [List.mem_toFinset, List.mem_map, List.mem_filter, decide_eq_true_eq] at hn
    obtain ⟨p, ⟨_, _, hafter, hthrough⟩, rfl⟩ := hn
    exact Finset.mem_Ioc.mpr ⟨hafter, hthrough⟩
  have hcard := Finset.card_le_card hsubset
  rwa [List.toFinset_card_of_nodup hnodup, List.length_map, Nat.card_Ioc] at hcard

/-- No watermark is past a cursor on these topics. -/
def PublisherLog.Keeps (log : PublisherLog) (after : U64) (topics : List Topic) : Prop :=
  ∀ topic ∈ topics, ∀ history, log.topics.find? topic = some history →
    history.evictedThrough ≤ after

/-- The topic loop gathers a window that is small enough and still there. -/
theorem Retains.gather_window (h : Retains log published) {after through : U64}
    {topics : List Topic} (hkeeps : log.Keeps after topics) {acc : List RetainedPublication}
    (hsmall : acc.length + (topics.flatMap fun topic => published.filter fun p =>
      p.context.topic = topic ∧ after < p.sequence ∧ p.sequence ≤ through).length ≤
        maxRecoveryPackets) :
    ∃ records, log.gather after through topics acc = .ok records := by
  induction topics generalizing acc with
  | nil => exact ⟨acc, rfl⟩
  | cons topic topics ih =>
    have hrest : log.Keeps after topics := fun other hother =>
      hkeeps other (List.mem_cons_of_mem _ hother)
    rw [List.flatMap_cons, List.length_append] at hsmall
    rw [PublisherLog.gather]
    cases hfind : log.topics.find? topic with
    | none => exact ih hrest (by omega)
    | some history =>
      have hmark := hkeeps topic List.mem_cons_self history hfind
      have hrecords : (history.records.filter fun r =>
          after < r.sequence ∧ r.sequence ≤ through) = published.filter fun p =>
            p.context.topic = topic ∧ after < p.sequence ∧ p.sequence ≤ through := by
        rw [h.records topic history hfind, List.filter_filter]
        refine List.filter_congr fun p _ => ?_
        rw [← Bool.decide_and, decide_eq_decide]
        have hle : after < p.sequence → history.evictedThrough < p.sequence :=
          fun hlt => hmark.trans_lt hlt
        tauto
      dsimp only
      rw [if_neg (not_lt.mpr hmark), hrecords, if_neg]
      · apply ih hrest
        rw [List.length_append]
        omega
      · rw [List.length_append]
        omega

variable {request : AvailableRangeQuery}

theorem AvailableRangeQuery.nextRange_through {head : U64} (hbehind : request.after < head) :
    request.after < (request.nextRange head).through ∧ (request.nextRange head).through ≤ head ∧
      (request.nextRange head).through.val - request.after.val ≤ maxRecoveryPackets := by
  have hadd := saturatingAdd_val request.after maxRecoveryPackets
  have hthrough : (request.nextRange head).through.val =
      min head.val (saturatingAdd request.after maxRecoveryPackets).val :=
    Fin.coe_min _ _
  have hlt : request.after.val < head.val := hbehind
  have hhead := head.isLt
  have hpackets : maxRecoveryPackets = 32 := rfl
  refine ⟨Fin.lt_def.mpr ?_, min_le_left _ _, ?_⟩
  · omega
  · omega

/-- The next window after a cursor is served if none of it was evicted. -/
theorem Retains.select_window (h : Retains log published) (sha256 : Bytes → Block 32)
    (hkeeps : log.Keeps request.after request.topics.val)
    (htopics : request.topics.val ≠ [] ∧ request.topics.val.length ≤ maxTopics)
    (hbehind : request.after < log.head) :
    ∃ range, log.select sha256 request.after (request.nextRange log.head).through
        request.topics = .ok range ∧ range.records = request.window log.head published := by
  obtain ⟨hafter, hhead, hcount⟩ := AvailableRangeQuery.nextRange_through hbehind
  generalize hthrough : (request.nextRange log.head).through = through at *
  have hlength := h.length_window_le request.after through request.topics.val
  have hperm := flatMap_filter_perm (fun p : RetainedPublication => p.context.topic)
    (fun p => request.after < p.sequence ∧ p.sequence ≤ through) published
    (request.topics.property.imp ne_of_lt)
  have hgathered : ∃ records, log.gather request.after through request.topics.val [] =
      .ok records := by
    apply h.gather_window hkeeps
    rw [List.length_nil, Nat.zero_add]
    refine (le_of_eq ?_).trans (hlength.trans hcount)
    convert hperm.length_eq
  obtain ⟨records, hgather⟩ := hgathered
  have hvalid : ¬ (request.after ≥ through ∨ through > log.head ∨ request.topics.val = [] ∨
      request.topics.val.length > maxTopics) := by
    simp only [not_or, not_le, not_lt]
    exact ⟨hafter, hhead, htopics⟩
  obtain ⟨range, hselect⟩ : ∃ range, log.select sha256 request.after through request.topics =
      .ok range := by
    rw [PublisherLog.select, if_neg hvalid, hgather]
    exact ⟨_, rfl⟩
  refine ⟨range, hselect, ?_⟩
  rw [h.select hselect, AvailableRangeQuery.window, hthrough]

end Window

section Progress

variable {Group Signer Staged Key : Type} {mls : Mls Group Signer Staged}

variable {owner receiver : Workspace Group Signer} {policy : RoutingTable} {requester : PeerId}
  {request : AvailableRangeQuery} {published : List RetainedPublication}

theorem PublisherLog.authorizeHistory_topics {scope : HistoryScope} {revision : U64}
    {topics : TopicSet}
    (h : log.authorizeHistory mls owner policy requester scope revision topics = .ok ()) :
    topics.val ≠ [] ∧ topics.val.length ≤ maxTopics := by
  rw [PublisherLog.authorizeHistory] at h
  split at h
  · cases h
  · rw [Delivery.authorizeHistory] at h
    split at h
    · cases h
    · rename_i htopics
      simpa only [not_or, not_lt] using htopics

theorem length_signOffer (hknows : Knows mls receiver owner log) {range : RetainedRange}
    (hoffer : range.signOffer mls owner = .ok offer) :
    offer.length = 216 + 32 * range.records.length := by
  obtain ⟨_, message, signature, hmessage, hsignature, rfl⟩ := signRecoveryOffer_eq_ok hoffer
  obtain ⟨_, _, _, hsigns⟩ := hknows.signer
  obtain ⟨signed, hsigned, hsize, _⟩ := hsigns message
  obtain rfl := Option.some.inj (hsignature.symm.trans hsigned)
  rw [List.length_append, length_offerMessage hmessage, hsize, List.length_map]
  omega

theorem AvailableRangeQuery.nextRange_wire {head : U64}
    (htopics : request.topics.val ≠ [] ∧ request.topics.val.length ≤ maxTopics)
    (hbehind : request.after < head) (sha256 : Bytes → Block 32) :
    ∃ recovery wire, (request.nextRange head).recoveryRequest sha256 = .ok recovery ∧
      (request.nextRange head).toWire sha256 = .ok wire := by
  have hvalid : ¬ ((request.nextRange head).after ≥ (request.nextRange head).through ∨
      (request.nextRange head).topics.val = [] ∨
      maxTopics < (request.nextRange head).topics.val.length) := by
    simp only [not_or, not_le, not_lt]
    exact ⟨(nextRange_through hbehind).1, htopics⟩
  rw [RangeQuery.toWire, RangeQuery.recoveryRequest, failIf_of_not hvalid]
  exact ⟨_, _, rfl, rfl⟩

theorem offeredReply_ne_nil (range : RetainedRange) (offer : Bytes) :
    offeredReply range offer ≠ [] := by
  rw [offeredReply]
  split
  · simp [rejected]
  · simp [encodedReply]

section Served

variable (hauthorized : log.authorizeHistory mls owner policy requester
    (request.workspace, request.author, request.epoch) request.policyRevision request.topics =
      .ok ()) (hbehind : request.after < log.head)

include hauthorized hbehind

theorem serveAvailableRange_eq {reply : Bytes}
    (hwire : (request.nextRange log.head).toWire mls.sha256 = .ok wire)
    (hreply : serveRange mls log owner policy requester (request.nextRange log.head) = .ok reply) :
    serveAvailableRange mls log owner policy requester request =
      .ok (if availableReplyMagic.length + 1 + 4 + wire.length + reply.length ≤ maxReplyBytes then
        availableReplyMagic ++ [0] ++ beBytes 4 wire.length ++ wire ++ reply
      else unavailableAvailableReply) := by
  rw [serveAvailableRange, hauthorized]
  dsimp only
  rw [if_neg (not_le.mpr hbehind), hreply, ok_bind, availableOffer, hwire, ok_bind]
  by_cases hfits : availableReplyMagic.length + 1 + 4 + wire.length + reply.length ≤ maxReplyBytes
  · rw [failIf_of_not (not_lt.mpr hfits), if_pos hfits]
    rfl
  · rw [failIf_of (not_le.mp hfits), if_neg hfits]
    rfl

variable (sframe : SFrame Group Key) (hretains : Retains log published)
  (hknows : Knows mls receiver owner log)
  (hsha : Set.InjOn mls.sha256 {text | text ∈ log.packetTexts})
  (hkeeps : log.Keeps request.after request.topics.val)

include hretains hknows hsha hkeeps

/-- What a receiver that sends its cursor gets: the next window if the offer fits, else a refusal
or nothing. -/
theorem serveAvailableRange_spec :
    ∃ answer, serveAvailableRange mls log owner policy requester request = .ok answer ∧
      if request.replySize (request.window log.head published) ≤ maxReplyBytes then
        ∃ reply proof, parseAvailableReply mls.sha256 request answer =
            .ok (some (request.nextRange log.head, reply)) ∧
          verifyReply (securityOwner mls sframe receiver) (request.nextRange log.head) reply =
            .ok (.offered ⟨proof, (request.window log.head published).map
              RetainedPublication.recovered⟩)
      else
        parseAvailableReply mls.sha256 request answer = .ok none ∨
          ∃ reply, parseAvailableReply mls.sha256 request answer =
              .ok (some (request.nextRange log.head, reply)) ∧
            verifyReply (securityOwner mls sframe receiver) (request.nextRange log.head) reply =
              .ok (.rejected (.history .tooLarge)) := by
  have htopics := PublisherLog.authorizeHistory_topics hauthorized
  obtain ⟨range, hselect, hwindow⟩ := hretains.select_window mls.sha256 hkeeps htopics hbehind
  have hrange : log.authorizedRange mls owner policy requester (request.nextRange log.head) =
      .ok range := by
    unfold PublisherLog.authorizedRange AvailableRangeQuery.nextRange
    rw [hauthorized]
    exact congrArg (Except.mapError RetrievalError.history) hselect
  obtain ⟨offer, endpoint, hoffer, hshort, hverified⟩ :=
    signOffer_verifies hretains hknows hsha hrange
  have hserved : serveRange mls log owner policy requester (request.nextRange log.head) =
      .ok (offeredReply range offer) := by
    rw [serveRange, hrange]
    dsimp only
    rw [hoffer]
    rfl
  obtain ⟨recovery, wire, hrecovery, hwire⟩ :=
    AvailableRangeQuery.nextRange_wire htopics hbehind mls.sha256
  have hsize : availableReplyMagic.length + 1 + 4 + wire.length + replySize range offer =
      request.replySize (request.window log.head published) := by
    have hsame : (request.nextRange log.head).topics = request.topics := rfl
    rw [RangeQuery.length_toWire hwire, replySize_eq range (length_signOffer hknows hoffer),
      length_availableReplyMagic, AvailableRangeQuery.replySize, hwindow, hsame]
    omega
  have hparsed : availableReplyMagic.length + 1 + 4 + wire.length +
      (offeredReply range offer).length ≤ maxReplyBytes →
      parseAvailableReply mls.sha256 request (availableReplyMagic ++ [0] ++
        beBytes 4 wire.length ++ wire ++ offeredReply range offer) =
          .ok (some (request.nextRange log.head, offeredReply range offer)) :=
    parseAvailableReply_offer hwire (request.matches_nextRange log.head)
      (offeredReply_ne_nil range offer)
  refine ⟨_, serveAvailableRange_eq hauthorized hbehind hwire hserved, ?_⟩
  rw [← hsize, ← hwindow]
  have hsmall : ¬ maxReplyBytes < replySize range offer →
      offeredReply range offer = encodedReply range offer := fun h => if_neg h
  split
  · rename_i hfits
    have heq := hsmall (by omega)
    have hlength := length_encodedReply range offer
    rw [← hlength, ← heq] at hfits
    have hbound : (encodedReply range offer).length ≤ maxReplyBytes := by
      rw [← heq]
      omega
    rw [if_pos hfits]
    have hverify : ∃ proof, verifyReply (securityOwner mls sframe receiver)
        (request.nextRange log.head) (encodedReply range offer) =
          .ok (.offered ⟨proof, range.records.map RetainedPublication.recovered⟩) :=
      ⟨_, verifyReply_encodedReply hretains hrange hrecovery hbound hshort hverified⟩
    obtain ⟨proof, hproof⟩ := hverify
    exact ⟨_, proof, hparsed hfits, heq ▸ hproof⟩
  · rename_i hlarge
    by_cases hfits : availableReplyMagic.length + 1 + 4 + wire.length +
        (offeredReply range offer).length ≤ maxReplyBytes
    · right
      have hreject : offeredReply range offer = rejected (.history .tooLarge) := by
        apply if_pos
        by_contra hle
        rw [hsmall hle, length_encodedReply] at hfits
        exact hlarge hfits
      rw [if_pos hfits]
      refine ⟨_, hparsed hfits, ?_⟩
      rw [hreject]
      exact verifyReply_rejected _ hrecovery _
    · left
      rw [if_neg hfits]
      exact parseAvailableReply_unavailable

/-- The receiver gets a range exactly when the offer of the next window fits. -/
theorem offered_iff_fits :
    (∃ answer query reply range,
      serveAvailableRange mls log owner policy requester request = .ok answer ∧
        parseAvailableReply mls.sha256 request answer = .ok (some (query, reply)) ∧
        query.after = request.after ∧ request.after < query.through ∧
        verifyReply (securityOwner mls sframe receiver) query reply = .ok (.offered range)) ↔
      request.replySize (request.window log.head published) ≤ maxReplyBytes := by
  obtain ⟨answer, hanswer, hspec⟩ := serveAvailableRange_spec hauthorized hbehind sframe
    hretains hknows hsha hkeeps
  constructor
  · rintro ⟨answer', query, reply, range, hanswer', hparsed, _, _, hoffered⟩
    by_contra hlarge
    obtain rfl := ok_unique hanswer hanswer'
    rw [if_neg hlarge] at hspec
    rcases hspec with hnone | ⟨reply', hparsed', hrejected⟩
    · cases ok_unique hparsed hnone
    · cases ok_unique hparsed hparsed'
      cases ok_unique hoffered hrejected
  · intro hfits
    rw [if_pos hfits] at hspec
    obtain ⟨reply, proof, hparsed, hoffered⟩ := hspec
    exact ⟨answer, _, reply, _, hanswer, hparsed, rfl,
      (AvailableRangeQuery.nextRange_through hbehind).1, hoffered⟩

end Served

/-- A receiver behind the head of a publisher whose next window is still there moves on exactly
when that window and the echoed query fit in one reply. -/
theorem available_range_progress_iff (sframe : SFrame Group Key) {workspace : WorkspaceId}
    {author : Block 32} {epoch : U64} {log : PublisherLog} {published : List RetainedPublication}
    (hrun : PublisherRun workspace author epoch log published)
    {receiver owner : Workspace Group Signer} (hknows : Knows mls receiver owner log)
    (hsha : Set.InjOn mls.sha256 {text | text ∈ log.packetTexts}) {policy : RoutingTable}
    {requester : PeerId} {request : AvailableRangeQuery}
    (hauthorized : log.authorizeHistory mls owner policy requester
      (request.workspace, request.author, request.epoch) request.policyRevision request.topics =
        .ok ())
    (hkeeps : ∀ topic ∈ request.topics.val, ∀ history, log.topics.find? topic = some history →
      history.evictedThrough ≤ request.after) (hbehind : request.after < log.head) :
    (∃ answer query reply range,
      serveAvailableRange mls log owner policy requester request = .ok answer ∧
        parseAvailableReply mls.sha256 request answer = .ok (some (query, reply)) ∧
        query.after = request.after ∧ request.after < query.through ∧
        verifyReply (securityOwner mls sframe receiver) query reply = .ok (.offered range)) ↔
      request.replySize (request.window log.head published) ≤ maxReplyBytes := by
  obtain ⟨hretains, _⟩ := hrun.retains
  exact offered_iff_fits hauthorized hbehind sframe hretains hknows hsha hkeeps

end Progress

section Sample

open Security (Script)
open Security.Sample (block ident workspaceId pair leader follower sframe)

theorem notesLog_append {head : U64} {records : List RetainedPublication}
    {record : RetainedPublication} (hworkspace : record.context.workspace = workspaceId)
    (htopic : record.context.topic = notesTopic) (hnonempty : record.ciphertext ≠ [])
    (hbounded : record.ciphertext.length ≤ maxApplicationCiphertext)
    (hfresh : ∀ r ∈ records, r.context.id ≠ record.context.id)
    (hnext : checkedSucc head = some record.sequence) (hlegacy : record.context.sequence = none)
    (hcount : records.length < maxPacketsPerTopic)
    (hbytes : ((records ++ [record]).map RetainedPublication.weight).sum ≤ maxRetainedBytes) :
    (notesLog head records).append record.context record.ciphertext =
      .ok (record.sequence, notesLog record.sequence (records ++ [record])) := by
  have hretained : (notesLog head records).retained = records := by
    simp [PublisherLog.retained, notesLog, OrderedMap.values]
  have hfind : (notesLog head records).topics.find? notesTopic = some ⟨0, records⟩ := by
    simp [notesLog, OrderedMap.find?, OrderedMap.lookup]
  have hpushed : (notesLog head records).push record =
      notesLog record.sequence (records ++ [record]) := by
    simp [PublisherLog.push, PublisherLog.history, htopic, notesLog, OrderedMap.find?,
      OrderedMap.lookup, OrderedMap.insert, OrderedMap.insertEntry]
  have hcounted : (notesLog record.sequence (records ++ [record])).evictToCount notesTopic =
      .ok (notesLog record.sequence (records ++ [record])) := by
    have hwithin : ¬ (records ++ [record]).length > maxPacketsPerTopic := by
      rw [List.length_append, List.length_singleton]
      omega
    simp only [PublisherLog.evictToCount, notesLog, OrderedMap.find?, OrderedMap.lookup, if_true]
    exact if_neg hwithin
  have htrimmed : ∀ fuel, PublisherLog.evictToBytes fuel
      (notesLog record.sequence (records ++ [record])) =
        .ok (notesLog record.sequence (records ++ [record])) := by
    intro fuel
    cases fuel with
    | zero => exact if_pos hbytes
    | succ fuel => exact if_pos hbytes
  have hvalid : ¬ (record.context.workspace ≠ (notesLog head records).workspace ∨
      record.ciphertext = [] ∨ record.ciphertext.length > maxApplicationCiphertext) := by
    simp only [not_or, not_not, not_lt]
    exact ⟨hworkspace, hnonempty, hbounded⟩
  have hknown : ¬ ((notesLog head records).topics.find? record.context.topic = none ∧
      (notesLog head records).topics.size = maxTopics) := by
    rw [htopic, hfind]
    simp
  have hnew : ¬ ∃ r ∈ (notesLog head records).retained, r.context.id = record.context.id := by
    rw [hretained]
    rintro ⟨r, hr, hid⟩
    exact hfresh r hr hid
  have hunnumbered : ¬ record.context.sequence.any (fun number => number.val ≠ record.sequence) =
      true := by
    rw [hlegacy]
    simp
  have hhead : (notesLog head records).head = head := rfl
  rw [PublisherLog.append, failIf_of_not hvalid, ok_bind, failIf_of_not hknown, ok_bind,
    failIf_of_not hnew, ok_bind, hhead, hnext, orFail_some, ok_bind, failIf_of_not hunnumbered,
    ok_bind]
  dsimp only
  rw [hpushed, htopic, hcounted, ok_bind, htrimmed, ok_bind]
  rfl

/-- A publication as large as one may be. -/
def photo (n : Nat) : RetainedPublication :=
  ⟨Fin.ofNat _ (n + 3), ⟨workspaceId, 1, notesTopic,
    ident (UInt8.ofNat (n + 2)), none⟩,
    List.replicate 16383 0 ++ [UInt8.ofNat (n + 9)]⟩

def album (n : Nat) : List RetainedPublication :=
  [legacyNote, sequencedNote] ++ (List.range n).map photo

theorem album_succ (n : Nat) : album (n + 1) = album n ++ [photo n] := by
  rw [album, album, List.range_succ, List.map_append, ← List.append_assoc]
  rfl

theorem length_photo (n : Nat) : (photo n).ciphertext.length = maxApplicationCiphertext := by
  rw [photo, List.length_append, List.length_replicate]
  rfl

theorem weight_photo_le (n : Nat) : (photo n).weight ≤ 16616 := by
  have hcontext := (photo n).context.length_authenticatedBytes_le
  have hlength := length_photo n
  rw [RetainedPublication.weight, hlength]
  simp only [maxApplicationCiphertext]
  omega

theorem weight_album_le (n : Nat) :
    ((album n).map RetainedPublication.weight).sum ≤ 466 + n * 16616 := by
  induction n with
  | zero => decide
  | succ n ih =>
    rw [album_succ, List.map_append, List.sum_append, List.map_singleton, List.sum_singleton]
    have hphoto := weight_photo_le n
    omega

theorem album_run {n : Nat} (hn : n ≤ 8) : PublisherRun workspaceId (block 1) 1
    (notesLog (Fin.ofNat _ (n + 2)) (album n)) (album n) := by
  induction n with
  | zero => exact notes_run
  | succ n ih =>
    have hfresh : ∀ n < 8, ∀ r ∈ album n, r.context.id ≠ (photo n).context.id := by
      decide
    have hnext : ∀ n < 8, checkedSucc (Fin.ofNat _ (n + 2)) = some (photo n).sequence := by
      decide
    have hweight := weight_album_le (n + 1)
    rw [album_succ] at hweight ⊢
    have happend : (notesLog (Fin.ofNat _ (n + 2)) (album n)).append (photo n).context
        (photo n).ciphertext =
          .ok ((photo n).sequence, notesLog (photo n).sequence (album n ++ [photo n])) := by
      apply notesLog_append rfl rfl _ (length_photo n).le (hfresh n hn) (hnext n hn) rfl
      · simp only [album, List.length_append, List.length_map, List.length_range,
          maxPacketsPerTopic, List.length_cons, List.length_nil]
        omega
      · refine hweight.trans ?_
        simp only [maxRetainedBytes]
        omega
      · exact List.append_ne_nil_of_right_ne_nil _ (List.cons_ne_nil _ _)
    exact (ih (Nat.le_of_succ_le hn)).tail (.append happend)

/-- The administrator after eight such publications. -/
def photos : PublisherLog := notesLog (Fin.ofNat _ 10) (album 8)

theorem follower_knows_photos : Knows pair.mls (follower pair)
    (leader pair) photos :=
  ⟨follower_knows.member, follower_knows.workspace, follower_knows.epoch, follower_knows.signer⟩

theorem photos_retained : photos.retained = album 8 := by
  simp [PublisherLog.retained, photos, notesLog, OrderedMap.values]

theorem sha256_photo (n : Nat) : pair.mls.sha256 (packetText (photo n).parts) =
    ⟨List.replicate 32 (UInt8.ofNat (n + 9) + 1), List.length_replicate⟩ := by
  have hlast : packetText (photo n).parts = utf8 "data-fabric/recovery-packet/v1\x00" ++
      beBytes 4 (photo n).parts.1.length ++ (photo n).parts.1 ++
      beBytes 4 (photo n).parts.2.length ++ List.replicate 16383 0 ++ [UInt8.ofNat (n + 9)] := by
    rw [packetText, List.append_assoc _ (List.replicate 16383 0)]
    rfl
  rw [hlast]
  simp only [Script.hashing, Script.digest, List.getLastD_concat]

theorem photos_injOn : Set.InjOn pair.mls.sha256 {text | text ∈ photos.packetTexts} := by
  have hold : ([legacyNote, sequencedNote].map fun record =>
      pair.mls.sha256 (packetText record.parts)) =
        [⟨List.replicate 32 8, rfl⟩, ⟨List.replicate 32 9, rfl⟩] := by
    decide
  have hdigests : photos.packetTexts.map pair.mls.sha256 =
      [⟨List.replicate 32 8, rfl⟩, ⟨List.replicate 32 9, rfl⟩] ++ (List.range 8).map fun n =>
        ⟨List.replicate 32 (UInt8.ofNat (n + 9) + 1), List.length_replicate⟩ := by
    have hnew := List.map_congr_left (l := List.range 8) fun n _ => sha256_photo n
    rw [PublisherLog.packetTexts, photos_retained, album, List.map_map, List.map_append, ← hold,
      ← hnew, List.map_map]
    rfl
  have hnodup : (photos.packetTexts.map pair.mls.sha256).Nodup := by
    rw [hdigests]
    decide
  intro text htext other hother heq
  exact List.inj_on_of_nodup_map hnodup htext hother heq

def photosRequest : AvailableRangeQuery :=
  ⟨workspaceId, block 1, 1, 1, 2, notesTopics⟩

theorem photos_window : photosRequest.window photos.head (album 8) = (List.range 8).map photo := by
  have hold : [legacyNote, sequencedNote].filter (fun p =>
      p.context.topic ∈ photosRequest.topics.val ∧ photosRequest.after < p.sequence ∧
        p.sequence ≤ (photosRequest.nextRange photos.head).through) = [] := by
    decide
  have hnew : ∀ p ∈ (List.range 8).map photo,
      p.context.topic ∈ photosRequest.topics.val ∧ photosRequest.after < p.sequence ∧
        p.sequence ≤ (photosRequest.nextRange photos.head).through := by
    decide
  rw [AvailableRangeQuery.window, album, List.filter_append, hold, List.nil_append,
    List.filter_eq_self]
  intro p hp
  exact decide_eq_true (hnew p hp)

theorem photos_replySize :
    photosRequest.replySize (photosRequest.window photos.head (album 8)) = 131943 := by
  have hlegacy : ((List.range 8).map photo).any (·.context.sequence.isSome) = false := by
    decide
  have hphoto : ∀ n, 61 + (photo n).context.topic.val.length + (photo n).ciphertext.length +
      (if false = true then 8 else 0) = 16450 := by
    intro n
    have htopic : (photo n).context.topic.val.length = 5 := rfl
    rw [htopic, length_photo]
    rfl
  have htopics : (photosRequest.topics.val.map fun topic => 1 + topic.val.length).sum = 6 := rfl
  rw [photos_window, AvailableRangeQuery.replySize, hlegacy, htopics, List.map_map,
    Function.comp_def, List.map_congr_left (g := fun _ => 16450) fun n _ => hphoto n]
  rfl

/-- Eight publications of the largest size are the next window of a receiver that is up to date
with what came before; the same request is refused for as long as they are retained. -/
theorem available_range_stalls :
    PublisherRun workspaceId (block 1) 1 photos (album 8) ∧
    Knows pair.mls (follower pair) (leader pair) photos ∧
    Set.InjOn pair.mls.sha256 {text | text ∈ photos.packetTexts} ∧
    photos.authorizeHistory pair.mls (leader pair) notesPolicy
      (block 12) (photosRequest.workspace, photosRequest.author, photosRequest.epoch)
        photosRequest.policyRevision photosRequest.topics = .ok () ∧
    (∀ topic ∈ photosRequest.topics.val, ∀ history, photos.topics.find? topic = some history →
      history.evictedThrough ≤ photosRequest.after) ∧
    photosRequest.after < photos.head ∧
    ¬ ∃ answer query reply range,
      serveAvailableRange pair.mls photos (leader pair) notesPolicy
          (block 12) photosRequest = .ok answer ∧
        parseAvailableReply pair.mls.sha256 photosRequest answer =
          .ok (some (query, reply)) ∧
        query.after = photosRequest.after ∧ photosRequest.after < query.through ∧
        verifyReply (securityOwner pair.mls sframe (follower pair))
          query reply = .ok (.offered range) := by
  have hauthorized : photos.authorizeHistory pair.mls (leader pair)
      notesPolicy (block 12) (photosRequest.workspace, photosRequest.author,
        photosRequest.epoch) photosRequest.policyRevision photosRequest.topics = .ok () := by
    decide
  have hkeeps : ∀ topic ∈ photosRequest.topics.val, ∀ history,
      photos.topics.find? topic = some history →
        history.evictedThrough ≤ photosRequest.after := by
    intro topic htopic history hhistory
    obtain rfl := List.mem_singleton.mp htopic
    obtain rfl := Option.some.inj hhistory
    exact Fin.zero_le _
  have hbehind : photosRequest.after < photos.head := by
    decide
  have hrun : PublisherRun workspaceId (block 1) 1 photos (album 8) :=
    album_run le_rfl
  refine ⟨hrun, follower_knows_photos, photos_injOn, hauthorized, hkeeps, hbehind, ?_⟩
  obtain ⟨hretains, _⟩ := hrun.retains
  rw [offered_iff_fits hauthorized hbehind sframe hretains follower_knows_photos photos_injOn
    hkeeps, photos_replySize]
  decide

/-- A receiver that has nothing yet gets the two notes. -/
theorem available_range_progress_notes :
    ∃ answer query reply range,
      serveAvailableRange pair.mls notes (leader pair) notesPolicy
          (block 12) { photosRequest with after := 0 } = .ok answer ∧
        parseAvailableReply pair.mls.sha256 { photosRequest with after := 0 } answer =
          .ok (some (query, reply)) ∧
        query.after = 0 ∧ 0 < query.through ∧
        verifyReply (securityOwner pair.mls sframe (follower pair))
          query reply = .ok (.offered range) := by
  have hkeeps : ∀ topic ∈ photosRequest.topics.val, ∀ history,
      notes.topics.find? topic = some history → history.evictedThrough ≤ 0 := by
    intro topic htopic history hhistory
    obtain rfl := List.mem_singleton.mp htopic
    obtain rfl := Option.some.inj hhistory
    exact le_rfl
  have hauthorized : notes.authorizeHistory pair.mls (leader pair) notesPolicy
      (block 12) (photosRequest.workspace, photosRequest.author, photosRequest.epoch)
      photosRequest.policyRevision photosRequest.topics = .ok () := by decide
  let request : AvailableRangeQuery := { photosRequest with after := 0 }
  have hfits : request.replySize (request.window notes.head [legacyNote, sequencedNote]) ≤
      maxReplyBytes := by decide
  have hiff := @available_range_progress_iff _ _ _ _ _ sframe _ _ _ _ _ notes_run _ _
    follower_knows notes_injOn _ _ request hauthorized hkeeps (by decide)
  exact hiff.mpr hfits

end Sample

end Arachne.Delivery
