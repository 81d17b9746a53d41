import Arachne.Delivery.CurrentSnapshot
import Arachne.Delivery.InboxSnapshot
import Arachne.Delivery.Stagings

/-! What the decoder of a saved inbox reads: the bytes of an inbox whose cache is in order lead
to that inbox, and only the checks remain. -/

namespace Arachne.Delivery

open ByteCodec Fallible Routing SortedWindow

variable {query : RangeQuery}

theorem verifyReply_eq_offered {owner : SecurityOwner} {reply : Bytes} {range : VerifiedRange}
    (h : verifyReply owner query reply = .ok (.offered range)) :
    ∃ request offer rest, query.recoveryRequest owner.sha256 = .ok request ∧
      reply.length ≤ maxReplyBytes ∧
      readReply query reply = .ok (.offered offer range.packets, rest) ∧
      owner.verifyRecoveryOffer request offer = .ok range.proof ∧
      range.proof.verifyPackets owner.sha256 (range.packets.map RecoveredPacket.parts) =
        .ok () := by
  simp only [verifyReply, bind_eq_ok, failIf_eq_ok] at h
  obtain ⟨request, hrequest, _, hlength, ⟨frame, rest⟩, hframe, h⟩ := h
  cases frame with
  | rejected error => simp at h
  | offered offer packets =>
    simp only [bind_eq_ok, pure_eq_ok, RangeReply.offered.injEq] at h
    obtain ⟨proof, hproof, _, hpackets, rfl⟩ := h
    exact ⟨request, offer, rest, hrequest, Nat.not_lt.mp hlength, hframe, hproof, hpackets⟩

theorem fitAttachment_scope {fuel inboxLength : Nat} {log fitted : PublisherLog}
    (h : log.fitAttachment inboxLength fuel = .ok fitted) :
    fitted.workspace = log.workspace ∧ fitted.author = log.author ∧ fitted.epoch = log.epoch ∧
      9 + fitted.snapshot.length + inboxLength ≤ maxWorkspaceAttachment := by
  induction fuel generalizing log with
  | zero =>
    simp only [PublisherLog.fitAttachment] at h
    split at h
    · cases h
      exact ⟨rfl, rfl, rfl, by assumption⟩
    · cases h
  | succ fuel ih =>
    simp only [PublisherLog.fitAttachment] at h
    split at h
    · cases h
      exact ⟨rfl, rfl, rfl, by assumption⟩
    · simp only [bind_eq_ok, orFail_eq_ok] at h
      obtain ⟨next, hnext, h⟩ := h
      obtain ⟨topic, hevict⟩ := PublisherLog.evictOldest_eq_some hnext
      obtain ⟨_, _, _, _, rfl⟩ := PublisherLog.evict_eq_some.mp hevict
      have hscope := ih h
      exact hscope

namespace ObjectInbox

/-- A retained range as `retain_range` leaves it. -/
structure RangeKept (owner : SecurityOwner) (retained : RetainedReply) : Prop where
  proof : ∃ query range, RangeQuery.toWire owner.sha256 query = .ok retained.query ∧
    verifyReply owner query retained.reply = .ok (.offered range)
  fresh : retained.expiresAt ≠ 0

/-- A retained current view as `retain_current_view` leaves it. -/
structure ViewKept (owner : SecurityOwner) (retained : RetainedReply) : Prop where
  proof : ∃ query view, CurrentViewQuery.toWire query = .ok retained.query ∧
    verifyWireReply owner query retained.reply = .ok (some view) ∧
    lastExpiry view.values = some retained.expiresAt
  fresh : retained.expiresAt ≠ 0

/-- Everything that an inbox saves beside its JSON. -/
structure CacheKept (owner : SecurityOwner) (inbox : ObjectInbox) : Prop where
  ranges : ∀ range ∈ inbox.retainedRanges, RangeKept owner range
  rangeCount : inbox.retainedRanges.length ≤ maxRetainedRanges
  rangeOrder : (inbox.retainedRanges.map (·.query)).Pairwise (· < ·)
  views : ∀ view ∈ inbox.retainedCurrentViews, ViewKept owner view
  viewCount : inbox.retainedCurrentViews.length ≤ maxRetainedCurrentViews
  viewOrder : (inbox.retainedCurrentViews.map (·.query)).Pairwise (· < ·)
  index : ∀ index ∈ inbox.current, index.workspace = owner.id ∧
    owner.member = some index.authority ∧ index.epoch = owner.epoch

theorem readReplies_reads (parse : Bytes → Outcome Unit) (invalid noncanonical : String) :
    ReadsSorted (readReplies parse invalid noncanonical) (·.query)
      (fun retained => parse retained.query = .ok () ∧ retained.query.length < 256 ^ 4 ∧
        retained.expiresAt ≠ 0 ∧ retained.reply.length ≤ maxReplyBytes) encodeReply where
  done _ := rfl
  next count previous bytes result := by
    obtain ⟨replies, rest⟩ := result
    simp only [readReplies, reader_bind_eq_ok, takeU64_eq_ok, takeNat_eq_ok, take_eq_ok, lift_eq_ok,
      check_eq_ok, pure_apply_eq_ok, Prod.mk.injEq, encodeReply, List.append_assoc, not_or, not_lt,
      existsAndEq, true_and, and_true, exists_const]
    constructor
    · rintro ⟨expiresAt, query, ⟨⟩, reply, rest', rfl, hquery, hparse, _, ⟨hfresh, hreply⟩, hlast,
        replies, hrest, rfl⟩
      exact ⟨⟨query, reply, expiresAt⟩, replies, rest', ⟨hparse, hquery, hfresh, hreply⟩, hlast,
        rfl, hrest, rfl⟩
    · rintro ⟨⟨query, reply, expiresAt⟩, replies, rest', ⟨hparse, hquery, hfresh, hreply⟩, hlast,
        rfl, hrest, rfl⟩
      exact ⟨expiresAt, query, (), reply, rest', rfl, hquery, hparse,
        lt_of_le_of_lt hreply (by decide), ⟨hfresh, hreply⟩, hlast, replies, hrest, rfl⟩

section Cache

variable {json : Json} {owner : SecurityOwner} {inbox : ObjectInbox} {bytes : Bytes}

variable {retained : RetainedReply}

theorem RangeKept.parse (h : RangeKept owner retained) :
    parseRangeQuery owner retained.query = .ok () ∧ retained.query.length ≤ maxQueryBytes := by
  obtain ⟨query, _, hwire, _⟩ := h.proof
  have hparsed := RangeQuery.fromWire_eq_ok.mpr hwire
  refine ⟨by simp [parseRangeQuery, hparsed], ?_⟩
  simp only [RangeQuery.fromWire, bind_eq_ok, failIf_eq_ok] at hparsed
  exact Nat.not_lt.mp hparsed.choose_spec.1

theorem ViewKept.parse (h : ViewKept owner retained) :
    parseCurrentQuery retained.query = .ok () ∧ retained.query.length ≤ maxQueryBytes := by
  obtain ⟨query, _, hwire, _⟩ := h.proof
  have hparsed := CurrentViewQuery.fromWire_eq_ok.mpr hwire
  refine ⟨by simp [parseCurrentQuery, hparsed], ?_⟩
  simp only [CurrentViewQuery.fromWire, bind_eq_ok, failIf_eq_ok] at hparsed
  exact Nat.not_lt.mp hparsed.choose_spec.1

theorem RangeKept.length_reply (h : RangeKept owner retained) :
    retained.reply.length ≤ maxReplyBytes := by
  obtain ⟨_, _, _, hreply⟩ := h.proof
  obtain ⟨_, _, _, _, hlength, _⟩ := verifyReply_eq_offered hreply
  exact hlength

theorem ViewKept.length_reply (h : ViewKept owner retained) :
    retained.reply.length ≤ maxReplyBytes := by
  obtain ⟨_, _, _, hreply, _⟩ := h.proof
  simp only [verifyWireReply, CurrentView.fromWire, bind_eq_ok, failIf_eq_ok] at hreply
  obtain ⟨_, ⟨_, hlength, _⟩, _⟩ := hreply
  exact Nat.not_lt.mp hlength

theorem RangeKept.valid (h : RangeKept owner retained) :
    parseRangeQuery owner retained.query = .ok () ∧ retained.query.length < 256 ^ 4 ∧
      retained.expiresAt ≠ 0 ∧ retained.reply.length ≤ maxReplyBytes :=
  ⟨h.parse.1, lt_of_le_of_lt h.parse.2 (by decide), h.fresh, h.length_reply⟩

theorem ViewKept.valid (h : ViewKept owner retained) :
    parseCurrentQuery retained.query = .ok () ∧ retained.query.length < 256 ^ 4 ∧
      retained.expiresAt ≠ 0 ∧ retained.reply.length ≤ maxReplyBytes :=
  ⟨h.parse.1, lt_of_le_of_lt h.parse.2 (by decide), h.fresh, h.length_reply⟩

theorem CacheKept.readRanges_eq (h : CacheKept owner inbox) (rest : Bytes) :
    readRanges owner ([UInt8.ofNat inbox.retainedRanges.length] ++
      (inbox.retainedRanges.flatMap encodeReply ++ rest)) = .ok (inbox.retainedRanges, rest) := by
  simp only [readRanges, reader_bind_eq_ok, takeNat_eq_ok, check_eq_ok, beBytes_one,
    (readReplies_reads _ _ _).exact _ _ _ _, existsAndEq, true_and, and_true, exists_const]
  exact ⟨lt_of_le_of_lt h.rangeCount (by decide), Nat.not_lt.mpr h.rangeCount, h.rangeOrder,
    fun range hrange => (h.ranges range hrange).valid⟩

theorem CacheKept.readViews_eq (h : CacheKept owner inbox) (rest : Bytes) :
    readViews true ([UInt8.ofNat inbox.retainedCurrentViews.length] ++
      (inbox.retainedCurrentViews.flatMap encodeReply ++ rest)) =
        .ok (inbox.retainedCurrentViews, rest) := by
  simp only [readViews, if_true, reader_bind_eq_ok, takeNat_eq_ok, check_eq_ok, beBytes_one,
    (readReplies_reads _ _ _).exact _ _ _ _, existsAndEq, true_and, and_true, exists_const]
  exact ⟨lt_of_le_of_lt h.viewCount (by decide), Nat.not_lt.mpr h.viewCount, h.viewOrder,
    fun view hview => (h.views view hview).valid⟩

theorem CacheKept.readCurrent_eq (h : CacheKept owner inbox) {current : Bytes}
    (hcurrent : encodeCurrent inbox.current = .ok current) :
    readCurrent owner true (beBytes 4 current.length ++ current) = .ok (inbox.current, []) := by
  simp only [readCurrent, if_true, reader_bind_eq_ok, takeNat_eq_ok]
  cases hindex : inbox.current with
  | none =>
    rw [hindex, encodeCurrent, pure_eq_ok] at hcurrent
    subst hcurrent
    exact ⟨0, [], ⟨by decide, rfl⟩, rfl⟩
  | some index =>
    rw [hindex, encodeCurrent] at hcurrent
    obtain ⟨hworkspace, hmember, hepoch⟩ := h.index index hindex
    have hrestore := CurrentViewIndex.restore_snapshot hcurrent
    have hlength : current.length ≤ maxReplyBytes ∧ current.length ≠ 0 := by
      simp only [CurrentViewIndex.restore, bind_eq_ok, failIf_eq_ok] at hrestore
      obtain ⟨_, hbound, ⟨_, hbody, _⟩⟩ := hrestore
      refine ⟨Nat.not_lt.mp hbound, fun hzero => ?_⟩
      rw [List.length_eq_zero_iff.mp hzero] at hbody
      exact nomatch hbody
    rw [hworkspace, hepoch] at hrestore
    refine ⟨current.length, current, ⟨lt_of_le_of_lt hlength.1 (by decide), rfl⟩, ?_⟩
    rw [readIndex, if_neg hlength.2]
    simp only [hmember, orFail_some, reader_bind_eq_ok, lift_eq_ok, take_eq_ok, pure_apply_eq_ok]
    exact ⟨_, current, ⟨rfl, rfl⟩, current, [], ⟨rfl, (List.append_nil _).symm⟩, index, [],
      ⟨hrestore, rfl⟩, rfl⟩

/-- The parts of a saved inbox are the parts of the inbox. -/
theorem CacheKept.cacheOf_snapshot (h : CacheKept owner inbox)
    (hsnapshot : inbox.snapshot json = .ok bytes) :
    ∃ encoded, json.encode inbox.toSnapshot = some encoded ∧ cacheOf owner bytes =
      .ok ⟨encoded, inbox.retainedRanges, inbox.retainedCurrentViews, inbox.current⟩ := by
  simp only [snapshot, bind_eq_ok, orFail_eq_ok, failIf_eq_ok, pure_eq_ok] at hsnapshot
  obtain ⟨encoded, hencoded, current, hcurrent, _, hbound, rfl⟩ := hsnapshot
  refine ⟨encoded, hencoded, ?_⟩
  have hlength : encoded.length < 256 ^ 4 := by
    refine lt_of_le_of_lt ?_ (show maxWorkspaceAttachment < 256 ^ 4 by decide)
    refine le_trans ?_ (Nat.not_lt.mp hbound)
    simp only [List.length_append]
    omega
  have hmagic : (cacheMagic 3).length = 5 := by decide
  rw [cacheOf, List.take_left' hmagic, if_pos rfl, List.drop_left' hmagic, map_eq_ok]
  refine ⟨(⟨encoded, _, _, _⟩, []), ?_, rfl⟩
  simp only [readCache, reader_bind_eq_ok, takeNat_eq_ok, take_eq_ok]
  exact ⟨_, _, ⟨hlength, rfl⟩, _, _, ⟨rfl, rfl⟩, _, _, h.readRanges_eq _, _, _, h.readViews_eq _,
    _, _, h.readCurrent_eq hcurrent, _, _, rfl, _, _, rfl, rfl⟩

theorem length_bundle (log saved : Bytes) :
    (bundleMagic ++ (beBytes 4 log.length ++ (log ++ saved))).length =
      9 + log.length + saved.length := by
  have hmagic : bundleMagic.length = 5 := by decide
  simp only [List.length_append, hmagic, beBytes_length]
  omega

theorem readBundle_eq {log : PublisherLog} (h : Restorable log)
    (hworkspace : owner.id = log.workspace)
    (hepoch : owner.epoch = log.epoch) (hmember : owner.member = some log.author) (saved : Bytes) :
    readBundle owner (bundleMagic ++ (beBytes 4 log.snapshot.length ++ (log.snapshot ++ saved))) =
      .ok (log, saved) := by
  have hrestore : PublisherLog.restore owner.id log.author owner.epoch log.snapshot = .ok log := by
    rw [hworkspace, hepoch]
    exact h.restore_snapshot
  have hlength : log.snapshot.length < 256 ^ 4 :=
    lt_of_le_of_lt h.snapshot_length_le (by decide)
  have hmagic : bundleMagic.length = 5 := by decide
  simp only [readBundle, hmember, orFail_some, reader_bind_eq_ok, take_eq_ok, check_eq_ok,
    takeNat_eq_ok, lift_eq_ok]
  exact ⟨_, _, ⟨hmagic, rfl⟩, (), _, ⟨not_not.mpr rfl, rfl⟩, _, _, ⟨hlength, rfl⟩, _, _, ⟨rfl, rfl⟩,
    _, _, ⟨rfl, rfl⟩, hrestore, rfl⟩

/-- Restoring what an inbox saved decodes to that inbox; only the checks are left to pass. -/
theorem CacheKept.restoreSnapshot_eq (h : CacheKept owner inbox) (hjson : json.Lawful)
    {publisher : PublisherLog} {published : List RetainedPublication}
    (hretains : Retains publisher published) (hlimits : WithinLimits publisher)
    (hsaved : inbox.snapshotWithPublisher json owner publisher = .ok bytes) :
    ∃ fitted, restoreSnapshot json owner bytes =
      (inbox.checkRestored owner >>= fun _ => pure (fitted, inbox)) := by
  simp only [snapshotWithPublisher, bind_eq_ok, pure_eq_ok, PublisherLog.validateOwner,
    failIf_eq_ok, not_or, not_not] at hsaved
  obtain ⟨_, _, _, ⟨hworkspace, hepoch, hmember⟩, saved, hsnapshot, fitted, hfit, rfl⟩ := hsaved
  obtain ⟨hretains', hlimits'⟩ := hretains.fitAttachment hlimits hfit
  obtain ⟨hfitWorkspace, hfitAuthor, hfitEpoch, hroom⟩ := fitAttachment_scope hfit
  have hrestorable := hretains'.restorable hlimits'
  have hbundle := readBundle_eq hrestorable (hworkspace.trans hfitWorkspace.symm)
    (hepoch.trans hfitEpoch.symm) (hmember.trans (congrArg some hfitAuthor.symm)) saved
  have hbound : ¬maxWorkspaceAttachment < (bundleMagic ++ (beBytes 4 fitted.snapshot.length ++
      (fitted.snapshot ++ saved))).length := by
    rw [length_bundle]
    omega
  obtain ⟨encoded, hencoded, hcache⟩ := h.cacheOf_snapshot hsnapshot
  refine ⟨fitted, ?_⟩
  rw [restoreSnapshot, failIf_of_not hbound, ok_bind, hbundle, ok_bind]
  dsimp only
  rw [hcache, ok_bind, hjson.decode hencoded, orFail_some, ok_bind]

end Cache

end ObjectInbox

end Arachne.Delivery
