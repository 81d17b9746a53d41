import Arachne.Delivery.Offers
import Arachne.Security.Sample

/-! What a publisher answers to a range query is what a receiver reads out of the answer. -/

namespace Arachne.Delivery

open ByteCodec Fallible Routing
open RetainedPublication (parts recovered)
open Security (Mls SFrame Workspace ScriptGroup maxApplicationContext
  maxApplicationCiphertext)

variable {sha256 : Bytes → Block 32} {endpoint : Block 32} {Group Signer Staged : Type}
  {log : PublisherLog} {range : RetainedRange} {records : List RetainedPublication} {offer : Bytes}
  {through : U64}

section Framing

theorem length_writeTopic (topic : Topic) : (writeTopic topic).length = 1 + topic.val.length := by
  rw [writeTopic, List.length_append, List.length_singleton]

theorem length_encodeRecord (sequenced : Bool) (record : RetainedPublication) :
    (encodeRecord sequenced record).length = 8 + 1 + record.context.topic.val.length + 16 + 4 +
      record.ciphertext.length + if sequenced then 8 else 0 := by
  have hid := record.context.id.2
  cases sequenced <;>
    simp only [encodeRecord, List.length_append, beBytes_length, length_writeTopic, hid,
      Bool.false_eq_true, if_false, if_true, List.length_nil] <;> omega

theorem length_encodedReply (range : RetainedRange) (offer : Bytes) :
    (encodedReply range offer).length = replySize range offer := by
  have hmagic : (if range.sequenced = true then sequencedReplyMagic else rangeReplyMagic).length =
      5 := by
    split <;> decide
  simp only [encodedReply, replySize, List.length_append, hmagic, List.length_singleton,
    beBytes_length, List.length_flatMap, length_encodeRecord]
  omega

theorem reads_sequence {sequenced : Bool} {sequence : Option NonZeroU64}
    (h : sequence.isSome → sequenced = true) :
    Reads (readSequence sequenced)
      (if sequenced then beBytes 8 (NonZeroU64.orZero sequence).val else []) sequence := by
  cases sequenced with
  | true =>
    refine (Reads.takeU64 _).bind_pure ?_
    rw [NonZeroU64.new_orZero]
    exact Reads.pure _
  | false =>
    cases sequence with
    | none => exact Reads.pure none
    | some number => cases h rfl

/-- A record that a query asks for, by itself. -/
structure Answers (query : RangeQuery) (record : RetainedPublication) : Prop where
  workspace : record.context.workspace = query.workspace
  topic : record.context.topic ∈ query.topics.val
  through : record.sequence ≤ query.through
  numbered : ∀ number, record.context.sequence = some number → number.val = record.sequence
  nonempty : record.ciphertext ≠ []
  bounded : record.ciphertext.length ≤ maxApplicationCiphertext

variable {query : RangeQuery}

/-- Records in order and without a repeated id read back as they were written. -/
theorem reads_packets {sequenced : Bool} {ids : List (Block 16)} {last : U64}
    (hanswers : ∀ record ∈ records, Answers query record)
    (hsequenced : ∀ record ∈ records, record.context.sequence.isSome → sequenced = true)
    (hids : (records.map fun record => record.context.id).Nodup)
    (hnew : ∀ record ∈ records, record.context.id ∉ ids)
    (hsorted : records.Pairwise fun a b => a.sequence < b.sequence)
    (hlast : ∀ record ∈ records, last < record.sequence) :
    Reads (readPackets query sequenced records.length ids last)
      (records.flatMap (encodeRecord sequenced)) (records.map recovered) := by
  induction records generalizing ids last with
  | nil => exact Reads.pure []
  | cons record records ih =>
    rw [List.forall_mem_cons] at hanswers hsequenced hnew hlast
    rw [List.map_cons, List.nodup_cons] at hids
    rw [List.pairwise_cons] at hsorted
    have hrecord := hanswers.1
    have hlength : record.ciphertext.length < 256 ^ 4 :=
      lt_of_le_of_lt hrecord.bounded (by decide)
    have hrange : ¬ (record.context.sequence.any (fun number =>
        number.val ≤ last ∨ query.through < number.val) = true) := by
      rw [Option.any_eq_true]
      rintro ⟨number, hnumber, hout⟩
      rw [decide_eq_true_eq, hrecord.numbered number hnumber] at hout
      rcases hout with hle | hlt
      · exact absurd hlast.1 (not_lt_of_ge hle)
      · exact absurd hrecord.through (not_le_of_gt hlt)
    have hlater : ∀ later ∈ records,
        record.context.sequence.elim last Subtype.val < later.sequence := by
      intro later hmem
      cases hnumber : record.context.sequence with
      | none => exact hlast.2 later hmem
      | some number =>
        rw [Option.elim_some, hrecord.numbered number hnumber]
        exact hsorted.1 later hmem
    have hids' : ∀ later ∈ records, later.context.id ∉ record.context.id :: ids := by
      intro later hmem hin
      rcases List.mem_cons.mp hin with heq | hold
      · exact hids.1 (heq ▸ List.mem_map_of_mem hmem)
      · exact hnew.2 later hmem hold
    have hknown : ¬ (record.context.topic ∉ query.topics.val ∨ record.context.id ∈ ids) := by
      rw [not_or, not_not]
      exact ⟨hrecord.topic, hnew.1⟩
    have hsize : ¬ (record.ciphertext.length = 0 ∨
        maxApplicationCiphertext < record.ciphertext.length) := by
      rw [not_or, not_lt, List.length_eq_zero_iff]
      exact ⟨hrecord.nonempty, hrecord.bounded⟩
    have hrest := ih hanswers.2 hsequenced.2 hids.2 hids' hsorted.2 hlater
    have hpacket : (⟨⟨query.workspace, record.context.revision, record.context.topic,
        record.context.id, record.context.sequence⟩, record.ciphertext⟩ : RecoveredPacket) =
        record.recovered := by
      rw [← hrecord.workspace]
      rfl
    rw [List.length_cons, List.flatMap_cons, encodeRecord]
    simp only [List.append_assoc]
    refine (Reads.takeU64 _).bind ((reads_writeTopic _ _ _ _).bind ((Reads.takeBlock _).bind
      ((reads_sequence hsequenced.1).bind (.bind_nil (.check hrange)
        (.bind_nil (.check hknown) ((Reads.takeNat hlength).bind
          (.bind_nil (.check hsize) ((Reads.take rfl).bind (hrest.bind_pure ?_)))))))))
    rw [hpacket]
    exact Reads.pure _

theorem readReply_rejected (query : RangeQuery) (error : RetrievalError) :
    readReply query (rejected error) = .ok (.rejected error, []) := by
  have hmagic : ¬ (rangeReplyMagic ≠ rangeReplyMagic ∧ rangeReplyMagic ≠ sequencedReplyMagic) :=
    fun h => h.1 rfl
  have hstatus : [rejectionStatus error] = beBytes 1 (rejectionStatus error).toNat := by
    cases error with
    | denied => decide
    | history error => cases error <;> decide
  rw [rejected, hstatus, readReply, ← List.append_nil (beBytes 1 _),
    (Reads.take (by decide)).bind_apply, (Reads.check hmagic).bind_apply_nil,
    (Reads.takeNat (UInt8.toNat_lt _)).bind_apply]
  cases error with
  | denied => rfl
  | history error => cases error <;> rfl

/-- The reply that is sent reads back as the offer and the records in it. -/
theorem readReply_encodedReply (hoffer : offer.length < 256 ^ 2)
    (hcount : range.records.length ≤ maxRecoveryPackets)
    (hanswers : ∀ record ∈ range.records, Answers query record)
    (hids : (range.records.map fun record => record.context.id).Nodup)
    (hsorted : range.records.Pairwise fun a b => a.sequence < b.sequence)
    (hafter : ∀ record ∈ range.records, query.after < record.sequence) :
    readReply query (encodedReply range offer) =
      .ok (.offered offer (range.records.map recovered), []) := by
  have hsequenced : ∀ record ∈ range.records,
      record.context.sequence.isSome → range.sequenced = true := by
    intro record hrecord hsome
    exact List.any_eq_true.mpr ⟨record, hrecord, hsome⟩
  have hpackets : Reads (readPackets query range.sequenced range.records.length [] query.after)
      (range.records.flatMap (encodeRecord range.sequenced))
      (range.records.map recovered) :=
    reads_packets hanswers hsequenced hids (by simp) hsorted hafter
  have hnumber : range.records.length < 256 ^ 1 := lt_of_le_of_lt hcount (by decide)
  rw [encodedReply, beBytes_one]
  generalize hmagic : (if range.sequenced = true then sequencedReplyMagic else rangeReplyMagic) =
    magic
  have hlength : magic.length = 5 := by
    rw [← hmagic]
    split <;> decide
  have hknown : ¬ (magic ≠ rangeReplyMagic ∧ magic ≠ sequencedReplyMagic) := by
    rw [← hmagic]
    split <;> simp
  have hversion : decide (magic = sequencedReplyMagic) = range.sequenced := by
    rw [← hmagic]
    cases range.sequenced <;> decide
  have hstatus : ([0] : Bytes) = beBytes 1 0 := by decide
  rw [hstatus, ← List.append_nil (range.records.flatMap _)]
  simp only [List.append_assoc]
  rw [readReply, (Reads.take hlength).bind_apply, (Reads.check hknown).bind_apply_nil,
    (Reads.takeNat (by decide)).bind_apply, if_neg (by decide), hversion, readOffer,
    (Reads.takeNat hoffer).bind_apply, (Reads.take rfl).bind_apply,
    (Reads.takeNat hnumber).bind_apply, (Reads.check (not_lt.mpr hcount)).bind_apply_nil,
    hpackets.bind_apply, atEnd_bind]
  rfl

end Framing

section Offer

/-- The bounds of a packet that an offer may list. -/
structure Listable (packet : Bytes × Bytes) : Prop where
  context : packet.1.length ≤ maxApplicationContext
  nonempty : packet.2 ≠ []
  ciphertext : packet.2.length ≤ maxApplicationCiphertext

theorem Listable.packetDigest {packet : Bytes × Bytes} (h : Listable packet)
    (sha256 : Bytes → Block 32) : packetDigest sha256 packet = .ok (sha256 (packetText packet)) :=
  packetDigest_eq_ok.mpr ⟨⟨h.context, h.nonempty, h.ciphertext⟩, rfl⟩

variable {packets : List (Bytes × Bytes)}

theorem offerDigests_of_nodup {earlier : List (Block 32)}
    (hlistable : ∀ packet ∈ packets, Listable packet)
    (hnodup : (earlier ++ packets.map fun packet => sha256 (packetText packet)).Nodup) :
    Mls.offerDigests sha256 earlier packets =
      .ok (earlier ++ packets.map fun packet => sha256 (packetText packet)) := by
  induction packets generalizing earlier with
  | nil => simp [Mls.offerDigests, pure_eq_ok]
  | cons packet packets ih =>
    rw [List.forall_mem_cons] at hlistable
    rw [List.map_cons, List.append_cons] at hnodup ⊢
    have hnew : sha256 (packetText packet) ∉ earlier := by
      intro hmem
      have hearly := hnodup.of_append_left
      exact (List.nodup_append.mp hearly).2.2 _ hmem _ (List.mem_singleton_self _) rfl
    rw [Mls.offerDigests, hlistable.1.packetDigest, ok_bind, failIf_of_not hnew, ok_bind]
    exact ih hlistable.2 hnodup

theorem verifyPackets_of_listable {author : Block 32}
    (hlistable : ∀ packet ∈ packets, Listable packet) : VerifiedRecoveryOffer.verifyPackets sha256
      ⟨author, endpoint, packets.map fun packet => sha256 (packetText packet)⟩ packets =
        .ok () := by
  have hdigests : List.Forall₂ (fun packet digest => packetDigest sha256 packet = .ok digest)
      packets (packets.map fun packet => sha256 (packetText packet)) := by
    rw [List.forall₂_map_right_iff, List.forall₂_same]
    intro packet hpacket
    exact (hlistable packet hpacket).packetDigest sha256
  rw [VerifiedRecoveryOffer.verifyPackets, failIf_of_not (by simp), ok_bind]
  refine forM_eq_ok.mpr ?_
  rintro ⟨packet, digest⟩ hmem
  have hdigest := (List.forall₂_iff_zip.mp hdigests).2 hmem
  simp only [hdigest, ok_bind]
  exact failIf_of_not (not_not.mpr rfl)

variable {mls : Mls Group Signer Staged}

/-- An offer that is signed as it should be verifies, and says what was signed. -/
theorem verifyRecoveryOffer_signed {receiver : Workspace Group Signer} {request : RecoveryRequest}
    {digests : List (Block 32)} {key signature : Bytes} (hmember : receiver.member ≠ none)
    (hworkspace : request.workspace = receiver.id) (hepoch : request.epoch = mls.epoch receiver)
    (hrange : request.after < request.through) (hcount : digests.length ≤ maxRecoveryPackets)
    (hnodup : digests.Nodup)
    (hsigner : mls.recoverySigner receiver request.author = .ok (endpoint, key))
    (hsignature : signature.length = 64)
    (hverified : mls.verifySignature (headerText request ++ beBytes 2 digests.length ++
      digests.flatMap Subtype.val) key signature = true) :
    mls.verifyRecoveryOffer receiver request (headerText request ++ beBytes 2 digests.length ++
      digests.flatMap Subtype.val ++ signature) = .ok ⟨request.author, endpoint, digests⟩ := by
  have hheader : request.header = .ok (headerText request) := by
    rw [RecoveryRequest.header, failIf_of_not (not_le_of_gt hrange)]
    rfl
  generalize hbody : headerText request ++ beBytes 2 digests.length ++
    digests.flatMap Subtype.val = body at hverified ⊢
  have hlength : body.length = 150 + 2 + 32 * digests.length := by
    rw [← hbody, List.length_append, List.length_append, length_headerText, beBytes_length,
      length_flatMap_block]
  have htake : (body ++ signature).take 150 = headerText request := by
    rw [← hbody, List.append_assoc, List.append_assoc, List.take_left' (length_headerText request)]
  have hdrop : (body ++ signature).drop 150 =
      beBytes 2 digests.length ++ (digests.flatMap Subtype.val ++ signature) := by
    rw [← hbody, List.append_assoc, List.append_assoc, List.drop_left' (length_headerText request)]
  have hnumber : beNat (((body ++ signature).drop 150).take 2) = digests.length := by
    rw [hdrop, List.take_left' (beBytes_length 2 _)]
    exact beNat_beBytes (lt_of_le_of_lt hcount (by decide))
  have hchunks : digestChunks digests.length ((body ++ signature).drop (150 + 2)) = digests := by
    rw [← List.drop_drop, hdrop, List.drop_left' (beBytes_length 2 _), digestChunks_flatMap]
  have hscope : ¬ (receiver.member = none ∨ request.workspace ≠ receiver.id ∨
      request.epoch ≠ mls.epoch receiver) := by
    rw [not_or, not_or, not_not, not_not]
    exact ⟨hmember, hworkspace, hepoch⟩
  have hsize : ¬ ((body ++ signature).length < 150 + 2 + 64 ∨
      150 + 2 + 32 * maxRecoveryPackets + 64 < (body ++ signature).length ∨
      (body ++ signature).take 150 ≠ headerText request) := by
    rw [List.length_append, hlength, hsignature, not_or, not_or, not_not]
    exact ⟨by omega, by omega, htake⟩
  have hstop : ¬ (maxRecoveryPackets < digests.length ∨
      (body ++ signature).length ≠ 150 + 2 + 32 * digests.length + 64) := by
    rw [List.length_append, hlength, hsignature, not_or, not_not, not_lt]
    exact ⟨hcount, rfl⟩
  simp only [Mls.verifyRecoveryOffer, hheader, ok_bind, length_headerText, hnumber, hchunks]
  rw [failIf_of_not hscope, ok_bind, failIf_of_not hsize, ok_bind, failIf_of_not hstop, ok_bind,
    hsigner, ok_bind, List.take_left' hlength, List.drop_left' hlength, hverified,
    failIf_of_not (by decide), ok_bind, failIf_of_not (not_not.mpr hnodup)]
  rfl

end Offer

section Selection

theorem PublisherLog.length_gather_le {after : U64} {topics : List Topic}
    {acc : List RetainedPublication} (h : log.gather after through topics acc = .ok records)
    (hacc : acc.length ≤ maxRecoveryPackets) : records.length ≤ maxRecoveryPackets := by
  induction topics generalizing acc with
  | nil =>
    cases h
    exact hacc
  | cons topic topics ih =>
    simp only [gather] at h
    split at h
    · exact ih h hacc
    · split at h
      · cases h
      · split at h
        · cases h
        · rename_i hcount
          exact ih h (not_lt.mp hcount)

theorem PublisherLog.length_select_le {after : U64} {topics : TopicSet}
    (h : log.select sha256 after through topics = .ok range) :
    range.records.length ≤ maxRecoveryPackets := by
  rw [select] at h
  split at h
  · cases h
  · cases hgather : log.gather after through topics.val [] with
    | error error =>
      rw [hgather] at h
      cases h
    | ok records =>
      rw [hgather] at h
      cases h
      rw [List.length_insertionSort]
      exact length_gather_le hgather (Nat.zero_le _)

variable {published : List RetainedPublication}

theorem Retains.listable (h : Retains log published) {record : RetainedPublication}
    (hrecord : record ∈ log.retained) : Listable record.parts := by
  obtain ⟨hnonempty, hbounded⟩ := h.ciphertexts record (h.published_of_mem hrecord)
  exact ⟨record.context.length_authenticatedBytes_le.trans (by decide), hnonempty, hbounded⟩

theorem Retains.select_listable (h : Retains log published) {after : U64} {topics : TopicSet}
    (hselect : log.select sha256 after through topics = .ok range) :
    ∀ packet ∈ range.records.map parts, Listable packet := by
  intro packet hpacket
  obtain ⟨record, hrecord, rfl⟩ := List.mem_map.mp hpacket
  exact h.listable (PublisherLog.mem_retained_of_select hselect record hrecord)

theorem Retains.answers (h : Retains log published) {query : RangeQuery}
    (hselect : log.select sha256 query.after query.through query.topics = .ok range)
    (hworkspace : query.workspace = log.workspace) {record : RetainedPublication}
    (hrecord : record ∈ range.records) : Answers query record ∧ query.after < record.sequence := by
  rw [h.select hselect, List.mem_filter, decide_eq_true_eq] at hrecord
  obtain ⟨hpublished, htopic, hafter, hthrough⟩ := hrecord
  obtain ⟨hnonempty, hbounded⟩ := h.ciphertexts record hpublished
  refine ⟨⟨?_, htopic, hthrough, h.numbered record hpublished, hnonempty, hbounded⟩, hafter⟩
  rw [hworkspace, h.workspaces record hpublished]

theorem Retains.select_sorted (h : Retains log published) {after : U64} {topics : TopicSet}
    (hselect : log.select sha256 after through topics = .ok range) :
    range.records.Pairwise fun a b => a.sequence < b.sequence := by
  rw [h.select hselect]
  exact h.sorted.filter _

theorem Retains.select_ids (h : Retains log published) {after : U64} {topics : TopicSet}
    (hselect : log.select sha256 after through topics = .ok range) :
    (range.records.map fun record => record.context.id).Nodup := by
  have hretained := PublisherLog.mem_retained_of_select hselect
  have hnodup : range.records.Nodup := (h.select_sorted hselect).imp fun hlt heq =>
    absurd (congrArg RetainedPublication.sequence heq) (ne_of_lt hlt)
  refine List.Nodup.map_on ?_ hnodup
  intro record hrecord other hother hid
  exact h.ids record (hretained record hrecord) other (hretained other hother) hid

/-- The texts under the digests of what a log retains. -/
def PublisherLog.packetTexts (log : PublisherLog) : List Bytes :=
  log.retained.map fun record => packetText record.parts

theorem Retains.select_digests (h : Retains log published)
    (hsha : Set.InjOn sha256 {text | text ∈ log.packetTexts}) {after : U64} {topics : TopicSet}
    (hselect : log.select sha256 after through topics = .ok range) :
    ((range.records.map parts).map
      fun packet => sha256 (packetText packet)).Nodup := by
  have hretained := PublisherLog.mem_retained_of_select hselect
  have hids := h.select_ids hselect
  rw [List.map_map]
  refine List.Nodup.map_on ?_ hids.of_map
  intro record hrecord other hother hdigest
  have htext : packetText record.parts = packetText other.parts := by
    apply hsha
    · exact List.mem_map.mpr ⟨record, hretained record hrecord, rfl⟩
    · exact List.mem_map.mpr ⟨other, hretained other hother, rfl⟩
    · exact hdigest
  have hparts := packetText_inj (h.listable (hretained record hrecord)).context
    (h.listable (hretained other hother)).context htext
  have hcontext : record.context = other.context :=
    PublicationContext.authenticatedBytes_inj (congrArg Prod.fst hparts)
  exact List.inj_on_of_nodup_map hids hrecord hother (congrArg PublicationContext.id hcontext)

end Selection

section RoundTrip

variable {Key : Type} {mls : Mls Group Signer Staged}

/-- A receiver who knows the author of a log as one member, by the key that its owner signs
with. -/
structure Knows (mls : Mls Group Signer Staged) (receiver owner : Workspace Group Signer)
    (log : PublisherLog) : Prop where
  member : receiver.member ≠ none
  workspace : receiver.id = log.workspace
  epoch : mls.epoch receiver = log.epoch
  signer : ∃ endpoint key, mls.recoverySigner receiver log.author = .ok (endpoint, key) ∧
    ∀ text, ∃ signature, mls.sign owner.signer text = some signature ∧ signature.length = 64 ∧
      mls.verifySignature text key signature = true

variable {receiver owner : Workspace Group Signer} {published : List RetainedPublication}
  {policy : RoutingTable} {requester : PeerId} {query : RangeQuery} {request : RecoveryRequest}

/-- The offer for a range that is served verifies and lists its records. -/
theorem signOffer_verifies (hretains : Retains log published)
    (hknows : Knows mls receiver owner log)
    (hsha : Set.InjOn mls.sha256 {text | text ∈ log.packetTexts})
    (hrange : log.authorizedRange mls owner policy requester query = .ok range) :
    ∃ offer endpoint, range.signOffer mls owner = .ok offer ∧ offer.length < 256 ^ 2 ∧
      mls.verifyRecoveryOffer receiver range.request offer =
        .ok ⟨log.author, endpoint, (range.records.map parts).map
          fun packet => mls.sha256 (packetText packet)⟩ := by
  obtain ⟨⟨hid, hepoch, hmember⟩, _, hselect⟩ := PublisherLog.authorizedRange_eq_ok hrange
  obtain ⟨hrequest, hlt, _⟩ := PublisherLog.select_request hselect
  obtain ⟨endpoint, key, hsigner, hsigns⟩ := hknows.signer
  have hcount := PublisherLog.length_select_le hselect
  have hnodup := hretains.select_digests hsha hselect
  have hlistable := hretains.select_listable hselect
  have hdigests : Mls.offerDigests mls.sha256 [] (range.records.map parts) =
      .ok ((range.records.map parts).map
        fun packet => mls.sha256 (packetText packet)) := by
    rw [offerDigests_of_nodup hlistable (by rwa [List.nil_append]), List.nil_append]
  have hlength : ((range.records.map parts).map
      fun packet => mls.sha256 (packetText packet)).length = range.records.length := by
    rw [List.length_map, List.length_map]
  generalize (range.records.map parts).map
    (fun packet => mls.sha256 (packetText packet)) = digests at hnodup hdigests hlength ⊢
  obtain ⟨signature, hsign, hsize, hverified⟩ := hsigns (headerText range.request ++
    beBytes 2 digests.length ++ digests.flatMap Subtype.val)
  refine ⟨headerText range.request ++ beBytes 2 digests.length ++ digests.flatMap Subtype.val ++
    signature, endpoint, ?_, ?_, ?_⟩
  · have hscope : ¬ (range.request.workspace ≠ owner.id ∨
        range.request.epoch ≠ mls.epoch owner ∨
        owner.member.map (·.id) ≠ some range.request.author ∨
        maxRecoveryPackets < (range.records.map parts).length) := by
      rw [hrequest, List.length_map]
      simp only [not_or, not_not, not_lt]
      exact ⟨hid.symm, hepoch.symm, hmember, hcount⟩
    have hheader : range.request.header = .ok (headerText range.request) := by
      rw [RecoveryRequest.header, failIf_of_not]
      · rfl
      · rw [hrequest]
        exact not_le_of_gt hlt
    rw [RetainedRange.signOffer, Mls.signRecoveryOffer, failIf_of_not hscope, ok_bind, hheader,
      ok_bind, hdigests, ok_bind, List.length_map, ← hlength]
    dsimp only
    rw [hsign]
    rfl
  · have hmax : 32 * digests.length ≤ 32 * 32 := Nat.mul_le_mul_left 32 (hlength ▸ hcount)
    rw [List.length_append, List.length_append, List.length_append, length_headerText,
      beBytes_length, length_flatMap_block, hsize]
    omega
  · have hauthor : log.author = range.request.author := by rw [hrequest]
    rw [hauthor]
    apply verifyRecoveryOffer_signed hknows.member
    · rw [hrequest, hknows.workspace]
    · rw [hrequest, hknows.epoch]
    · rw [hrequest]
      exact hlt
    · rw [hlength]
      exact hcount
    · exact hnodup
    · rw [← hauthor]
      exact hsigner
    · exact hsize
    · exact hverified

theorem verifyReply_rejected (receiver : SecurityOwner)
    (hquery : query.recoveryRequest receiver.sha256 = .ok request) (error : RetrievalError) :
    verifyReply receiver query (rejected error) = .ok (.rejected error) := by
  have hsize : ¬ maxReplyBytes < (rejected error).length := by
    have hmagic : rangeReplyMagic.length = 5 := by decide
    rw [rejected, List.length_append, hmagic, List.length_singleton]
    decide
  rw [verifyReply, hquery, ok_bind, failIf_of_not hsize, ok_bind, readReply_rejected]
  rfl

theorem verifyReply_encodedReply {sframe : SFrame Group Key} (hretains : Retains log published)
    (hrange : log.authorizedRange mls owner policy requester query = .ok range)
    (hquery : query.recoveryRequest mls.sha256 = .ok request)
    (hfits : (encodedReply range offer).length ≤ maxReplyBytes) (hshort : offer.length < 256 ^ 2)
    (hverified : mls.verifyRecoveryOffer receiver range.request offer =
      .ok ⟨log.author, endpoint, (range.records.map parts).map
        fun packet => mls.sha256 (packetText packet)⟩) :
    verifyReply (securityOwner mls sframe receiver) query (encodedReply range offer) =
      .ok (.offered ⟨⟨log.author, endpoint, (range.records.map parts).map
        fun packet => mls.sha256 (packetText packet)⟩,
        range.records.map recovered⟩) := by
  obtain ⟨_, hscope, hselect⟩ := PublisherLog.authorizedRange_eq_ok hrange
  rw [Prod.mk.injEq, Prod.mk.injEq] at hscope
  obtain ⟨hworkspace, hauthor, hepoch⟩ := hscope
  have hrequest : request = range.request := by
    rw [RangeQuery.recoveryRequest_eq_ok hquery, (PublisherLog.select_request hselect).1,
      hworkspace, hauthor, hepoch]
  have hread : readReply query (encodedReply range offer) =
      .ok (.offered offer (range.records.map recovered), []) := by
    apply readReply_encodedReply hshort (PublisherLog.length_select_le hselect)
    · intro record hrecord
      exact (hretains.answers hselect hworkspace hrecord).1
    · exact hretains.select_ids hselect
    · exact hretains.select_sorted hselect
    · intro record hrecord
      exact (hretains.answers hselect hworkspace hrecord).2
  have hlistable := hretains.select_listable hselect
  simp only [verifyReply, securityOwner, hquery, ok_bind, failIf_of_not (not_lt.mpr hfits), hread,
    hrequest, hverified, map_recovered_parts, verifyPackets_of_listable hlistable]
  rfl

theorem recoveryRequest_cases (query : RangeQuery) (sha256 : Bytes → Block 32) :
    (∃ request, query.recoveryRequest sha256 = .ok request) ∨
      query.recoveryRequest sha256 = .error "invalid range query" ∧
        (query.after ≥ query.through ∨ query.topics.val = [] ∨
          maxTopics < query.topics.val.length) := by
  by_cases h : query.after ≥ query.through ∨ query.topics.val = [] ∨
      maxTopics < query.topics.val.length
  · refine .inr ⟨?_, h⟩
    rw [RangeQuery.recoveryRequest, failIf_of h]
    rfl
  · rw [RangeQuery.recoveryRequest, failIf_of_not h]
    exact .inl ⟨_, rfl⟩

/-- A range that is served is one that can be asked for. -/
theorem recoveryRequest_of_authorizedRange
    (hrange : log.authorizedRange mls owner policy requester query = .ok range) :
    ∃ request, query.recoveryRequest mls.sha256 = .ok request := by
  obtain ⟨_, _, hselect⟩ := PublisherLog.authorizedRange_eq_ok hrange
  rw [PublisherLog.select] at hselect
  split at hselect
  · cases hselect
  · rename_i hvalid
    rcases recoveryRequest_cases query mls.sha256 with hrequest | ⟨_, hinvalid⟩
    · exact hrequest
    · exact absurd (hinvalid.imp_right .inr) hvalid

/-- Every query is answered. The answer to one that may be asked says what the publisher has: the
records of the range, or why they are not sent. One that may not be asked is rejected, and whoever
sent it does not get as far as reading that. -/
theorem range_reply_round_trip (sframe : SFrame Group Key) {workspace : WorkspaceId}
    {author : Block 32} {epoch : U64} {log : PublisherLog} {published : List RetainedPublication}
    (hrun : PublisherRun workspace author epoch log published)
    {receiver owner : Workspace Group Signer} (hknows : Knows mls receiver owner log)
    (hsha : Set.InjOn mls.sha256 {text | text ∈ log.packetTexts}) (policy : RoutingTable)
    (requester : PeerId) (query : RangeQuery) :
    ∃ reply, serveRange mls log owner policy requester query = .ok reply ∧
      (∀ request, query.recoveryRequest mls.sha256 = .ok request →
        match log.authorizedRange mls owner policy requester query with
        | .error error =>
            verifyReply (securityOwner mls sframe receiver) query reply = .ok (.rejected error)
        | .ok range => ∃ offer, range.signOffer mls owner = .ok offer ∧
            if (encodedReply range offer).length ≤ maxReplyBytes then
              ∃ proof, verifyReply (securityOwner mls sframe receiver) query reply =
                .ok (.offered ⟨proof, range.records.map fun record =>
                  ⟨record.context, record.ciphertext⟩⟩)
            else
              verifyReply (securityOwner mls sframe receiver) query reply =
                .ok (.rejected (.history .tooLarge))) ∧
      ∀ message, query.recoveryRequest mls.sha256 = .error message →
        (∃ error, log.authorizedRange mls owner policy requester query = .error error ∧
          reply = rejected error) ∧
        verifyReply (securityOwner mls sframe receiver) query reply =
          .error "invalid range query" := by
  obtain ⟨hretains, _⟩ := hrun.retains
  cases hrange : log.authorizedRange mls owner policy requester query with
  | error error =>
    refine ⟨rejected error, ?_, fun _ hquery => verifyReply_rejected _ hquery error, ?_⟩
    · rw [serveRange, hrange]
      rfl
    · intro message hquery
      refine ⟨⟨error, rfl, rfl⟩, ?_⟩
      rcases recoveryRequest_cases query mls.sha256 with ⟨_, hok⟩ | ⟨hinvalid, _⟩
      · rw [hok] at hquery
        cases hquery
      · rw [verifyReply, securityOwner, hinvalid]
        rfl
  | ok range =>
    obtain ⟨offer, endpoint, hoffer, hshort, hverified⟩ :=
      signOffer_verifies hretains hknows hsha hrange
    obtain ⟨asked, hasked⟩ := recoveryRequest_of_authorizedRange hrange
    refine ⟨offeredReply range offer, ?_, fun request hquery => ⟨offer, hoffer, ?_⟩, ?_⟩
    · rw [serveRange, hrange]
      dsimp only
      rw [hoffer]
      rfl
    · rw [offeredReply, ← length_encodedReply]
      split
      · rename_i hfits
        rw [if_neg (not_lt.mpr hfits)]
        exact ⟨_, verifyReply_encodedReply hretains hrange hquery hfits hshort hverified⟩
      · rename_i hlarge
        rw [if_pos (not_le.mp hlarge)]
        exact verifyReply_rejected _ hquery _
    · intro message hquery
      rw [hasked] at hquery
      cases hquery

end RoundTrip

section Sample

open Security.Sample (authorization block ident workspaceId pair leader follower sframe solo
  two_ne)

def notesTopic : Topic := ⟨utf8 "notes", isValid_notes⟩

/-- An older publication, without a sequence. -/
def legacyNote : RetainedPublication :=
  ⟨1, ⟨workspaceId, 1, notesTopic, zeroBlock 16, none⟩, [7]⟩

def sequencedNote : RetainedPublication :=
  ⟨2, ⟨workspaceId, 1, notesTopic, ident 1, some ⟨2, two_ne⟩⟩, [8]⟩

/-- The log of the administrator after these publications. -/
def notesLog (head : U64) (records : List RetainedPublication) : PublisherLog :=
  ⟨workspaceId, block 1, 1, head, (records.map RetainedPublication.weight).sum,
    ⟨[(notesTopic, ⟨0, records⟩)], List.pairwise_singleton _ _⟩⟩

def notes : PublisherLog := notesLog 2 [legacyNote, sequencedNote]

/-- The administrator and the first joiner may use every topic. -/
def notesPolicy : RoutingTable :=
  (RoutingTable.new.installVerifiedPolicy workspaceId 1
    ((OrderedMap.empty.insert (block 11) .allTopics).insert (block 12)
      .allTopics)).2

def notesTopics : TopicSet := ⟨[notesTopic], List.pairwise_singleton _ _⟩

def notesQuery (after through : U64) : RangeQuery :=
  ⟨workspaceId, block 1, 1, 1, after, through, notesTopics⟩

def notesRange : RetainedRange :=
  ⟨⟨workspaceId, block 1, 1,
    selectionDigest pair.mls.sha256 (notesQuery 0 2).topics, 0, 2⟩,
    [legacyNote, sequencedNote]⟩

theorem notes_run :
    PublisherRun workspaceId (block 1) 1 notes [legacyNote, sequencedNote] := by
  have hfirst : (PublisherLog.new workspaceId (block 1) 1).append legacyNote.context
      legacyNote.ciphertext = .ok (1, notesLog 1 [legacyNote]) := by decide
  have hsecond : (notesLog 1 [legacyNote]).append sequencedNote.context
      sequencedNote.ciphertext = .ok (2, notes) := by decide
  exact (Relation.ReflTransGen.single (.append hfirst)).tail (.append hsecond)

theorem follower_knows : Knows pair.mls (follower pair)
    (leader pair) notes where
  member := nofun
  workspace := rfl
  epoch := rfl
  signer := by
    refine ⟨block 11, (block 1).1, by decide, ?_⟩
    intro text
    exact ⟨List.replicate 64 0, rfl, List.length_replicate, rfl⟩

theorem notes_injOn : Set.InjOn pair.mls.sha256 {text | text ∈ notes.packetTexts} := by
  have hinj : ∀ text ∈ notes.packetTexts, ∀ other ∈ notes.packetTexts,
      pair.mls.sha256 text = pair.mls.sha256 other → text = other := by
    decide +kernel
  intro text htext other hother heq
  exact hinj text htext other hother heq

/-- Two joiners with one id, as a batch may bring them, and the notes of the first. -/
def twins : Security.Script :=
  Security.Sample.script [Security.Sample.package 2 2 12, Security.Sample.package 3 2 13] []
    ⟨by decide, by decide⟩

def twinNotes : PublisherLog := { notes with author := block 2 }

def twinQuery : RangeQuery := { notesQuery 0 2 with author := block 2 }

def twinReply : Bytes :=
  (serveRange twins.mls twinNotes (follower twins) notesPolicy (block 11) twinQuery).toOption.getD
    []

/-- A query for an empty range is answered, but its sender does not accept the answer. Nor does
anyone accept a range of an author whose id two members have. -/
theorem range_reply_round_trip_refused :
    (PublisherRun workspaceId (block 1) 1 notes [legacyNote, sequencedNote] ∧
      Knows pair.mls (follower pair) (leader pair) notes ∧
      Set.InjOn pair.mls.sha256 {text | text ∈ notes.packetTexts} ∧
      serveRange pair.mls notes (leader pair) notesPolicy (block 12) (notesQuery 1 1) =
        .ok (rejected (.history .invalid)) ∧
      verifyReply (securityOwner pair.mls sframe (follower pair)) (notesQuery 1 1)
        (rejected (.history .invalid)) = .error "invalid range query") ∧
    twins.mls.applyTransition solo (Security.Script.commit 0)
        (.admissionBatch [authorization, authorization]) = .ok (twins.state 1) ∧
      twins.mls.memberIdForEndpoint (leader twins) (block 12) = .ok twinNotes.author ∧
      serveRange twins.mls twinNotes (follower twins) notesPolicy (block 11) twinQuery =
        .ok twinReply ∧
      verifyReply (securityOwner twins.mls sframe (leader twins)) twinQuery twinReply =
        .error "ambiguous recovery author" := by
  refine ⟨⟨notes_run, follower_knows, notes_injOn, ?_, ?_⟩, ?_, ?_, ?_, ?_⟩
  · decide
  · decide
  · decide
  · decide
  · decide +kernel
  · decide +kernel

theorem range_reply_round_trip_notes :
    ∃ reply proof, serveRange pair.mls notes (leader pair) notesPolicy
        (block 12) (notesQuery 0 2) = .ok reply ∧
      verifyReply (securityOwner pair.mls sframe (follower pair))
        (notesQuery 0 2) reply = .ok (.offered ⟨proof, [⟨legacyNote.context, [7]⟩,
          ⟨sequencedNote.context, [8]⟩]⟩) := by
  obtain ⟨reply, hreply, hasked, _⟩ := range_reply_round_trip sframe notes_run
    follower_knows notes_injOn notesPolicy (block 12) (notesQuery 0 2)
  have hverified := hasked _ rfl
  have hrange : notes.authorizedRange pair.mls (leader pair) notesPolicy
      (block 12) (notesQuery 0 2) = .ok notesRange := by decide
  rw [hrange] at hverified
  obtain ⟨offer, hoffer, hverified⟩ := hverified
  have hlength : ((notesRange.signOffer pair.mls (leader pair)).map
      List.length) = .ok 280 := by decide +kernel
  have hfits : (encodedReply notesRange offer).length ≤ maxReplyBytes := by
    rw [hoffer] at hlength
    have hsize : offer.length = 280 := Except.ok.inj hlength
    rw [length_encodedReply, replySize, hsize]
    decide
  rw [if_pos hfits] at hverified
  obtain ⟨proof, hproof⟩ := hverified
  exact ⟨reply, proof, hreply, hproof⟩

end Sample

end Arachne.Delivery
