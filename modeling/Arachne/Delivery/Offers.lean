import Arachne.Delivery.InboxReload
import Arachne.Delivery.RangeService

/-! What a signed recovery offer proves. The offers of an honest publisher list everything it
published in their range, so a receiver who verifies one has all of it. -/

namespace Arachne.Delivery

open ByteCodec Fallible Routing
open Security (Mls SFrame Workspace maxApplicationContext maxApplicationCiphertext)

variable {Group Signer Staged : Type} {proof : VerifiedRecoveryOffer}
  {packets : List (Bytes × Bytes)} {sha256 : Bytes → Block 32} {offer : Bytes} {log : PublisherLog}
  {range : RetainedRange}

section Texts

/-- The text under the digest of a selection. -/
def selectionText (topics : TopicSet) : Bytes :=
  utf8 "data-fabric/exact-topic-selection/v1\x00" ++ beBytes 2 topics.val.length ++
    topics.val.flatMap writeTopic

theorem flatMap_writeTopic_inj {topics topics' : List Topic}
    (h : topics.flatMap writeTopic = topics'.flatMap writeTopic) : topics = topics' := by
  induction topics generalizing topics' with
  | nil =>
    cases topics' with
    | nil => rfl
    | cons topic' topics' => simp [writeTopic] at h
  | cons topic topics ih =>
    cases topics' with
    | nil => simp [writeTopic] at h
    | cons topic' topics' =>
      rw [List.flatMap_cons, List.flatMap_cons] at h
      obtain ⟨hfirst, hrest⟩ :=
        (reads_writeTopic "" "" "" topic).inj (reads_writeTopic "" "" "" topic') h
      rw [hfirst, ih hrest]

theorem selectionText_inj {topics topics' : TopicSet}
    (h : selectionText topics = selectionText topics') : topics = topics' := by
  refine Subtype.ext (flatMap_writeTopic_inj (List.append_inj_right h ?_))
  simp only [List.length_append, beBytes_length]

/-- The text under the digest of a packet. -/
def packetText (packet : Bytes × Bytes) : Bytes :=
  utf8 "data-fabric/recovery-packet/v1\x00" ++ beBytes 4 packet.1.length ++ packet.1 ++
    beBytes 4 packet.2.length ++ packet.2

variable {packet : Bytes × Bytes}

theorem packetDigest_eq_ok {digest : Block 32} : packetDigest sha256 packet = .ok digest ↔
      (packet.1.length ≤ maxApplicationContext ∧ packet.2 ≠ [] ∧
        packet.2.length ≤ maxApplicationCiphertext) ∧ sha256 (packetText packet) = digest := by
  obtain ⟨context, ciphertext⟩ := packet
  simp only [packetDigest, bind_eq_ok, failIf_eq_ok, pure_eq_ok, not_or, not_lt, exists_const,
    packetText, ne_eq]

theorem packetText_inj {packet' : Bytes × Bytes}
    (hbound : packet.1.length ≤ maxApplicationContext)
    (hbound' : packet'.1.length ≤ maxApplicationContext)
    (h : packetText packet = packetText packet') : packet = packet' := by
  have hlength : ∀ {n : Nat}, n ≤ maxApplicationContext →
      Reads (takeNat "" 4) (beBytes 4 n) n :=
    fun hn => Reads.takeNat (lt_of_le_of_lt hn (by decide))
  simp only [packetText, List.append_assoc] at h
  have hrest := List.append_cancel_left h
  obtain ⟨hcontextLength, hrest⟩ := (hlength hbound).inj (hlength hbound') hrest
  obtain ⟨hcontext, hrest⟩ := List.append_inj hrest hcontextLength
  have hciphertext := List.append_inj_right hrest (by simp only [beBytes_length])
  exact Prod.ext hcontext hciphertext

end Texts

section Messages

/-- The text that an offer signs. -/
def offerMessage (sha256 : Bytes → Block 32) (request : RecoveryRequest)
    (packets : List (Bytes × Bytes)) : Outcome Bytes := do
  let header ← request.header
  let digests ← Mls.offerDigests sha256 [] packets
  pure (header ++ beBytes 2 packets.length ++ digests.flatMap Subtype.val)

variable {mls : Mls Group Signer Staged}

theorem signRecoveryOffer_eq_ok {workspace : Workspace Group Signer} {request : RecoveryRequest}
    (h : mls.signRecoveryOffer workspace request packets = .ok offer) :
    packets.length ≤ maxRecoveryPackets ∧ ∃ message signature,
      offerMessage mls.sha256 request packets = .ok message ∧
      mls.sign workspace.signer message = some signature ∧ offer = message ++ signature := by
  simp only [Mls.signRecoveryOffer, bind_eq_ok, failIf_eq_ok, orFail_eq_ok, pure_eq_ok, not_or,
    not_lt] at h
  obtain ⟨_, ⟨_, _, _, hcount⟩, header, hheader, digests, hdigests, signature, hsignature, rfl⟩ := h
  refine ⟨hcount, _, signature, ?_, hsignature, rfl⟩
  rw [offerMessage, hheader, ok_bind, hdigests]
  rfl

theorem offerDigests_eq_ok {earlier digests : List (Block 32)}
    (h : Mls.offerDigests sha256 earlier packets = .ok digests) :
    digests = earlier ++ packets.map (fun packet => sha256 (packetText packet)) ∧
      ∀ packet ∈ packets, packet.1.length ≤ maxApplicationContext := by
  induction packets generalizing earlier with
  | nil =>
    rw [Mls.offerDigests, pure_eq_ok] at h
    simp [h]
  | cons packet packets ih =>
    simp only [Mls.offerDigests, bind_eq_ok, failIf_eq_ok] at h
    obtain ⟨digest, hdigest, _, _, h⟩ := h
    obtain ⟨hbound, rfl⟩ := packetDigest_eq_ok.mp hdigest
    obtain ⟨rfl, hbounds⟩ := ih h
    refine ⟨by simp, ?_⟩
    rw [List.forall_mem_cons]
    exact ⟨hbound.1, hbounds⟩

def headerText (request : RecoveryRequest) : Bytes :=
  utf8 "data-fabric/recovery-offer/v1\x00" ++ request.workspace.1 ++ request.author.1 ++
    beBytes 8 request.epoch.val ++ request.selection.1 ++ beBytes 8 request.after.val ++
    beBytes 8 request.through.val

variable {request : RecoveryRequest}

theorem header_eq_ok {header : Bytes} (h : request.header = .ok header) :
    header = headerText request := by
  simp only [RecoveryRequest.header, bind_eq_ok, pure_eq_ok] at h
  obtain ⟨_, _, rfl⟩ := h
  rfl

theorem length_headerText (request : RecoveryRequest) : (headerText request).length = 150 := by
  have htext : (utf8 "data-fabric/recovery-offer/v1\x00").length = 30 := by decide
  simp only [headerText, List.length_append, htext, request.workspace.2, request.author.2,
    request.selection.2, beBytes_length]

theorem headerText_inj {request' : RecoveryRequest} (h : headerText request = headerText request') :
    request = request' := by
  have hblock : ∀ block : Block 32, Reads (takeBlock "" 32) block.val block :=
    fun block => Reads.takeBlock block
  have hword : ∀ n : U64, Reads (takeU64 "") (beBytes 8 n.val) n := fun n => Reads.takeU64 n
  obtain ⟨workspace, author, epoch, selection, after, through⟩ := request
  obtain ⟨workspace', author', epoch', selection', after', through'⟩ := request'
  simp only [headerText, List.append_assoc] at h
  have hrest := List.append_cancel_left h
  obtain ⟨hworkspace, hrest⟩ := (hblock workspace).inj (hblock workspace') hrest
  obtain ⟨hauthor, hrest⟩ := (hblock author).inj (hblock author') hrest
  obtain ⟨hepoch, hrest⟩ := (hword epoch).inj (hword epoch') hrest
  obtain ⟨hselection, hrest⟩ := (hblock selection).inj (hblock selection') hrest
  obtain ⟨hafter, hrest⟩ := (hword after).inj (hword after') hrest
  rw [hworkspace, hauthor, hepoch, hselection, hafter, beBytes_u64_inj hrest]

theorem digestChunks_flatMap (digests : List (Block 32)) (rest : Bytes) :
    digestChunks digests.length (digests.flatMap Subtype.val ++ rest) = digests := by
  induction digests with
  | nil => rfl
  | cons digest digests ih =>
    have hlength : 32 ≤ ((digest :: digests).flatMap Subtype.val ++ rest).length := by
      simp only [List.flatMap_cons, List.length_append, digest.2]
      omega
    have hfirst : ((digest :: digests).flatMap Subtype.val ++ rest).take 32 = digest.val := by
      rw [List.flatMap_cons, List.append_assoc, List.take_left' digest.2]
    have hlater : ((digest :: digests).flatMap Subtype.val ++ rest).drop 32 =
        digests.flatMap Subtype.val ++ rest := by
      rw [List.flatMap_cons, List.append_assoc, List.drop_left' digest.2]
    rw [List.length_cons, digestChunks, dif_pos hlength]
    simp only [hfirst, hlater, ih]

/-- What a verified offer says, given the text that was signed. -/
theorem verifyRecoveryOffer_of_message {receiver : Workspace Group Signer}
    {signed : RecoveryRequest} (h : mls.verifyRecoveryOffer receiver request offer = .ok proof)
    (hmessage : offerMessage mls.sha256 signed packets = .ok (offer.take (offer.length - 64)))
    (hcount : packets.length ≤ maxRecoveryPackets) :
    signed = request ∧ proof.author = request.author ∧
      proof.packets = packets.map (fun packet => mls.sha256 (packetText packet)) ∧
      ∀ packet ∈ packets, packet.1.length ≤ maxApplicationContext := by
  simp only [offerMessage, bind_eq_ok, pure_eq_ok] at hmessage
  obtain ⟨_, hsigned, digests, hdigests, hmessage⟩ := hmessage
  rw [header_eq_ok hsigned, List.append_assoc] at hmessage
  obtain ⟨hlist, hbounds⟩ := offerDigests_eq_ok hdigests
  rw [List.nil_append] at hlist
  simp only [Mls.verifyRecoveryOffer, bind_eq_ok, failIf_eq_ok, pure_eq_ok, not_or, not_lt,
    not_not] at h
  obtain ⟨_, _, header, hheader, _, ⟨_, _, hopening⟩, _, ⟨_, hlength⟩, ⟨endpoint, key⟩, _, _, _, _,
    _, rfl⟩ := h
  rw [header_eq_ok hheader] at hopening hlength ⊢
  rw [length_headerText] at hopening hlength ⊢
  have hoffer : offer = headerText signed ++ (beBytes 2 packets.length ++
      (digests.flatMap Subtype.val ++ offer.drop (offer.length - 64))) := by
    rw [← List.append_assoc (beBytes 2 _), ← List.append_assoc, hmessage, List.take_append_drop]
  have hrequest : signed = request := by
    apply headerText_inj
    rw [← hopening, hoffer, List.take_left' (length_headerText signed)]
  refine ⟨hrequest, rfl, ?_, hbounds⟩
  have hdrop : offer.drop 150 = beBytes 2 packets.length ++
      (digests.flatMap Subtype.val ++ offer.drop (offer.length - 64)) := by
    conv_lhs => rw [hoffer]
    rw [List.drop_left' (length_headerText signed)]
  have hnumber : beNat ((offer.drop 150).take 2) = packets.length := by
    rw [hdrop, List.take_left' (beBytes_length 2 _)]
    exact beNat_beBytes (lt_of_le_of_lt hcount (by decide))
  have hdigestBytes : offer.drop (150 + 2) =
      digests.flatMap Subtype.val ++ offer.drop (offer.length - 64) := by
    rw [← List.drop_drop, hdrop, List.drop_left' (beBytes_length 2 _)]
  have hsize : packets.length = digests.length := by rw [hlist, List.length_map]
  dsimp only
  rw [hnumber, hdigestBytes, hsize, digestChunks_flatMap, hlist]

theorem verifyPackets_eq_ok {u : Unit} (h : proof.verifyPackets sha256 packets = .ok u) :
    List.Forall₂ (fun packet digest => packetDigest sha256 packet = .ok digest) packets
      proof.packets := by
  simp only [VerifiedRecoveryOffer.verifyPackets, bind_eq_ok, failIf_eq_ok, not_not] at h
  obtain ⟨_, hlength, h⟩ := h
  rw [List.forall₂_iff_zip]
  refine ⟨hlength, ?_⟩
  intro packet digest hmem
  have hcheck := forM_eq_ok.mp h (packet, digest) hmem
  simpa only [bind_eq_ok, failIf_eq_ok, not_not, exists_and_left, exists_eq_right, exists_const]
    using hcheck

end Messages

theorem RangeQuery.recoveryRequest_eq_ok {query : RangeQuery} {request : RecoveryRequest}
    (h : query.recoveryRequest sha256 = .ok request) :
    request = ⟨query.workspace, query.author, query.epoch, selectionDigest sha256 query.topics,
      query.after, query.through⟩ := by
  simp only [recoveryRequest, bind_eq_ok, pure_eq_ok] at h
  obtain ⟨_, _, rfl⟩ := h
  rfl

section Publishing

variable {mls : Mls Group Signer Staged}

theorem PublisherLog.authorizedRange_eq_ok {owner : Workspace Group Signer}
    {policy : RoutingTable} {requester : PeerId} {query : RangeQuery}
    (h : log.authorizedRange mls owner policy requester query = .ok range) :
    (owner.id = log.workspace ∧ mls.epoch owner = log.epoch ∧
      owner.member.map (·.id) = some log.author) ∧
    (query.workspace, query.author, query.epoch) = (log.workspace, log.author, log.epoch) ∧
    log.select mls.sha256 query.after query.through query.topics = .ok range := by
  rw [authorizedRange] at h
  split at h
  · cases h
  · rename_i hauthorized
    rw [PublisherLog.authorizeHistory] at hauthorized
    split at hauthorized
    · cases hauthorized
    · rename_i hscope
      simp only [not_or, not_not] at hscope
      obtain ⟨hworkspace, hepoch, hmember, hquery⟩ := hscope
      refine ⟨⟨hworkspace, hepoch, hmember⟩, hquery, ?_⟩
      cases hselect : log.select mls.sha256 query.after query.through query.topics with
      | error error => simp [hselect, Except.mapError] at h
      | ok selected => simpa [hselect, Except.mapError] using h

theorem PublisherLog.select_request {after through : U64} {topics : TopicSet}
    (h : log.select sha256 after through topics = .ok range) :
    range.request = ⟨log.workspace, log.author, log.epoch, selectionDigest sha256 topics, after,
      through⟩ ∧ after < through ∧ through ≤ log.head := by
  rw [select] at h
  split at h
  · cases h
  · rename_i hvalid
    simp only [not_or, not_lt, not_le] at hvalid
    cases hgather : log.gather after through topics.val [] with
    | error error =>
      rw [hgather] at h
      cases h
    | ok records =>
      rw [hgather] at h
      cases h
      exact ⟨rfl, hvalid.1, hvalid.2.1⟩

/-- The texts that a receiver digests to verify a reply. -/
def replyTexts (query : RangeQuery) (packets : List RecoveredPacket) : List Bytes :=
  selectionText query.topics :: packets.map fun packet => packetText packet.parts

/-- A verified offer starts as an offer does, and its signature verifies under the key that the
receiver knows the author by. -/
theorem verifyRecoveryOffer_signature {receiver : Workspace Group Signer}
    {request : RecoveryRequest} (h : mls.verifyRecoveryOffer receiver request offer = .ok proof) :
    utf8 "data-fabric/recovery-offer/v1\x00" <+: offer.take (offer.length - 64) ∧
      ∃ endpoint key, mls.recoverySigner receiver request.author = .ok (endpoint, key) ∧
        mls.verifySignature (offer.take (offer.length - 64)) key
          (offer.drop (offer.length - 64)) = true := by
  simp only [Mls.verifyRecoveryOffer, bind_eq_ok, failIf_eq_ok, not_or, not_lt, not_not,
    Bool.not_eq_true', Bool.not_eq_false] at h
  obtain ⟨_, _, header, hheader, _, ⟨_, _, hopening⟩, _, ⟨_, hlength⟩, ⟨endpoint, key⟩, hsigner, _,
    hsignature, _⟩ := h
  rw [header_eq_ok hheader] at hopening hlength hsignature
  rw [length_headerText] at hopening hlength hsignature
  have hstop : offer.length - 64 = 150 + 2 + 32 * beNat ((offer.drop 150).take 2) := by omega
  refine ⟨?_, endpoint, key, hsigner, hstop ▸ hsignature⟩
  have hheaderPrefix : headerText request <+: offer.take (offer.length - 64) := by
    rw [← hopening, hstop, Nat.add_assoc, List.take_add]
    exact List.prefix_append _ _
  refine List.IsPrefix.trans ?_ hheaderPrefix
  simp only [headerText, List.append_assoc]
  exact List.prefix_append _ _

theorem packets_eq_of_digests {hashed : Set Bytes} (hsha : Set.InjOn sha256 hashed)
    {received listed : List (Bytes × Bytes)}
    (hbounds : ∀ packet ∈ listed, packet.1.length ≤ maxApplicationContext)
    (hreceived : List.Forall₂ (fun packet digest => packetDigest sha256 packet = .ok digest)
      received (listed.map fun packet => sha256 (packetText packet)))
    (hreceivedTexts : ∀ packet ∈ received, packetText packet ∈ hashed)
    (hlistedTexts : ∀ packet ∈ listed, packetText packet ∈ hashed) : received = listed := by
  induction listed generalizing received with
  | nil =>
    rw [List.map_nil, List.forall₂_nil_right_iff] at hreceived
    exact hreceived
  | cons packet listed ih =>
    rw [List.map_cons, List.forall₂_cons_right_iff] at hreceived
    obtain ⟨first, rest, hfirst, hrest, rfl⟩ := hreceived
    rw [List.forall_mem_cons] at hbounds hreceivedTexts hlistedTexts
    obtain ⟨⟨hbound, _⟩, hdigest⟩ := packetDigest_eq_ok.mp hfirst
    have htext := hsha hreceivedTexts.1 hlistedTexts.1 hdigest
    rw [packetText_inj hbound hbounds.1 htext,
      ih hbounds.2 hrest hreceivedTexts.2 hlistedTexts.2]

theorem RecoveredPacket.parts_injective : Function.Injective RecoveredPacket.parts := by
  rintro ⟨context, ciphertext⟩ ⟨context', ciphertext'⟩ h
  have hcontext : context = context' :=
    PublicationContext.authenticatedBytes_inj (congrArg Prod.fst h)
  have hciphertext : ciphertext = ciphertext' := congrArg Prod.snd h
  rw [hcontext, hciphertext]

theorem map_recovered_parts (records : List RetainedPublication) :
    (records.map RetainedPublication.recovered).map RecoveredPacket.parts =
      records.map RetainedPublication.parts := by
  rw [List.map_map]
  rfl

end Publishing

end Arachne.Delivery
