import Arachne.Delivery.RangeRoundTrip

/-! Everything that a member signs, and why none of it but an offer for the same request passes
for an offer. -/

namespace Arachne.Delivery

open ByteCodec Fallible Routing
open Security (Mls SFrame Workspace maxApplicationContext)

/-- A request for the head of a publisher's index, bound to one exchange by its nonce. -/
structure RecoveryCutoffRequest where
  workspace : WorkspaceId
  author : Block 32
  epoch : U64
  selection : Block 32
  policyRevision : U64
  nonce : Block 32
deriving DecidableEq

def RecoveryCutoffRequest.header (request : RecoveryCutoffRequest) : Bytes :=
  utf8 "data-fabric/recovery-cutoff/v2\x00" ++ request.workspace.1 ++ request.author.1 ++
    beBytes 8 request.epoch.val ++ request.selection.1 ++ beBytes 8 request.policyRevision.val ++
    request.nonce.1

def recoveryWindow (request : RecoveryCutoffRequest) (after head : U64) : Bytes :=
  request.header ++ beBytes 8 after.val ++ beBytes 8 head.val

end Arachne.Delivery

namespace Arachne.Security.Mls

open ByteCodec Fallible Delivery

variable {Group Signer Staged : Type} (mls : Mls Group Signer Staged)

def signRecoveryWindow (workspace : Workspace Group Signer) (request : RecoveryCutoffRequest)
    (after head : U64) : Outcome Bytes := do
  failIf (head < after) "invalid recovery window"
  failIf (request.workspace ≠ workspace.id ∨ request.epoch ≠ mls.epoch workspace ∨
    workspace.member.map (·.id) ≠ some request.author) "invalid recovery cutoff scope"
  let bytes := recoveryWindow request after head
  let signature ← orFail (mls.sign workspace.signer bytes) "recovery signing failed"
  pure (bytes ++ signature)

end Arachne.Security.Mls

namespace Arachne.Delivery

open ByteCodec Fallible Routing
open Security (Mls SFrame Workspace maxApplicationContext signedObject)

/-- How the other texts begin that a member's key signs: profiles, workspace names, invitation
grants and their checkpoints, departures, and what MLS signs under its labels. -/
def otherOpenings : List Bytes :=
  [utf8 "DFMP" ++ [1], utf8 "DFMP" ++ [2], utf8 "DFNM" ++ [1], utf8 "DFNC" ++ [1],
    utf8 "data-fabric/candidate-invite/v1/ordinary-member",
    utf8 "data-fabric/invitation-checkpoint/v1/", utf8 "data-fabric/leave/v1\x00",
    [24] ++ utf8 "MLS 1.0 FramedContentTBS", [19] ++ utf8 "MLS 1.0 LeafNodeTBS",
    [21] ++ utf8 "MLS 1.0 KeyPackageTBS", [20] ++ utf8 "MLS 1.0 GroupInfoTBS"]

/-- One use of a member's signature key. -/
inductive Signing (Group Signer : Type) where
  | offer (owner : Workspace Group Signer) (request : RecoveryRequest)
      (packets : List (Bytes × Bytes))
  | window (owner : Workspace Group Signer) (request : RecoveryCutoffRequest) (after head : U64)
  | currentView (owner : Workspace Group Signer) (context body : Bytes)
  | object (context body : Bytes)
  | other (opening : { opening : Bytes // opening ∈ otherOpenings }) (content : Bytes)

/-- The text that a use of the key signs, where the call that makes it succeeds. -/
def Signing.Signed {Group Signer Staged : Type} (mls : Mls Group Signer Staged) (text : Bytes) :
    Signing Group Signer → Prop
  | offer owner request packets =>
      (∃ bytes, mls.signRecoveryOffer owner request packets = .ok bytes) ∧
        offerMessage mls.sha256 request packets = .ok text
  | window owner request after head =>
      (∃ bytes, mls.signRecoveryWindow owner request after head = .ok bytes) ∧
        text = recoveryWindow request after head
  | currentView owner context body =>
      (∃ bytes, mls.signCurrentView owner context body = .ok bytes) ∧
        text = currentViewStatement context body
  | object context body => text = signedObject context body
  | other opening content => text = opening.val ++ content

/-- The texts that an offer digests for its packets. -/
def Signing.packetTexts {Group Signer : Type} : Signing Group Signer → List Bytes
  | offer _ _ packets => packets.map packetText
  | _ => []

section Separation

theorem not_isPrefix_append {a b : Bytes} (hab : ¬ a <+: b) (hba : ¬ b <+: a) (rest : Bytes) :
    ¬ a <+: b ++ rest := by
  intro h
  rcases List.prefix_or_prefix_of_prefix h (List.prefix_append b rest) with hle | hge
  · exact hab hle
  · exact hba hge

variable {Group Signer Staged : Type} {mls : Mls Group Signer Staged}

/-- Only offers begin as an offer does. -/
theorem Signing.offer_of_signed {signing : Signing Group Signer} {text : Bytes}
    (hsigned : signing.Signed mls text)
    (hopening : utf8 "data-fabric/recovery-offer/v1\x00" <+: text) :
    ∃ owner request packets, signing = .offer owner request packets ∧
      (∃ bytes, mls.signRecoveryOffer owner request packets = .ok bytes) ∧
      offerMessage mls.sha256 request packets = .ok text := by
  cases signing with
  | offer owner request packets => exact ⟨owner, request, packets, rfl, hsigned⟩
  | window owner request after head =>
    obtain ⟨_, rfl⟩ := hsigned
    rw [recoveryWindow, RecoveryCutoffRequest.header] at hopening
    simp only [List.append_assoc] at hopening
    exact absurd hopening (not_isPrefix_append (by decide) (by decide) _)
  | currentView owner context body =>
    obtain ⟨_, rfl⟩ := hsigned
    rw [currentViewStatement] at hopening
    simp only [List.append_assoc] at hopening
    exact absurd hopening (not_isPrefix_append (by decide) (by decide) _)
  | object context body =>
    obtain rfl := hsigned
    rw [signedObject] at hopening
    simp only [List.append_assoc] at hopening
    exact absurd hopening (not_isPrefix_append (by decide) (by decide) _)
  | other opening content =>
    obtain rfl := hsigned
    have hapart : ∀ opening ∈ otherOpenings,
        ¬ utf8 "data-fabric/recovery-offer/v1\x00" <+: opening ∧
          ¬ opening <+: utf8 "data-fabric/recovery-offer/v1\x00" := by decide
    obtain ⟨hafter, hbefore⟩ := hapart opening.val opening.property
    exact absurd hopening (not_isPrefix_append hafter hbefore content)

/-- What verifies in a reply under the author's key was signed with it. -/
def Genuine (mls : Mls Group Signer Staged) (signings : List (Signing Group Signer))
    (receiver : Workspace Group Signer) (query : RangeQuery) (reply : Bytes) : Prop :=
  ∀ offer packets rest endpoint key, readReply query reply = .ok (.offered offer packets, rest) →
    mls.recoverySigner receiver query.author = .ok (endpoint, key) →
    mls.verifySignature (offer.take (offer.length - 64)) key (offer.drop (offer.length - 64)) =
      true → ∃ signing ∈ signings, signing.Signed mls (offer.take (offer.length - 64))

/-- Whoever holds the history of an author can only pass on what the author offered for the very
same request: the author signed an offer for the scope and the range of the query, for exactly
the packets received and in their order. -/
theorem coverage_unaltered {Key : Type} (sframe : SFrame Group Key)
    {signings : List (Signing Group Signer)} {receiver : Workspace Group Signer}
    {query : RangeQuery} {reply : Bytes} {range : VerifiedRange}
    (hgenuine : Genuine mls signings receiver query reply) {hashed : Set Bytes}
    (hsha : Set.InjOn mls.sha256 hashed)
    (hsignings : ∀ signing ∈ signings, ∀ text ∈ signing.packetTexts, text ∈ hashed)
    (hreply : ∀ text ∈ replyTexts query range.packets, text ∈ hashed)
    (hverified : verifyReply (securityOwner mls sframe receiver) query reply =
      .ok (.offered range)) :
    ∃ owner packets offer,
      .offer owner ⟨query.workspace, query.author, query.epoch,
        selectionDigest mls.sha256 query.topics, query.after, query.through⟩ packets ∈ signings ∧
      owner.member.map (·.id) = some query.author ∧
      mls.signRecoveryOffer owner ⟨query.workspace, query.author, query.epoch,
        selectionDigest mls.sha256 query.topics, query.after, query.through⟩ packets =
          .ok offer ∧
      packets = range.packets.map RecoveredPacket.parts ∧
      (∀ records : List RetainedPublication, packets = records.map RetainedPublication.parts →
        range.packets = records.map fun record => ⟨record.context, record.ciphertext⟩) ∧
      ∀ topics, selectionText topics ∈ hashed →
        selectionDigest mls.sha256 topics = selectionDigest mls.sha256 query.topics →
        topics = query.topics := by
  obtain ⟨request, offer, rest, hrequest, _, hread, hoffer, hpackets⟩ :=
    verifyReply_eq_offered hverified
  obtain rfl := RangeQuery.recoveryRequest_eq_ok hrequest
  obtain ⟨hopening, endpoint, key, hsigner, hsignature⟩ := verifyRecoveryOffer_signature hoffer
  obtain ⟨signing, hmem, hsigned⟩ :=
    hgenuine offer range.packets rest endpoint key hread hsigner hsignature
  obtain ⟨owner, request, packets, rfl, ⟨bytes, hbytes⟩, hmessage⟩ :=
    Signing.offer_of_signed hsigned hopening
  obtain ⟨hcount, _⟩ := signRecoveryOffer_eq_ok hbytes
  obtain ⟨rfl, _, hdigests, hbounds⟩ := verifyRecoveryOffer_of_message hoffer hmessage hcount
  have hauthor : owner.member.map (·.id) = some query.author := by
    simp only [Mls.signRecoveryOffer, bind_eq_ok, failIf_eq_ok, not_or, not_not] at hbytes
    obtain ⟨_, ⟨_, _, hmember, _⟩, _⟩ := hbytes
    exact hmember
  have hlisted : range.packets.map RecoveredPacket.parts = packets := by
    apply packets_eq_of_digests hsha hbounds
    · rw [← hdigests]
      exact verifyPackets_eq_ok hpackets
    · intro packet hpacket
      obtain ⟨received, hreceived, rfl⟩ := List.mem_map.mp hpacket
      exact hreply _ (List.mem_cons_of_mem _ (List.mem_map_of_mem hreceived))
    · intro packet hpacket
      exact hsignings _ hmem _ (List.mem_map_of_mem hpacket)
  refine ⟨owner, packets, bytes, hmem, hauthor, hbytes, hlisted.symm, ?_, ?_⟩
  · intro records hrecords
    apply RecoveredPacket.parts_injective.list_map
    rw [hlisted, hrecords, ← map_recovered_parts]
    rfl
  · intro topics htopics hdigest
    exact selectionText_inj (hsha htopics (hreply _ List.mem_cons_self) hdigest)

end Separation

section Sample

open Security (ScriptGroup)
open Security.Sample (block workspaceId pair leader follower sframe)

def notesPackets : List (Bytes × Bytes) := [legacyNote.parts, sequencedNote.parts]

def notesOffer : Bytes :=
  headerText notesRange.request ++ beBytes 2 2 ++
    (notesPackets.map fun packet => pair.mls.sha256 (packetText packet)).flatMap
      Subtype.val ++ List.replicate 64 0

/-- The administrator signed the offer, and a cutoff for the same selection. -/
def notesSignings : List (Signing ScriptGroup Bytes) :=
  [.window (leader pair) ⟨workspaceId, block 1, 1,
      notesRange.request.selection, 1, zeroBlock 32⟩ 0 2,
    .offer (leader pair) notesRange.request notesPackets]

theorem notes_genuine : Genuine pair.mls notesSignings (follower pair)
    (notesQuery 0 2) (encodedReply notesRange notesOffer) := by
  intro offer packets rest endpoint key hread _ _
  have hframe : readReply (notesQuery 0 2) (encodedReply notesRange notesOffer) =
      .ok (.offered notesOffer [legacyNote.recovered, sequencedNote.recovered], []) := by
    decide +kernel
  rw [hframe] at hread
  cases hread
  refine ⟨_, List.mem_cons_of_mem _ List.mem_cons_self, ⟨notesOffer, ?_⟩, ?_⟩
  · decide +kernel
  · decide +kernel

theorem coverage_unaltered_notes :
    ∃ range, verifyReply (securityOwner pair.mls sframe
        (follower pair)) (notesQuery 0 2) (encodedReply notesRange notesOffer) =
      .ok (.offered range) ∧
    ∃ owner packets, .offer owner notesRange.request packets ∈ notesSignings ∧
      packets = range.packets.map RecoveredPacket.parts := by
  have hverified : verifyReply (securityOwner pair.mls sframe
      (follower pair)) (notesQuery 0 2) (encodedReply notesRange notesOffer) =
      .ok (.offered ⟨⟨block 1, block 11, notesPackets.map fun packet =>
        pair.mls.sha256 (packetText packet)⟩,
        [legacyNote.recovered, sequencedNote.recovered]⟩) := by
    decide +kernel
  have hinj : ∀ text ∈ selectionText (notesQuery 0 2).topics :: notes.packetTexts,
      ∀ other ∈ selectionText (notesQuery 0 2).topics :: notes.packetTexts,
      pair.mls.sha256 text = pair.mls.sha256 other → text = other := by
    decide +kernel
  have hsha : Set.InjOn pair.mls.sha256
      {text | text ∈ selectionText (notesQuery 0 2).topics :: notes.packetTexts} := by
    intro text htext other hother heq
    exact hinj text htext other hother heq
  have hreply : ∀ text ∈ replyTexts (notesQuery 0 2)
      [legacyNote.recovered, sequencedNote.recovered],
      text ∈ selectionText (notesQuery 0 2).topics :: notes.packetTexts := by
    decide +kernel
  refine ⟨_, hverified, ?_⟩
  obtain ⟨owner, packets, _, hmem, _, _, hpackets, _⟩ := coverage_unaltered sframe
    notes_genuine hsha (by decide +kernel) hreply hverified
  exact ⟨owner, packets, hmem, hpackets⟩

end Sample

end Arachne.Delivery
