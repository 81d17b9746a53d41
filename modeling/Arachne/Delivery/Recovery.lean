import Arachne.Delivery.PublisherLog
import Arachne.Security.MembershipUpdate

/-! Author-signed recovery offers and current-view statements, and the security owner as the
delivery layer sees it. -/

namespace Arachne.Delivery

open ByteCodec Fallible Routing
open Security (ApplicationMessage AuthenticatedObject SFrame Workspace Mls Member binding
  maxApplicationCiphertext maxApplicationContext maxApplicationPayload)

def signatureBytes : Nat := 64

def RecoveryRequest.header (request : RecoveryRequest) : Outcome Bytes := do
  failIf (request.after ≥ request.through) "invalid recovery request"
  pure (utf8 "data-fabric/recovery-offer/v1\x00" ++ request.workspace.1 ++ request.author.1 ++
    beBytes 8 request.epoch.val ++ request.selection.1 ++ beBytes 8 request.after.val ++
    beBytes 8 request.through.val)

/-- What an offer says of one packet; `digest` of the source. -/
def packetDigest (sha256 : Bytes → Block 32) (packet : Bytes × Bytes) : Outcome (Block 32) := do
  let (context, ciphertext) := packet
  failIf (maxApplicationContext < context.length ∨ ciphertext = [] ∨
    maxApplicationCiphertext < ciphertext.length) "recovery packet exceeds bounds"
  pure (sha256 (utf8 "data-fabric/recovery-packet/v1\x00" ++ beBytes 4 context.length ++ context ++
    beBytes 4 ciphertext.length ++ ciphertext))

/-- An authenticated offer for exactly one request. -/
structure VerifiedRecoveryOffer where
  author : Block 32
  endpoint : Block 32
  packets : List (Block 32)
deriving DecidableEq

def VerifiedRecoveryOffer.verifyPackets (sha256 : Bytes → Block 32) (offer : VerifiedRecoveryOffer)
    (packets : List (Bytes × Bytes)) : Outcome Unit := do
  failIf (packets.length ≠ offer.packets.length) "incomplete recovery response"
  (packets.zip offer.packets).forM fun (packet, expected) => do
    let value ← packetDigest sha256 packet
    failIf (value ≠ expected) "recovery packet or order mismatch"

def VerifiedRecoveryOffer.verifyOrigin (offer : VerifiedRecoveryOffer)
    (message : ApplicationMessage) : Outcome Unit :=
  failIf (message.member ≠ offer.author ∨ message.endpoint ≠ offer.endpoint)
    "recovery author mismatch"

def currentViewStatement (context body : Bytes) : Bytes :=
  utf8 "data-fabric/current-view-statement/v1\x00" ++ beBytes 4 context.length ++ context ++
    beBytes 4 body.length ++ body

/-- The digests of an offer, one after the other. -/
def digestChunks : Nat → Bytes → List (Block 32)
  | 0, _ => []
  | count + 1, bytes =>
      if h : 32 ≤ bytes.length then
        ⟨bytes.take 32, List.length_take_of_le h⟩ :: digestChunks count (bytes.drop 32)
      else []

end Arachne.Delivery

namespace Arachne.Security.Mls

open ByteCodec Fallible Routing Delivery

variable {Group Signer Staged Key : Type} (mls : Mls Group Signer Staged)

/-- The ids and endpoints of the current members, in leaf order. -/
def bindings (workspace : Workspace Group Signer) : Outcome (List (Block 32 × Block 32)) :=
  (mls.members workspace).mapM fun member => binding member.credential

def endpointsForMembers (workspace : Workspace Group Signer) (members : List (Block 32)) :
    Outcome (List (Block 32)) := do
  failIf (¬ CanonicalScope members) "invalid direct recipient scope"
  let bindings ← mls.bindings workspace
  members.mapM fun member =>
    orFail ((bindings.find? (·.1 = member)).map Prod.snd) "direct recipient is not a current member"

def recoverySigner (workspace : Workspace Group Signer) (author : Block 32) :
    Outcome (Block 32 × Bytes) := do
  let signer ← findOnly
    (fun id endpoint member => if id = author then some (endpoint, member.signatureKey) else none)
    "ambiguous recovery author" none (mls.members workspace)
  orFail signer "recovery author is not a current member"

/-- The packet loop of `sign_recovery_offer`, with the digests so far. -/
def offerDigests (sha256 : Bytes → Block 32) :
    List (Block 32) → List (Bytes × Bytes) → Outcome (List (Block 32))
  | digests, [] => pure digests
  | digests, packet :: packets => do
      let value ← packetDigest sha256 packet
      failIf (value ∈ digests) "duplicate recovery packet"
      offerDigests sha256 (digests ++ [value]) packets

def signRecoveryOffer (workspace : Workspace Group Signer) (request : RecoveryRequest)
    (packets : List (Bytes × Bytes)) : Outcome Bytes := do
  failIf (request.workspace ≠ workspace.id ∨ request.epoch ≠ mls.epoch workspace ∨
    workspace.member.map (·.id) ≠ some request.author ∨ maxRecoveryPackets < packets.length)
    "invalid recovery offer scope or size"
  let header ← request.header
  let digests ← offerDigests mls.sha256 [] packets
  let body := header ++ beBytes 2 packets.length ++ digests.flatMap Subtype.val
  let signature ← orFail (mls.sign workspace.signer body) "recovery signing failed"
  pure (body ++ signature)

def verifyRecoveryOffer (workspace : Workspace Group Signer) (expected : RecoveryRequest)
    (bytes : Bytes) : Outcome VerifiedRecoveryOffer := do
  failIf (workspace.member = none ∨ expected.workspace ≠ workspace.id ∨
    expected.epoch ≠ mls.epoch workspace) "wrong recovery workspace or epoch"
  let header ← expected.header
  failIf (bytes.length < header.length + 2 + 64 ∨
    header.length + 2 + 32 * maxRecoveryPackets + 64 < bytes.length ∨
    bytes.take header.length ≠ header) "invalid recovery offer request or size"
  let count := beNat ((bytes.drop header.length).take 2)
  let stop := header.length + 2 + 32 * count
  failIf (maxRecoveryPackets < count ∨ bytes.length ≠ stop + 64) "invalid recovery offer count"
  let (endpoint, key) ← mls.recoverySigner workspace expected.author
  failIf (!mls.verifySignature (bytes.take stop) key (bytes.drop stop))
    "invalid recovery offer signature"
  let packets := digestChunks count (bytes.drop (header.length + 2))
  failIf (¬ packets.Nodup) "duplicate recovery digest"
  pure ⟨expected.author, endpoint, packets⟩

def signCurrentView (workspace : Workspace Group Signer) (context body : Bytes) :
    Outcome Bytes := do
  failIf (workspace.member = none ∨ maxApplicationContext < context.length ∨
    maxApplicationPayload < body.length)
    "current-view statement exceeds bounds or lacks member identity"
  let signature ← orFail (mls.sign workspace.signer (currentViewStatement context body))
    "current-view signing failed"
  pure (body ++ signature)

def verifyCurrentView (workspace : Workspace Group Signer) (authority : Block 32)
    (context signed : Bytes) : Outcome Bytes := do
  failIf (maxApplicationContext < context.length ∨ signed.length < signatureBytes ∨
    maxApplicationPayload + signatureBytes < signed.length) "invalid current-view statement size"
  let stop := signed.length - signatureBytes
  let (_, key) ← mls.recoverySigner workspace authority
  failIf (!mls.verifySignature (currentViewStatement context (signed.take stop)) key
    (signed.drop stop)) "invalid current-view signature"
  pure (signed.take stop)

end Arachne.Security.Mls

namespace Arachne.Delivery

open ByteCodec Fallible Routing
open Security (AuthenticatedObject SFrame Workspace Mls)

/-- What the delivery layer asks of the workspace that owns it. -/
structure SecurityOwner where
  id : WorkspaceId
  epoch : U64
  member : Option (Block 32)
  endpoint : PeerId
  sha256 : Bytes → Block 32
  endpointsForMembers : List (Block 32) → Outcome (List (Block 32))
  memberIdForEndpoint : PeerId → Outcome (Block 32)
  unprotectObject : (context object : Bytes) → Outcome AuthenticatedObject
  verifyRecoveryOffer : RecoveryRequest → Bytes → Outcome VerifiedRecoveryOffer
  verifyCurrentView : (authority : Block 32) → (context signed : Bytes) → Outcome Bytes
  counter_ne_zero {context object : Bytes} {authenticated : AuthenticatedObject} :
    unprotectObject context object = .ok authenticated → authenticated.counter ≠ 0
  offer_scope {request : RecoveryRequest} {bytes : Bytes} {offer : VerifiedRecoveryOffer} :
    verifyRecoveryOffer request bytes = .ok offer → request.workspace = id ∧ request.epoch = epoch

theorem unprotectObject_counter_ne_zero {Group Signer Staged Key : Type}
    {mls : Mls Group Signer Staged} {sframe : SFrame Group Key}
    {workspace : Workspace Group Signer} {context object : Bytes}
    {authenticated : AuthenticatedObject}
    (h : mls.unprotectObject sframe workspace context object = .ok authenticated) :
    authenticated.counter ≠ 0 := by
  simp only [Mls.unprotectObject, bind_eq_ok, pure_eq_ok, failIf_eq_ok, not_or] at h
  obtain ⟨_, _, _, _, _, _, _, _, _, _, _, _, _, ⟨_, hcounter⟩, _, _, _, _, _, _, _, _, rfl⟩ := h
  exact hcounter

theorem verifyRecoveryOffer_scope {Group Signer Staged : Type} {mls : Mls Group Signer Staged}
    {workspace : Workspace Group Signer} {request : RecoveryRequest} {bytes : Bytes}
    {offer : VerifiedRecoveryOffer}
    (h : mls.verifyRecoveryOffer workspace request bytes = .ok offer) :
    request.workspace = workspace.id ∧ request.epoch = mls.epoch workspace := by
  simp only [Mls.verifyRecoveryOffer, bind_eq_ok, failIf_eq_ok, not_or, not_not] at h
  obtain ⟨_, ⟨_, hscope⟩, _⟩ := h
  exact hscope

/-- A workspace in the part of a delivery owner. -/
def securityOwner {Group Signer Staged Key : Type} (mls : Mls Group Signer Staged)
    (sframe : SFrame Group Key) (workspace : Workspace Group Signer) : SecurityOwner where
  id := workspace.id
  epoch := mls.epoch workspace
  member := workspace.member.map (·.id)
  endpoint := workspace.endpoint
  sha256 := mls.sha256
  endpointsForMembers := mls.endpointsForMembers workspace
  memberIdForEndpoint := mls.memberIdForEndpoint workspace
  unprotectObject := mls.unprotectObject sframe workspace
  verifyRecoveryOffer := mls.verifyRecoveryOffer workspace
  verifyCurrentView := mls.verifyCurrentView workspace
  counter_ne_zero := unprotectObject_counter_ne_zero
  offer_scope := verifyRecoveryOffer_scope

end Arachne.Delivery
