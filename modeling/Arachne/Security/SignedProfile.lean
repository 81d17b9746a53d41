import Arachne.Security.History

/-! The names that members sign for each other. -/

namespace Arachne.Security

open ByteCodec Fallible

variable {Group Signer Staged : Type}

def maxMemberProfile : Nat := 5 + 32 + 32 + 1 + 256 + 64

def profileHeader : Bytes := utf8 "DFMP" ++ [1]

def serviceHeader : Bytes := utf8 "DFMP" ++ [2]

/-- Where the name starts, and whether the profile is a service's. -/
def profileKind (bytes : Bytes) : Outcome (Nat × Bool) :=
  if profileHeader <+: bytes then pure (69, false)
  else if serviceHeader <+: bytes ∧ bytes[69]? = some 1 then pure (70, true)
  else .error "invalid member profile scope or size"

/-- The member that the bytes of a profile name, whether or not it signed them. -/
def profileAuthor (bytes : Bytes) : Option (Block 32) :=
  if h : ((bytes.drop 37).take 32).length = 32 then some ⟨(bytes.drop 37).take 32, h⟩ else none

namespace Mls

variable (mls : Mls Group Signer Staged)

def signProfile (workspace : Workspace Group Signer) (service : Bool) : Outcome Bytes := do
  let member ← orFail workspace.member "member profile required"
  let bytes := (if service then serviceHeader else profileHeader) ++ workspace.id.1 ++
    member.id.1 ++ (if service then [1] else []) ++ utf8 member.displayName
  let signature ← orFail (mls.sign workspace.signer bytes) "profile signing failed"
  pure (bytes ++ signature)

def verifyMemberProfile (workspace : Workspace Group Signer) (bytes : Bytes) :
    Outcome MemberProfile := do
  let (nameStart, service) ← profileKind bytes
  failIf (bytes.length < nameStart + 1 + 64 ∨ maxMemberProfile < bytes.length ∨
    (bytes.drop 5).take 32 ≠ workspace.id.1) "invalid member profile scope or size"
  -- The length is checked, so the id is always there.
  let id ← orFail (profileAuthor bytes) "invalid member profile scope or size"
  let signed := bytes.take (bytes.length - 64)
  let name ← orFail (fromUtf8 (signed.drop nameStart)) "invalid profile text"
  let profile ← MemberProfile.newKind id name service
  failIf (profile.displayName ≠ name) "noncanonical member profile"
  let member ← orFail ((mls.publicGroup workspace.group).members.find? fun member =>
    (binding member.credential).toOption.map Prod.fst = some id)
      "profile author is not a current member"
  failIf (mls.verifySignature signed member.signatureKey (bytes.drop (bytes.length - 64)) = false)
    "invalid member profile signature"
  pure profile

/-- The signer's signatures fit into a profile; those of Ed25519 have 64 bytes. -/
def SignsShort : Prop :=
  ∀ signer message signature, mls.sign signer message = some signature → signature.length ≤ 64

variable {mls}

variable {service : Bool} {profile : MemberProfile} {workspace : Workspace Group Signer}
  {bytes : Bytes}

theorem newKind_id {id : Block 32} {name : String}
    (h : MemberProfile.newKind id name service = .ok profile) : profile.id = id := by
  rw [MemberProfile.newKind] at h
  split at h
  · cases h
    rfl
  · cases h

theorem verifyMemberProfile_eq_ok (h : mls.verifyMemberProfile workspace bytes = .ok profile) :
    bytes.length ≤ maxMemberProfile ∧ profileAuthor bytes = some profile.id ∧
      ∃ member ∈ (mls.publicGroup workspace.group).members,
        (binding member.credential).toOption.map Prod.fst = some profile.id := by
  simp only [verifyMemberProfile, bind_eq_ok, failIf_eq_ok, orFail_eq_ok, pure_eq_ok, not_or,
    not_lt] at h
  obtain ⟨⟨nameStart, service⟩, _, _, hscope, id, hid, name, _, named, hnamed, _, _, member,
    hmember, _, _, rfl⟩ := h
  rw [newKind_id hnamed]
  refine ⟨hscope.2.1, hid, member, List.mem_of_find?_eq_some hmember, ?_⟩
  simpa using List.find?_some hmember

/-- A member's own profile names it and can be sent, whether or not others would verify it. -/
theorem signProfile_eq_ok (hsigns : mls.SignsShort) {member : MemberProfile}
    (hmember : workspace.member = some member)
    (h : mls.signProfile workspace service = .ok bytes) :
    profileAuthor bytes = some member.id ∧ bytes.length ≤ maxMemberProfile := by
  simp only [signProfile, hmember, orFail_some, ok_bind, bind_eq_ok, orFail_eq_ok, pure_eq_ok] at h
  obtain ⟨signature, hsignature, rfl⟩ := h
  have hname : (utf8 member.displayName).length ≤ 256 := by
    have hbounded := member.bounded
    simp only [isMemberName, Bool.and_eq_true, decide_eq_true_eq] at hbounded
    exact hbounded.1.1.2
  have hheader : (if service then serviceHeader else profileHeader).length = 5 := by
    cases service <;> decide
  have hkind : (if service then [1] else [] : Bytes).length ≤ 1 := by
    cases service <;> decide
  have hsigned := hsigns _ _ _ hsignature
  have hauthor : ((((if service then serviceHeader else profileHeader) ++ workspace.id.1 ++
      member.id.1 ++ (if service then [1] else []) ++ utf8 member.displayName ++
        signature).drop 37).take 32) = member.id.1 := by
    have hstart : ((if service then serviceHeader else profileHeader) ++ workspace.id.1).length =
        37 := by
      rw [List.length_append, hheader, workspace.id.2]
    simp only [List.append_assoc]
    rw [← List.append_assoc, ← hstart, List.drop_left, List.take_left' member.id.2]
  constructor
  · rw [profileAuthor, dif_pos (by rw [hauthor, member.id.2])]
    exact congrArg some (Subtype.ext hauthor)
  · simp only [List.length_append, hheader, workspace.id.2, member.id.2, maxMemberProfile]
    omega

end Mls

end Arachne.Security
