import Mathlib.Data.List.Sort
import Arachne.Security.Mls

/-! The authority extension of a workspace's group context, the binding of a credential to a
member id and an endpoint, and the texts that invitations sign. -/

namespace Arachne.Security

open Fallible ByteCodec

def suite : Nat := 1

def authorityKind : Nat := 0xff00

def maxAdmissionBatch : Nat := 128

/-- `MAX_BYTES` of the public membership proof. -/
def maxBytes : Nat := 64 * 1024

structure InvitationControl where
  key : Block 32
  expiresAt : U64
  enabled : Bool
  personal : Bool
  approvedPackage : Block 32
  deriving DecidableEq

/-- The rows of the control table; `controls` are those already read. -/
def readControls : Nat → List InvitationControl → Reader (List InvitationControl)
  | 0, controls => pure controls
  | count + 1, controls => do
      let key ← takeBlock "invalid invitation control length" 32
      let expiresAt ← takeU64 "invalid invitation control length"
      let enabled ← takeNat "invalid invitation control length" 1
      let personal ← takeNat "invalid invitation control length" 1
      let approvedPackage ← takeBlock "invalid invitation control length" 32
      check (1 < enabled ∨ 1 < personal ∨ key = zeroBlock 32 ∨
        controls.any (·.key = key)) "invalid invitation control"
      readControls count
        (controls ++ [⟨key, expiresAt, enabled == 1, personal == 1, approvedPackage⟩])

/-- `invitation_controls::decode`. -/
def decodePolicy (bytes : Bytes) : Outcome (Bool × List InvitationControl) :=
  match bytes with
  | legacy :: high :: low :: rows => do
      failIf (16 * 1024 < bytes.length ∨ 1 < legacy) "invalid invitation controls"
      let count := beNat [high, low]
      failIf (rows.length ≠ count * 74) "invalid invitation control length"
      let (controls, _) ← readControls count [] rows
      pure (legacy == 1, controls)
  | _ => .error "invalid invitation controls"

/-- The first `count` pieces of `width` bytes. -/
def chunks (width : Nat) : Nat → Bytes → List Bytes
  | 0, _ => []
  | count + 1, bytes => bytes.take width :: chunks width count (bytes.drop width)

/-- The administrators' signature keys. -/
def authority (extensions : List Extension) : Outcome (List Bytes) := do
  match ← orFail (unknown extensions authorityKind) "missing authority" with
  | version :: count :: rest => do
      let size := count.toNat * 32
      failIf (¬(version = 1 ∨ version = 2) ∨ count = 0 ∨ 64 < count ∨ rest.length < size)
        "invalid authority encoding"
      if version = 1 then
        failIf (rest.length ≠ size) "invalid authority length"
      else
        let _ ← decodePolicy (rest.drop size)
      let keys := chunks 32 count.toNat rest
      failIf (¬ keys.IsChain (· < ·)) "noncanonical authority"
      pure keys
  | _ => .error "invalid authority encoding"

/-- The invitation controls part of the authority extension. -/
def policyBytes (extensions : List Extension) : Outcome Bytes := do
  let keys ← authority extensions
  let bytes ← orFail (unknown extensions authorityKind) "missing authority"
  pure (if bytes.headD 0 = 1 then [1, 0, 0] else bytes.drop (2 + keys.length * 32))

/-- The invitation controls in force, with the flag that lets unlisted invitations pass. -/
def invitationControls (extensions : List Extension) :
    Outcome (Bool × List InvitationControl) := do
  decodePolicy (← policyBytes extensions)

def replaceAdmins (extensions : List Extension) (admins : List Bytes) : Outcome Bytes := do
  let old ← orFail (unknown extensions authorityKind) "missing authority"
  let bytes := old.headD 0 :: UInt8.ofNat admins.length :: admins.flatten
  if old.headD 0 = 2 then
    pure (bytes ++ (← policyBytes extensions))
  else
    pure bytes

/-- The same extensions with another authority extension. `from_vec` refuses a list with two
extensions of one type. -/
def withAuthority (extensions : List Extension) (bytes : Bytes) (message : String) :
    Outcome (List Extension) := do
  failIf (¬ (extensions.map (·.kind)).Nodup) message
  pure (extensions.map fun extension =>
    if extension.kind = authorityKind then ⟨authorityKind, bytes⟩ else extension)

def memberCredentialText : Bytes := utf8 "data-fabric/candidate-member/v2/"

instance lawfulBEqBinding : LawfulBEq (Block 32 × Block 32) := inferInstance

/-- The member id and the endpoint a credential binds. -/
def binding : Credential → Outcome (Block 32 × Block 32)
  | .basic identity => do
      let bytes ← orFail (memberCredentialText.isPrefixOf? identity)
        "member credential upgrade required"
      if h : bytes.length = 64 then
        let id : Block 32 := ⟨bytes.take 32, length_take_half h⟩
        let endpoint : Block 32 := ⟨bytes.drop 32, length_drop_half h⟩
        failIf (id = zeroBlock 32 ∨ endpoint = zeroBlock 32) "invalid member binding"
        pure (id, endpoint)
      else
        .error "invalid member binding"
  | .other _ _ => .error "unsupported credential"

/-- Public proof of an ordinary-member invitation and its redemption. -/
structure AdmissionAuthorization where
  invitationKey : Block 32
  grantSignature : Block 64
  redemptionSignature : Block 64
  deriving DecidableEq

def grant (groupId : Bytes) (key : Block 32) : Bytes :=
  utf8 "data-fabric/candidate-invite/v1/ordinary-member" ++ beBytes 4 groupId.length ++
    groupId ++ key.1

def redemption (groupId : Bytes) (key : Block 32) (package : KeyPackage) : Bytes :=
  utf8 "data-fabric/candidate-redemption/v1" ++ grant groupId key ++ package.encoded

end Arachne.Security
