import Arachne.Security.History

/-! Signed, independently decryptable objects of the current epoch. -/

namespace Arachne.Security

open Fallible ByteCodec

def maxApplicationPayload : Nat := 12 * 1024
def maxApplicationContext : Nat := 1024
def maxApplicationCiphertext : Nat := 16 * 1024

/-- The calls into SFrame, and the secret that OpenMLS exports for it. -/
structure SFrame (Group Key : Type) where
  exportSecret : Group → Option Bytes
  encryptionKey : (keyId : Nat) → (secret : Bytes) → Option Key
  decryptionKey : (keyId : Nat) → (secret : Bytes) → Option Key
  encrypt : Key → (counter : U64) → (payload context : Bytes) → Option Bytes
  header : (frame : Bytes) → Option (Nat × U64)
  decrypt : Key → (frame context : Bytes) → Option Bytes

/-- Authenticated origin, not necessarily the immediate transport peer. -/
structure ApplicationMessage where
  member : Block 32
  endpoint : Block 32
  payload : Bytes
  deriving DecidableEq

structure AuthenticatedObject where
  message : ApplicationMessage
  counter : U64
  deriving DecidableEq

def objectMagic : Bytes := utf8 "DFSO" ++ [1]

def objectHeader : Nat := 5 + 32 + 8 + 4

def signatureLength : Nat := 64

def counterRecord : Bytes := utf8 "data-fabric/object-sender-counter/v1" ++ [0]

def signedObject (context object : Bytes) : Bytes :=
  utf8 "data-fabric/signed-object/v1" ++ [0] ++ beBytes 4 context.length ++ context ++ object

/-- The SFrame key id: the leaf, and the low bits of the epoch. -/
def keyId (epoch : U64) (leaf : Nat) : Nat := leaf * 2 ^ 16 + epoch.val % 2 ^ 16

/-- What an object is made of, up to its signature. -/
def objectBody (id : Block 32) (epoch : U64) (leaf : Nat) (frame : Bytes) : Bytes :=
  objectMagic ++ id.1 ++ beBytes 8 epoch.val ++ beBytes 4 leaf ++ frame

namespace Mls

variable {Group Signer Staged Key : Type} (mls : Mls Group Signer Staged)
  (sframe : SFrame Group Key)

/-- The counter of the last object of this epoch. -/
def objectCounter (workspace : Workspace Group Signer) : Outcome U64 :=
  match workspace.provider.find? counterRecord with
  | none => pure 0
  | some value => do
      failIf (value.length ≠ 16) "invalid object counter state"
      let epoch := u64OfBytes (value.take 8)
      let counter := u64OfBytes (value.drop 8)
      failIf (mls.epoch workspace < epoch ∨ counter = 0) "invalid object counter state"
      pure (if epoch = mls.epoch workspace then counter else 0)

def protectObject (workspace : Workspace Group Signer) (context payload : Bytes) :
    Outcome (Bytes × Workspace Group Signer) := do
  failIf (workspace.member = none ∨ maxApplicationContext < context.length ∨
    maxApplicationPayload < payload.length) "object exceeds bounds or lacks member identity"
  let last ← mls.objectCounter workspace
  let counter ← orFail (checkedSucc last) "object counter exhausted"
  let epoch := mls.epoch workspace
  let leaf := mls.ownLeafIndex workspace.group
  let secret ← orFail (sframe.exportSecret workspace.group) "object key unavailable"
  let key ← orFail (sframe.encryptionKey (keyId epoch leaf) secret) "object key unavailable"
  let frame ← orFail (sframe.encrypt key counter payload context) "object encryption failed"
  let body := objectBody workspace.id epoch leaf frame
  let signature ← orFail (mls.sign workspace.signer (signedObject context body))
    "object signing failed"
  failIf (maxApplicationCiphertext < (body ++ signature).length) "object exceeds bounds"
  pure (body ++ signature, { workspace with
    provider := workspace.provider.insert counterRecord
      (beBytes 8 epoch.val ++ beBytes 8 counter.val) })

theorem protectObject_eq_ok {mls : Mls Group Signer Staged} {sframe : SFrame Group Key}
    {workspace after : Workspace Group Signer} {context payload object : Bytes}
    (h : mls.protectObject sframe workspace context payload = .ok (object, after)) :
    context.length ≤ maxApplicationContext ∧ object.length ≤ maxApplicationCiphertext ∧
      ∃ last counter secret key frame signature, mls.objectCounter workspace = .ok last ∧
        checkedSucc last = some counter ∧ sframe.exportSecret workspace.group = some secret ∧
        sframe.encryptionKey (keyId (mls.epoch workspace) (mls.ownLeafIndex workspace.group))
          secret = some key ∧
        sframe.encrypt key counter payload context = some frame ∧
        mls.sign workspace.signer (signedObject context (objectBody workspace.id
          (mls.epoch workspace) (mls.ownLeafIndex workspace.group) frame)) = some signature ∧
        object = objectBody workspace.id (mls.epoch workspace)
          (mls.ownLeafIndex workspace.group) frame ++ signature ∧
        after = { workspace with
          provider := workspace.provider.insert counterRecord
            (beBytes 8 (mls.epoch workspace).val ++ beBytes 8 counter.val) } := by
  simp only [protectObject, bind_eq_ok, failIf_eq_ok, orFail_eq_ok, pure_eq_ok, not_or,
    not_lt, Prod.mk.injEq] at h
  obtain ⟨_, ⟨_, hcontext, _⟩, last, hlast, counter, hcounter, secret, hsecret, key, hkey, frame,
    hframe, signature, hsignature, _, hlarge, rfl, rfl⟩ := h
  exact ⟨hcontext, hlarge, last, counter, secret, key, frame, signature, hlast, hcounter, hsecret,
    hkey, hframe, hsignature, rfl, rfl⟩

/-- The fields of an object's envelope; the slices of `unprotect_object`. -/
def objectEpoch (object : Bytes) : U64 := u64OfBytes ((object.drop 37).take 8)

def objectLeaf (object : Bytes) : Nat := beNat ((object.drop 45).take 4)

def unprotectObject (workspace : Workspace Group Signer) (context object : Bytes) :
    Outcome AuthenticatedObject := do
  failIf (maxApplicationContext < context.length ∨
    object.length < objectHeader + 2 + 16 + signatureLength ∨
    maxApplicationCiphertext < object.length ∨ object.take 5 ≠ objectMagic ∨
    (object.drop 5).take 32 ≠ workspace.id.1) "invalid object envelope"
  failIf (objectEpoch object ≠ mls.epoch workspace) "object epoch not current"
  let author ← orFail ((mls.members workspace).find? (·.index = objectLeaf object))
    "object author not current"
  let (member, endpoint) ← binding author.credential
  let body := object.take (object.length - signatureLength)
  let signature := object.drop (object.length - signatureLength)
  failIf (!mls.verifySignature (signedObject context body) author.signatureKey signature)
    "object signature invalid"
  let (id, counter) ← orFail (sframe.header (body.drop objectHeader)) "invalid encrypted object"
  failIf (id ≠ keyId (mls.epoch workspace) (objectLeaf object) ∨ counter = 0)
    "object key or counter mismatch"
  let secret ← orFail (sframe.exportSecret workspace.group) "object key unavailable"
  let key ← orFail (sframe.decryptionKey id secret) "object key unavailable"
  let payload ← orFail (sframe.decrypt key (body.drop objectHeader) context)
    "object authentication failed"
  failIf (maxApplicationPayload < payload.length) "object payload exceeds bounds"
  pure ⟨⟨member, endpoint, payload⟩, counter⟩

end Mls

end Arachne.Security
