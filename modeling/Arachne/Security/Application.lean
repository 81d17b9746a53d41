import Arachne.Security.Object

/-! MLS application messages, independent of transport and payload format. -/

namespace Arachne.Security

open Fallible ByteCodec

/-- A processed private message; `payload` is `none` for a handshake. -/
structure ProcessedApplication where
  aad : Bytes
  credential : Credential
  payload : Option Bytes
deriving DecidableEq

/-- The calls into OpenMLS that received application traffic makes. Of the two options of `decode`
the outer one is the encoding, the inner one whether the message is private. -/
structure Applications (Group : Type) where
  decode : Bytes → Option (Option ProtocolMessage)
  process : Owner Group → ProtocolMessage → Option (ProcessedApplication × Owner Group)

/-- The author of an application message; unlike `binding` it takes ids of zeros. -/
def applicationAuthor : Credential → Outcome (Block 32 × Block 32)
  | .basic identity =>
      match memberCredentialText.isPrefixOf? identity with
      | some bytes =>
          if h : bytes.length = 64 then
            pure (⟨bytes.take 32, length_take_half h⟩, ⟨bytes.drop 32, length_drop_half h⟩)
          else .error "application author lacks member identity"
      | none => .error "application author lacks member identity"
  | .other _ _ => .error "unsupported application author"

namespace Applications

variable {Group Signer : Type} (applications : Applications Group)

def unprotectApplication (workspace : Workspace Group Signer) (context ciphertext : Bytes) :
    Outcome (ApplicationMessage × Workspace Group Signer) := do
  failIf (maxApplicationContext < context.length ∨ maxApplicationCiphertext < ciphertext.length)
    "application message exceeds bounds"
  let decoded ← orFail (applications.decode ciphertext) "invalid application encoding"
  let message ← orFail decoded "application message must be private"
  let (processed, owner) ← orFail (applications.process workspace.owner message)
    "application authentication or replay check failed"
  failIf (processed.aad ≠ context) "application routing context mismatch"
  let (member, endpoint) ← applicationAuthor processed.credential
  let payload ← orFail processed.payload "membership operation on application channel"
  failIf (maxApplicationPayload < payload.length) "application payload exceeds bounds"
  pure (⟨member, endpoint, payload⟩,
    { workspace with provider := owner.provider, group := owner.group })

end Applications

end Arachne.Security
