import Arachne.Delivery.InboxSnapshot
import Arachne.Security.Application

/-! How a receiver's journal takes in publications: live, and from verified ranges. -/

namespace Arachne.Delivery

open ByteCodec Fallible Routing
open Security (ApplicationMessage Applications Member Mls SFrame Workspace binding)

/-- A recovery candidate; nothing is adopted yet. -/
structure StagedRecovery (Group Signer : Type) where
  owner : Workspace Group Signer
  received : ReceiveJournal
  publications : List (PublicationContext × ApplicationMessage)
  alreadyReceived : Nat

inductive RecoveryStage (Group Signer : Type) where
  | alreadyCovered
  | prepared (staged : StagedRecovery Group Signer)
  | rejected (error : RetrievalError)

section Model

variable {Group Signer Staged Key : Type} (mls : Mls Group Signer Staged)
  (sframe : SFrame Group Key) (applications : Applications Group)

/-- The packet loop of `prepare_recovery`. -/
def receivePackets (author : Block 32) (proof : VerifiedRecoveryOffer) :
    List RecoveredPacket → StagedRecovery Group Signer → Outcome (StagedRecovery Group Signer)
  | [], staged => pure staged
  | packet :: packets, staged => do
      match ← staged.received.check mls.sha256 author packet.context packet.ciphertext with
      | .known =>
          receivePackets author proof packets
            { staged with alreadyReceived := staged.alreadyReceived + 1 }
      | .conflicting => .error "conflicting received publication"
      | .unseen => do
          let (message, owner) ← applications.unprotectApplication staged.owner
            packet.context.authenticatedBytes packet.ciphertext
          proof.verifyOrigin message
          let received ← staged.received.recordVerified mls.sha256 message packet.context
            packet.ciphertext
          receivePackets author proof packets { staged with
            owner, received, publications := staged.publications ++ [(packet.context, message)] }

def ReceiveJournal.prepareRecovery (journal : ReceiveJournal) (owner : Workspace Group Signer)
    (publisher : PublisherLog) (query : RangeQuery) (reply : Bytes) :
    Outcome (RecoveryStage Group Signer) := do
  publisher.validateOwner (securityOwner mls sframe owner)
  failIf (journal.workspace ≠ owner.id ∨ journal.epoch ≠ mls.epoch owner)
    "receive journal does not match security owner"
  match ← verifyReply (securityOwner mls sframe owner) query reply with
  | .rejected error => pure (.rejected error)
  | .offered offer =>
      let selection : SelectionKey := toLex (query.author, selectionDigest mls.sha256 query.topics)
      let known := journal.progress.find? selection
      if query.through ≤ known.getD 0 then pure .alreadyCovered
      else do
        failIf (query.after ≠ known.getD 0) "recovery range does not continue accepted progress"
        failIf (known = none ∧ journal.progress.size = maxRecoverySelections)
          "recovery selection capacity exhausted"
        let staged ← receivePackets mls applications query.author offer.proof offer.packets
          ⟨owner, journal, [], 0⟩
        pure (.prepared { staged with
          received := { staged.received with
            progress := staged.received.progress.insert selection query.through } })

end Model

end Arachne.Delivery
