import Arachne.Delivery.InboxRuns

/-! Recovered ranges enter the inbox. A verified range is staged packet by packet; an automatic
range then moves the recovery progress of its author and topics. -/

namespace Arachne.Delivery

open ByteCodec Fallible Routing SortedWindow
open Security (AuthenticatedObject)

open ObjectInbox (Staging)

/-- The object in a recovered packet: a current value is wrapped, anything else stands as it
is. -/
def RecoveredPacket.staging (packet : RecoveredPacket) : Outcome Staging :=
  if liveText <+: packet.ciphertext then do
    let live ← LiveCurrentPacket.fromWire packet.ciphertext
    let (context, ciphertext) ← PublicationContext.unpack packet.context.workspace
      packet.context.revision packet.context.topic live.packet
    failIf (context ≠ packet.context) "retained current publication context mismatch"
    pure ⟨packet.context, [], some live.metadata, ciphertext⟩
  else pure ⟨packet.context, [], none, packet.ciphertext⟩

/-- The context that a published object is authenticated in. -/
def publishedContext (staging : Staging) : Bytes :=
  staging.current.elim staging.context.authenticatedBytes (·.authenticatedContext staging.context)

/-- A range that a holder answered with, ready to be staged. -/
structure ReadyRange where
  query : RangeQuery
  reply : Bytes
  automatic : Bool
deriving DecidableEq

/-- How an error of a holder reads. -/
def RetrievalError.text : RetrievalError → String
  | .denied => "Denied"
  | .history .invalid => "History(Invalid)"
  | .history .unavailable => "History(Unavailable)"
  | .history .empty => "History(Empty)"
  | .history .tooLarge => "History(TooLarge)"

inductive InboxRecovery where
  | alreadyCovered
  | noNewObjects
  | candidate (inbox : ObjectInbox) (count : Nat)

/-- What staging a range asks of its session: the check of the recovery policy, the clock, and
the seal of the state that is saved. -/
structure RecoverySession where
  policy : Outcome Unit
  now : Option U64
  sealState : ObjectInbox → Outcome Unit

namespace ObjectInbox

/-- The packet loop of `stage_recovery`, with the count of staged packets. -/
def stageRecovered (json : Json) (owner : SecurityOwner) (proof : VerifiedRecoveryOffer) :
    List RecoveredPacket → ObjectInbox × Nat → Outcome (ObjectInbox × Nat)
  | [], state => pure state
  | packet :: packets, (inbox, count) => do
      let staging ← packet.staging
      let authenticated ← owner.unprotectObject (publishedContext staging) staging.object
      proof.verifyOrigin authenticated.message
      match ← inbox.stageScoped json owner staging with
      | .prepared next => stageRecovered json owner proof packets (next, count + 1)
      | .duplicate => stageRecovered json owner proof packets (inbox, count)
      | .outsideWindow => .error "recovered object outside receive window"

/-- The range kept for others, if asked for. -/
def holdRecovered (json : Json) (owner : SecurityOwner) (inbox : ObjectInbox) (ready : ReadyRange)
    (retainUntil : U64) (now : Option U64) : Outcome ObjectInbox :=
  if retainUntil = 0 then pure inbox
  else do
    let now ← orFail now "system clock is before Unix epoch"
    inbox.retainRange json owner ready.query ready.reply retainUntil now

/-- The progress of an automatic range. -/
def coverRecovered (json : Json) (owner : SecurityOwner) (inbox : ObjectInbox)
    (ready : ReadyRange) : Outcome ObjectInbox :=
  if ready.automatic then inbox.acceptRecoveryCoverage json owner ready.query ready.reply
  else pure inbox

/-- `stage_recovery` of a session with object delivery. -/
def stageRecovery (json : Json) (session : RecoverySession) (owner : SecurityOwner)
    (inbox : ObjectInbox) (ready : ReadyRange) (retainUntil : U64) : Outcome InboxRecovery := do
  session.policy
  let _ ← orFail owner.member "publisher requires member identity"
  let progress := inbox.recoveryProgress owner.sha256 ready.query.author ready.query.topics
  if ready.automatic = true ∧ ready.query.through ≤ progress then pure .alreadyCovered
  else do
    failIf (ready.automatic = true ∧ ready.query.after ≠ progress)
      "recovery range does not continue accepted progress"
    match ← verifyReply owner ready.query ready.reply with
    | .rejected error => .error error.text
    | .offered offer => do
        let held ← inbox.holdRecovered json owner ready retainUntil session.now
        let (next, count) ← stageRecovered json owner offer.proof offer.packets (held, 0)
        let next ← next.coverRecovered json owner ready
        if count = 0 ∧ retainUntil = 0 ∧ ready.automatic = false then pure .noNewObjects
        else do
          session.sealState next
          pure (.candidate next count)

end ObjectInbox

end Arachne.Delivery
