import Arachne.Lib.Transition
import Arachne.Delivery.DirectRetention
import Arachne.Delivery.InboxReload

/-! The operations of an inbox as steps. A call of the interface is a run of acts: one staging
accepted, one head announced, and so on; calls that stage several objects make several acts. -/

namespace Arachne.Delivery

open ByteCodec Fallible Routing SortedWindow Transition Keyed

variable {json : Json} {inbox : ObjectInbox} {now counter : U64} {pending stale : Nat}

namespace ObjectInbox

variable {owner : SecurityOwner} {next : ObjectInbox}

section Inversions

theorem stageSentDirect_eq_ok {context : PublicationContext} {recipients : List (Block 32)}
    {object : Bytes} (h : inbox.stageSentDirect json owner context recipients object = .ok next) :
    ∃ author aad authenticated direct, owner.member = some author ∧ author ∉ recipients ∧
      (∃ endpoints, owner.endpointsForMembers recipients = .ok endpoints) ∧
      context.directAuthenticatedBytes recipients = .ok aad ∧
      owner.unprotectObject aad object = .ok authenticated ∧
      authenticated.message.member = author ∧
      retainDirect json inbox.direct author context recipients object = .ok direct ∧
      next = { inbox with direct } := by
  simp only [stageSentDirect, bind_eq_ok, orFail_eq_ok, failIf_eq_ok, checked_eq_ok, not_or,
    not_not] at h
  obtain ⟨_, _, author, hmember, _, hsender, endpoints, hendpoints, aad, haad, authenticated,
    hauthenticated, _, ⟨rfl, _⟩, direct, hdirect, rfl, _⟩ := h
  exact ⟨_, aad, authenticated, direct, hmember, hsender, ⟨endpoints, hendpoints⟩, haad,
    hauthenticated, rfl, hdirect, rfl⟩

/-- The key of the stream that an announced head is about. -/
def headKey (head : DirectHead) : DirectStream.Key :=
  (head.author, head.policyRevision, head.topic.val, head.recipients)

theorem stageDirectHead_eq_ok {announcer : PeerId} {head : DirectHead}
    (h : inbox.stageDirectHead json owner announcer head = .ok (some next)) :
    ∃ author stream, owner.member = some author ∧ author ∈ head.recipients ∧ head.through ≠ 0 ∧
      CanonicalScope head.recipients ∧ head.author ∉ head.recipients ∧
      (∃ endpoints, owner.endpointsForMembers head.recipients = .ok endpoints) ∧
      directStream inbox.direct (headKey head) = .ok stream ∧
      stream.effectiveHead ≤ head.through ∧
      next = { inbox with
        direct := put DirectStream.key { stream with knownHead := head.through }
          inbox.direct } := by
  simp only [stageDirectHead, bind_eq_ok, orFail_eq_ok, failIf_eq_ok, DirectHead.toWire,
    DirectHead.validate, pure_eq_ok, not_or, not_not] at h
  obtain ⟨_, _, author, hmember, announcer, _, _, ⟨_, ⟨hthrough, hscope, hauthor⟩, _⟩, _,
    ⟨_, _, hlocal, _⟩, endpoints, hendpoints, h⟩ := h
  split at h
  · simp at h
  · rename_i hknown
    simp only [bind_eq_ok, checked_eq_ok, pure_eq_ok, Option.some.injEq] at h
    obtain ⟨stream, hstream, _, ⟨rfl, _⟩, rfl⟩ := h
    refine ⟨author, stream, hmember, hlocal, hthrough, hscope, hauthor, ⟨endpoints, hendpoints⟩,
      hstream, ?_, rfl⟩
    obtain ⟨_, hlookup | ⟨rfl, _⟩⟩ := directStream_eq_ok hstream
    · rw [hlookup, Option.any_some, decide_eq_true_eq, not_le] at hknown
      exact hknown.le
    · exact Fin.zero_le _

/-- The key of the stream that a range query is about. -/
def queryKey (query : DirectRangeQuery) : DirectStream.Key :=
  (query.author, query.policyRevision, query.topic.val, query.recipients)

theorem skipDirectGap_eq_ok {query : DirectRangeQuery} {skipped : Nat}
    (h : inbox.skipDirectGap json owner query = .ok (next, skipped)) :
    ∃ stream stream', lookup DirectStream.key (queryKey query) inbox.direct = some stream ∧
      skipGap stream query = .ok (stream', skipped) ∧
      next = { inbox with direct := put DirectStream.key stream' inbox.direct } := by
  simp only [skipDirectGap, bind_eq_ok, orFail_eq_ok, checked_eq_ok, pure_eq_ok,
    Prod.mk.injEq] at h
  obtain ⟨_, _, stream, hlookup, ⟨stream', skipped'⟩, hskip, _, ⟨rfl, _⟩, rfl, rfl⟩ := h
  exact ⟨stream, stream', hlookup, hskip, rfl⟩

theorem acknowledge_eq_ok {author : Block 32} {topic : Topic} {id : Block 16}
    (h : inbox.acknowledge author topic counter id = .ok next) :
    ∃ stream, lookup Stream.key (author, topic.val) inbox.streams = some stream ∧
      next = inbox.resolve stream counter id false := by
  simp only [acknowledge, bind_eq_ok, orFail_eq_ok, pure_eq_ok] at h
  obtain ⟨stream, hlookup, _, _, rfl⟩ := h
  exact ⟨stream, hlookup, rfl⟩

theorem reject_eq_ok {author : Block 32} {topic : Topic} {id : Block 16}
    (h : inbox.reject author topic counter id = .ok next) :
    ∃ stream, lookup Stream.key (author, topic.val) inbox.streams = some stream ∧
      next = inbox.resolve stream counter id true := by
  simp only [reject, bind_eq_ok, orFail_eq_ok, failIf_eq_ok, pure_eq_ok] at h
  obtain ⟨stream, hlookup, _, _, _, _, rfl⟩ := h
  exact ⟨stream, hlookup, rfl⟩

/-- The progress that a verified current view leads to. -/
def viewProgress (owner : SecurityOwner) (query : CurrentViewQuery) (reply : Bytes)
    (view : VerifiedCurrentView) : CurrentProgress :=
  ⟨query.authority, query.policyRevision, query.topic.val, query.selector, view.cut,
    owner.sha256 reply⟩

/-- The progress that an accepted range leads to. -/
def rangeProgress (owner : SecurityOwner) (query : RangeQuery) : SelectionProgress :=
  ⟨query.author, selectionDigest owner.sha256 query.topics, query.through⟩

variable {query : RangeQuery} {reply : Bytes} {expiresAt : U64}

theorem acceptRecoveryCoverage_eq_ok
    (h : inbox.acceptRecoveryCoverage json owner query reply = .ok next) :
    (∃ range, verifyReply owner query reply = .ok (.offered range)) ∧
    let known := lookup progressKey (progressKey (rangeProgress owner query)) inbox.progress
    let current := known.elim 0 (·.through)
    ((query.through ≤ current ∧ next = inbox) ∨
      (current < query.through ∧ query.after = current ∧
        (known = none → inbox.progress.length ≠ maxRecoverySelections) ∧
        next = { inbox with
          progress := putProgress (rangeProgress owner query) inbox.progress })) := by
  simp only [acceptRecoveryCoverage, bind_eq_ok, failIf_eq_ok] at h
  obtain ⟨_, _, _, _, verified, hverified, h⟩ := h
  cases verified with
  | rejected error => simp at h
  | offered range =>
    refine ⟨⟨range, hverified⟩, ?_⟩
    intro known current
    dsimp only at h
    split at h
    · rename_i hcovered
      rw [pure_eq_ok] at h
      exact .inl ⟨hcovered, h.symm⟩
    · rename_i hcovered
      simp only [bind_eq_ok, failIf_eq_ok, checked_eq_ok, not_not, not_and] at h
      obtain ⟨_, hafter, _, hroom, rfl, _⟩ := h
      exact .inr ⟨lt_of_not_ge hcovered, hafter, hroom, rfl⟩

theorem stageCurrent_eq_ok {context : PublicationContext} {selector replacementKey : Block 32}
    {tombstone : Bool} {packet : Bytes}
    (h : inbox.stageCurrent json owner context selector replacementKey expiresAt tombstone packet =
      .ok next) :
    ∃ authority index, owner.member = some authority ∧
      (inbox.current.getD (CurrentViewIndex.new owner.id authority owner.epoch)).insert context
        selector replacementKey expiresAt tombstone packet = .ok index ∧
      next = { inbox with current := some index } := by
  simp only [stageCurrent, bind_eq_ok, orFail_eq_ok, checked_eq_ok] at h
  obtain ⟨_, _, authority, hmember, index, hindex, rfl, _⟩ := h
  exact ⟨authority, index, hmember, hindex, rfl⟩

theorem retainRange_eq_ok (h : inbox.retainRange json owner query reply expiresAt now = .ok next) :
    ∃ range encoded, now < expiresAt ∧ verifyReply owner query reply = .ok (.offered range) ∧
      query.toWire owner.sha256 = .ok encoded ∧
      next = { inbox with
        retainedRanges := sortBy RetainedReply.query
          (put RetainedReply.query ⟨encoded, reply, expiresAt⟩
            (makeRoom (inbox.retainedRanges.filter fun range => now < range.expiresAt)
              encoded)) } := by
  simp only [retainRange, bind_eq_ok, failIf_eq_ok] at h
  obtain ⟨_, _, _, hexpiry, verified, hverified, h⟩ := h
  cases verified with
  | rejected error => simp at h
  | offered range =>
    simp only [bind_eq_ok, checked_eq_ok] at h
    obtain ⟨encoded, hencoded, rfl, _⟩ := h
    exact ⟨range, encoded, lt_of_not_ge hexpiry, hverified, hencoded, rfl⟩

theorem retainCurrentView_eq_ok {query : CurrentViewQuery}
    (h : inbox.retainCurrentView json owner query reply now = .ok next) :
    ∃ view expiresAt encoded, verifyWireReply owner query reply = .ok (some view) ∧
      lastExpiry view.values = some expiresAt ∧ now < expiresAt ∧ query.toWire = .ok encoded ∧
      let fresh := inbox.retainedCurrentViews.filter fun view => now < view.expiresAt
      (lookup RetainedReply.query encoded fresh = none →
        fresh.length ≠ maxRetainedCurrentViews) ∧
      next = { inbox with
        retainedCurrentViews := sortBy RetainedReply.query
          (put RetainedReply.query ⟨encoded, reply, expiresAt⟩ fresh) } := by
  simp only [retainCurrentView, bind_eq_ok, orFail_eq_ok, failIf_eq_ok, checked_eq_ok,
    Option.filter_eq_some_iff, decide_eq_true_eq, not_and] at h
  obtain ⟨_, _, verified, hverified, view, rfl, expiresAt, ⟨hexpiry, hfresh⟩, encoded, hencoded, _,
    hroom, rfl, _⟩ := h
  exact ⟨view, expiresAt, encoded, hverified, hexpiry, hfresh, hencoded, hroom, rfl⟩

end Inversions

section Loops

/-- The staging of a recovered packet. -/
def packetStaging (recipients : List (Block 32)) (packet : RecoveredPacket) : Staging :=
  ⟨packet.context, recipients, none, packet.ciphertext⟩

/-- The staging of a value of a current view. -/
def valueStaging (query : CurrentViewQuery) (value : CurrentValue) : Option Staging :=
  match PublicationContext.unpack query.workspace query.policyRevision query.topic value.packet with
  | .ok (context, ciphertext) =>
      some ⟨context, [], some ⟨query.selector, value.replacementKey, value.expiresAt,
        value.tombstone⟩, ciphertext⟩
  | .error _ => none

/-- The stagings of a current view: those of its fresh values. -/
def viewStagings (query : CurrentViewQuery) (now : U64) (values : List CurrentValue) :
    List Staging :=
  (values.filter fun value => now < value.expiresAt).filterMap (valueStaging query)

/-- The inbox after staging objects one after the other, where only accepted ones count. -/
def stageAll (json : Json) (owner : SecurityOwner) : ObjectInbox → List Staging → ObjectInbox
  | inbox, [] => inbox
  | inbox, staging :: stagings =>
      match inbox.stageScoped json owner staging with
      | .ok (.prepared next) => stageAll json owner next stagings
      | _ => stageAll json owner inbox stagings

theorem stagePackets_eq_ok {recipients : List (Block 32)} {packets : List RecoveredPacket}
    {count count' : Nat}
    (h : stagePackets json owner recipients packets (inbox, count) = .ok (next, count')) :
    next = stageAll json owner inbox (packets.map (packetStaging recipients)) := by
  induction packets generalizing inbox count with
  | nil =>
    simp only [stagePackets, pure_eq_ok, Prod.mk.injEq] at h
    exact h.1.symm
  | cons packet packets ih =>
    simp only [stagePackets, stageWithRecipients, bind_eq_ok] at h
    obtain ⟨stage, hstage, h⟩ := h
    rw [List.map_cons, stageAll, packetStaging, hstage]
    cases stage with
    | duplicate => exact ih h
    | outsideWindow => cases h
    | prepared between => exact ih h

variable {query : CurrentViewQuery}

theorem stageValues_eq_ok {endpoint : PeerId} {values : List CurrentValue} {pending' stale' : Nat}
    (h : stageValues json owner query endpoint now values (inbox, pending, stale) =
      .ok (next, pending', stale')) :
    next = stageAll json owner inbox (viewStagings query now values) := by
  induction values generalizing inbox pending stale with
  | nil =>
    simp only [stageValues, pure_eq_ok, Prod.mk.injEq] at h
    exact h.1.symm
  | cons value values ih =>
    rw [stageValues] at h
    split at h
    · rename_i hstale
      have hrest : viewStagings query now (value :: values) = viewStagings query now values := by
        rw [viewStagings, List.filter_cons_of_neg (by simpa using hstale)]
        rfl
      rw [hrest]
      exact ih h
    · rename_i hfresh
      simp only [bind_eq_ok, stageValue, failIf_eq_ok, stageLiveCurrent] at h
      obtain ⟨stage, ⟨⟨context, ciphertext⟩, hunpack, _, _, _, _, hstage⟩, h⟩ := h
      have hvalue : valueStaging query value = some ⟨context, [], some ⟨query.selector,
          value.replacementKey, value.expiresAt, value.tombstone⟩, ciphertext⟩ := by
        rw [valueStaging, hunpack]
      have hrest : viewStagings query now (value :: values) = ⟨context, [], some ⟨query.selector,
          value.replacementKey, value.expiresAt, value.tombstone⟩, ciphertext⟩ ::
            viewStagings query now values := by
        rw [viewStagings, List.filter_cons_of_pos (by simpa using hfresh),
          List.filterMap_cons_some hvalue]
        rfl
      rw [hrest, stageAll, hstage]
      cases stage with
      | duplicate => exact ih h
      | outsideWindow => cases h
      | prepared between => exact ih h

theorem stageAll_currentProgress (stagings : List Staging) :
    (stageAll json owner inbox stagings).currentProgress = inbox.currentProgress := by
  induction stagings generalizing inbox with
  | nil => rfl
  | cons staging stagings ih =>
    rw [stageAll]
    split
    · rename_i between hstage
      obtain ⟨object, stream, haccepts⟩ := stageScoped_eq_prepared hstage
      rw [ih, haccepts.result]
    · exact ih

/-- A current view either changes nothing or stages its fresh values and records the cut. -/
theorem acceptCurrentView_eq_ok {reply : Bytes}
    (h : inbox.acceptCurrentView json owner query reply now = .ok (next, pending, stale)) :
    ∃ view, verifyWireReply owner query reply = .ok (some view) ∧
      ((inbox.currentSeen (viewProgress owner query reply view) = .ok true ∧ next = inbox) ∨
        (inbox.currentSeen (viewProgress owner query reply view) = .ok false ∧
          (∃ endpoints, owner.endpointsForMembers [query.authority] = .ok endpoints) ∧
          let staged := stageAll json owner inbox (viewStagings query now view.values)
          next = { staged with
            currentProgress := putCurrentProgress (viewProgress owner query reply view)
              staged.currentProgress })) := by
  simp only [acceptCurrentView, bind_eq_ok, orFail_eq_ok] at h
  obtain ⟨_, _, verified, hverified, view, rfl, seen, hseen, h⟩ := h
  refine ⟨view, hverified, ?_⟩
  cases seen with
  | true =>
    simp only [if_true, pure_eq_ok, Prod.mk.injEq] at h
    exact .inl ⟨hseen, h.1.symm⟩
  | false =>
    simp only [Bool.false_eq_true, if_false, bind_eq_ok, orFail_eq_ok, checked_eq_ok, pure_eq_ok,
      Prod.mk.injEq] at h
    obtain ⟨endpoints, hendpoints, endpoint, _, ⟨staged, pending', stale'⟩, hstaged, _, ⟨rfl, _⟩,
      rfl, _⟩ := h
    refine .inr ⟨hseen, ⟨endpoints, hendpoints⟩, ?_⟩
    rw [stageValues_eq_ok hstaged]
    rfl

end Loops

end ObjectInbox

/-- A call of the interface. The three public stagings are `stage_scoped` at their arguments;
`reload` saves the inbox with a publisher log and restores it. -/
inductive InboxCall where
  | stage (staging : ObjectInbox.Staging)
  | sentDirect (context : PublicationContext) (recipients : List (Block 32)) (object : Bytes)
  | directHead (announcer : PeerId) (head : DirectHead)
  | directRange (query : DirectRangeQuery) (reply : Bytes)
  | skipGap (query : DirectRangeQuery)
  | currentView (query : CurrentViewQuery) (reply : Bytes) (now : U64)
  | coverage (query : RangeQuery) (reply : Bytes)
  | current (context : PublicationContext) (selector replacementKey : Block 32) (expiresAt : U64)
      (tombstone : Bool) (packet : Bytes)
  | retainRange (query : RangeQuery) (reply : Bytes) (expiresAt now : U64)
  | retainView (query : CurrentViewQuery) (reply : Bytes) (now : U64)
  | acknowledge (author : Block 32) (topic : Topic) (counter : U64) (id : Block 16)
  | reject (author : Block 32) (topic : Topic) (counter : U64) (id : Block 16)
  | reload (publisher : PublisherLog)

/-- The new inbox of a call; `none` where there is no candidate to adopt. -/
def InboxCall.perform (json : Json) (owner : SecurityOwner) (inbox : ObjectInbox) :
    InboxCall → Outcome (Option ObjectInbox)
  | .stage staging => do
      match ← inbox.stageScoped json owner staging with
      | .prepared next => pure (some next)
      | _ => pure none
  | .sentDirect context recipients object =>
      some <$> inbox.stageSentDirect json owner context recipients object
  | .directHead announcer head => inbox.stageDirectHead json owner announcer head
  | .directRange query reply => do
      let (next, _) ← inbox.stageDirectRange json owner query reply
      pure (some next)
  | .skipGap query => do
      let (next, _) ← inbox.skipDirectGap json owner query
      pure (some next)
  | .currentView query reply now => do
      let (next, _) ← inbox.acceptCurrentView json owner query reply now
      pure (some next)
  | .coverage query reply => some <$> inbox.acceptRecoveryCoverage json owner query reply
  | .current context selector replacementKey expiresAt tombstone packet =>
      some <$> inbox.stageCurrent json owner context selector replacementKey expiresAt tombstone
        packet
  | .retainRange query reply expiresAt now =>
      some <$> inbox.retainRange json owner query reply expiresAt now
  | .retainView query reply now => some <$> inbox.retainCurrentView json owner query reply now
  | .acknowledge author topic counter id => some <$> inbox.acknowledge author topic counter id
  | .reject author topic counter id => some <$> inbox.reject author topic counter id
  | .reload publisher => do
      let bytes ← inbox.snapshotWithPublisher json owner publisher
      let (_, next) ← ObjectInbox.restoreSnapshot json owner bytes
      pure (some next)

/-- A call whose candidate is adopted. A reload saves a log that a publisher could have. -/
structure InboxStep (json : Json) (owner : SecurityOwner) (inbox : ObjectInbox) (call : InboxCall)
    (next : ObjectInbox) : Prop where
  performed : call.perform json owner inbox = .ok (some next)
  publisher : ∀ log, call = .reload log → ∃ published,
    PublisherRun log.workspace log.author log.epoch log published

/-- The steps of calls made one after the other, up to the first without a candidate. -/
def InboxCall.play (json : Json) (owner : SecurityOwner) :
    ObjectInbox → List InboxCall → List (Taken ObjectInbox InboxCall) :=
  attempt fun inbox call => (call.perform json owner inbox).toOption.join

theorem InboxCall.run_play (json : Json) (owner : SecurityOwner) (start : ObjectInbox)
    (calls : List InboxCall) :
    Run (fun inbox call next => call.perform json owner inbox = .ok (some next)) start
      (play json owner start calls) (outcome start (play json owner start calls)) := by
  refine (attempt_run _ start calls).imp fun taken _ hnext => ?_
  cases hperform : taken.label.perform json owner taken.before with
  | error message =>
    rw [hperform] at hnext
    cases hnext
  | ok next =>
    rw [hperform] at hnext
    exact congrArg Except.ok hnext

theorem InboxCall.play_run (json : Json) (owner : SecurityOwner) (start : ObjectInbox)
    (calls : List InboxCall) (hpublisher : ∀ log, .reload log ∈ calls → ∃ published,
      PublisherRun log.workspace log.author log.epoch log published) :
    Run (InboxStep json owner) start (play json owner start calls)
      (outcome start (play json owner start calls)) := by
  refine (run_play json owner start calls).imp fun taken htaken hperformed => ⟨hperformed, ?_⟩
  intro log hlog
  exact hpublisher log (hlog ▸ label_of_mem_attempt htaken)

/-- What can happen to an inbox in one go. -/
inductive InboxAct where
  | accept (staging : ObjectInbox.Staging)
  | sent (context : PublicationContext) (recipients : List (Block 32)) (object : Bytes)
  | announce (head : DirectHead)
  | skip (query : DirectRangeQuery)
  | resolve (author : Block 32) (topic : Topic) (counter : U64) (id : Block 16) (rejected : Bool)
  | view (query : CurrentViewQuery) (reply : Bytes)
  | cover (query : RangeQuery) (reply : Bytes)
  | index
  | holdRange
  | holdView

open ObjectInbox in
inductive Acts (json : Json) (owner : SecurityOwner) : ObjectInbox → InboxAct → ObjectInbox → Prop
  | accept {inbox next : ObjectInbox} {staging : Staging}
      (h : inbox.stageScoped json owner staging = .ok (.prepared next)) :
      Acts json owner inbox (.accept staging) next
  | sent {inbox next : ObjectInbox} {context : PublicationContext} {recipients : List (Block 32)}
      {object : Bytes} (h : inbox.stageSentDirect json owner context recipients object = .ok next) :
      Acts json owner inbox (.sent context recipients object) next
  | announce {inbox next : ObjectInbox} {announcer : PeerId} {head : DirectHead}
      (h : inbox.stageDirectHead json owner announcer head = .ok (some next)) :
      Acts json owner inbox (.announce head) next
  | skip {inbox next : ObjectInbox} {query : DirectRangeQuery} {skipped : Nat}
      (h : inbox.skipDirectGap json owner query = .ok (next, skipped)) :
      Acts json owner inbox (.skip query) next
  | acknowledge {inbox next : ObjectInbox} {author : Block 32} {topic : Topic} {counter : U64}
      {id : Block 16} (h : inbox.acknowledge author topic counter id = .ok next) :
      Acts json owner inbox (.resolve author topic counter id false) next
  | reject {inbox next : ObjectInbox} {author : Block 32} {topic : Topic} {counter : U64}
      {id : Block 16} (h : inbox.reject author topic counter id = .ok next) :
      Acts json owner inbox (.resolve author topic counter id true) next
  | view {inbox : ObjectInbox} {query : CurrentViewQuery} {reply : Bytes}
      {view : VerifiedCurrentView} (hview : verifyWireReply owner query reply = .ok (some view))
      (hseen : inbox.currentSeen (viewProgress owner query reply view) = .ok false)
      (hcurrent : ∃ endpoints, owner.endpointsForMembers [query.authority] = .ok endpoints) :
      Acts json owner inbox (.view query reply) { inbox with
        currentProgress := putCurrentProgress (viewProgress owner query reply view)
          inbox.currentProgress }
  | cover {inbox next : ObjectInbox} {query : RangeQuery} {reply : Bytes}
      (h : inbox.acceptRecoveryCoverage json owner query reply = .ok next) :
      Acts json owner inbox (.cover query reply) next
  | index {inbox next : ObjectInbox} {context : PublicationContext}
      {selector replacementKey : Block 32} {expiresAt : U64} {tombstone : Bool} {packet : Bytes}
      (h : inbox.stageCurrent json owner context selector replacementKey expiresAt tombstone
        packet = .ok next) : Acts json owner inbox .index next
  | holdRange {inbox next : ObjectInbox} {query : RangeQuery} {reply : Bytes} {expiresAt now : U64}
      (h : inbox.retainRange json owner query reply expiresAt now = .ok next) :
      Acts json owner inbox .holdRange next
  | holdView {inbox next : ObjectInbox} {query : CurrentViewQuery} {reply : Bytes} {now : U64}
      (h : inbox.retainCurrentView json owner query reply now = .ok next) :
      Acts json owner inbox .holdView next

namespace ObjectInbox

/-- The acts of staging objects one after the other. -/
def acceptances (json : Json) (owner : SecurityOwner) :
    ObjectInbox → List Staging → List (Taken ObjectInbox InboxAct)
  | _, [] => []
  | inbox, staging :: stagings =>
      match inbox.stageScoped json owner staging with
      | .ok (.prepared next) => ⟨inbox, .accept staging, next⟩ ::
        acceptances json owner next stagings
      | _ => acceptances json owner inbox stagings

theorem acceptances_run (json : Json) (owner : SecurityOwner) (inbox : ObjectInbox)
    (stagings : List Staging) :
    Run (Acts json owner) inbox (acceptances json owner inbox stagings)
      (stageAll json owner inbox stagings) := by
  induction stagings generalizing inbox with
  | nil => exact .nil inbox
  | cons staging stagings ih =>
    rw [acceptances, stageAll]
    split
    · rename_i next hstage
      exact .cons (.accept hstage) (ih next)
    · exact ih inbox

/-- The acts of a range reply. -/
def rangeActs (json : Json) (owner : SecurityOwner) (inbox : ObjectInbox)
    (query : DirectRangeQuery) (reply : Bytes) : List (Taken ObjectInbox InboxAct) :=
  match verifyDirectReply owner query reply with
  | .ok (.offered packets) =>
      acceptances json owner inbox (packets.map (packetStaging query.recipients))
  | _ => []

/-- The acts of a current view: nothing where its cut is known, and the cut last. -/
def viewActs (json : Json) (owner : SecurityOwner) (inbox : ObjectInbox) (query : CurrentViewQuery)
    (reply : Bytes) (now : U64) (next : ObjectInbox) : List (Taken ObjectInbox InboxAct) :=
  match verifyWireReply owner query reply with
  | .ok (some view) =>
      match inbox.currentSeen (viewProgress owner query reply view) with
      | .ok false =>
          let stagings := viewStagings query now view.values
          acceptances json owner inbox stagings ++
            [⟨stageAll json owner inbox stagings, .view query reply, next⟩]
      | _ => []
  | _ => []

end ObjectInbox

open ObjectInbox in
/-- The acts that a call performs, in order. -/
def InboxCall.acts (json : Json) (owner : SecurityOwner) (inbox : ObjectInbox) (call : InboxCall) :
    List (Taken ObjectInbox InboxAct) :=
  match call.perform json owner inbox with
  | .ok (some next) =>
      match call with
      | .stage staging => [⟨inbox, .accept staging, next⟩]
      | .sentDirect context recipients object => [⟨inbox, .sent context recipients object, next⟩]
      | .directHead _ head => [⟨inbox, .announce head, next⟩]
      | .directRange query reply => rangeActs json owner inbox query reply
      | .skipGap query => [⟨inbox, .skip query, next⟩]
      | .currentView query reply now => viewActs json owner inbox query reply now next
      | .coverage query reply => [⟨inbox, .cover query reply, next⟩]
      | .current .. => [⟨inbox, .index, next⟩]
      | .retainRange .. => [⟨inbox, .holdRange, next⟩]
      | .retainView .. => [⟨inbox, .holdView, next⟩]
      | .acknowledge author topic counter id =>
          [⟨inbox, .resolve author topic counter id false, next⟩]
      | .reject author topic counter id => [⟨inbox, .resolve author topic counter id true, next⟩]
      | .reload _ => []
  | _ => []

namespace ObjectInbox

variable {owner : SecurityOwner} {next : ObjectInbox} {call : InboxCall}

variable {reply : Bytes}

theorem viewActs_run {query : CurrentViewQuery}
    (h : inbox.acceptCurrentView json owner query reply now = .ok (next, pending, stale)) :
    Run (Acts json owner) inbox (viewActs json owner inbox query reply now next) next := by
  obtain ⟨view, hview, ⟨hseen, rfl⟩ | ⟨hseen, hcurrent, hnext⟩⟩ := acceptCurrentView_eq_ok h
  · rw [viewActs, hview]
    simp only [hseen]
    exact .nil _
  · rw [viewActs, hview]
    simp only [hseen]
    refine (acceptances_run json owner inbox _).append ?_
    refine .cons ?_ (.nil _)
    rw [hnext]
    refine .view hview ?_ hcurrent
    rw [currentSeen, stageAll_currentProgress, ← currentSeen, hseen]

theorem rangeActs_run {query : DirectRangeQuery} {count : Nat}
    (h : inbox.stageDirectRange json owner query reply = .ok (next, count)) :
    Run (Acts json owner) inbox (rangeActs json owner inbox query reply) next := by
  simp only [stageDirectRange, bind_eq_ok] at h
  obtain ⟨verified, hverified, h⟩ := h
  cases verified with
  | unavailable => cases h
  | offered packets =>
    rw [rangeActs, hverified, stagePackets_eq_ok h]
    exact acceptances_run json owner inbox _

/-- A call of an inbox whose cache is in order is the run of its acts. -/
theorem acts_run (hjson : json.Lawful) (hcache : CacheKept owner inbox)
    (h : InboxStep json owner inbox call next) :
    Run (Acts json owner) inbox (call.acts json owner inbox) next := by
  obtain ⟨hperformed, hpublisher⟩ := h
  rw [InboxCall.acts, hperformed]
  cases call with
  | stage staging =>
    simp only [InboxCall.perform, bind_eq_ok] at hperformed
    obtain ⟨stage, hstage, hnext⟩ := hperformed
    cases stage with
    | duplicate => cases hnext
    | outsideWindow => cases hnext
    | prepared inbox' =>
      cases hnext
      exact .cons (.accept hstage) (.nil _)
  | sentDirect context recipients object =>
    exact .cons (.sent (map_some_eq_ok.mp hperformed)) (.nil _)
  | directHead announcer head => exact .cons (.announce hperformed) (.nil _)
  | directRange query reply =>
    simp only [InboxCall.perform, bind_eq_ok, pure_eq_ok, Option.some.injEq] at hperformed
    obtain ⟨⟨_, count⟩, hrange, rfl⟩ := hperformed
    exact rangeActs_run hrange
  | skipGap query =>
    simp only [InboxCall.perform, bind_eq_ok, pure_eq_ok, Option.some.injEq] at hperformed
    obtain ⟨⟨_, skipped⟩, hskip, rfl⟩ := hperformed
    exact .cons (.skip hskip) (.nil _)
  | currentView query reply now =>
    simp only [InboxCall.perform, bind_eq_ok, pure_eq_ok, Option.some.injEq] at hperformed
    obtain ⟨⟨_, pending, stale⟩, hview, rfl⟩ := hperformed
    exact viewActs_run hview
  | coverage query reply =>
    exact .cons (.cover (map_some_eq_ok.mp hperformed)) (.nil _)
  | current context selector replacementKey expiresAt tombstone packet =>
    exact .cons (.index (map_some_eq_ok.mp hperformed)) (.nil _)
  | retainRange query reply expiresAt now =>
    exact .cons (.holdRange (map_some_eq_ok.mp hperformed)) (.nil _)
  | retainView query reply now =>
    exact .cons (.holdView (map_some_eq_ok.mp hperformed)) (.nil _)
  | acknowledge author topic counter id =>
    exact .cons (.acknowledge (map_some_eq_ok.mp hperformed)) (.nil _)
  | reject author topic counter id =>
    exact .cons (.reject (map_some_eq_ok.mp hperformed)) (.nil _)
  | reload log =>
    simp only [InboxCall.perform, bind_eq_ok, pure_eq_ok, Option.some.injEq] at hperformed
    obtain ⟨bytes, hsaved, ⟨_, _⟩, hrestored, rfl⟩ := hperformed
    obtain ⟨published, hrun⟩ := hpublisher log rfl
    obtain ⟨hretains, hlimits⟩ := hrun.retains
    obtain ⟨fitted, hrestore⟩ := hcache.restoreSnapshot_eq hjson hretains hlimits hsaved
    rw [hrestore] at hrestored
    simp only [bind_eq_ok, pure_eq_ok, Prod.mk.injEq] at hrestored
    obtain ⟨_, _, _, rfl⟩ := hrestored
    exact .nil _

end ObjectInbox

end Arachne.Delivery
