import Arachne.Delivery.InboxRestore
import Arachne.Delivery.RangeService

/-! How a member passes on retained direct objects, and to whom. -/

namespace Arachne.Delivery

open ByteCodec Fallible Routing Transition InboxCall
open Security (Mls SFrame Workspace Member AuthenticatedObject binding
  maxApplicationCiphertext)
open ObjectInbox

variable {Group Signer Staged : Type} {inbox : ObjectInbox} {requester : PeerId}
  {records : List DirectRecord} {expected : Nat}

def unavailableDirectReply : Bytes := directReplyMagic ++ [1]

/-- The record loop of `direct_offer`; `expected` is the next sequence. -/
def encodeDirect : Nat → List DirectRecord → Outcome Bytes
  | _, [] => pure []
  | expected, record :: records => do
      failIf (record.sequence.val ≠ expected ∨ record.object = [] ∨
        maxApplicationCiphertext < record.object.length) "invalid direct recovery record"
      let rest ← encodeDirect (expected + 1) records
      pure (beBytes 8 record.revision.val ++ (record.id.1 ++ (beBytes 8 record.sequence.val ++
        (beBytes 4 record.object.length ++ (record.object ++ rest)))))

def directOffer (query : DirectRangeQuery) (records : List DirectRecord) : Outcome Bytes := do
  query.validate
  failIf (records.length ≠ query.through.val - query.after.val) "incomplete direct recovery range"
  let encoded ← encodeDirect (query.after.val + 1) records
  let bytes := directReplyMagic ++ ([0] ++ ([UInt8.ofNat records.length] ++ encoded))
  failIf (maxReplyBytes < bytes.length) "direct recovery reply exceeds bound"
  pure bytes

section Service

variable {Key : Type} (mls : Mls Group Signer Staged) (sframe : SFrame Group Key)

/-- Whether a query is refused before any stream is looked at. -/
def ObjectInbox.refusesDirect (inbox : ObjectInbox) (owner : Workspace Group Signer)
    (policy : RoutingTable) (requester : PeerId) (holder : Block 32) (query : DirectRangeQuery) :
    Prop :=
  query.workspace ≠ inbox.workspace ∨ query.epoch ≠ inbox.epoch ∨
    (mls.memberIdForEndpoint owner requester).toOption.getD (zeroBlock 32) ∉ query.recipients ∨
    (holder ≠ query.author ∧ holder ∉ query.recipients) ∨
    authorizeHistory mls owner policy requester query.author query.policyRevision
      ⟨[query.topic], List.pairwise_singleton _ _⟩ ≠ .ok ()

instance (inbox : ObjectInbox) (owner : Workspace Group Signer) (policy : RoutingTable)
    (requester : PeerId) (holder : Block 32) (query : DirectRangeQuery) :
    Decidable (inbox.refusesDirect mls owner policy requester holder query) :=
  inferInstanceAs (Decidable (_ ∨ _))

/-- The records of a stream that a query asks for. -/
def DirectStream.selected (stream : DirectStream) (query : DirectRangeQuery) :
    List DirectRecord :=
  stream.records.filter fun record =>
    query.after < record.sequence ∧ record.sequence ≤ query.through

/-- A record as a receiver recovers it. -/
def DirectRangeQuery.recovered (query : DirectRangeQuery) (record : DirectRecord) :
    RecoveredPacket :=
  ⟨⟨query.workspace, record.revision, query.topic, record.id, NonZeroU64.new record.sequence⟩,
    record.object⟩

def ObjectInbox.serveDirectRange (inbox : ObjectInbox) (owner : Workspace Group Signer)
    (policy : RoutingTable) (requester : PeerId) (query : DirectRangeQuery) : Outcome Bytes := do
  inbox.validateOwner (securityOwner mls sframe owner)
  let holder ← orFail (owner.member.map (·.id)) "member required"
  if inbox.refusesDirect mls owner policy requester holder query then
    pure unavailableDirectReply
  else
    match Keyed.lookup DirectStream.key (queryKey query) inbox.direct with
    | none => pure unavailableDirectReply
    | some stream =>
        if query.after < stream.floor then pure unavailableDirectReply
        else
          match directOffer query (stream.selected query) with
          | .ok bytes => pure bytes
          | .error _ => pure unavailableDirectReply

end Service

section Roster

variable {mls : Mls Group Signer Staged} {workspace : Workspace Group Signer}

/-- An endpoint of a member that the workspace lists under this id. -/
def Bound (mls : Mls Group Signer Staged) (workspace : Workspace Group Signer)
    (id : Block 32) (endpoint : PeerId) : Prop :=
  ∃ member ∈ mls.members workspace, binding member.credential = .ok (id, endpoint)

instance (id : Block 32) (endpoint : PeerId) : Decidable (Bound mls workspace id endpoint) :=
  inferInstanceAs (Decidable (∃ member ∈ mls.members workspace, _))

theorem bound_of_endpointsForMembers {id : Block 32} {endpoint : PeerId} {rest : List PeerId}
    (h : mls.endpointsForMembers workspace [id] = .ok (endpoint :: rest)) :
    Bound mls workspace id endpoint := by
  simp only [Mls.endpointsForMembers, Mls.bindings, bind_eq_ok, mapM_eq_ok,
    List.forall₂_cons_left_iff, orFail_eq_ok, Option.map_eq_some_iff] at h
  obtain ⟨_, _, bindings, hbindings, _, _, ⟨pair, hpair, rfl⟩, _, heq⟩ := h
  obtain ⟨rfl, _⟩ := List.cons.inj heq
  obtain ⟨member, hmember, hbinding⟩ :=
    exists_of_mem_right hbindings (List.mem_of_find?_eq_some hpair)
  have hid : pair.1 = id := by simpa using List.find?_some hpair
  refine ⟨member, hmember, ?_⟩
  rw [hbinding, ← hid]

/-- The policy lets the endpoint have what the author published on the topic. -/
def Authorizes (mls : Mls Group Signer Staged) (workspace : Workspace Group Signer)
    (policy : RoutingTable) (revision : U64) (author : Block 32) (topic : Topic)
    (requester : PeerId) : Prop :=
  ∃ endpoint publishers, Bound mls workspace author endpoint ∧
    policy.publishers workspace.id revision requester topic = .ok publishers ∧
    endpoint ∈ publishers

theorem authorizes_of_authorizeHistory {policy : RoutingTable} {author : Block 32}
    {revision : U64} {topic : Topic}
    (h : authorizeHistory mls workspace policy requester author revision
      ⟨[topic], List.pairwise_singleton _ _⟩ = .ok ()) :
    Authorizes mls workspace policy revision author topic requester := by
  rw [authorizeHistory] at h
  split at h
  · cases h
  · split at h
    · rename_i endpoints endpoint rest _ hauthor
      split at h
      · rw [authorizeTopics] at h
        split at h
        · cases h
        · rename_i publishers hpublishers
          split at h
          · rename_i hmem
            exact ⟨endpoint, publishers, bound_of_endpointsForMembers hauthor, hpublishers, hmem⟩
          · cases h
      · cases h
    · cases h

end Roster

section Replies

theorem reads_directPackets {owner : SecurityOwner} {query : DirectRangeQuery} {encoded : Bytes}
    (hencoded : encodeDirect expected records = .ok encoded)
    (hauthentic : ∀ record ∈ records, ∃ aad object,
      (query.recovered record).context.directAuthenticatedBytes query.recipients = .ok aad ∧
      owner.unprotectObject aad record.object = .ok object ∧ object.message.member = query.author) :
    Reads (readDirectPackets owner query records.length expected) encoded
      (records.map query.recovered) := by
  induction records generalizing expected encoded with
  | nil =>
    rw [encodeDirect, pure_eq_ok] at hencoded
    subst hencoded
    exact Reads.pure []
  | cons record records ih =>
    simp only [encodeDirect, bind_eq_ok, failIf_eq_ok, pure_eq_ok] at hencoded
    obtain ⟨_, hvalid, rest, hrest, rfl⟩ := hencoded
    rw [List.forall_mem_cons] at hauthentic
    obtain ⟨⟨aad, object, haad, hobject, hauthor⟩, hlater⟩ := hauthentic
    have hlength : record.object.length < 256 ^ 4 := by
      rw [not_or, not_or, not_lt] at hvalid
      exact lt_of_le_of_lt hvalid.2.2 (by decide)
    rw [← List.length_eq_zero_iff] at hvalid
    refine (Reads.takeU64 _).bind ((Reads.takeBlock _).bind ((Reads.takeU64 _).bind
      ((Reads.takeNat hlength).bind (.bind_nil (.check hvalid) ((Reads.take rfl).bind
        (.bind_nil (.lift haad) (.bind_nil (.lift hobject) (.bind_nil (.check ?_)
          ((ih hrest hlater).bind_pure (Reads.pure _))))))))))
    rw [not_not]
    exact hauthor

theorem verifyDirectReply_directOffer {owner : SecurityOwner} {query : DirectRangeQuery}
    {reply : Bytes} (hreply : directOffer query records = .ok reply)
    (hauthentic : ∀ record ∈ records, ∃ aad object,
      (query.recovered record).context.directAuthenticatedBytes query.recipients = .ok aad ∧
      owner.unprotectObject aad record.object = .ok object ∧ object.message.member = query.author) :
    verifyDirectReply owner query reply = .ok (.offered (records.map query.recovered)) := by
  simp only [directOffer, bind_eq_ok, failIf_eq_ok, pure_eq_ok, not_not] at hreply
  obtain ⟨_, hvalid, _, hcount, encoded, hencoded, _, hsize, rfl⟩ := hreply
  have hmax : query.through.val - query.after.val ≤ maxRecoveryPackets := by
    rw [DirectRangeQuery.validate, failIf_eq_ok] at hvalid
    simp only [not_or, not_lt] at hvalid
    exact hvalid.2.1
  have hnumber : records.length < 256 ^ 1 := hcount ▸ lt_of_le_of_lt hmax (by decide)
  have hmagic : ¬ (directReplyMagic ≠ directReplyMagic) := not_not.mpr rfl
  have hstatus : ([0] : Bytes) = beBytes 1 0 := by decide
  have hread : readDirectReply owner query (directReplyMagic ++
      ([0] ++ ([UInt8.ofNat records.length] ++ encoded))) =
      .ok (.offered (records.map query.recovered), []) := by
    rw [beBytes_one, hstatus, ← List.append_nil encoded, readDirectReply,
      (Reads.take (by decide)).bind_apply, (Reads.check hmagic).bind_apply_nil,
      (Reads.takeNat (by decide)).bind_apply, atEnd_bind, if_neg (by simp), if_pos rfl,
      readDirectOffer, (Reads.takeNat hnumber).bind_apply,
      (Reads.check (not_not.mpr hcount)).bind_apply_nil,
      (reads_directPackets hencoded hauthentic).bind_apply, atEnd_bind]
    rfl
  rw [verifyDirectReply, hvalid, ok_bind, failIf_of_not hsize, ok_bind, hread]
  rfl

/-- The status of an offer. -/
def OfferedDirect (reply : Bytes) : Prop := reply[5]? = some 0

instance (reply : Bytes) : Decidable (OfferedDirect reply) := inferInstanceAs (Decidable (_ = _))

theorem encodeDirect_sequences {encoded : Bytes} (h : encodeDirect expected records = .ok encoded) :
    records.map (fun record => record.sequence.val) = List.range' expected records.length := by
  induction records generalizing expected encoded with
  | nil => rfl
  | cons record records ih =>
    simp only [encodeDirect, bind_eq_ok, failIf_eq_ok, not_or, not_not] at h
    obtain ⟨_, ⟨hsequence, _⟩, rest, hrest, _⟩ := h
    rw [List.map_cons, List.length_cons, List.range'_succ, hsequence, ih hrest]

variable {Key : Type} {mls : Mls Group Signer Staged} {sframe : SFrame Group Key}

/-- An offer is made only past all refusals, and from the stream of the query. -/
theorem ObjectInbox.serveDirectRange_offered {owner : Workspace Group Signer}
    {policy : RoutingTable} {query : DirectRangeQuery} {reply : Bytes}
    (h : inbox.serveDirectRange mls sframe owner policy requester query = .ok reply)
    (hoffered : OfferedDirect reply) :
    inbox.workspace = owner.id ∧ ∃ holder stream, owner.member.map (·.id) = some holder ∧
      ¬ inbox.refusesDirect mls owner policy requester holder query ∧
      Keyed.lookup DirectStream.key (queryKey query) inbox.direct = some stream ∧
      directOffer query (stream.selected query) = .ok reply := by
  have hrefused : ¬ (pure unavailableDirectReply : Outcome Bytes) = .ok reply := by
    rintro h
    obtain rfl := pure_eq_ok.mp h
    revert hoffered
    decide
  simp only [serveDirectRange, bind_eq_ok, orFail_eq_ok] at h
  obtain ⟨_, howned, holder, hmember, h⟩ := h
  obtain ⟨hworkspace, _⟩ := validateOwner_eq_ok.mp howned
  split at h
  · exact absurd h hrefused
  · rename_i hserves
    split at h
    · exact absurd h hrefused
    · rename_i stream hstream
      split at h
      · exact absurd h hrefused
      · split at h
        · rename_i bytes hbytes
          rw [pure_eq_ok] at h
          exact ⟨hworkspace, holder, stream, hmember, hserves, hstream, h ▸ hbytes⟩
        · exact absurd h hrefused

end Replies

section Streams

variable {json : Json} {owner : SecurityOwner} {next : ObjectInbox} {act : InboxAct}

/-- A sent object is in the workspace of its owner. -/
def SentAtHome (owner : SecurityOwner) : InboxAct → Prop
  | .sent context _ _ => context.workspace = owner.id
  | _ => True

instance : DecidablePred (SentAtHome owner) := fun act =>
  match act with
  | .sent context _ _ => inferInstanceAs (Decidable (context.workspace = owner.id))
  | .accept _ | .announce _ | .skip _ | .resolve .. | .view .. | .cover .. | .index | .holdRange
  | .holdView => .isTrue trivial

theorem Acts.retained_workspace (hact : Acts json owner inbox act next)
    (hhome : SentAtHome owner act) {direct : DirectObject}
    (hretained : act.retained owner = some direct) : direct.context.workspace = owner.id := by
  cases hact with
  | @accept _ staging haccept =>
    obtain ⟨object, stream, haccepts⟩ := stageScoped_eq_prepared haccept
    simp only [InboxAct.retained, haccepts.authenticated] at hretained
    split at hretained
    · cases hretained
      exact haccepts.workspace.trans haccepts.owned.1
    · cases hretained
  | sent hsent =>
    rw [InboxAct.retained, Option.map_eq_some_iff] at hretained
    obtain ⟨_, _, rfl⟩ := hretained
    exact hhome
  | _ => cases hretained

theorem Acts.direct_authentic (hact : Acts json owner inbox act next)
    (hhome : SentAtHome owner act) (h : DirectStreams (Authentic owner) inbox.direct) :
    DirectStreams (Authentic owner) next.direct := by
  rcases hact.direct_cases with ⟨direct, _, hretained, _, hresult⟩ |
    ⟨head, stream, _, hstream, _, hnext⟩ |
    ⟨query, stream, stream', skipped, _, hlookup, hgap, hnext⟩ | ⟨_, hnext⟩
  · refine retainDirect_invariant h ?_ (fun stream => Authentic.dropFirst) hresult
    intro sequence stream hsequence hkey hold
    have hrecord := hact.retained_record hretained hsequence
      (hact.retained_workspace hhome hretained)
    have hauthentic : Authentic owner stream := by
      rcases hold with hknown | rfl
      · exact hknown
      · exact new_authentic owner _
    exact hauthentic.push (hkey ▸ hrecord)
  · rw [hnext]
    have hold : Authentic owner stream := h.directStream (new_authentic owner _) hstream
    exact h.put hold
  · rw [hnext]
    have hold := h.each stream (Keyed.mem_of_lookup hlookup).1
    obtain ⟨_, _, _, _, _, _, rfl⟩ := skipGap_eq_ok hgap
    exact h.put hold
  · rw [hnext]
    exact h

theorem run_authentic (hjson : json.Lawful) {workspace : WorkspaceId} {epoch : U64}
    {trace : List (Taken ObjectInbox InboxCall)}
    (hrun : Run (InboxStep json owner) (new workspace epoch) trace inbox)
    (hhome : ∀ taken ∈ actsOf json owner trace, SentAtHome owner taken.label) :
    DirectStreams (Authentic owner) inbox.direct := by
  have hacts := run_actsOf hjson (new_cacheKept owner workspace epoch) hrun
  have hstep : ∀ s label s', DirectStreams (Authentic owner) s.direct → Acts json owner s label s' →
      SentAtHome owner label → DirectStreams (Authentic owner) s'.direct :=
    fun s label s' h hact hsent => hact.direct_authentic hsent h
  exact (hacts.guarded hstep (new_direct workspace epoch) hhome).1

end Streams

section Recovery

variable {Key : Type} {mls : Mls Group Signer Staged} {sframe : SFrame Group Key}

/-- Two members at one epoch of one group: they know the same members and export the same
secret. -/
structure SameEpoch (mls : Mls Group Signer Staged) (sframe : SFrame Group Key)
    (a b : Workspace Group Signer) : Prop where
  id : a.id = b.id
  epoch : mls.epoch a = mls.epoch b
  members : mls.members a = mls.members b
  secret : sframe.exportSecret a.group = sframe.exportSecret b.group

theorem SameEpoch.unprotectObject {a b : Workspace Group Signer} (h : SameEpoch mls sframe a b)
    (context object : Bytes) :
    mls.unprotectObject sframe a context object = mls.unprotectObject sframe b context object := by
  simp only [Mls.unprotectObject, h.id, h.epoch, h.members, h.secret]

/-- Direct recovery stays inside the audience and is exact. -/
theorem direct_recovery_exact {json : Json} (hjson : json.Lawful)
    {holder : Workspace Group Signer} {workspace : WorkspaceId} {epoch : U64}
    {trace : List (Taken ObjectInbox InboxCall)} {inbox : ObjectInbox}
    (hrun : Run (InboxStep json (securityOwner mls sframe holder)) (new workspace epoch) trace
      inbox)
    (hhome : ∀ taken ∈ actsOf json (securityOwner mls sframe holder) trace,
      SentAtHome (securityOwner mls sframe holder) taken.label)
    {policy : RoutingTable} {requester : PeerId} {query : DirectRangeQuery} {reply : Bytes}
    (hknown : (∃ id, mls.memberIdForEndpoint holder requester = .ok id) ∨
      zeroBlock 32 ∉ query.recipients)
    (hreply : inbox.serveDirectRange mls sframe holder policy requester query = .ok reply)
    (hoffered : OfferedDirect reply) :
    (∃ id ∈ query.recipients, Bound mls holder id requester) ∧
    (∃ id, holder.member.map (·.id) = some id ∧ (id = query.author ∨ id ∈ query.recipients)) ∧
    Authorizes mls holder policy query.policyRevision query.author query.topic requester ∧
    ∃ stream ∈ inbox.direct, stream.key = queryKey query ∧
      (∀ other ∈ inbox.direct, other.key = queryKey query → other = stream) ∧
      (stream.selected query).map (fun record => record.sequence.val) =
        List.range' (query.after.val + 1) (query.through.val - query.after.val) ∧
      ∀ receiver, SameEpoch mls sframe receiver holder →
        verifyDirectReply (securityOwner mls sframe receiver) query reply =
          .ok (.offered ((stream.selected query).map query.recovered)) := by
  obtain ⟨hworkspace, member, stream, hmember, hserves, hlookup, hoffer⟩ :=
    serveDirectRange_offered hreply hoffered
  simp only [refusesDirect, not_or, not_not, not_and] at hserves
  obtain ⟨hscope, _, hlisted, hparty, hauthorized⟩ := hserves
  obtain ⟨hmem, hkey⟩ := Keyed.mem_of_lookup hlookup
  have hauthentic := run_authentic hjson hrun hhome
  refine ⟨?_, ⟨member, hmember, ?_⟩, authorizes_of_authorizeHistory hauthorized, stream, hmem, hkey,
    ?_, ?_, ?_⟩
  · -- an endpoint that is not one member's passes only as the all-zero id
    cases hid : mls.memberIdForEndpoint holder requester with
    | ok id =>
      rw [hid] at hlisted
      exact ⟨id, hlisted, Mls.binds_of_memberIdForEndpoint hid⟩
    | error message =>
      rw [hid] at hlisted hknown
      rcases hknown with ⟨_, hok⟩ | hzero
      · cases hok
      · exact absurd hlisted hzero
  · by_cases hauthor : member = query.author
    · exact .inl hauthor
    · exact .inr (hparty hauthor)
  · intro other hother hotherKey
    have hfound := Keyed.lookup_of_mem hauthentic.keys hother
    rw [hotherKey, hlookup] at hfound
    exact (Option.some.inj hfound).symm
  · simp only [directOffer, bind_eq_ok, failIf_eq_ok, not_not] at hoffer
    obtain ⟨_, _, _, hcount, encoded, hencoded, _⟩ := hoffer
    rw [encodeDirect_sequences hencoded, hcount]
  · intro receiver hsame
    apply verifyDirectReply_directOffer hoffer
    intro record hrecord
    obtain ⟨hrevision, topic, htopic, aad, object, haad, hobject, hauthor⟩ :=
      hauthentic.each stream hmem record (List.mem_of_mem_filter hrecord)
    rw [hkey] at hrevision htopic haad hauthor
    obtain rfl : topic = query.topic := Subtype.ext htopic
    refine ⟨aad, object, ?_, ?_, hauthor⟩
    · rw [← haad, DirectRangeQuery.recovered, hscope, hworkspace, hrevision]
      rfl
    · rw [← hobject]
      exact hsame.unprotectObject aad record.object

end Recovery

namespace Sample

open Security Security.Sample

/-- Three endpoints that may use every topic. -/
def openPolicy : RoutingTable :=
  (RoutingTable.new.installVerifiedPolicy workspaceId 1
    (((OrderedMap.empty.insert (block 11) .allTopics).insert (block 12) .allTopics).insert
      (block 13) .allTopics)).2

def directQuery (author : Block 32) (recipients : List (Block 32)) : DirectRangeQuery :=
  ⟨workspaceId, author, 1, 1, notes, recipients, 0, 1⟩

/-- An object of a workspace for an audience. -/
def objectFor (mls : Mls ScriptGroup Bytes ScriptGroup) (frames : SFrame ScriptGroup Nat)
    (sender : Workspace ScriptGroup Bytes) (context : PublicationContext)
    (recipients : List (Block 32)) : Bytes :=
  let object : Outcome Bytes := do
    let aad ← context.directAuthenticatedBytes recipients
    let (object, _) ← mls.protectObject frames sender aad [7]
    pure object
  object.toOption.getD []

/-- The administrator of a workspace in which two members share an endpoint. -/
def strayHolder : Workspace ScriptGroup Bytes := leader sharedEndpoint

def strayOwner : SecurityOwner := securityOwner sharedEndpoint.mls sframe strayHolder

/-- One of the two sends to the administrator, and to the all-zero id. -/
def strayCalls : List InboxCall :=
  [.stage ⟨context 1 1, [zeroBlock 32, block 1], none,
    objectFor sharedEndpoint.mls sframe (follower sharedEndpoint) (context 1 1)
      [zeroBlock 32, block 1]⟩]

def strayJson : Json := jsonFor strayOwner emptyInbox strayCalls

def strayTrace : List (Taken ObjectInbox InboxCall) :=
  InboxCall.play strayJson strayOwner emptyInbox strayCalls

def strayReply : Bytes :=
  ((outcome emptyInbox strayTrace).serveDirectRange sharedEndpoint.mls sframe strayHolder
    openPolicy (block 12) (directQuery (block 2) [zeroBlock 32, block 1])).toOption.getD []

/-- Signatures that are a part of the signed bytes, for an object from its context on. -/
def signing : Mls ScriptGroup Bytes ScriptGroup :=
  { pair.mls with
    sign := fun _ message => some ((message.drop 94).takeD 64 0)
    verifySignature := fun message _ signature => signature == (message.drop 94).takeD 64 0 }

def foreignOwner : SecurityOwner := securityOwner signing sframe (leader pair)

def foreignContext : PublicationContext := { context 1 1 with workspace := block 8 }

/-- The administrator retains an object that names another workspace. -/
def foreignCalls : List InboxCall :=
  [.sentDirect foreignContext [block 2]
    (objectFor signing sframe (leader pair) foreignContext [block 2])]

def foreignJson : Json := jsonFor foreignOwner emptyInbox foreignCalls

def foreignTrace : List (Taken ObjectInbox InboxCall) :=
  InboxCall.play foreignJson foreignOwner emptyInbox foreignCalls

def foreignReply : Bytes :=
  ((outcome emptyInbox foreignTrace).serveDirectRange signing sframe (leader pair)
    openPolicy (block 12) (directQuery (block 1) [block 2])).toOption.getD []

/-- A direct object to two members, held by one of them. -/
def sharedCalls : List InboxCall := [.stage (directTo [block 2, block 3] 1 1 0 [7])]

def sharedJson : Json := jsonFor receiver emptyInbox sharedCalls

def sharedTrace : List (Taken ObjectInbox InboxCall) :=
  InboxCall.play sharedJson receiver emptyInbox sharedCalls

def sharedReply : Bytes :=
  ((outcome emptyInbox sharedTrace).serveDirectRange pair.mls sframe (follower pair)
    openPolicy (block 13) (directQuery (block 1) [block 2, block 3])).toOption.getD []

end Sample

open Sample Security.Sample

open Security in
/-- An endpoint that two members share is offered what neither was sent, where the audience names
the all-zero id; and an object that was retained with the context of another workspace is offered
but does not verify. -/
theorem direct_recovery_strays :
    (Run (InboxStep strayJson strayOwner) emptyInbox strayTrace
        (outcome emptyInbox strayTrace) ∧
      ∃ reply, (outcome emptyInbox strayTrace).serveDirectRange
          sharedEndpoint.mls sframe strayHolder openPolicy
          (block 12) (directQuery (block 2) [zeroBlock 32, block 1]) =
            .ok reply ∧
        OfferedDirect reply ∧ ∀ id ∈ [zeroBlock 32, block 1],
          ¬ Bound sharedEndpoint.mls strayHolder id (block 12)) ∧
    (Run (InboxStep foreignJson foreignOwner) emptyInbox foreignTrace
        (outcome emptyInbox foreignTrace) ∧
      SameEpoch signing sframe (follower pair) (leader pair) ∧
      ∃ reply, (outcome emptyInbox foreignTrace).serveDirectRange
          signing sframe (leader pair) openPolicy
          (block 12) (directQuery (block 1) [block 2]) = .ok reply ∧
        OfferedDirect reply ∧
        verifyDirectReply (securityOwner signing sframe (follower pair))
          (directQuery (block 1) [block 2]) reply = .error "object signature invalid") := by
  refine ⟨⟨InboxCall.play_run _ _ _ _ (by simp [strayCalls]), strayReply, ?_, ?_, ?_⟩,
    InboxCall.play_run _ _ _ _ (by simp [foreignCalls]), ⟨rfl, rfl, rfl, rfl⟩, foreignReply,
    ?_, ?_, ?_⟩
  · decide +kernel
  · decide +kernel
  · decide
  · decide +kernel
  · decide +kernel
  · decide +kernel

open Security in
/-- A member passes on what it received with another one. -/
theorem direct_recovery_exact_shared :
    ∃ reply, (outcome emptyInbox sharedTrace).serveDirectRange
        pair.mls sframe (follower pair) openPolicy
        (block 13) (directQuery (block 1) [block 2, block 3]) =
          .ok reply ∧
      (∃ id ∈ [block 2, block 3],
        Bound pair.mls (follower pair) id (block 13)) ∧
      ∃ packets, verifyDirectReply (securityOwner pair.mls sframe
          (leader pair)) (directQuery (block 1)
            [block 2, block 3]) reply = .ok (.offered packets) := by
  have hhome : ∀ taken ∈ actsOf sharedJson receiver sharedTrace,
      SentAtHome receiver taken.label := by
    decide +kernel
  have hreply : (outcome emptyInbox sharedTrace).serveDirectRange
      pair.mls sframe (follower pair) openPolicy
      (block 13) (directQuery (block 1) [block 2, block 3]) =
        .ok sharedReply := by decide +kernel
  have hzero : zeroBlock 32 ∉ [block 2, block 3] := by decide
  obtain ⟨haudience, _, _, stream, _, _, _, _, hverify⟩ := direct_recovery_exact
    (Json.among_lawful _ _) (InboxCall.play_run _ _ _ _ (by simp [sharedCalls])) hhome
    (.inr hzero) hreply (by decide +kernel)
  exact ⟨_, hreply, haudience, _, hverify _ ⟨rfl, rfl, rfl, rfl⟩⟩

end Arachne.Delivery
