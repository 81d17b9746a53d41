import Arachne.Delivery.DirectDelivery

/-! Which saved inboxes `restore_snapshot` takes back. Each of its checks is met by every run,
except those on direct streams, which need a condition on the direct objects that are retained. -/

namespace Arachne.Delivery

open ByteCodec Fallible Routing SortedWindow Transition Keyed InboxCall
open DirectStream (push_key dropFirst_key push_knownHead)
open ObjectInbox

variable {json : Json} {inbox : ObjectInbox} {act : InboxAct} {receipts : List Receipt}
  {previous : U64} {ids : List (Block 16)} {member : Block 32} {past : List Acceptance}

/-- Recovery progress and current-view progress as they pass the checks. -/
structure ProgressKept (owner : SecurityOwner) (inbox : ObjectInbox) : Prop where
  count : inbox.progress.length ≤ maxRecoverySelections
  nonzero : ∀ progress ∈ inbox.progress, progress.through ≠ 0
  order : (inbox.progress.map progressKey).Pairwise (· < ·)
  currentCount : inbox.currentProgress.length ≤ maxCurrentSelections
  currentOrder : (inbox.currentProgress.map currentKey).Pairwise (· < ·)
  currentTopic : ∀ progress ∈ inbox.currentProgress, Topic.isValid progress.topic = true
  authority : ∀ progress ∈ inbox.currentProgress, isCurrent owner progress.authority = true

/-- Stream and direct-stream counts, and no stream without a receipt. -/
structure CountsKept (inbox : ObjectInbox) : Prop where
  streams : inbox.streams.length ≤ maxStreams
  receipts : ∀ stream ∈ inbox.streams, stream.receipts ≠ []
  direct : inbox.direct.length ≤ maxDirectStreams
  legacy : inbox.legacyReceiveSnapshot = none

section Progress

variable {owner : SecurityOwner} {next : ObjectInbox}

theorem new_progressKept (owner : SecurityOwner) (workspace : WorkspaceId) (epoch : U64) :
    ProgressKept owner (new workspace epoch) where
  count := Nat.zero_le _
  nonzero := by simp [new]
  order := by simp [new]
  currentCount := Nat.zero_le _
  currentOrder := by simp [new]
  currentTopic := by simp [new]
  authority := by simp [new]

theorem ProgressKept.cover {query : RangeQuery} {reply : Bytes} (h : ProgressKept owner inbox)
    (hcover : inbox.acceptRecoveryCoverage json owner query reply = .ok next) :
    ProgressKept owner next := by
  obtain ⟨_, ⟨_, rfl⟩ | ⟨hthrough, _, hroom, rfl⟩⟩ := acceptRecoveryCoverage_eq_ok hcover
  · exact h
  · have hput : putProgress (rangeProgress owner query) inbox.progress =
        putOrdered progressKey (rangeProgress owner query) inbox.progress := by
      rw [putProgress, putOrdered]
      cases lookup progressKey (progressKey (rangeProgress owner query)) inbox.progress <;> rfl
    refine { h with count := ?_, nonzero := ?_, order := ?_ }
    · rw [hput]
      exact length_putOrdered h.count hroom
    · intro progress hprogress
      rw [hput] at hprogress
      rcases mem_putOrdered hprogress with rfl | hold
      · exact Fin.ne_zero_of_lt hthrough
      · exact h.nonzero progress hold
    · rw [hput]
      exact putOrdered_increasing h.order

theorem putCurrentProgress_eq (progress : CurrentProgress) (list : List CurrentProgress) :
    putCurrentProgress progress list = putOrdered currentKey progress list := by
  rw [putCurrentProgress, putOrdered]
  cases lookup currentKey (currentKey progress) list <;> rfl

theorem ProgressKept.view {query : CurrentViewQuery} {reply : Bytes} {view : VerifiedCurrentView}
    (h : ProgressKept owner inbox)
    (hseen : inbox.currentSeen (viewProgress owner query reply view) = .ok false)
    (hcurrent : ∃ endpoints, owner.endpointsForMembers [query.authority] = .ok endpoints) :
    ProgressKept owner { inbox with
      currentProgress := putCurrentProgress (viewProgress owner query reply view)
        inbox.currentProgress } := by
  have hroom : lookup currentKey (currentKey (viewProgress owner query reply view))
      inbox.currentProgress = none → inbox.currentProgress.length ≠ maxCurrentSelections := by
    intro hnone
    rw [currentSeen, hnone] at hseen
    simp only [bind_eq_ok, failIf_eq_ok] at hseen
    obtain ⟨_, hroom, _⟩ := hseen
    exact hroom
  rw [putCurrentProgress_eq]
  refine { h with currentCount := ?_, currentOrder := ?_, currentTopic := ?_, authority := ?_ }
  · exact length_putOrdered h.currentCount hroom
  · exact putOrdered_increasing h.currentOrder
  · intro progress hprogress
    rcases mem_putOrdered hprogress with rfl | hold
    · exact query.topic.property
    · exact h.currentTopic progress hold
  · intro progress hprogress
    rcases mem_putOrdered hprogress with rfl | hold
    · obtain ⟨endpoints, hendpoints⟩ := hcurrent
      rw [isCurrent, viewProgress, hendpoints]
    · exact h.authority progress hold

/-- What can touch the progress: a current view, a covered range, and nothing else. -/
theorem Acts.progress_cases (hact : Acts json owner inbox act next) :
    (∃ query reply view, act = .view query reply ∧
        verifyWireReply owner query reply = .ok (some view) ∧
        inbox.currentSeen (viewProgress owner query reply view) = .ok false ∧
        (∃ endpoints, owner.endpointsForMembers [query.authority] = .ok endpoints) ∧
        next = { inbox with
          currentProgress := putCurrentProgress (viewProgress owner query reply view)
            inbox.currentProgress }) ∨
      (∃ query reply, act = .cover query reply ∧
        inbox.acceptRecoveryCoverage json owner query reply = .ok next) ∨
      (next.progress = inbox.progress ∧ next.currentProgress = inbox.currentProgress) := by
  have hframe := hact.frame
  cases hact with
  | view hview hseen hcurrent => exact .inl ⟨_, _, _, rfl, hview, hseen, hcurrent, rfl⟩
  | cover hcover => exact .inr (.inl ⟨_, _, rfl, hcover⟩)
  | _ =>
    have hnext : _ = _ := hframe
    rw [hnext]
    exact .inr (.inr ⟨rfl, rfl⟩)

theorem Acts.progressKept (hact : Acts json owner inbox act next) (h : ProgressKept owner inbox) :
    ProgressKept owner next := by
  rcases hact.progress_cases with ⟨query, reply, view, _, _, hseen, hcurrent, rfl⟩ |
    ⟨query, reply, _, hcover⟩ | ⟨hprogress, hcurrent⟩
  · exact h.view hseen hcurrent
  · exact h.cover hcover
  · obtain ⟨hcount, hnonzero, horder, hcurrentCount, hcurrentOrder, htopic, hauthority⟩ := h
    constructor
    · rwa [hprogress]
    · rwa [hprogress]
    · rwa [hprogress]
    · rwa [hcurrent]
    · rwa [hcurrent]
    · rwa [hcurrent]
    · rwa [hcurrent]

end Progress

section Counts

variable {owner : SecurityOwner} {next : ObjectInbox}

theorem new_countsKept (workspace : WorkspaceId) (epoch : U64) :
    CountsKept (new workspace epoch) where
  streams := Nat.zero_le _
  receipts := by simp [new]
  direct := Nat.zero_le _
  legacy := rfl

theorem length_put_le {Entry Key : Type} [DecidableEq Key] {key : Entry → Key} {new : Entry}
    {entries : List Entry} {bound : Nat} (h : entries.length ≤ bound)
    (hroom : lookup key (key new) entries = none → entries.length ≠ bound) :
    (put key new entries).length ≤ bound := by
  cases hlookup : lookup key (key new) entries with
  | none =>
    rw [put_of_lookup_eq_none hlookup, List.length_append, List.length_singleton]
    exact lt_of_le_of_ne h (hroom hlookup)
  | some known => rwa [length_put_of_lookup hlookup]

theorem Stream.push_receipts_ne_nil {stream next : Stream} {receipt : Receipt}
    (h : stream.push receipt = .ok next) (hpending : receipt.pending ≠ none) :
    next.receipts ≠ [] :=
  List.ne_nil_of_mem (Stream.mem_push_of_pending h (.inr rfl) hpending)

theorem resolveFirst_ne_nil {counter : U64} {id : Block 16} {rejected : Bool} (h : receipts ≠ []) :
    resolveFirst counter id rejected receipts ≠ [] := by
  intro hnil
  have hmap := @map_identity_resolveFirst counter id rejected receipts
  rw [hnil, List.map_nil] at hmap
  exact h (List.map_eq_nil_iff.mp hmap.symm)

theorem retainDirect_length {direct next : List DirectStream} {author : Block 32}
    {context : PublicationContext} {recipients : List (Block 32)} {object : Bytes}
    (h : direct.length ≤ maxDirectStreams)
    (hretained : retainDirect json direct author context recipients object = .ok next) :
    next.length ≤ maxDirectStreams := by
  obtain ⟨sequence, stream, _, hstream, ⟨_, rfl⟩ | ⟨_, _, htrim⟩⟩ := retainDirect_eq_ok hretained
  · exact h
  · refine trimDirect_invariant (C := fun _ => True)
      (P := fun d => d.length ≤ maxDirectStreams) ?_ htrim (fun _ _ => trivial) ?_
    · intro between heavy hlength _ hheaviest
      refine length_put_le hlength fun hnone => ?_
      rw [dropFirst_key] at hnone
      exact absurd rfl (lookup_eq_none.mp hnone heavy (mem_of_heaviest hheaviest).1)
    · refine length_put_le h fun hnone => ?_
      obtain ⟨hkey, hlookup | ⟨_, _, hroom⟩⟩ := directStream_eq_ok hstream
      · rw [push_key, hkey] at hnone
        exact nomatch hlookup.symm.trans hnone
      · exact hroom

theorem Acts.direct_length (hact : Acts json owner inbox act next)
    (h : inbox.direct.length ≤ maxDirectStreams) : next.direct.length ≤ maxDirectStreams := by
  rcases hact.direct_cases with ⟨_, _, _, _, hretained⟩ |
    ⟨head, stream, _, hstream, _, hnext⟩ |
    ⟨query, stream, stream', skipped, _, hlookup, hgap, hnext⟩ | ⟨_, hnext⟩
  · exact retainDirect_length h hretained
  · rw [hnext]
    refine length_put_le h fun hnone => ?_
    obtain ⟨hkey, hlookup | ⟨_, _, hroom⟩⟩ := directStream_eq_ok hstream
    · have hnone : lookup DirectStream.key stream.key inbox.direct = none := hnone
      rw [hkey] at hnone
      exact nomatch hlookup.symm.trans hnone
    · exact hroom
  · rw [hnext]
    refine length_put_le h fun hnone => ?_
    obtain ⟨_, _, _, _, _, _, rfl⟩ := skipGap_eq_ok hgap
    exact absurd rfl (lookup_eq_none.mp hnone stream (mem_of_lookup hlookup).1)
  · rw [hnext]
    exact h

theorem Acts.countsKept (hact : Acts json owner inbox act next) (h : CountsKept inbox) :
    CountsKept next := by
  have hdirect := hact.direct_length h.direct
  rcases hact.streams_cases with ⟨staging, object, stream, _, haccepts⟩ |
    ⟨author, topic, counter, id, rejected, stream, _, hlookup, rfl⟩ | ⟨_, _, hsame⟩
  · have hkey : stream.key = staging.streamKey object :=
      (Stream.push_key haccepts.pushed).trans (streamAt_key _ _)
    rw [haccepts.result] at hdirect ⊢
    refine ⟨length_put_le h.streams fun hnone => haccepts.room (hkey ▸ hnone), ?_, hdirect,
      h.legacy⟩
    intro known hknown
    rcases mem_put hknown with rfl | hold
    · exact Stream.push_receipts_ne_nil haccepts.pushed (by simp [Staging.receipt])
    · exact h.receipts known hold
  · refine ⟨?_, ?_, hdirect, h.legacy⟩
    · refine length_put_le h.streams fun hnone => ?_
      exact absurd rfl (lookup_eq_none.mp hnone stream (mem_of_lookup hlookup).1)
    · intro known hknown
      rcases mem_put hknown with rfl | hold
      · exact resolveFirst_ne_nil (h.receipts stream (mem_of_lookup hlookup).1)
      · exact h.receipts known hold
  · refine ⟨?_, ?_, hdirect, ?_⟩
    · rw [hsame.streams]
      exact h.streams
    · rw [hsame.streams]
      exact h.receipts
    · rw [hsame.legacy]
      exact h.legacy

end Counts

/-- The scope of a direct stream that passes the checks. -/
structure ScopeProof (owner : SecurityOwner) (key : DirectStream.Key) : Prop where
  canonical : CanonicalScope key.2.2.2
  author : key.1 ∉ key.2.2.2
  party : ∃ member, owner.member = some member ∧ (key.1 = member ∨ member ∈ key.2.2.2)
  current : ∃ endpoints, owner.endpointsForMembers key.2.2.2 = .ok endpoints
  topic : ∃ topic : Topic, topic.val = key.2.2.1

/-- A record whose object still authenticates in the context of its stream. -/
def RecordProof (owner : SecurityOwner) (key : DirectStream.Key) (record : DirectRecord) : Prop :=
  record.revision = key.2.1 ∧ ∃ topic : Topic, topic.val = key.2.2.1 ∧
    ∃ aad object, PublicationContext.directAuthenticatedBytes
        ⟨owner.id, key.2.1, topic, record.id, NonZeroU64.new record.sequence⟩ key.2.2.2 = .ok aad ∧
      owner.unprotectObject aad record.object = .ok object ∧ object.message.member = key.1

structure DirectProof (owner : SecurityOwner) (stream : DirectStream) : Prop where
  head : stream.knownHead ≠ 0
  scope : ScopeProof owner stream.key
  records : ∀ record ∈ stream.records, RecordProof owner stream.key record

/-- What a retained object has to bring along: an audience of current members without the
author, and the workspace of the owner. -/
structure DirectObject.Restorable (owner : SecurityOwner) (direct : DirectObject) : Prop where
  author : direct.author ∉ direct.recipients
  current : ∃ endpoints, owner.endpointsForMembers direct.recipients = .ok endpoints
  workspace : direct.context.workspace = owner.id

section Direct

variable {owner : SecurityOwner} {next : ObjectInbox}

theorem recordProof_of_authenticates {direct : DirectObject} {sequence : NonZeroU64} {aad : Bytes}
    {object : Security.AuthenticatedObject}
    (hsequence : direct.context.sequence = some sequence)
    (hworkspace : direct.context.workspace = owner.id)
    (haad : direct.context.directAuthenticatedBytes direct.recipients = .ok aad)
    (hobject : owner.unprotectObject aad direct.object = .ok object)
    (hauthor : object.message.member = direct.author) :
    RecordProof owner direct.key (directRecord direct.context sequence direct.object) := by
  refine ⟨rfl, direct.context.topic, rfl, aad, object, ?_, hobject, hauthor⟩
  rw [directRecord, NonZeroU64.new_val, ← hworkspace, ← hsequence]
  exact haad

theorem canonical_of_directAuthenticatedBytes {context : PublicationContext}
    {recipients : List (Block 32)} {aad : Bytes}
    (h : context.directAuthenticatedBytes recipients = .ok aad) : CanonicalScope recipients := by
  simp only [PublicationContext.directAuthenticatedBytes, bind_eq_ok, failIf_eq_ok, not_not] at h
  obtain ⟨_, hcanonical, _⟩ := h
  exact hcanonical

/-- A retained object authenticates in its own context, and its owner is a party to it. -/
theorem Acts.retained_authenticates (hact : Acts json owner inbox act next)
    {direct : DirectObject} (hretained : act.retained owner = some direct) :
    ∃ aad object, direct.context.directAuthenticatedBytes direct.recipients = .ok aad ∧
      owner.unprotectObject aad direct.object = .ok object ∧
      object.message.member = direct.author ∧
      ∃ member, owner.member = some member ∧
        (direct.author = member ∨ member ∈ direct.recipients) := by
  cases hact with
  | @accept _ staging haccept =>
    obtain ⟨object, stream, haccepts⟩ := stageScoped_eq_prepared haccept
    have hauthenticated := haccepts.authenticated
    simp only [InboxAct.retained, hauthenticated] at hretained
    split at hretained
    · rename_i hdirect
      cases hretained
      obtain ⟨member, hmember, hlocal⟩ := Staging.received hauthenticated hdirect.1
      simp only [Staging.authenticate, bind_eq_ok] at hauthenticated
      obtain ⟨aad, haad, hobject⟩ := hauthenticated
      have hbytes : staging.context.directAuthenticatedBytes staging.recipients = .ok aad := by
        cases hcurrent : staging.current with
        | some metadata => simp [hcurrent, receiptAad, if_neg hdirect.1] at haad
        | none =>
          simp only [hcurrent, receiptAad, audienceAad, if_neg hdirect.1, bind_eq_ok,
            pure_eq_ok] at haad
          obtain ⟨_, hbytes, _, _, _, _, rfl⟩ := haad
          exact hbytes
      exact ⟨aad, object, hbytes, hobject, rfl, member, hmember, .inr hlocal⟩
    · cases hretained
  | @sent _ context recipients object hsent =>
    obtain ⟨author, aad, authenticated, _, hmember, _, _, haad, hobject, hsender, _, _⟩ :=
      stageSentDirect_eq_ok hsent
    rw [InboxAct.retained, hmember, Option.map_some, Option.some.injEq] at hretained
    subst hretained
    exact ⟨aad, authenticated, haad, hobject, hsender, author, hmember, .inl rfl⟩
  | _ => cases hretained

theorem Acts.retained_record (hact : Acts json owner inbox act next) {direct : DirectObject}
    {sequence : NonZeroU64} (hretained : act.retained owner = some direct)
    (hsequence : direct.context.sequence = some sequence)
    (hworkspace : direct.context.workspace = owner.id) :
    RecordProof owner direct.key (directRecord direct.context sequence direct.object) := by
  obtain ⟨aad, object, haad, hobject, hauthor, _⟩ := hact.retained_authenticates hretained
  exact recordProof_of_authenticates hsequence hworkspace haad hobject hauthor

theorem Acts.retained_scope (hact : Acts json owner inbox act next) {direct : DirectObject}
    (hretained : act.retained owner = some direct) (hrestorable : direct.Restorable owner) :
    ScopeProof owner direct.key := by
  obtain ⟨aad, _, haad, _, _, hparty⟩ := hact.retained_authenticates hretained
  exact ⟨canonical_of_directAuthenticatedBytes haad, hrestorable.author, hparty,
    hrestorable.current, direct.context.topic, rfl⟩

/-- The records of a stream authenticate in its scope. -/
def Authentic (owner : SecurityOwner) (stream : DirectStream) : Prop :=
  ∀ record ∈ stream.records, RecordProof owner stream.key record

theorem Authentic.dropFirst {stream : DirectStream} (h : Authentic owner stream) :
    Authentic owner stream.dropFirst := by
  intro record hrecord
  rw [dropFirst_key]
  apply h
  rw [DirectStream.dropFirst] at hrecord
  split at hrecord
  · exact hrecord
  · rename_i first rest hrecords
    rw [hrecords]
    exact List.mem_cons_of_mem _ hrecord

theorem Authentic.push {stream : DirectStream} {record : DirectRecord}
    (h : Authentic owner stream) (hrecord : RecordProof owner stream.key record) :
    Authentic owner (stream.push record) := by
  intro known hknown
  rw [push_key]
  rcases DirectStream.mem_push hknown with hold | rfl
  · exact h known hold
  · exact hrecord

theorem new_authentic (owner : SecurityOwner) (key : DirectStream.Key) :
    Authentic owner (DirectStream.new key) := by
  simp [Authentic, DirectStream.new]

theorem DirectProof.dropFirst {stream : DirectStream} (h : DirectProof owner stream) :
    DirectProof owner stream.dropFirst := by
  refine ⟨?_, ?_, Authentic.dropFirst h.records⟩
  · rw [DirectStream.dropFirst]
    split <;> exact h.head
  · rw [dropFirst_key]
    exact h.scope

theorem retainDirect_proof {direct next : List DirectStream} {author : Block 32}
    {context : PublicationContext} {recipients : List (Block 32)} {object : Bytes}
    (h : DirectStreams (DirectProof owner) direct)
    (hproof : ∀ sequence, context.sequence = some sequence →
      ScopeProof owner (directKey author context recipients) ∧
        RecordProof owner (directKey author context recipients)
          (directRecord context sequence object))
    (hretained : retainDirect json direct author context recipients object = .ok next) :
    DirectStreams (DirectProof owner) next := by
  refine retainDirect_invariant h ?_ (fun stream => DirectProof.dropFirst) hretained
  intro sequence stream hsequence hkey hold
  obtain ⟨hscope, hrecord⟩ := hproof sequence hsequence
  have hrecords : Authentic owner stream := by
    rcases hold with hknown | rfl
    · exact hknown.records
    · exact new_authentic owner _
  refine ⟨?_, ?_, hrecords.push (hkey ▸ hrecord)⟩
  · rw [push_knownHead]
    exact Fin.ne_zero_of_lt ((Fin.pos_of_ne_zero sequence.property).trans_le (le_max_right _ _))
  · rw [push_key, hkey]
    exact hscope

theorem Acts.direct_proof (hact : Acts json owner inbox act next)
    (h : DirectStreams (DirectProof owner) inbox.direct)
    (hrestorable : ∀ direct, act.retained owner = some direct → direct.Restorable owner) :
    DirectStreams (DirectProof owner) next.direct := by
  rcases hact.direct_cases with ⟨direct, _, hretained, _, hresult⟩ |
    ⟨head, stream, rfl, hstream, hthrough, hnext⟩ |
    ⟨query, stream, stream', skipped, _, hlookup, hgap, hnext⟩ | ⟨_, hnext⟩
  · refine retainDirect_proof h ?_ hresult
    intro sequence hsequence
    have hobject := hrestorable direct hretained
    exact ⟨hact.retained_scope hretained hobject,
      hact.retained_record hretained hsequence hobject.workspace⟩
  · cases hact with
    | announce hhead =>
      obtain ⟨member, stream, hmember, hlocal, hthrough, hcanonical, hauthor, hcurrent, hstream, _,
        rfl⟩ := stageDirectHead_eq_ok hhead
      have hkey := (directStream_eq_ok hstream).1
      refine h.put ⟨hthrough, ?_, ?_⟩
      · have hscope : ScopeProof owner (headKey head) :=
          ⟨hcanonical, hauthor, ⟨member, hmember, .inr hlocal⟩, hcurrent, head.topic, rfl⟩
        exact hkey ▸ hscope
      · obtain ⟨_, hlookup | ⟨rfl, _⟩⟩ := directStream_eq_ok hstream
        · exact (h.each stream (mem_of_lookup hlookup).1).records
        · simp [DirectStream.new]
  · rw [hnext]
    have hold := h.each stream (mem_of_lookup hlookup).1
    obtain ⟨_, _, _, _, _, _, rfl⟩ := skipGap_eq_ok hgap
    exact h.put ⟨hold.head, hold.scope, hold.records⟩
  · rw [hnext]
    exact h

end Direct

section Checks

variable {owner : SecurityOwner}

theorem checkRecords_ok {stream : DirectStream} {topic : Topic}
    (htopic : topic.val = stream.topic) {records : List DirectRecord}
    (hincreasing : records.Pairwise fun a b => a.sequence < b.sequence)
    (habove : ∀ record ∈ records, previous < record.sequence) (hids : (records.map (·.id)).Nodup)
    (hfresh : ∀ record ∈ records, record.id ∉ ids)
    (hproof : ∀ record ∈ records, RecordProof owner stream.key record) :
    checkRecords owner stream topic previous ids records = .ok () := by
  induction records generalizing previous ids with
  | nil => rfl
  | cons record records ih =>
    obtain ⟨hfirst, hincreasing⟩ := List.pairwise_cons.mp hincreasing
    rw [List.forall_mem_cons] at habove hfresh hproof
    rw [List.map_cons, List.nodup_cons] at hids
    obtain ⟨⟨hrevision, topic', htopic', aad, object, haad, hobject, hauthor⟩, hproof⟩ := hproof
    obtain rfl : topic' = topic := Subtype.ext (htopic'.trans htopic.symm)
    have hvalid : ¬(record.revision ≠ stream.revision ∨ record.sequence ≤ previous ∨
        record.id ∈ ids ∨ object.message.member ≠ stream.author) := by
      simp only [not_or, not_not, not_le]
      exact ⟨hrevision, habove.1, hfresh.1, hauthor⟩
    simp only [checkRecords, bind_eq_ok]
    refine ⟨aad, haad, object, hobject, (), failIf_of_not hvalid, ?_⟩
    refine ih hincreasing hfirst hids.2 ?_ hproof
    intro other hother
    rw [List.mem_cons, not_or]
    exact ⟨fun heq => hids.1 (heq ▸ List.mem_map_of_mem hother), hfresh.2 other hother⟩

theorem DirectProof.not_invalid {stream : DirectStream} {seen : List DirectStream.Key}
    (h : DirectProof owner stream) (hkept : stream.WellKept)
    (hmember : owner.member = some member) (hfresh : stream.key ∉ seen) :
    ¬InvalidDirect member seen stream := by
  obtain ⟨local_, hlocal, hparty⟩ := h.scope.party
  cases hmember.symm.trans hlocal
  rw [InvalidDirect, hkept.effectiveHead_eq]
  simp only [not_or, not_and, not_lt, not_not, Bool.not_eq_true]
  refine ⟨fun _ => h.head, hkept.bounded, hkept.floor_le, hkept.recoveryFloor_le, fun _ => ?_,
    h.scope.canonical, h.scope.author, ?_, hfresh⟩
  · cases hlast : stream.records.getLast? with
    | none => rfl
    | some record =>
      have hle := hkept.head record (List.mem_of_getLast? hlast)
      simpa using hle
  · intro hother
    exact hparty.resolve_left hother

theorem checkDirect_ok (hmember : owner.member = some member) {seen : List DirectStream.Key}
    {streams : List DirectStream} (hkeys : (streams.map DirectStream.key).Nodup)
    (hfresh : ∀ stream ∈ streams, stream.key ∉ seen)
    (hordered : ∀ stream ∈ streams, stream.Ordered)
    (hproof : ∀ stream ∈ streams, DirectProof owner stream) :
    checkDirect owner member seen streams = .ok () := by
  induction streams generalizing seen with
  | nil => rfl
  | cons stream streams ih =>
    rw [List.forall_mem_cons] at hfresh hordered hproof
    rw [List.map_cons, List.nodup_cons] at hkeys
    obtain ⟨hproof, hproofs⟩ := hproof
    have hkept := hordered.1.toWellKept
    obtain ⟨endpoints, hendpoints⟩ := hproof.scope.current
    obtain ⟨topic, htopic⟩ := hproof.scope.topic
    have hvalid : directTopic stream = .ok topic := by
      have hnew := Topic.new_val topic
      rw [htopic] at hnew
      rw [directTopic]
      exact hnew ▸ rfl
    simp only [checkDirect, bind_eq_ok]
    refine ⟨(), failIf_of_not (hproof.not_invalid hkept hmember hfresh.1), endpoints, hendpoints,
      topic, hvalid, (), ?_, ?_⟩
    · exact checkRecords_ok htopic hkept.increasing hordered.1.aboveFloor hkept.ids (by simp)
        hproof.records
    · refine ih hkeys.2 ?_ hordered.2 hproofs
      intro other hother
      rw [List.mem_cons, not_or]
      exact ⟨fun heq => hkeys.1 (heq ▸ List.mem_map_of_mem hother), hfresh.2 other hother⟩

/-- A receipt that an accepted object left behind. -/
def ReceiptProof (owner : SecurityOwner) (inbox : ObjectInbox) (key : Block 32 × Bytes)
    (receipt : Receipt) : Prop :=
  ∃ accepted : Acceptance, accepted.staging.authenticate owner = .ok accepted.object ∧
    accepted.staging.context.workspace = inbox.workspace ∧ accepted.position.1 = key ∧
    Resolves (accepted.receipt owner) receipt

theorem checkPending_ok {accepted : Acceptance} {stream : Stream} {receipt : Receipt} {aad : Bytes}
    (hobject : owner.unprotectObject aad accepted.staging.object = .ok accepted.object)
    (hkey : accepted.position.1 = stream.key)
    (hresolves : Resolves (accepted.receipt owner) receipt) :
    checkPending owner stream receipt aad receipt.pending = .ok () := by
  rcases hresolves with rfl | ⟨hnone, _⟩
  · simp only [Acceptance.receipt, Staging.receipt, checkPending, bind_eq_ok]
    refine ⟨accepted.object, hobject, failIf_of_not ?_⟩
    simp only [ne_eq, not_true_eq_false, or_false, false_or, not_not]
    exact congrArg Prod.fst hkey
  · rw [hnone]
    rfl

theorem checkReceipts_ok {stream : Stream}
    (hincreasing : receipts.Pairwise fun a b => a.counter < b.counter)
    (habove : ∀ receipt ∈ receipts, previous < receipt.counter)
    (hids : (receipts.map (·.id)).Nodup) (hfresh : ∀ receipt ∈ receipts, receipt.id ∉ ids)
    (hproof : ∀ receipt ∈ receipts, ReceiptProof owner inbox stream.key receipt) :
    checkReceipts owner inbox stream previous ids receipts = .ok () := by
  induction receipts generalizing previous ids with
  | nil => rfl
  | cons receipt receipts ih =>
    obtain ⟨hfirst, hincreasing⟩ := List.pairwise_cons.mp hincreasing
    rw [List.forall_mem_cons] at habove hfresh hproof
    rw [List.map_cons, List.nodup_cons] at hids
    obtain ⟨⟨accepted, hauthenticated, hworkspace, hkey, hresolves⟩, hproof⟩ := hproof
    simp only [Staging.authenticate, bind_eq_ok] at hauthenticated
    obtain ⟨aad, haad, hobject⟩ := hauthenticated
    have hidentity := hresolves.identity
    have hcontext := context_of_identity hidentity (congrArg Prod.snd hkey).symm hworkspace
    have hrecipients : receipt.recipients = accepted.staging.recipients :=
      congrArg Receipt.recipients hidentity
    have hcurrent : receipt.current = accepted.staging.current :=
      congrArg Receipt.current hidentity
    have horder : ¬(receipt.counter ≤ previous ∨ receipt.id ∈ ids) := by
      rw [not_or, not_le]
      exact ⟨habove.1, hfresh.1⟩
    have hpending : ¬(receipt.rejected = true ∧ receipt.pending.isSome = true) := by
      rintro ⟨hrejected, hsome⟩
      rcases hresolves with rfl | ⟨hnone, _⟩
      · cases hrejected
      · rw [hnone] at hsome
        cases hsome
    simp only [checkReceipts, bind_eq_ok]
    refine ⟨_, hcontext, aad, by rw [hrecipients, hcurrent, haad], (), failIf_of_not horder, (),
      failIf_of_not hpending, (), checkPending_ok hobject hkey hresolves, ?_⟩
    refine ih hincreasing hfirst hids.2 ?_ hproof
    intro other hother
    rw [List.mem_cons, not_or]
    exact ⟨fun heq => hids.1 (heq ▸ List.mem_map_of_mem hother), hfresh.2 other hother⟩

theorem checkStreams_ok {seen : List (Block 32 × Bytes)} {streams : List Stream}
    (hkeys : (streams.map Stream.key).Nodup) (hfresh : ∀ stream ∈ streams, stream.key ∉ seen)
    (hreceipts : ∀ stream ∈ streams, stream.receipts ≠ [])
    (hkept : ∀ stream ∈ streams, stream.WellKept)
    (hproof : ∀ stream ∈ streams, ∀ receipt ∈ stream.receipts,
      ReceiptProof owner inbox stream.key receipt) :
    inbox.checkStreams owner seen streams = .ok () := by
  induction streams generalizing seen with
  | nil => rfl
  | cons stream streams ih =>
    rw [List.forall_mem_cons] at hfresh hreceipts hkept hproof
    rw [List.map_cons, List.nodup_cons] at hkeys
    have hvalid : ¬(stream.key ∈ seen ∨ stream.receipts = [] ∨
        window < stream.receipts.length) := by
      rw [not_or, not_or, not_lt]
      exact ⟨hfresh.1, hreceipts.1, hkept.1.bounded⟩
    simp only [checkStreams, bind_eq_ok]
    refine ⟨(), failIf_of_not hvalid, (), ?_, ?_⟩
    · exact checkReceipts_ok hkept.1.increasing hkept.1.above hkept.1.ids (by simp) hproof.1
    · refine ih hkeys.2 ?_ hreceipts.2 hkept.2 hproof.2
      intro other hother
      rw [List.mem_cons, not_or]
      exact ⟨fun heq => hkeys.1 (heq ▸ List.mem_map_of_mem hother), hfresh.2 other hother⟩

theorem ObjectInbox.RangeKept.checkRange_ok {retained : RetainedReply}
    (h : RangeKept owner retained) :
    checkRange owner retained = .ok () := by
  obtain ⟨⟨query, range, hwire, hverified⟩, _⟩ := h
  obtain ⟨request, offer, _, hrequest, _, _, hoffer, _⟩ := verifyReply_eq_offered hverified
  have hscope := owner.offer_scope hoffer
  simp only [RangeQuery.recoveryRequest, bind_eq_ok, pure_eq_ok] at hrequest
  obtain ⟨_, _, rfl⟩ := hrequest
  have hvalid : ¬(query.workspace ≠ owner.id ∨ query.epoch ≠ owner.epoch) := by
    simp only [not_or, not_not]
    exact hscope
  rw [checkRange, RangeQuery.fromWire_eq_ok.mpr hwire, ok_bind, failIf_of_not hvalid, ok_bind,
    hverified, ok_bind]
  rfl

theorem verifyWireReply_scope {query : CurrentViewQuery} {reply : Bytes}
    {view : VerifiedCurrentView} (h : verifyWireReply owner query reply = .ok (some view)) :
    query.workspace = owner.id ∧ query.epoch = owner.epoch := by
  simp only [verifyWireReply, bind_eq_ok] at h
  obtain ⟨received, _, h⟩ := h
  cases received with
  | none => simp at h
  | some received =>
    simp only [map_eq_ok, CurrentView.verify, bind_eq_ok, failIf_eq_ok, not_or, not_not] at h
    obtain ⟨_, ⟨_, ⟨hworkspace, hepoch⟩, _⟩, _⟩ := h
    exact ⟨hworkspace.symm, hepoch.symm⟩

theorem ObjectInbox.ViewKept.checkView_ok {retained : RetainedReply} (h : ViewKept owner retained) :
    checkView owner retained = .ok () := by
  obtain ⟨⟨query, view, hwire, hverified, hexpiry⟩, _⟩ := h
  obtain ⟨hworkspace, hepoch⟩ := verifyWireReply_scope hverified
  have hvalid : ¬(query.workspace ≠ owner.id ∨ query.epoch ≠ owner.epoch ∨
      lastExpiry view.values ≠ some retained.expiresAt) := by
    simp only [not_or, not_not]
    exact ⟨hworkspace, hepoch, hexpiry⟩
  rw [checkView, CurrentViewQuery.fromWire_eq_ok.mpr hwire, ok_bind, hverified, ok_bind,
    orFail_some, ok_bind, failIf_of_not hvalid]

theorem ProgressKept.checkProgress_ok (h : ProgressKept owner inbox) :
    inbox.checkProgress = .ok () := by
  refine failIf_of_not ?_
  simp only [not_or, not_lt, not_exists, not_and, not_not]
  exact ⟨h.count, h.nonzero, h.order⟩

theorem ProgressKept.checkCurrentProgress_ok (h : ProgressKept owner inbox) :
    inbox.checkCurrentProgress owner = .ok () := by
  refine failIf_of_not ?_
  simp only [not_or, not_lt, not_exists, not_and, not_not, Bool.not_eq_false]
  exact ⟨h.currentCount, h.currentOrder,
    fun progress hprogress => ⟨h.currentTopic progress hprogress, h.authority progress hprogress⟩⟩

theorem ObjectInbox.Recorded.receiptProof (h : Recorded owner inbox past) {stream : Stream}
    (hstream : stream ∈ inbox.streams) {receipt : Receipt} (hreceipt : receipt ∈ stream.receipts) :
    ReceiptProof owner inbox stream.key receipt := by
  rw [← h.streams.streamAt_of_mem hstream] at hreceipt
  obtain ⟨accepted, hmem, hkey, hresolves⟩ := h.origin stream.key receipt hreceipt
  obtain ⟨_, _, hworkspace, hauthenticated⟩ := h.owned accepted hmem
  exact ⟨accepted, hauthenticated, hworkspace, hkey, hresolves⟩

/-- All that the checks of a restore ask for. -/
structure Restores (owner : SecurityOwner) (inbox : ObjectInbox) : Prop where
  cache : CacheKept owner inbox
  progress : ProgressKept owner inbox
  counts : CountsKept inbox
  ordered : DirectStreams DirectStream.Ordered inbox.direct
  direct : DirectStreams (DirectProof owner) inbox.direct

theorem Restores.checkRestored_ok (h : Restores owner inbox)
    (hrecorded : Recorded owner inbox past) (howned : inbox.validateOwner owner = .ok ())
    (hmember : owner.member = some member) : inbox.checkRestored owner = .ok () := by
  have hranges : inbox.retainedRanges.forM (checkRange owner) = .ok () :=
    forM_eq_ok.mpr fun range hrange => (h.cache.ranges range hrange).checkRange_ok
  have hviews : inbox.retainedCurrentViews.forM (checkView owner) = .ok () :=
    forM_eq_ok.mpr fun view hview => (h.cache.views view hview).checkView_ok
  have hlegacy : inbox.legacyReceipts = .ok none := by
    rw [legacyReceipts, h.counts.legacy]
    rfl
  have hdirect : checkDirect owner member [] inbox.direct = .ok () :=
    checkDirect_ok hmember h.ordered.keys (by simp) h.ordered.each h.direct.each
  have hstreams : inbox.checkStreams owner [] inbox.streams = .ok () :=
    checkStreams_ok hrecorded.streams.keys (by simp) h.counts.receipts hrecorded.streams.each
      fun _ hstream _ hreceipt => hrecorded.receiptProof hstream hreceipt
  rw [checkRestored, howned, ok_bind, hlegacy, ok_bind, hranges, ok_bind, hviews, ok_bind,
    failIf_of_not (not_lt.mpr h.counts.streams), ok_bind, h.progress.checkProgress_ok, ok_bind,
    h.progress.checkCurrentProgress_ok, ok_bind, failIf_of_not (not_lt.mpr h.counts.direct),
    ok_bind, hmember, orFail_some, ok_bind, hdirect, ok_bind, hstreams]

end Checks

section Runs

variable {owner : SecurityOwner} {workspace : WorkspaceId} {epoch : U64}
  {trace : List (Taken ObjectInbox InboxCall)}

/-- An act that leaves what a restore accepts: a direct object that it retains comes above the
floor of its stream, and goes to current members other than its author. -/
def KeepsRestorable (owner : SecurityOwner) (taken : Taken ObjectInbox InboxAct) : Prop :=
  AboveFloor owner taken.before taken.label ∧
    ∀ direct, taken.label.retained owner = some direct → direct.Restorable owner

theorem new_restores (owner : SecurityOwner) (workspace : WorkspaceId) (epoch : U64) :
    Restores owner (new workspace epoch) where
  cache := new_cacheKept owner workspace epoch
  progress := new_progressKept owner workspace epoch
  counts := new_countsKept workspace epoch
  ordered := new_direct workspace epoch
  direct := new_direct workspace epoch

theorem Restores.acts {next : ObjectInbox} (h : Restores owner inbox)
    (hact : Acts json owner inbox act next) (hkeeps : KeepsRestorable owner ⟨inbox, act, next⟩) :
    Restores owner next where
  cache := hact.cacheKept h.cache
  progress := hact.progressKept h.progress
  counts := hact.countsKept h.counts
  ordered := (hact.direct_ordered h.ordered hkeeps.1).1
  direct := hact.direct_proof h.direct hkeeps.2

/-- After a run whose direct objects can all be restored, whatever the inbox saves beside a
publisher log restores to that inbox. -/
theorem inbox_restorable (hjson : json.Lawful)
    (hrun : Run (InboxStep json owner) (new workspace epoch) trace inbox)
    (hkeeps : ∀ taken ∈ actsOf json owner trace, KeepsRestorable owner taken)
    {log : PublisherLog} (hlog : ∃ workspace author epoch published,
      PublisherRun workspace author epoch log published) {bytes : Bytes}
    (hsaved : inbox.snapshotWithPublisher json owner log = .ok bytes) :
    ∃ fitted, restoreSnapshot json owner bytes = .ok (fitted, inbox) := by
  obtain ⟨_, author, _, published, hpublished⟩ := hlog
  have hacts := run_actsOf hjson (new_cacheKept owner workspace epoch) hrun
  have hrestores : Restores owner inbox :=
    (hacts.guarded (fun _ _ _ h hact hkeeps => h.acts hact hkeeps)
      (new_restores owner workspace epoch) hkeeps).1
  have hscope : inbox.validateOwner owner = .ok () ∧ owner.member = some log.author := by
    simp only [snapshotWithPublisher, bind_eq_ok, PublisherLog.validateOwner, failIf_eq_ok, not_or,
      not_not] at hsaved
    obtain ⟨_, howned, _, ⟨_, _, hmember⟩, _⟩ := hsaved
    exact ⟨howned, hmember⟩
  obtain ⟨hretains, hlimits⟩ := hpublished.retains
  obtain ⟨fitted, hrestore⟩ := hrestores.cache.restoreSnapshot_eq hjson hretains hlimits hsaved
  have hchecked := hrestores.checkRestored_ok (recorded_of_run hjson hrun) hscope.1 hscope.2
  exact ⟨fitted, by rw [hrestore, hchecked]; rfl⟩

/-- What the run of that object saves. -/
def Sample.echoSaved : Bytes :=
  ((outcome emptyInbox echoTrace).snapshotWithPublisher echoJson receiver
    silent).toOption.getD []

open Sample

/-- An object whose audience holds its own author is accepted and saved, and then the saved inbox
is refused. -/
theorem inbox_not_restorable :
    echoJson.Lawful ∧
      Run (InboxStep echoJson receiver) emptyInbox echoTrace
        (outcome emptyInbox echoTrace) ∧
      ∃ bytes, (outcome emptyInbox echoTrace).snapshotWithPublisher
          echoJson receiver silent = .ok bytes ∧
        restoreSnapshot echoJson receiver bytes =
          .error "invalid direct recovery stream" := by
  refine ⟨Json.among_lawful _ _, InboxCall.play_run _ _ _ _ (by simp [echoCalls]), ?_⟩
  refine ⟨echoSaved, ?_, ?_⟩
  · decide +kernel
  · decide +kernel

/-- The run of several direct objects is restored from what it saves. -/
theorem inbox_restorable_busy :
    ((outcome emptyInbox busyTrace).direct.map (·.records.length)) = [3, 1] ∧
      ∃ bytes fitted, (outcome emptyInbox busyTrace).snapshotWithPublisher busyJson receiver
          silent = .ok bytes ∧
        restoreSnapshot busyJson receiver bytes = .ok (fitted, outcome emptyInbox busyTrace) := by
  have hacts : ∀ taken ∈ actsOf busyJson receiver busyTrace,
      (∀ stream ∈ taken.before.direct, stream.floor = 0) ∧
      ∀ direct ∈ taken.label.retained receiver, direct.author ∉ direct.recipients ∧
        (receiver.endpointsForMembers direct.recipients).isOk = true ∧
        direct.context.workspace = receiver.id := by
    decide +kernel
  have hkeeps : ∀ taken ∈ actsOf busyJson receiver busyTrace, KeepsRestorable receiver taken := by
    intro taken htaken
    refine ⟨aboveFloor_of_zero (hacts taken htaken).1, fun direct hdirect => ?_⟩
    obtain ⟨hauthor, hmembers, hworkspace⟩ := (hacts taken htaken).2 direct hdirect
    cases hendpoints : receiver.endpointsForMembers direct.recipients with
    | error message =>
      rw [hendpoints] at hmembers
      cases hmembers
    | ok endpoints => exact ⟨hauthor, ⟨endpoints, hendpoints⟩, hworkspace⟩
  have hsaved : ((outcome emptyInbox busyTrace).snapshotWithPublisher busyJson receiver
      silent).isOk = true := by
    decide +kernel
  refine ⟨by decide +kernel, ?_⟩
  cases hbytes : (outcome emptyInbox busyTrace).snapshotWithPublisher busyJson receiver silent with
  | error message =>
    rw [hbytes] at hsaved
    cases hsaved
  | ok bytes =>
    obtain ⟨fitted, hrestored⟩ := inbox_restorable busyJson_lawful busyTrace_run hkeeps
      ⟨_, _, _, [], Relation.ReflTransGen.refl⟩ hbytes
    exact ⟨bytes, fitted, rfl, hrestored⟩

end Runs

end Arachne.Delivery
