import Arachne.Delivery.Sample

/-! Whole runs of an inbox, and what they keep: the saved cache, each stream's receipts, no
object accepted twice, and nothing pending lost. -/

namespace Arachne.Delivery

open ByteCodec Fallible Routing SortedWindow Transition Keyed InboxCall
open Security (AuthenticatedObject)

variable {json : Json} {inbox : ObjectInbox} {act : InboxAct} {expiresAt counter : U64}
  {stream : Stream} {object : AuthenticatedObject} {trace : List (Taken ObjectInbox InboxCall)}
  {call : InboxCall} {selector replacementKey : Block 32} {tombstone : Bool}

theorem CurrentViewIndex.insert_scope {index next : CurrentViewIndex}
    {context : PublicationContext} {packet : Bytes}
    (h : index.insert context selector replacementKey expiresAt tombstone packet = .ok next) :
    next.workspace = index.workspace ∧ next.authority = index.authority ∧
      next.epoch = index.epoch := by
  simp only [insert, bind_eq_ok] at h
  obtain ⟨sequence, _, ⟨unpacked, _⟩, _, _, _, prior, hprior, h⟩ := h
  cases prior with
  | some known =>
    cases h
    rw [(priorValue_eq_some hprior).1]
    exact ⟨rfl, rfl, rfl⟩
  | none =>
    simp only [replaceValue, bind_eq_ok, pure_eq_ok] at h
    obtain ⟨_, _, _, _, _, _, cut, _, rfl⟩ := h
    exact ⟨rfl, rfl, rfl⟩

namespace ObjectInbox

variable {owner : SecurityOwner} {next : ObjectInbox}

section Cache

theorem new_cacheKept (owner : SecurityOwner) (workspace : WorkspaceId) (epoch : U64) :
    CacheKept owner (new workspace epoch) where
  ranges := by simp [new]
  rangeCount := by simp [new]
  rangeOrder := by simp [new]
  views := by simp [new]
  viewCount := by simp [new]
  viewOrder := by simp [new]
  index := by simp [new]

theorem length_makeRoom (ranges : List RetainedReply) (query : Bytes)
    (hlength : ranges.length ≤ maxRetainedRanges)
    (hnone : lookup RetainedReply.query query (makeRoom ranges query) = none) :
    (makeRoom ranges query).length < maxRetainedRanges := by
  rw [makeRoom] at hnone ⊢
  split at hnone
  · rename_i hfull
    rw [if_pos hfull]
    cases hmin : ranges.argmin (·.expiresAt) with
    | none =>
      rw [List.argmin_eq_none] at hmin
      subst hmin
      decide
    | some first =>
      have hmem : first ∈ ranges := List.argmin_mem (Option.mem_def.mpr hmin)
      have herase := List.length_erase_of_mem hmem
      have hpos := List.length_pos_of_mem hmem
      rw [Option.elim_some]
      omega
  · rename_i hroom
    rw [if_neg hroom]
    have hne : ranges.length ≠ maxRetainedRanges := fun heq => hroom ⟨hnone, heq⟩
    omega

theorem makeRoom_sublist (ranges : List RetainedReply) (query : Bytes) :
    (makeRoom ranges query).Sublist ranges := by
  rw [makeRoom]
  split
  · cases ranges.argmin (·.expiresAt) with
    | none => exact List.Sublist.refl _
    | some first => exact List.erase_sublist
  · exact List.Sublist.refl _

theorem ordered_put {replies : List RetainedReply} (new : RetainedReply) {bound : Nat}
    (horder : (replies.map (·.query)).Pairwise (· < ·)) (hlength : replies.length ≤ bound)
    (hroom : lookup RetainedReply.query new.query replies = none → replies.length < bound) :
    ((sortBy RetainedReply.query (Keyed.put RetainedReply.query new replies)).map
      (·.query)).Pairwise (· < ·) ∧
    (sortBy RetainedReply.query (Keyed.put RetainedReply.query new replies)).length ≤ bound := by
  have hnodup : (replies.map RetainedReply.query).Nodup := horder.imp fun hlt => ne_of_lt hlt
  constructor
  · exact List.pairwise_map.mpr (sortBy_increasing _ (nodup_put hnodup))
  · rw [length_sortBy]
    cases hlookup : lookup RetainedReply.query new.query replies with
    | none =>
      rw [put_of_lookup_eq_none hlookup, List.length_append, List.length_singleton]
      exact hroom hlookup
    | some known => rwa [length_put_of_lookup hlookup]

variable {reply : Bytes} {now : U64}

theorem CacheKept.retainRange {query : RangeQuery} (h : CacheKept owner inbox)
    (hretained : inbox.retainRange json owner query reply expiresAt now = .ok next) :
    CacheKept owner next := by
  obtain ⟨range, encoded, hfresh, hverified, hencoded, rfl⟩ := retainRange_eq_ok hretained
  have hsublist := (makeRoom_sublist (inbox.retainedRanges.filter fun range =>
    now < range.expiresAt) encoded).trans List.filter_sublist
  have hlength : (inbox.retainedRanges.filter fun range => now < range.expiresAt).length ≤
      maxRetainedRanges := (List.length_filter_le _ _).trans h.rangeCount
  have hordered := ordered_put ⟨encoded, reply, expiresAt⟩
    (h.rangeOrder.sublist (hsublist.map _)) (hsublist.length_le.trans h.rangeCount)
    (length_makeRoom _ encoded hlength)
  refine { h with ranges := ?_, rangeOrder := hordered.1, rangeCount := hordered.2 }
  intro retained hmem
  rcases mem_put ((mem_sortBy _).mp hmem) with rfl | hold
  · exact ⟨⟨query, range, hencoded, hverified⟩, Fin.ne_zero_of_lt hfresh⟩
  · exact h.ranges retained (hsublist.subset hold)

theorem CacheKept.retainCurrentView {query : CurrentViewQuery} (h : CacheKept owner inbox)
    (hretained : inbox.retainCurrentView json owner query reply now = .ok next) :
    CacheKept owner next := by
  obtain ⟨view, expiresAt, encoded, hverified, hexpiry, hfresh, hencoded, hroom, rfl⟩ :=
    retainCurrentView_eq_ok hretained
  have hsublist : (inbox.retainedCurrentViews.filter fun view => now < view.expiresAt).Sublist
    inbox.retainedCurrentViews := List.filter_sublist
  have hlength := hsublist.length_le.trans h.viewCount
  have hordered := ordered_put ⟨encoded, reply, expiresAt⟩
    (h.viewOrder.sublist (hsublist.map _)) hlength
    (fun hnone => lt_of_le_of_ne hlength (hroom hnone))
  refine { h with views := ?_, viewOrder := hordered.1, viewCount := hordered.2 }
  intro retained hmem
  rcases mem_put ((mem_sortBy _).mp hmem) with rfl | hold
  · exact ⟨⟨query, view, hencoded, hverified, hexpiry⟩, Fin.ne_zero_of_lt hfresh⟩
  · exact h.views retained (hsublist.subset hold)

theorem CacheKept.stageCurrent {context : PublicationContext} {packet : Bytes}
    (h : CacheKept owner inbox)
    (hstaged : inbox.stageCurrent json owner context selector replacementKey expiresAt tombstone
      packet = .ok next) :
    CacheKept owner next := by
  obtain ⟨authority, index, hmember, hinsert, rfl⟩ := stageCurrent_eq_ok hstaged
  obtain ⟨hworkspace, hauthority, hepoch⟩ := CurrentViewIndex.insert_scope hinsert
  refine { h with index := ?_ }
  intro known hknown
  rw [← Option.some.inj hknown, hworkspace, hauthority, hepoch]
  cases hcurrent : inbox.current with
  | none => exact ⟨rfl, hmember, rfl⟩
  | some known => exact h.index known hcurrent

end Cache

end ObjectInbox

section Acts

open ObjectInbox

variable {owner : SecurityOwner} {next : ObjectInbox}

/-- What an act can change of an inbox. -/
def InboxAct.Frame (inbox next : ObjectInbox) : InboxAct → Prop
  | .accept _ => next = { inbox with streams := next.streams, direct := next.direct }
  | .sent _ _ _ | .announce _ | .skip _ => next = { inbox with direct := next.direct }
  | .resolve _ _ _ _ _ => next = { inbox with streams := next.streams }
  | .view _ _ | .cover _ _ => next = { inbox with
      progress := next.progress, currentProgress := next.currentProgress }
  | .index => next = { inbox with current := next.current }
  | .holdRange => next = { inbox with retainedRanges := next.retainedRanges }
  | .holdView => next = { inbox with retainedCurrentViews := next.retainedCurrentViews }

theorem Acts.frame (hact : Acts json owner inbox act next) : act.Frame inbox next := by
  cases hact with
  | accept haccept =>
    obtain ⟨_, _, haccepts⟩ := stageScoped_eq_prepared haccept
    have hresult := haccepts.result
    rw [InboxAct.Frame, hresult]
  | sent hsent =>
    obtain ⟨_, _, _, _, _, _, _, _, _, _, _, rfl⟩ := stageSentDirect_eq_ok hsent
    rfl
  | announce hhead =>
    obtain ⟨_, _, _, _, _, _, _, _, _, _, rfl⟩ := stageDirectHead_eq_ok hhead
    rfl
  | skip hskip =>
    obtain ⟨_, _, _, _, rfl⟩ := skipDirectGap_eq_ok hskip
    rfl
  | acknowledge hresolve =>
    obtain ⟨_, _, rfl⟩ := acknowledge_eq_ok hresolve
    rfl
  | reject hresolve =>
    obtain ⟨_, _, rfl⟩ := reject_eq_ok hresolve
    rfl
  | view => rfl
  | cover hcover =>
    obtain ⟨_, ⟨_, rfl⟩ | ⟨_, _, _, rfl⟩⟩ := acceptRecoveryCoverage_eq_ok hcover <;> rfl
  | index hindex =>
    obtain ⟨_, _, _, _, rfl⟩ := stageCurrent_eq_ok hindex
    rfl
  | holdRange hrange =>
    obtain ⟨_, _, _, _, _, rfl⟩ := retainRange_eq_ok hrange
    rfl
  | holdView hview =>
    obtain ⟨_, _, _, _, _, _, _, _, rfl⟩ := retainCurrentView_eq_ok hview
    rfl

theorem Acts.cacheKept (hact : Acts json owner inbox act next) (h : CacheKept owner inbox) :
    CacheKept owner next := by
  have hframe := hact.frame
  cases hact with
  | index hindex => exact h.stageCurrent hindex
  | holdRange hrange => exact h.retainRange hrange
  | holdView hview => exact h.retainCurrentView hview
  | _ =>
    have hnext : _ = _ := hframe
    rw [hnext]
    exact { h with }

/-- The frame of the acts that leave receipts alone. -/
structure SameReceipts (inbox next : ObjectInbox) : Prop where
  workspace : next.workspace = inbox.workspace
  epoch : next.epoch = inbox.epoch
  legacy : next.legacyReceiveSnapshot = inbox.legacyReceiveSnapshot
  streams : next.streams = inbox.streams

/-- What an act does to the streams: a receipt added, one resolved, or nothing. -/
theorem Acts.streams_cases (hact : Acts json owner inbox act next) :
    (∃ staging object stream, act = .accept staging ∧
      inbox.Accepts json owner staging object stream next) ∨
    (∃ author topic counter id rejected stream, act = .resolve author topic counter id rejected ∧
      lookup Stream.key (author, topic.val) inbox.streams = some stream ∧
      next = inbox.resolve stream counter id rejected) ∨
    ((∀ staging, act ≠ .accept staging) ∧
      (∀ author topic counter id rejected, act ≠ .resolve author topic counter id rejected) ∧
      SameReceipts inbox next) := by
  have hframe := hact.frame
  cases hact with
  | accept haccept =>
    obtain ⟨object, stream, haccepts⟩ := stageScoped_eq_prepared haccept
    exact .inl ⟨_, object, stream, rfl, haccepts⟩
  | acknowledge hresolve =>
    obtain ⟨stream, hlookup, hnext⟩ := acknowledge_eq_ok hresolve
    exact .inr (.inl ⟨_, _, _, _, _, stream, rfl, hlookup, hnext⟩)
  | reject hresolve =>
    obtain ⟨stream, hlookup, hnext⟩ := reject_eq_ok hresolve
    exact .inr (.inl ⟨_, _, _, _, _, stream, rfl, hlookup, hnext⟩)
  | _ =>
    refine .inr (.inr ⟨nofun, nofun, ?_⟩)
    have hnext : _ = _ := hframe
    rw [hnext]
    exact ⟨rfl, rfl, rfl, rfl⟩

theorem Acts.scope (hact : Acts json owner inbox act next) :
    next.workspace = inbox.workspace ∧ next.epoch = inbox.epoch := by
  rcases hact.streams_cases with ⟨_, _, _, _, haccepts⟩ | ⟨_, _, _, _, _, _, _, _, rfl⟩ |
    ⟨_, _, hsame⟩
  · rw [haccepts.result]
    exact ⟨rfl, rfl⟩
  · exact ⟨rfl, rfl⟩
  · exact ⟨hsame.workspace, hsame.epoch⟩

end Acts

namespace ObjectInbox

variable {owner : SecurityOwner} {next : ObjectInbox}

section Resolving

variable {id : Block 16} {rejected : Bool} {receipts : List Receipt} {receipt : Receipt}

/-- What stays of a receipt when it is resolved. -/
def identity (receipt : Receipt) : Receipt := { receipt with pending := none, rejected := false }

theorem map_identity_resolveFirst :
    (resolveFirst counter id rejected receipts).map identity = receipts.map identity := by
  induction receipts with
  | nil => rfl
  | cons first receipts ih =>
    rw [resolveFirst]
    split
    · rfl
    · rw [List.map_cons, List.map_cons, ih]

theorem map_resolveFirst {β : Type} (f : Receipt → β) :
    (resolveFirst counter id rejected receipts).map (fun receipt => f (identity receipt)) =
      receipts.map (fun receipt => f (identity receipt)) := by
  have h := congrArg (List.map f) (@map_identity_resolveFirst counter id rejected receipts)
  rwa [List.map_map, List.map_map] at h

/-- A receipt later on: as it was, or resolved. -/
def Resolves (known receipt : Receipt) : Prop :=
  receipt = known ∨ (receipt.pending = none ∧ identity receipt = identity known)

theorem Resolves.refl (receipt : Receipt) : Resolves receipt receipt := .inl rfl

theorem Resolves.identity {known : Receipt} (h : Resolves known receipt) :
    ObjectInbox.identity receipt = ObjectInbox.identity known := by
  rcases h with rfl | ⟨_, hidentity⟩
  · rfl
  · exact hidentity

theorem Resolves.trans {a b c : Receipt} (hab : Resolves a b) (hbc : Resolves b c) :
    Resolves a c := by
  rcases hbc with rfl | ⟨hpending, hidentity⟩
  · exact hab
  · exact .inr ⟨hpending, hidentity.trans hab.identity⟩

theorem mem_resolveFirst (h : receipt ∈ resolveFirst counter id rejected receipts) :
    ∃ known ∈ receipts, Resolves known receipt := by
  induction receipts with
  | nil => simp [resolveFirst] at h
  | cons first receipts ih =>
    rw [resolveFirst] at h
    split at h
    · rcases List.mem_cons.mp h with rfl | hrest
      · exact ⟨first, List.mem_cons_self, .inr ⟨rfl, rfl⟩⟩
      · exact ⟨receipt, List.mem_cons_of_mem _ hrest, .refl receipt⟩
    · rcases List.mem_cons.mp h with rfl | hrest
      · exact ⟨receipt, List.mem_cons_self, .refl receipt⟩
      · exact List.exists_mem_cons_of_exists (ih hrest)

theorem mem_resolveFirst_of_not_names (hreceipt : receipt ∈ receipts)
    (hnames : names counter id receipt = false) :
    receipt ∈ resolveFirst counter id rejected receipts := by
  induction receipts with
  | nil => simp at hreceipt
  | cons first receipts ih =>
    rw [resolveFirst]
    rcases List.mem_cons.mp hreceipt with rfl | hrest
    · simp [hnames]
    · split
      · exact List.mem_cons_of_mem _ hrest
      · exact List.mem_cons_of_mem _ (ih hrest)

theorem mem_resolveFirst_of_names (hincreasing : receipts.Pairwise fun a b => a.counter < b.counter)
    (hreceipt : receipt ∈ receipts) (hnames : names counter id receipt = true) :
    { receipt with pending := none, rejected } ∈ resolveFirst counter id rejected receipts := by
  induction receipts with
  | nil => simp at hreceipt
  | cons first receipts ih =>
    obtain ⟨hfirst, hincreasing⟩ := List.pairwise_cons.mp hincreasing
    rw [resolveFirst]
    rcases List.mem_cons.mp hreceipt with rfl | hrest
    · rw [if_pos hnames]
      exact List.mem_cons_self
    · have hother : names counter id first = false := by
        have hlt := hfirst receipt hrest
        simp only [names, decide_eq_true_eq] at hnames
        rw [names, decide_eq_false_iff_not, ← hnames.1]
        intro heq
        exact absurd heq.1 (ne_of_lt hlt)
      rw [hother]
      exact List.mem_cons_of_mem _ (ih hincreasing hrest)

end Resolving
end ObjectInbox

theorem Stream.WellKept.resolveFirst {id : Block 16} {rejected : Bool} (h : stream.WellKept) :
    { stream with
      receipts := ObjectInbox.resolveFirst counter id rejected stream.receipts }.WellKept := by
  have hcounters := @ObjectInbox.map_resolveFirst counter id rejected stream.receipts _
    Receipt.counter
  have hids := @ObjectInbox.map_resolveFirst counter id rejected stream.receipts _ Receipt.id
  have hlength := congrArg List.length hcounters
  rw [List.length_map, List.length_map] at hlength
  refine ⟨?_, ?_, ?_, ?_⟩
  · rw [← List.pairwise_map (f := Receipt.counter)]
    exact hcounters ▸ List.pairwise_map.mpr h.increasing
  · intro receipt hreceipt
    have hmem : receipt.counter ∈ stream.receipts.map Receipt.counter :=
      hcounters ▸ List.mem_map_of_mem hreceipt
    obtain ⟨known, hknown, heq⟩ := List.mem_map.mp hmem
    exact heq ▸ h.above known hknown
  · exact hids ▸ h.ids
  · exact hlength ▸ h.bounded

namespace ObjectInbox

variable {owner : SecurityOwner} {next : ObjectInbox}

section Receipts

/-- The streams of an inbox: one for a key, each in order. -/
structure StreamsKept (streams : List Stream) : Prop where
  keys : (streams.map Stream.key).Nodup
  each : ∀ stream ∈ streams, stream.WellKept

variable {key : Block 32 × Bytes}

theorem StreamsKept.streamAt (h : StreamsKept inbox.streams) (key : Block 32 × Bytes) :
    (inbox.streamAt key).WellKept := by
  rw [ObjectInbox.streamAt]
  cases hlookup : lookup Stream.key key inbox.streams with
  | none => exact Stream.new_wellKept key
  | some stream => exact h.each stream (mem_of_lookup hlookup).1

theorem StreamsKept.streamAt_of_mem (h : StreamsKept inbox.streams)
    (hstream : stream ∈ inbox.streams) :
    inbox.streamAt stream.key = stream :=
  ObjectInbox.streamAt_of_lookup (lookup_of_mem h.keys hstream)

theorem StreamsKept.put {streams : List Stream} (h : StreamsKept streams)
    (hstream : stream.WellKept) : StreamsKept (Keyed.put Stream.key stream streams) := by
  refine ⟨nodup_put h.keys, ?_⟩
  intro known hknown
  rcases mem_put hknown with rfl | hold
  · exact hstream
  · exact h.each known hold

theorem streamAt_put (h : next.streams = Keyed.put Stream.key stream inbox.streams)
    (key : Block 32 × Bytes) :
    next.streamAt key = if key = stream.key then stream else inbox.streamAt key := by
  rw [streamAt, h, lookup_put]
  split
  · rfl
  · rw [streamAt]

end Receipts

/-- An object that was accepted, and the staging that brought it. -/
structure Acceptance where
  staging : Staging
  object : AuthenticatedObject
deriving DecidableEq

namespace Acceptance

/-- Author, topic and counter. -/
def position (accepted : Acceptance) : (Block 32 × Bytes) × U64 :=
  (accepted.staging.streamKey accepted.object, accepted.object.counter)

def receipt (owner : SecurityOwner) (accepted : Acceptance) : Receipt :=
  accepted.staging.receipt accepted.object.counter (owner.sha256 accepted.staging.object)

end Acceptance

/-- The acceptance that an act is. -/
def acceptance (owner : SecurityOwner) : InboxAct → Option Acceptance
  | .accept staging =>
      match staging.authenticate owner with
      | .ok object => some ⟨staging, object⟩
      | .error _ => none
  | _ => none

theorem acceptance_eq_some {owner : SecurityOwner} {accepted : Acceptance}
    (h : acceptance owner act = some accepted) : act = .accept accepted.staging := by
  cases act with
  | accept staging =>
    rw [acceptance] at h
    split at h
    · cases h
      rfl
    · cases h
  | _ => cases h

/-- The inbox still refuses the position of an accepted object: it lies below the floor, or its
receipt is there. -/
def Remembers (owner : SecurityOwner) (inbox : ObjectInbox) (accepted : Acceptance) : Prop :=
  accepted.position.2 ≤ (inbox.streamAt accepted.position.1).floor ∨
    ∃ receipt ∈ (inbox.streamAt accepted.position.1).receipts,
      identity receipt = identity (accepted.receipt owner)

section Streams

theorem Accepts.streamAt {staging : Staging}
    (h : inbox.Accepts json owner staging object stream next) (key : Block 32 × Bytes) :
    next.streamAt key =
      if key = staging.streamKey object then stream else inbox.streamAt key := by
  have hkey : stream.key = staging.streamKey object :=
    (Stream.push_key h.pushed).trans (streamAt_key _ _)
  rw [streamAt_put (by rw [h.result]) key, hkey]

/-- A stream with the receipt that is named resolved. -/
def resolved (counter : U64) (id : Block 16) (rejected : Bool) (stream : Stream) : Stream :=
  { stream with receipts := resolveFirst counter id rejected stream.receipts }

theorem streamAt_resolve {author : Block 32} {topic : Topic} {id : Block 16} {rejected : Bool}
    (hlookup : lookup Stream.key (author, topic.val) inbox.streams = some stream)
    (key : Block 32 × Bytes) : (inbox.resolve stream counter id rejected).streamAt key =
      if key = (author, topic.val) then resolved counter id rejected (inbox.streamAt key)
      else inbox.streamAt key := by
  have hkey : (resolved counter id rejected stream).key = (author, topic.val) :=
    (mem_of_lookup hlookup).2
  have hput : (inbox.resolve stream counter id rejected).streams =
      Keyed.put Stream.key (resolved counter id rejected stream) inbox.streams := rfl
  rw [streamAt_put hput key, hkey]
  split
  · rename_i hsame
    rw [hsame, streamAt, hlookup, Option.getD_some]
  · rfl

end Streams

end ObjectInbox

theorem SameReceipts.streamAt {next : ObjectInbox} (h : SameReceipts inbox next)
    (key : Block 32 × Bytes) : next.streamAt key = inbox.streamAt key := by
  rw [ObjectInbox.streamAt, ObjectInbox.streamAt, h.streams]

namespace Acts

open ObjectInbox

variable {owner : SecurityOwner} {next : ObjectInbox}

variable (hact : Acts json owner inbox act next)

include hact

theorem streamsKept (h : StreamsKept inbox.streams) :
    StreamsKept next.streams := by
  rcases hact.streams_cases with ⟨_, _, _, _, haccepts⟩ |
    ⟨_, _, counter, id, rejected, stream, _, hlookup, rfl⟩ | ⟨_, _, hsame⟩
  · rw [haccepts.result]
    apply h.put
    exact Stream.push_wellKept (h.streamAt _) haccepts.above haccepts.fresh haccepts.unused
      haccepts.pushed
  · exact h.put (h.each stream (mem_of_lookup hlookup).1).resolveFirst
  · rw [hsame.streams]
    exact h

theorem floor_le (h : StreamsKept inbox.streams) (key : Block 32 × Bytes) :
    (inbox.streamAt key).floor ≤ (next.streamAt key).floor := by
  rcases hact.streams_cases with ⟨_, _, _, _, haccepts⟩ |
    ⟨_, _, counter, id, rejected, stream, _, hlookup, rfl⟩ | ⟨_, _, hsame⟩
  · rw [haccepts.streamAt]
    split
    · rename_i hkey
      rw [hkey]
      exact Stream.floor_le_push (h.streamAt _) haccepts.above haccepts.pushed
    · exact le_rfl
  · rw [streamAt_resolve hlookup]
    split <;> exact le_rfl
  · rw [hsame.streamAt]

variable {accepted : Acceptance}

/-- What an inbox remembers it goes on remembering. -/
theorem remembers (h : StreamsKept inbox.streams) (hremembers : Remembers owner inbox accepted) :
    Remembers owner next accepted := by
  have hfloor := hact.floor_le h accepted.position.1
  rcases hremembers with hbelow | ⟨receipt, hreceipt, hidentity⟩
  · exact .inl (hbelow.trans hfloor)
  · have hcounter : receipt.counter = accepted.position.2 :=
      congrArg Receipt.counter hidentity
    rw [Remembers]
    rcases hact.streams_cases with ⟨_, _, _, _, haccepts⟩ |
      ⟨_, _, counter, id, rejected, stream, _, hlookup, rfl⟩ | ⟨_, _, hsame⟩
    · rw [haccepts.streamAt]
      split
      · rename_i hkey
        rw [hkey] at hreceipt
        rcases Stream.counter_le_floor_or_mem_push haccepts.pushed hreceipt with hdropped | hkept
        · exact .inl (hcounter ▸ hdropped)
        · exact .inr ⟨receipt, hkept, hidentity⟩
      · exact .inr ⟨receipt, hreceipt, hidentity⟩
    · rw [streamAt_resolve hlookup]
      split
      · have hmem : identity receipt ∈ (resolveFirst counter id rejected
            (inbox.streamAt accepted.position.1).receipts).map identity := by
          rw [map_identity_resolveFirst]
          exact List.mem_map_of_mem hreceipt
        obtain ⟨receipt', hreceipt', heq⟩ := List.mem_map.mp hmem
        exact .inr ⟨receipt', hreceipt', heq.trans hidentity⟩
      · exact .inr ⟨receipt, hreceipt, hidentity⟩
    · rw [hsame.streamAt]
      exact .inr ⟨receipt, hreceipt, hidentity⟩

theorem exists_accepts (haccepted : acceptance owner act = some accepted) :
    ∃ stream, inbox.Accepts json owner accepted.staging accepted.object stream next := by
  rcases hact.streams_cases with ⟨staging, object, stream, rfl, haccepts⟩ |
    ⟨_, _, _, _, _, _, rfl, _⟩ | ⟨hne, _⟩
  · rw [acceptance, haccepts.authenticated] at haccepted
    cases haccepted
    exact ⟨stream, haccepts⟩
  · cases haccepted
  · cases act with
    | accept staging => exact absurd rfl (hne staging)
    | _ => cases haccepted

theorem receipt_origin {key : Block 32 × Bytes} {receipt : Receipt}
    (hreceipt : receipt ∈ (next.streamAt key).receipts) :
    (∃ known ∈ (inbox.streamAt key).receipts, Resolves known receipt) ∨
      ∃ accepted, acceptance owner act = some accepted ∧ accepted.position.1 = key ∧
        receipt = accepted.receipt owner := by
  rcases hact.streams_cases with ⟨staging, object, _, rfl, haccepts⟩ |
    ⟨_, _, counter, id, rejected, stream, _, hlookup, rfl⟩ | ⟨_, _, hsame⟩
  · rw [haccepts.streamAt] at hreceipt
    split at hreceipt
    · rename_i hkey
      rcases Stream.mem_push haccepts.pushed hreceipt with hold | rfl
      · exact .inl ⟨receipt, hkey ▸ hold, .refl receipt⟩
      · refine .inr ⟨⟨staging, object⟩, ?_, hkey.symm, rfl⟩
        rw [acceptance, haccepts.authenticated]
    · exact .inl ⟨receipt, hreceipt, .refl receipt⟩
  · rw [streamAt_resolve hlookup] at hreceipt
    split at hreceipt
    · exact .inl (mem_resolveFirst hreceipt)
    · exact .inl ⟨receipt, hreceipt, .refl receipt⟩
  · rw [hsame.streamAt] at hreceipt
    exact .inl ⟨receipt, hreceipt, .refl receipt⟩

end Acts

namespace ObjectInbox

variable {owner : SecurityOwner} {next : ObjectInbox}

section Accepting

variable {staging : Staging} (h : inbox.Accepts json owner staging object stream next)
include h

theorem Accepts.remembers : Remembers owner next ⟨staging, object⟩ := by
  refine .inr ⟨staging.receipt object.counter (owner.sha256 staging.object), ?_, rfl⟩
  rw [h.streamAt, Acceptance.position, if_pos rfl]
  exact Stream.mem_push_of_pending h.pushed (.inr rfl) (by simp [Staging.receipt])

theorem Accepts.position_ne {earlier : Acceptance} (hremembers : Remembers owner inbox earlier) :
    earlier.position ≠ (staging.streamKey object, object.counter) := by
  intro heq
  rw [Remembers, heq] at hremembers
  rcases hremembers with hbelow | ⟨receipt, hreceipt, hidentity⟩
  · exact absurd h.above (not_lt_of_ge hbelow)
  · apply h.fresh receipt hreceipt
    have hcounter : receipt.counter = earlier.position.2 := congrArg Receipt.counter hidentity
    rw [hcounter, heq]

end Accepting

/-- What is known along a run: the streams are in order, no position was accepted twice, and
none is forgotten. -/
structure Recorded (owner : SecurityOwner) (inbox : ObjectInbox) (past : List Acceptance) :
    Prop where
  streams : StreamsKept inbox.streams
  once : (past.map Acceptance.position).Nodup
  remembered : ∀ accepted ∈ past, Remembers owner inbox accepted
  owned : ∀ accepted ∈ past, inbox.workspace = owner.id ∧ inbox.epoch = owner.epoch ∧
    accepted.staging.context.workspace = inbox.workspace ∧
    accepted.staging.authenticate owner = .ok accepted.object
  origin : ∀ key, ∀ receipt ∈ (inbox.streamAt key).receipts,
    ∃ accepted ∈ past, accepted.position.1 = key ∧ Resolves (accepted.receipt owner) receipt

theorem new_recorded (owner : SecurityOwner) (workspace : WorkspaceId) (epoch : U64) :
    Recorded owner (new workspace epoch) [] :=
  ⟨⟨List.nodup_nil, by simp [new]⟩, List.nodup_nil, by simp, by simp,
    by simp [streamAt, new, lookup, Stream.new]⟩

theorem Recorded.acts {past : List Acceptance} (h : Recorded owner inbox past)
    (hact : Acts json owner inbox act next) :
    Recorded owner next (past ++ (acceptance owner act).toList) := by
  obtain ⟨hworkspace, hepoch⟩ := hact.scope
  have hremembered : ∀ accepted ∈ past, Remembers owner next accepted :=
    fun accepted hmem => hact.remembers h.streams (h.remembered accepted hmem)
  have howned : ∀ accepted ∈ past, next.workspace = owner.id ∧ next.epoch = owner.epoch ∧
      accepted.staging.context.workspace = next.workspace ∧
      accepted.staging.authenticate owner = .ok accepted.object := by
    rw [hworkspace, hepoch]
    exact h.owned
  cases haccepted : acceptance owner act with
  | none =>
    rw [Option.toList_none, List.append_nil]
    refine ⟨hact.streamsKept h.streams, h.once, hremembered, howned, ?_⟩
    intro key receipt hreceipt
    rcases hact.receipt_origin hreceipt with ⟨known, hknown, hresolves⟩ |
      ⟨accepted, hnew, _⟩
    · obtain ⟨accepted, hmem, hkey, horigin⟩ := h.origin key known hknown
      exact ⟨accepted, hmem, hkey, horigin.trans hresolves⟩
    · exact nomatch haccepted.symm.trans hnew
  | some accepted =>
    obtain ⟨stream, haccepts⟩ := hact.exists_accepts haccepted
    rw [Option.toList_some]
    refine ⟨hact.streamsKept h.streams, ?_, ?_, ?_, ?_⟩
    · rw [List.map_append, List.nodup_append]
      refine ⟨h.once, List.nodup_singleton _, ?_⟩
      rintro position hposition _ hnew rfl
      obtain ⟨earlier, hearlier, rfl⟩ := List.mem_map.mp hposition
      rw [List.map_singleton, List.mem_singleton] at hnew
      exact haccepts.position_ne (h.remembered earlier hearlier) hnew
    · intro known hknown
      rcases List.mem_append.mp hknown with hold | hnew
      · exact hremembered known hold
      · rw [List.mem_singleton.mp hnew]
        exact haccepts.remembers
    · intro known hknown
      rcases List.mem_append.mp hknown with hold | hnew
      · exact howned known hold
      · rw [List.mem_singleton.mp hnew, hworkspace, hepoch]
        exact ⟨haccepts.owned.1, haccepts.owned.2, haccepts.workspace, haccepts.authenticated⟩
    · intro key receipt hreceipt
      rcases hact.receipt_origin hreceipt with ⟨known, hknown, hresolves⟩ |
        ⟨new, hnew, hkey, heq⟩
      · obtain ⟨earlier, hmem, hkey, horigin⟩ := h.origin key known hknown
        exact ⟨earlier, List.mem_append_left _ hmem, hkey, horigin.trans hresolves⟩
      · cases haccepted.symm.trans hnew
        exact ⟨accepted, List.mem_append_right _ (List.mem_singleton_self accepted), hkey,
          .inl heq⟩

section Presenting

variable {past : List Acceptance} {accepted : Acceptance}

variable {receipt : Receipt} {staging : Staging}

theorem context_of_identity (hidentity : identity receipt = identity (accepted.receipt owner))
    (htopic : stream.topic = accepted.staging.context.topic.val)
    (hworkspace : accepted.staging.context.workspace = inbox.workspace) :
    inbox.context stream receipt = .ok accepted.staging.context := by
  have hrevision : receipt.revision = accepted.staging.context.revision :=
    congrArg Receipt.revision hidentity
  have hid : receipt.id = accepted.staging.context.id := congrArg Receipt.id hidentity
  have hsequence : receipt.sequence = NonZeroU64.orZero accepted.staging.context.sequence :=
    congrArg Receipt.sequence hidentity
  rw [context, htopic, Topic.new_val, hrevision, hid, hsequence, NonZeroU64.new_orZero,
    ← hworkspace]
  rfl

/-- A position that was accepted is never accepted again; what is taken for a duplicate is the
same object. -/
theorem Recorded.refuses (h : Recorded owner inbox past) (haccepted : accepted ∈ past)
    {stage : InboxStage} (hauthenticated : staging.authenticate owner = .ok object)
    (hposition : (staging.streamKey object, object.counter) = accepted.position)
    (hstage : inbox.stageScoped json owner staging = .ok stage) :
    stage = .outsideWindow ∨ (stage = .duplicate ∧
      staging.context = accepted.staging.context ∧
      staging.recipients = accepted.staging.recipients ∧
      staging.current = accepted.staging.current ∧
      owner.sha256 staging.object = owner.sha256 accepted.staging.object) := by
  obtain ⟨object', hobject, hcases⟩ := stageScoped_eq_ok hstage
  cases ok_unique hauthenticated hobject
  rcases hcases with hstage | ⟨hstage, known, hknown, hcounter, hdigest, hcontext, hrecipients,
    hcurrent⟩ | ⟨stream, next, _, haccepts⟩
  · exact .inl hstage
  · refine .inr ⟨hstage, ?_⟩
    have hkey : staging.streamKey object = accepted.position.1 := congrArg Prod.fst hposition
    have hat : object.counter = accepted.position.2 := congrArg Prod.snd hposition
    rw [hkey] at hknown hcontext
    have hkept := h.streams.streamAt accepted.position.1
    rcases h.remembered accepted haccepted with hbelow | ⟨receipt, hreceipt, hidentity⟩
    · have habove := hkept.above known hknown
      rw [hcounter, hat] at habove
      exact absurd habove (not_lt_of_ge hbelow)
    · have hsame : known = receipt := by
        apply List.inj_on_of_nodup_map (nodup_of_increasing hkept.increasing) hknown hreceipt
        rw [hcounter, hat]
        exact (congrArg Receipt.counter hidentity).symm
      subst hsame
      have htopic : (inbox.streamAt accepted.position.1).topic =
          accepted.staging.context.topic.val :=
        congrArg Prod.snd (streamAt_key inbox accepted.position.1)
      have howned := h.owned accepted haccepted
      rw [context_of_identity hidentity htopic howned.2.2.1] at hcontext
      refine ⟨(Except.ok.inj hcontext).symm, ?_, ?_, ?_⟩
      · exact hrecipients.symm.trans (congrArg Receipt.recipients hidentity)
      · exact hcurrent.symm.trans (congrArg Receipt.current hidentity)
      · exact hdigest.symm.trans (congrArg Receipt.digest hidentity)
  · exact absurd hposition.symm (haccepts.position_ne (h.remembered accepted haccepted))

theorem recalled_of_le {digest : Block 32} (h : counter ≤ stream.floor) :
    inbox.recalled stream staging counter digest = .ok (some .outsideWindow) := by
  rw [recalled, if_pos h]
  rfl

theorem recalled_of_mem (hkept : stream.WellKept) (hreceipt : receipt ∈ stream.receipts)
    (hidentity : identity receipt = identity (accepted.receipt owner))
    (htopic : stream.topic = accepted.staging.context.topic.val)
    (hworkspace : accepted.staging.context.workspace = inbox.workspace) :
    inbox.recalled stream accepted.staging accepted.object.counter
      (owner.sha256 accepted.staging.object) = .ok (some .duplicate) := by
  have hcounter : receipt.counter = accepted.object.counter :=
    congrArg Receipt.counter hidentity
  have hdigest : receipt.digest = owner.sha256 accepted.staging.object :=
    congrArg Receipt.digest hidentity
  have hrecipients : receipt.recipients = accepted.staging.recipients :=
    congrArg Receipt.recipients hidentity
  have hcurrent : receipt.current = accepted.staging.current :=
    congrArg Receipt.current hidentity
  have hfind : stream.receipts.find? (·.counter = accepted.object.counter) = some receipt := by
    have h := lookup_of_mem (nodup_of_increasing hkept.increasing) hreceipt
    rwa [lookup, hcounter] at h
  have habove := hkept.above receipt hreceipt
  rw [hcounter] at habove
  rw [recalled, if_neg (not_le_of_gt habove), hfind]
  simp only [hdigest, context_of_identity hidentity htopic hworkspace, hrecipients, hcurrent]
  simp

/-- The same object again is outside the window once the floor has passed it, and a duplicate
while its receipt is kept. -/
theorem Recorded.again (json : Json) (h : Recorded owner inbox past)
    (haccepted : accepted ∈ past) :
    inbox.stageScoped json owner accepted.staging =
      .ok (if accepted.position.2 ≤ (inbox.streamAt accepted.position.1).floor then .outsideWindow
        else .duplicate) := by
  obtain ⟨hworkspace, hepoch, hcontext, hauthenticated⟩ := h.owned accepted haccepted
  simp only [Staging.authenticate, bind_eq_ok] at hauthenticated
  obtain ⟨aad, haad, hobject⟩ := hauthenticated
  have hvalid : inbox.validateOwner owner = .ok () :=
    validateOwner_eq_ok.mpr ⟨hworkspace, hepoch⟩
  rw [stageScoped, hvalid, ok_bind, failIf_of_not (not_not.mpr hcontext), ok_bind, haad, ok_bind,
    hobject, ok_bind]
  have hkept := h.streams.streamAt accepted.position.1
  have hremembers := h.remembered accepted haccepted
  rw [Remembers] at hremembers
  have htopic : (inbox.streamAt accepted.position.1).topic = accepted.staging.context.topic.val :=
    congrArg Prod.snd (streamAt_key inbox accepted.position.1)
  cases hlookup : lookup Stream.key accepted.position.1 inbox.streams with
  | none =>
    rw [streamAt, hlookup, Option.getD_none] at hremembers
    rcases hremembers with hbelow | ⟨receipt, hreceipt, _⟩
    · exact absurd (Fin.le_zero_iff.mp hbelow) (owner.counter_ne_zero hobject)
    · simp [Stream.new] at hreceipt
  | some stream =>
    have hstream := streamAt_of_lookup hlookup
    rw [hstream] at hkept hremembers htopic ⊢
    dsimp only
    rw [Acceptance.position, Staging.streamKey] at hlookup
    rw [hlookup]
    dsimp only
    split
    · rename_i hbelow
      have hcounter : accepted.object.counter ≤ stream.floor := hbelow
      rw [recalled_of_le hcounter]
      rfl
    · rename_i habove
      obtain ⟨receipt, hreceipt, hidentity⟩ := hremembers.resolve_left habove
      rw [recalled_of_mem hkept hreceipt hidentity htopic hcontext]
      rfl

end Presenting

section Runs

variable {start : ObjectInbox}

/-- The acts of a run, in order. -/
def actsOf (json : Json) (owner : SecurityOwner) (trace : List (Taken ObjectInbox InboxCall)) :
    List (Taken ObjectInbox InboxAct) :=
  trace.flatMap fun taken => taken.label.acts json owner taken.before

/-- The objects that a run accepts, in order. -/
def accepted (json : Json) (owner : SecurityOwner) (trace : List (Taken ObjectInbox InboxCall)) :
    List Acceptance :=
  (actsOf json owner trace).flatMap fun taken => (acceptance owner taken.label).toList

theorem run_actsOf (hjson : json.Lawful) (hstart : CacheKept owner start)
    (hrun : Run (InboxStep json owner) start trace inbox) :
    Run (Acts json owner) start (actsOf json owner trace) inbox :=
  hrun.refine (fun _ _ _ hkept hact => hact.cacheKept hkept)
    (fun _ _ _ hkept hstep => acts_run hjson hkept hstep) hstart

variable {workspace : WorkspaceId} {epoch : U64}

theorem recorded_of_run (hjson : json.Lawful)
    (hrun : Run (InboxStep json owner) (new workspace epoch) trace inbox) :
    Recorded owner inbox (accepted json owner trace) := by
  have hacts := run_actsOf hjson (new_cacheKept owner workspace epoch) hrun
  exact hacts.accumulate (I := Recorded owner) (C := fun _ => True)
    (fun _ _ _ _ hrecorded hact _ => hrecorded.acts hact) (new_recorded owner workspace epoch)
    (fun _ _ => trivial)

theorem run_kept (hjson : json.Lawful)
    (hrun : Run (InboxStep json owner) (new workspace epoch) trace inbox) :
    CacheKept owner inbox ∧ StreamsKept inbox.streams := by
  have hacts := run_actsOf hjson (new_cacheKept owner workspace epoch) hrun
  exact ⟨(hacts.invariant (fun _ _ _ h hact => hact.cacheKept h) (new_cacheKept owner _ _)).1,
    (recorded_of_run hjson hrun).streams⟩

theorem owned_of_run (hjson : json.Lawful)
    (hrun : Run (InboxStep json owner) (new owner.id owner.epoch) trace inbox) :
    inbox.workspace = owner.id ∧ inbox.epoch = owner.epoch := by
  have hacts := run_actsOf hjson (new_cacheKept owner owner.id owner.epoch) hrun
  refine (hacts.invariant (P := fun s => s.workspace = owner.id ∧ s.epoch = owner.epoch)
    ?_ ⟨rfl, rfl⟩).1
  intro s act s' h hact
  exact ⟨hact.scope.1.trans h.1, hact.scope.2.trans h.2⟩

theorem floor_le_of_step (hjson : json.Lawful) (hcache : CacheKept owner inbox)
    (hstreams : StreamsKept inbox.streams) (hstep : InboxStep json owner inbox call next)
    (key : Block 32 × Bytes) : (inbox.streamAt key).floor ≤ (next.streamAt key).floor := by
  have hacts := acts_run hjson hcache hstep
  have hinvariant := hacts.invariant
    (P := fun s => StreamsKept s.streams ∧ (inbox.streamAt key).floor ≤ (s.streamAt key).floor)
    (fun s act s' h hact => ⟨hact.streamsKept h.1, h.2.trans (hact.floor_le h.1 key)⟩)
    ⟨hstreams, le_rfl⟩
  exact hinvariant.1.2

end Runs

section Results

variable {workspace : WorkspaceId} {epoch : U64}

/-- In a run of an inbox no object is accepted twice, whichever way it comes: its author, topic
and counter stay refused, except that the same object is a duplicate while its receipt is kept.
The receipts of a stream stay in order, and its floor never falls. -/
theorem no_replay (hjson : json.Lawful)
    (hrun : Run (InboxStep json owner) (new workspace epoch) trace inbox) :
    ((accepted json owner trace).map Acceptance.position).Nodup ∧
    (∀ earlier ∈ accepted json owner trace,
      (∀ staging object stage, staging.authenticate owner = .ok object →
        (staging.streamKey object, object.counter) = earlier.position →
        inbox.stageScoped json owner staging = .ok stage →
        stage = .outsideWindow ∨ (stage = .duplicate ∧
          staging.context = earlier.staging.context ∧
          staging.recipients = earlier.staging.recipients ∧
          staging.current = earlier.staging.current ∧
          owner.sha256 staging.object = owner.sha256 earlier.staging.object)) ∧
      inbox.stageScoped json owner earlier.staging =
        .ok (if earlier.position.2 ≤ (inbox.streamAt earlier.position.1).floor then .outsideWindow
          else .duplicate)) ∧
    (∀ stream ∈ inbox.streams, stream.WellKept) ∧
    (∀ taken ∈ trace, ∀ key,
      (taken.before.streamAt key).floor ≤ (taken.after.streamAt key).floor) := by
  have hrecorded := recorded_of_run hjson hrun
  refine ⟨hrecorded.once, ?_, hrecorded.streams.each, ?_⟩
  · intro earlier hearlier
    refine ⟨?_, hrecorded.again json hearlier⟩
    intro staging object stage hauthenticated hposition hstage
    exact hrecorded.refuses hearlier hauthenticated hposition hstage
  · intro taken htaken key
    obtain ⟨before, after, _, hbefore, hstep, _⟩ := hrun.split htaken
    obtain ⟨hcache, hstreams⟩ := run_kept hjson hbefore
    exact floor_le_of_step hjson hcache hstreams hstep key

open Sample

/-- Objects that were received before a restart are duplicates after it, acknowledged or not. -/
theorem no_replay_restarted :
    (accepted busyJson receiver busyTrace).length = 4 ∧
      ∀ earlier ∈ accepted busyJson receiver busyTrace,
        (outcome emptyInbox busyTrace).stageScoped busyJson receiver earlier.staging =
          .ok .duplicate := by
  have habove : ∀ earlier ∈ accepted busyJson receiver busyTrace,
      ¬earlier.position.2 ≤ ((outcome emptyInbox busyTrace).streamAt
        earlier.position.1).floor := by
    decide +kernel
  obtain ⟨_, hrefused, _⟩ := no_replay busyJson_lawful busyTrace_run
  refine ⟨by decide +kernel, fun earlier hmem => ?_⟩
  have hagain := (hrefused earlier hmem).2
  rwa [if_neg (habove earlier hmem)] at hagain

end Results

section Pending

variable {key : Block 32 × Bytes} {receipt : Receipt}

theorem mem_streams_of_receipt (h : receipt ∈ (inbox.streamAt key).receipts) :
    ∃ stream ∈ inbox.streams, stream.key = key ∧ receipt ∈ stream.receipts := by
  rw [streamAt] at h
  cases hlookup : lookup Stream.key key inbox.streams with
  | none => simp [hlookup, Stream.new] at h
  | some stream =>
    rw [hlookup, Option.getD_some] at h
    exact ⟨stream, (mem_of_lookup hlookup).1, (mem_of_lookup hlookup).2, h⟩

theorem label_of_mem_acceptances {stagings : List Staging} {taken : Taken ObjectInbox InboxAct}
    (h : taken ∈ acceptances json owner inbox stagings) :
    ∃ staging, taken.label = .accept staging := by
  induction stagings generalizing inbox with
  | nil => simp [acceptances] at h
  | cons staging stagings ih =>
    rw [acceptances] at h
    split at h
    · rcases List.mem_cons.mp h with rfl | hrest
      · exact ⟨staging, rfl⟩
      · exact ih hrest
    · exact ih h

end Pending

end ObjectInbox

/-- Whether an act resolves the receipt of a stream. -/
def InboxAct.names (key : Block 32 × Bytes) (receipt : Receipt) : InboxAct → Bool
  | .resolve author topic counter id _ =>
      key = (author, topic.val) ∧ ObjectInbox.names counter id receipt
  | _ => false

/-- Whether a call acknowledges or rejects the receipt of a stream. -/
def InboxCall.names (key : Block 32 × Bytes) (receipt : Receipt) : InboxCall → Bool
  | .acknowledge author topic counter id | .reject author topic counter id =>
      key = (author, topic.val) ∧ ObjectInbox.names counter id receipt
  | _ => false

/-- A receipt as an acknowledgement or a rejection leaves it. -/
def InboxCall.resolve (receipt : Receipt) : InboxCall → Receipt
  | .reject .. => { receipt with pending := none, rejected := true }
  | _ => { receipt with pending := none, rejected := false }

section Pending

open ObjectInbox

variable {owner : SecurityOwner} {next : ObjectInbox} {key : Block 32 × Bytes} {receipt : Receipt}

theorem Acts.pending_kept (hact : Acts json owner inbox act next)
    (hreceipt : receipt ∈ (inbox.streamAt key).receipts) (hpending : receipt.pending ≠ none)
    (hnames : act.names key receipt = false) : receipt ∈ (next.streamAt key).receipts := by
  rcases hact.streams_cases with ⟨_, _, _, _, haccepts⟩ |
    ⟨author, topic, counter, id, rejected, stream, rfl, hlookup, rfl⟩ | ⟨_, _, hsame⟩
  · rw [haccepts.streamAt]
    split
    · rename_i hkey
      rw [hkey] at hreceipt
      exact Stream.mem_push_of_pending haccepts.pushed (.inl hreceipt) hpending
    · exact hreceipt
  · rw [streamAt_resolve hlookup]
    split
    · rename_i hkey
      apply mem_resolveFirst_of_not_names hreceipt
      simpa [InboxAct.names, hkey] using hnames
    · exact hreceipt
  · rw [hsame.streamAt]
    exact hreceipt

theorem InboxCall.names_acts (hnames : call.names key receipt = false)
    {taken : Taken ObjectInbox InboxAct} (htaken : taken ∈ call.acts json owner inbox) :
    taken.label.names key receipt = false := by
  rw [InboxCall.acts] at htaken
  split at htaken
  · have haccepts : ∀ {stagings}, taken ∈ acceptances json owner inbox stagings →
        taken.label.names key receipt = false := by
      intro stagings h
      obtain ⟨staging, hlabel⟩ := label_of_mem_acceptances h
      rw [hlabel, InboxAct.names]
      simp
    cases call with
    | directRange query reply =>
      simp only [rangeActs] at htaken
      split at htaken
      · exact haccepts htaken
      · simp at htaken
    | currentView query reply now =>
      simp only [viewActs] at htaken
      split at htaken
      · split at htaken
        · rcases List.mem_append.mp htaken with hstaged | hlast
          · exact haccepts hstaged
          · rw [List.mem_singleton.mp hlast]
            rfl
        · simp at htaken
      · simp at htaken
    | acknowledge author topic counter id =>
      rw [List.mem_singleton.mp htaken]
      exact hnames
    | reject author topic counter id =>
      rw [List.mem_singleton.mp htaken]
      exact hnames
    | reload log => simp at htaken
    | _ =>
      rw [List.mem_singleton.mp htaken]
      rfl
  · simp at htaken

theorem InboxStep.pending_kept (hjson : json.Lawful) (hcache : CacheKept owner inbox)
    (hstep : InboxStep json owner inbox call next)
    (hreceipt : receipt ∈ (inbox.streamAt key).receipts) (hpending : receipt.pending ≠ none)
    (hnames : call.names key receipt = false) : receipt ∈ (next.streamAt key).receipts := by
  have hacts := acts_run hjson hcache hstep
  exact (hacts.guarded (P := fun s => receipt ∈ (s.streamAt key).receipts)
    (C := fun taken => taken.label.names key receipt = false)
    (fun s act s' h hact hnot => hact.pending_kept h hpending hnot) hreceipt
    (fun taken htaken => InboxCall.names_acts hnames htaken)).1

/-- The named receipt is resolved, and stays in its place. -/
theorem InboxStep.named_resolved (hstreams : StreamsKept inbox.streams)
    (hstep : InboxStep json owner inbox call next)
    (hreceipt : receipt ∈ (inbox.streamAt key).receipts) (hnames : call.names key receipt = true) :
    call.resolve receipt ∈ (next.streamAt key).receipts := by
  have hincreasing := (hstreams.streamAt key).increasing
  have hresolves : ∀ {author : Block 32} {topic : Topic} {counter : U64} {id : Block 16}
      {rejected : Bool} {stream : Stream},
      lookup Stream.key (author, topic.val) inbox.streams = some stream →
      next = inbox.resolve stream counter id rejected →
      key = (author, topic.val) ∧ ObjectInbox.names counter id receipt = true →
      { receipt with pending := none, rejected } ∈ (next.streamAt key).receipts := by
    rintro author topic counter id rejected stream hlookup rfl ⟨hkey, hnamed⟩
    rw [streamAt_resolve hlookup, if_pos hkey]
    exact mem_resolveFirst_of_names hincreasing hreceipt hnamed
  have hperformed := hstep.performed
  cases call with
  | acknowledge author topic counter id =>
    obtain ⟨stream, hlookup, hnext⟩ := acknowledge_eq_ok (map_some_eq_ok.mp hperformed)
    exact hresolves hlookup hnext (of_decide_eq_true hnames)
  | reject author topic counter id =>
    obtain ⟨stream, hlookup, hnext⟩ := reject_eq_ok (map_some_eq_ok.mp hperformed)
    exact hresolves hlookup hnext (of_decide_eq_true hnames)
  | _ => cases hnames

theorem InboxStep.scope (hjson : json.Lawful) (hcache : CacheKept owner inbox)
    (hstep : InboxStep json owner inbox call next) :
    next.workspace = inbox.workspace ∧ next.epoch = inbox.epoch :=
  ((acts_run hjson hcache hstep).invariant
    (P := fun s => s.workspace = inbox.workspace ∧ s.epoch = inbox.epoch)
    (fun _ _ _ h hact => ⟨hact.scope.1.trans h.1, hact.scope.2.trans h.2⟩) ⟨rfl, rfl⟩).1

/-- No call loses a pending object: in every reachable inbox a pending receipt is found after
the call as it was before, and only the one that an acknowledgement or a rejection names is
cleared. -/
theorem pending_never_lost (hjson : json.Lawful) {workspace : WorkspaceId} {epoch : U64}
    {trace : List (Taken ObjectInbox InboxCall)} {call : InboxCall}
    (hrun : Run (InboxStep json owner) (ObjectInbox.new workspace epoch) trace inbox)
    (hstep : InboxStep json owner inbox call next) :
    next.workspace = inbox.workspace ∧ next.epoch = inbox.epoch ∧
      ∀ stream ∈ inbox.streams, ∀ receipt ∈ stream.receipts, receipt.pending ≠ none →
        ∃ stream' ∈ next.streams, stream'.author = stream.author ∧ stream'.topic = stream.topic ∧
          (if call.names stream.key receipt then call.resolve receipt else receipt) ∈
            stream'.receipts := by
  obtain ⟨hcache, hstreams⟩ := run_kept hjson hrun
  obtain ⟨hworkspace, hepoch⟩ := hstep.scope hjson hcache
  refine ⟨hworkspace, hepoch, ?_⟩
  intro stream hstream receipt hreceipt hpending
  rw [← hstreams.streamAt_of_mem hstream] at hreceipt
  have hkept : (if call.names stream.key receipt then call.resolve receipt else receipt) ∈
      (next.streamAt stream.key).receipts := by
    split
    · rename_i hnames
      exact hstep.named_resolved hstreams hreceipt hnames
    · rename_i hnames
      exact hstep.pending_kept hjson hcache hreceipt hpending (Bool.eq_false_iff.mpr hnames)
  obtain ⟨stream', hstream', hkey, hmem⟩ := mem_streams_of_receipt hkept
  exact ⟨stream', hstream', congrArg Prod.fst hkey, congrArg Prod.snd hkey, hmem⟩

open Sample

/-- Acknowledging one of the objects that are pending clears it. -/
theorem pending_never_lost_acknowledged :
    ∃ inbox next, InboxStep busyJson receiver inbox acknowledged next ∧
      ∃ stream ∈ inbox.streams, ∃ receipt ∈ stream.receipts, receipt.pending ≠ none ∧
        ∃ stream' ∈ next.streams, stream'.author = stream.author ∧
          { receipt with pending := none } ∈ stream'.receipts := by
  let before := outcome emptyInbox
    (InboxCall.play busyJson receiver emptyInbox (busyCalls.take 4))
  have hrun : Run (InboxStep busyJson receiver) emptyInbox _ before :=
    InboxCall.play_run _ _ _ _ (by simp [busyCalls])
  have hpending : ∃ stream ∈ before.streams, ∃ receipt ∈ stream.receipts,
      receipt.pending ≠ none ∧ receipt.rejected = false ∧
        acknowledged.names stream.key receipt = true := by
    decide +kernel
  have hperforms : ∃ next, acknowledged.perform busyJson receiver before =
      .ok (some next) := by
    refine ⟨outcome emptyInbox (InboxCall.play busyJson receiver emptyInbox busyCalls), ?_⟩
    decide +kernel
  obtain ⟨next, hperformed⟩ := hperforms
  have hstep : InboxStep busyJson receiver before acknowledged next :=
    ⟨hperformed, by simp [acknowledged]⟩
  obtain ⟨stream, hstream, receipt, hreceipt, hkept, hrejected, hnames⟩ := hpending
  obtain ⟨stream', hstream', hauthor, _, hresolved⟩ :=
    (pending_never_lost busyJson_lawful hrun hstep).2.2 stream hstream receipt hreceipt
      hkept
  have hresolve : acknowledged.resolve receipt = { receipt with pending := none } := by
    show { receipt with pending := none, rejected := false } = { receipt with pending := none }
    rw [← hrejected]
  rw [if_pos hnames, hresolve] at hresolved
  exact ⟨before, next, hstep, stream, hstream, receipt, hreceipt, hkept, stream', hstream', hauthor,
    hresolved⟩

end Pending

end Arachne.Delivery
