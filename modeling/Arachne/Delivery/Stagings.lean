import Arachne.Delivery.Inbox

/-! What staging one object does to an inbox: which object it was, which stream takes its
receipt, and what the receipt window keeps. -/

namespace Arachne.Delivery

open ByteCodec Fallible Routing SortedWindow Keyed
open Security (AuthenticatedObject)

/-- A stream as the inbox keeps it: counters strictly increase from above the floor, ids do not
repeat, and the window bounds it. -/
structure Stream.WellKept (stream : Stream) : Prop where
  increasing : stream.receipts.Pairwise fun a b => a.counter < b.counter
  above : ∀ receipt ∈ stream.receipts, stream.floor < receipt.counter
  ids : (stream.receipts.map (·.id)).Nodup
  bounded : stream.receipts.length ≤ window

theorem Stream.new_wellKept (key : Block 32 × Bytes) : (Stream.new key).WellKept :=
  ⟨List.Pairwise.nil, by simp [Stream.new], List.nodup_nil, Nat.zero_le _⟩

namespace Stream

variable {stream next : Stream} {receipt known : Receipt}

section Pushed

variable (h : stream.push receipt = .ok next)

include h

theorem push_eq_ok :
    let receipts := sortBy Receipt.counter (stream.receipts ++ [receipt])
    (receipts.length ≤ window ∧ next = { stream with receipts }) ∨
      ∃ first rest, receipts = first :: rest ∧ window < receipts.length ∧ first.pending = none ∧
        next = { stream with floor := first.counter, receipts := rest } := by
  intro receipts
  rw [push] at h
  split at h
  · rename_i hlength
    exact .inl ⟨hlength, (Except.ok.inj h).symm⟩
  · rename_i hlength
    split at h
    · rename_i hnil
      simp [hnil] at hlength
    · rename_i first rest hsorted
      simp only [bind_eq_ok, failIf_eq_ok, pure_eq_ok] at h
      obtain ⟨_, hpending, hnext⟩ := h
      exact .inr ⟨first, rest, hsorted, Nat.lt_of_not_le hlength, by simpa using hpending,
        hnext.symm⟩

theorem push_key : next.key = stream.key := by
  rcases push_eq_ok h with ⟨_, rfl⟩ | ⟨_, _, _, _, _, rfl⟩ <;> rfl

theorem mem_push (hknown : known ∈ next.receipts) :
    known ∈ stream.receipts ∨ known = receipt := by
  have hsorted : known ∈ sortBy Receipt.counter (stream.receipts ++ [receipt]) := by
    rcases push_eq_ok h with ⟨_, rfl⟩ | ⟨_, _, hsorted, _, _, rfl⟩
    · exact hknown
    · rw [hsorted]
      exact List.mem_cons_of_mem _ hknown
  simpa [mem_sortBy] using hsorted

theorem mem_push_of_pending (hknown : known ∈ stream.receipts ∨ known = receipt)
    (hpending : known.pending ≠ none) :
    known ∈ next.receipts := by
  have hsorted : known ∈ sortBy Receipt.counter (stream.receipts ++ [receipt]) := by
    simpa [mem_sortBy] using hknown
  rcases push_eq_ok h with ⟨_, rfl⟩ | ⟨first, rest, heq, _, hfirst, rfl⟩
  · exact hsorted
  · rw [heq] at hsorted
    rcases List.mem_cons.mp hsorted with rfl | hrest
    · exact absurd hfirst hpending
    · exact hrest

theorem counter_le_floor_or_mem_push (hknown : known ∈ stream.receipts) :
    known.counter ≤ next.floor ∨ known ∈ next.receipts := by
  have hsorted : known ∈ sortBy Receipt.counter (stream.receipts ++ [receipt]) := by
    simp [mem_sortBy, hknown]
  rcases push_eq_ok h with ⟨_, rfl⟩ | ⟨first, rest, heq, _, _, rfl⟩
  · exact .inr hsorted
  · rw [heq] at hsorted
    rcases List.mem_cons.mp hsorted with rfl | hrest
    · exact .inl le_rfl
    · exact .inr hrest

end Pushed

section Kept

variable (hkept : stream.WellKept) (hfloor : stream.floor < receipt.counter)
  (hfresh : ∀ known ∈ stream.receipts, known.counter ≠ receipt.counter)
include hkept hfloor

theorem above_sorted {entry : Receipt}
    (hentry : entry ∈ sortBy Receipt.counter (stream.receipts ++ [receipt])) :
    stream.floor < entry.counter := by
  rw [mem_sortBy, List.mem_append, List.mem_singleton] at hentry
  rcases hentry with hold | rfl
  · exact hkept.above entry hold
  · exact hfloor

theorem floor_le_push (h : stream.push receipt = .ok next) : stream.floor ≤ next.floor := by
  rcases push_eq_ok h with ⟨_, rfl⟩ | ⟨first, rest, heq, _, _, rfl⟩
  · exact le_rfl
  · exact le_of_lt (above_sorted hkept hfloor (heq ▸ List.mem_cons_self))

include hfresh

theorem push_wellKept (hids : ∀ known ∈ stream.receipts, known.id ≠ receipt.id)
    (h : stream.push receipt = .ok next) : next.WellKept := by
  have hincreasing := sortBy_push_increasing hkept.increasing hfresh
  have hnodup : ((sortBy Receipt.counter (stream.receipts ++ [receipt])).map (·.id)).Nodup := by
    rw [((sortBy_perm _ _).map _).nodup_iff, List.map_append, List.nodup_append]
    refine ⟨hkept.ids, List.nodup_singleton _, ?_⟩
    rintro a ha b hb rfl
    obtain ⟨known, hknown, rfl⟩ := List.mem_map.mp ha
    exact hids known hknown (List.mem_singleton.mp hb)
  have hlength : (sortBy Receipt.counter (stream.receipts ++ [receipt])).length ≤ window + 1 := by
    rw [length_sortBy, List.length_append, List.length_singleton]
    exact Nat.add_le_add_right hkept.bounded 1
  rcases push_eq_ok h with ⟨hroom, rfl⟩ | ⟨first, rest, heq, _, _, rfl⟩
  · exact ⟨hincreasing, fun entry => above_sorted hkept hfloor, hnodup, hroom⟩
  · rw [heq] at hincreasing hnodup hlength
    obtain ⟨hfirst, hrest⟩ := List.pairwise_cons.mp hincreasing
    refine ⟨hrest, hfirst, (List.nodup_cons.mp hnodup).2, ?_⟩
    simpa using hlength

end Kept

end Stream

namespace ObjectInbox

/-- The object of a staging, authenticated in the staging's context. -/
def Staging.authenticate (owner : SecurityOwner) (staging : Staging) :
    Outcome AuthenticatedObject := do
  let aad ← receiptAad owner staging.context staging.recipients staging.current
  owner.unprotectObject aad staging.object

/-- The stream of a key; one that the inbox does not have is empty. -/
def streamAt (inbox : ObjectInbox) (key : Block 32 × Bytes) : Stream :=
  (lookup Stream.key key inbox.streams).getD (Stream.new key)

theorem streamAt_key (inbox : ObjectInbox) (key : Block 32 × Bytes) :
    (inbox.streamAt key).key = key := by
  rw [streamAt]
  cases hlookup : lookup Stream.key key inbox.streams with
  | none => rfl
  | some stream => exact (mem_of_lookup hlookup).2

theorem streamAt_of_lookup {inbox : ObjectInbox} {key : Block 32 × Bytes} {stream : Stream}
    (h : lookup Stream.key key inbox.streams = some stream) : inbox.streamAt key = stream := by
  rw [streamAt, h, Option.getD_some]

/-- The key of the stream an object goes to. -/
def Staging.streamKey (staging : Staging) (object : AuthenticatedObject) : Block 32 × Bytes :=
  (object.message.member, staging.context.topic.val)

/-- What an accepted staging went through. -/
structure Accepts (json : Json) (owner : SecurityOwner) (inbox : ObjectInbox) (staging : Staging)
    (object : AuthenticatedObject) (stream : Stream) (next : ObjectInbox) : Prop where
  owned : inbox.workspace = owner.id ∧ inbox.epoch = owner.epoch
  workspace : staging.context.workspace = inbox.workspace
  authenticated : staging.authenticate owner = .ok object
  room : lookup Stream.key (staging.streamKey object) inbox.streams = none →
    inbox.streams.length ≠ maxStreams
  above : (inbox.streamAt (staging.streamKey object)).floor < object.counter
  fresh : ∀ known ∈ (inbox.streamAt (staging.streamKey object)).receipts,
    known.counter ≠ object.counter
  unused : ∀ known ∈ (inbox.streamAt (staging.streamKey object)).receipts,
    known.id ≠ staging.context.id
  pushed : (inbox.streamAt (staging.streamKey object)).push
    (staging.receipt object.counter (owner.sha256 staging.object)) = .ok stream
  retained : inbox.retainStaged json object.message.member staging = .ok next.direct
  result : next = { inbox with
    streams := put Stream.key stream inbox.streams
    direct := next.direct }
  fits : ∃ bytes, next.snapshot json = .ok bytes

variable {json : Json} {owner : SecurityOwner} {inbox next : ObjectInbox} {staging : Staging}

theorem validateOwner_eq_ok {u : Unit} : inbox.validateOwner owner = .ok u ↔
    inbox.workspace = owner.id ∧ inbox.epoch = owner.epoch := by
  rw [validateOwner, failIf_eq_ok, not_or, not_not, not_not]

theorem checked_eq_ok : checked json inbox = .ok next ↔
    next = inbox ∧ ∃ bytes, inbox.snapshot json = .ok bytes := by
  simp only [checked, bind_eq_ok, pure_eq_ok]
  constructor
  · rintro ⟨bytes, hbytes, rfl⟩
    exact ⟨rfl, bytes, hbytes⟩
  · rintro ⟨rfl, bytes, hbytes⟩
    exact ⟨bytes, hbytes, rfl⟩

variable {stream : Stream} {author digest : Block 32} {counter : U64} {stage : InboxStage}

theorem accept_eq_prepared
    (h : inbox.accept json stream author staging counter digest = .ok (.prepared next)) :
    ∃ stream', stream.push (staging.receipt counter digest) = .ok stream' ∧
      inbox.retainStaged json author staging = .ok next.direct ∧
      next = { inbox with
        streams := put Stream.key stream' inbox.streams
        direct := next.direct } ∧ ∃ bytes, next.snapshot json = .ok bytes := by
  simp only [accept, bind_eq_ok, pure_eq_ok, checked_eq_ok, InboxStage.prepared.injEq] at h
  obtain ⟨stream', hpush, direct, hdirect, _, ⟨rfl, hfits⟩, rfl⟩ := h
  exact ⟨stream', hpush, hdirect, rfl, hfits⟩

theorem accept_ne_duplicate
    (h : inbox.accept json stream author staging counter digest = .ok stage) :
    ∃ next, stage = .prepared next := by
  simp only [accept, bind_eq_ok, pure_eq_ok] at h
  obtain ⟨_, _, _, _, next, _, rfl⟩ := h
  exact ⟨next, rfl⟩

/-- The four ways `recalled` can come out. -/
theorem recalled_eq_ok {stage : Option InboxStage}
    (h : inbox.recalled stream staging counter digest = .ok stage) :
    (stage = some .outsideWindow ∧ (counter ≤ stream.floor ∨
      ∀ known ∈ stream.receipts, known.counter ≠ counter)) ∨
    (stage = some .duplicate ∧ ∃ known ∈ stream.receipts, known.counter = counter ∧
      known.digest = digest ∧ inbox.context stream known = .ok staging.context ∧
      known.recipients = staging.recipients ∧ known.current = staging.current) ∨
    (stage = none ∧ stream.floor < counter ∧
      (∀ known ∈ stream.receipts, known.counter ≠ counter) ∧
      ∀ known ∈ stream.receipts, known.id ≠ staging.context.id) := by
  rw [recalled] at h
  split at h
  · rename_i hfloor
    rw [pure_eq_ok] at h
    exact .inl ⟨h.symm, .inl hfloor⟩
  · rename_i hfloor
    split at h
    · rename_i known hfind
      simp only [bind_eq_ok, failIf_eq_ok, pure_eq_ok, not_or, not_not] at h
      obtain ⟨_, hdigest, context, hcontext, _, ⟨rfl, hrecipients, hcurrent⟩, rfl⟩ := h
      refine .inr (.inl ⟨rfl, known, List.mem_of_find?_eq_some hfind, ?_, hdigest, hcontext,
        hrecipients, hcurrent⟩)
      simpa using List.find?_some hfind
    · rename_i hfind
      have hfresh : ∀ known ∈ stream.receipts, known.counter ≠ counter := by
        simpa [List.find?_eq_none] using hfind
      simp only [bind_eq_ok, failIf_eq_ok, not_exists, not_and] at h
      obtain ⟨_, hunused, h⟩ := h
      split at h
      · rw [pure_eq_ok] at h
        exact .inl ⟨h.symm, .inr hfresh⟩
      · rw [pure_eq_ok] at h
        exact .inr (.inr ⟨h.symm, lt_of_not_ge hfloor, hfresh, hunused⟩)

/-- A staging comes out in one of three ways: outside the window, as a duplicate of a receipt
that is still there, or accepted. -/
theorem stageScoped_eq_ok (h : inbox.stageScoped json owner staging = .ok stage) :
    ∃ object, staging.authenticate owner = .ok object ∧
      (stage = .outsideWindow ∨
      (stage = .duplicate ∧ ∃ known ∈ (inbox.streamAt (staging.streamKey object)).receipts,
        known.counter = object.counter ∧ known.digest = owner.sha256 staging.object ∧
        inbox.context (inbox.streamAt (staging.streamKey object)) known = .ok staging.context ∧
        known.recipients = staging.recipients ∧ known.current = staging.current) ∨
      ∃ stream next, stage = .prepared next ∧
        inbox.Accepts json owner staging object stream next) := by
  simp only [stageScoped, bind_eq_ok, validateOwner_eq_ok, failIf_eq_ok, not_not] at h
  obtain ⟨_, howned, _, hworkspace, aad, haad, object, hobject, h⟩ := h
  have hauthenticated : staging.authenticate owner = .ok object := by
    simp [Staging.authenticate, haad, hobject]
  refine ⟨object, hauthenticated, ?_⟩
  split at h
  · rename_i stream hlookup
    have hstream : inbox.streamAt (staging.streamKey object) = stream := by
      rw [streamAt, Staging.streamKey, hlookup, Option.getD_some]
    rw [bind_eq_ok] at h
    obtain ⟨recalled, hrecall, h⟩ := h
    rcases recalled_eq_ok hrecall with ⟨rfl, _⟩ | ⟨rfl, hknown⟩ | ⟨rfl, habove, hfresh, hunused⟩
    · exact .inl (Except.ok.inj h).symm
    · exact .inr (.inl ⟨(Except.ok.inj h).symm, hstream ▸ hknown⟩)
    · obtain ⟨next, rfl⟩ := accept_ne_duplicate h
      obtain ⟨stream', hpush, hretained, hresult, hfits⟩ := accept_eq_prepared h
      refine .inr (.inr ⟨stream', next, rfl, ?_⟩)
      subst hstream
      have hfound := Option.ne_none_iff_exists'.mpr ⟨_, hlookup⟩
      exact ⟨howned, hworkspace, hauthenticated, fun hnone => absurd hnone hfound, habove,
        hfresh, hunused, hpush, hretained, hresult, hfits⟩
  · rename_i hlookup
    have hstream : inbox.streamAt (staging.streamKey object) =
        Stream.new (staging.streamKey object) := by
      rw [streamAt, Staging.streamKey, hlookup, Option.getD_none]
    simp only [bind_eq_ok, failIf_eq_ok] at h
    obtain ⟨_, hroom, h⟩ := h
    obtain ⟨next, rfl⟩ := accept_ne_duplicate h
    obtain ⟨stream', hpush, hretained, hresult, hfits⟩ := accept_eq_prepared h
    refine .inr (.inr ⟨stream', next, rfl, howned, hworkspace, hauthenticated, fun _ => hroom,
      ?_, ?_, ?_, hstream ▸ hpush, hretained, hresult, hfits⟩)
    · rw [hstream]
      exact Fin.pos_of_ne_zero (owner.counter_ne_zero hobject)
    · rw [hstream]
      simp [Stream.new]
    · rw [hstream]
      simp [Stream.new]

theorem stageScoped_eq_prepared (h : inbox.stageScoped json owner staging = .ok (.prepared next)) :
    ∃ object stream, inbox.Accepts json owner staging object stream next := by
  obtain ⟨object, _, hstage | ⟨hstage, _⟩ | ⟨stream, next', hstage, haccepts⟩⟩ :=
    stageScoped_eq_ok h
  · cases hstage
  · cases hstage
  · cases hstage
    exact ⟨object, stream, haccepts⟩

end ObjectInbox

end Arachne.Delivery
