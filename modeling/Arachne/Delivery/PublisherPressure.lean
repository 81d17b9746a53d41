import Arachne.Delivery.PublisherCodec
import Arachne.Delivery.Sample

/-! Saving a publisher log beside a large inbox. The oldest records of a copy go until both fit,
and the copy that is saved answers as the log does, or says that it no longer can. -/

namespace Arachne.Delivery

open ByteCodec Fallible Routing

/-- `count` evictions of the oldest record. -/
def PublisherLog.evictTimes : Nat → PublisherLog → Option PublisherLog
  | 0, log => some log
  | count + 1, log => log.evictOldest.bind (evictTimes count)

/-- `saved` is `live` without some of its oldest records: each topic keeps the end of its records,
and its watermark is the sequence of the last record that went. -/
structure Truncates (live saved : PublisherLog) : Prop where
  scope : saved.workspace = live.workspace ∧ saved.author = live.author ∧ saved.epoch = live.epoch
  head : saved.head = live.head
  known : ∀ topic, (saved.topics.find? topic).isSome = (live.topics.find? topic).isSome
  raised : ∀ topic, (live.history topic).evictedThrough ≤ (saved.history topic).evictedThrough
  lost : ∀ topic, ∃ gone, (live.history topic).records = gone ++ (saved.history topic).records ∧
    (∀ r ∈ gone, r.sequence ≤ (saved.history topic).evictedThrough) ∧
    (saved.history topic).evictedThrough =
      gone.getLast?.elim (live.history topic).evictedThrough RetainedPublication.sequence

section Truncation

open PublisherLog

variable {live middle saved : PublisherLog}

theorem Truncates.refl (log : PublisherLog) : Truncates log log :=
  ⟨⟨rfl, rfl, rfl⟩, rfl, fun _ => rfl, fun _ => le_rfl,
    fun _ => ⟨[], rfl, List.forall_mem_nil _, rfl⟩⟩

theorem history_dropFront (log : PublisherLog) (topic t : Topic) (record : RetainedPublication)
    (rest : List RetainedPublication) : (log.dropFront topic record rest).history t =
      if topic = t then ⟨record.sequence, rest⟩ else log.history t := by
  rw [history, find?_dropFront]
  split
  · rfl
  · rw [history]

/-- Evicting one more record. -/
theorem Truncates.evict (h : Truncates live middle) (hmiddle : Coherent middle) {topic : Topic}
    (hevict : middle.evict topic = some saved) : Truncates live saved := by
  obtain ⟨mark, record, rest, hfind, rfl⟩ := evict_eq_some.mp hevict
  have hhistory : middle.history topic = ⟨mark, record :: rest⟩ := by
    rw [history, hfind, Option.getD_some]
  have hlt : mark < record.sequence :=
    (List.pairwise_cons.mp (hmiddle.sorted topic _ hfind)).1 _ List.mem_cons_self
  refine ⟨h.scope, h.head, ?_, ?_, ?_⟩
  · intro t
    rw [← h.known t, find?_dropFront]
    split
    · rename_i heq
      rw [← heq, hfind]
      rfl
    · rfl
  · intro t
    have hraised := h.raised t
    rw [history_dropFront]
    split
    · rename_i heq
      rw [← heq, hhistory] at hraised
      rw [← heq]
      exact hraised.trans hlt.le
    · exact hraised
  · intro t
    obtain ⟨gone, hrecords, hgone, hmark⟩ := h.lost t
    rw [history_dropFront]
    split
    · rename_i heq
      subst heq
      rw [hhistory] at hrecords hgone
      refine ⟨gone ++ [record], ?_, ?_, ?_⟩
      · rw [hrecords, List.append_assoc]
        rfl
      · rw [List.forall_mem_append]
        refine ⟨fun r hr => (hgone r hr).trans hlt.le, ?_⟩
        exact fun r hr => (congrArg RetainedPublication.sequence (List.mem_singleton.mp hr)).le
      · rw [List.getLast?_concat]
        rfl
    · exact ⟨gone, hrecords, hgone, hmark⟩

theorem Truncates.evictTimes (h : Truncates live middle) (hmiddle : Coherent middle)
    (hlimits : WithinLimits middle) {count : Nat} (hevict : middle.evictTimes count = some saved) :
    Truncates live saved ∧ Coherent saved ∧ WithinLimits saved := by
  induction count generalizing middle with
  | zero =>
    cases hevict
    exact ⟨h, hmiddle, hlimits⟩
  | succ count ih =>
    obtain ⟨next, hnext, hrest⟩ := Option.bind_eq_some_iff.mp hevict
    obtain ⟨topic, htopic⟩ := evictOldest_eq_some hnext
    exact ih (h.evict hmiddle htopic) (hmiddle.evictOldest hnext) (hlimits.evictOldest hnext) hrest

theorem fitAttachment_eq_ok {inboxLength fuel : Nat}
    (h : live.fitAttachment inboxLength fuel = .ok saved) :
    (∃ count ≤ fuel, live.evictTimes count = some saved) ∧
      9 + saved.snapshot.length + inboxLength ≤ maxWorkspaceAttachment := by
  induction fuel generalizing live with
  | zero =>
    rw [fitAttachment, ite_else_error_eq_ok] at h
    obtain ⟨hfits, hsaved⟩ := h
    cases hsaved
    exact ⟨⟨0, le_rfl, rfl⟩, hfits⟩
  | succ fuel ih =>
    rw [fitAttachment] at h
    split at h
    · rename_i hfits
      cases h
      exact ⟨⟨0, Nat.zero_le _, rfl⟩, hfits⟩
    · rw [bind_eq_ok] at h
      obtain ⟨next, hnext, hrest⟩ := h
      obtain ⟨⟨count, hcount, hevict⟩, hfits⟩ := ih hrest
      refine ⟨⟨count + 1, Nat.succ_le_succ hcount, ?_⟩, hfits⟩
      rw [PublisherLog.evictTimes, orFail_eq_ok.mp hnext]
      exact hevict

variable {after through : U64} {topics : List Topic} {acc : List RetainedPublication}
  {sha256 : Bytes → Block 32} {log : PublisherLog}

/-- What a topic loop gathers from the saved log, it gathers from the live one. -/
theorem Truncates.gather (h : Truncates live saved) {records : List RetainedPublication}
    (hgather : saved.gather after through topics acc = .ok records) :
    live.gather after through topics acc = .ok records := by
  induction topics generalizing acc with
  | nil => exact hgather
  | cons topic topics ih =>
    have hknown := h.known topic
    have hraised := h.raised topic
    obtain ⟨gone, hrecords, hgone, _⟩ := h.lost topic
    rw [PublisherLog.gather] at hgather ⊢
    rw [history] at hraised hrecords
    rw [history] at hraised hrecords hgone
    cases hsaved : saved.topics.find? topic with
    | none =>
      rw [hsaved, Option.isSome_none, eq_comm, Option.isSome_eq_false_iff,
        Option.isNone_iff_eq_none] at hknown
      rw [hsaved] at hgather
      rw [hknown]
      exact ih hgather
    | some kept =>
      rw [hsaved, Option.isSome_some, eq_comm, Option.isSome_iff_exists] at hknown
      obtain ⟨full, hlive⟩ := hknown
      rw [hsaved, hlive, Option.getD_some, Option.getD_some] at hraised hrecords
      rw [hsaved, Option.getD_some] at hgone
      rw [hsaved] at hgather
      rw [hlive]
      simp only [] at hgather ⊢
      split at hgather
      · cases hgather
      · rename_i hreaches
        have hfilter : full.records.filter (fun r => after < r.sequence ∧ r.sequence ≤ through) =
            kept.records.filter fun r => after < r.sequence ∧ r.sequence ≤ through := by
          rw [hrecords, List.filter_append, List.filter_eq_nil_iff.mpr, List.nil_append]
          intro r hr hselected
          have hafter := (of_decide_eq_true hselected).1
          exact hreaches (hafter.trans_le (hgone r hr))
        rw [if_neg fun hlt => hreaches (hlt.trans_le hraised), hfilter]
        split at hgather
        · cases hgather
        · rename_i hroom
          rw [if_neg hroom]
          exact ih hgather

theorem Truncates.select (h : Truncates live saved) {topics : TopicSet} {range : RetainedRange}
    (hselect : saved.select sha256 after through topics = .ok range) :
    live.select sha256 after through topics = .ok range := by
  rw [PublisherLog.select, h.head] at hselect
  rw [PublisherLog.select]
  split at hselect
  · cases hselect
  · rename_i hvalid
    rw [if_neg hvalid]
    cases hgather : saved.gather after through topics.val [] with
    | error e =>
      rw [hgather] at hselect
      cases hselect
    | ok records =>
      rw [hgather, h.scope.1, h.scope.2.1, h.scope.2.2] at hselect
      rw [h.gather hgather]
      exact hselect

theorem unavailable_of_gather
    (hgather : log.gather after through topics acc = .error .unavailable) :
    ∃ topic ∈ topics, after < (log.history topic).evictedThrough := by
  induction topics generalizing acc with
  | nil => cases hgather
  | cons topic topics ih =>
    rw [PublisherLog.gather] at hgather
    split at hgather
    · exact List.exists_mem_cons_of_exists (ih hgather)
    · rename_i history hfind
      split at hgather
      · rename_i hlt
        refine ⟨topic, List.mem_cons_self, ?_⟩
        rw [PublisherLog.history, hfind, Option.getD_some]
        exact hlt
      · simp only [] at hgather
        split at hgather
        · cases hgather
        · exact List.exists_mem_cons_of_exists (ih hgather)

theorem unavailable_of_select {topics : TopicSet}
    (hselect : log.select sha256 after through topics = .error .unavailable) :
    ∃ topic ∈ topics.val, after < (log.history topic).evictedThrough := by
  rw [PublisherLog.select] at hselect
  split at hselect
  · cases hselect
  · cases hgather : log.gather after through topics.val [] with
    | error e =>
      rw [hgather] at hselect
      cases hselect
      exact unavailable_of_gather hgather
    | ok records =>
      rw [hgather] at hselect
      cases hselect

end Truncation

/-- A topic of a saved log has lost a record after the start of a range: the one at its watermark,
from the live log or before. That record may lie past the end of the range. -/
structure HasLost (live saved : PublisherLog) (topic : Topic) (after : U64) : Prop where
  later : after < (saved.history topic).evictedThrough
  gone : ∀ r ∈ saved.retained, r.context.topic = topic →
    (saved.history topic).evictedThrough < r.sequence
  held : (saved.history topic).evictedThrough = (live.history topic).evictedThrough ∨
    ∃ r ∈ live.retained, r.context.topic = topic ∧
      r.sequence = (saved.history topic).evictedThrough

section Saving

open PublisherLog ObjectInbox

variable {json : Json} {owner : SecurityOwner} {inbox : ObjectInbox} {live saved : PublisherLog}

theorem Truncates.hasLost (h : Truncates live saved) (hlive : Coherent live)
    (hsaved : Coherent saved) {topic : Topic} {after : U64}
    (hafter : after < (saved.history topic).evictedThrough) : HasLost live saved topic after := by
  refine ⟨hafter, ?_, ?_⟩
  · intro r hr htopic
    obtain ⟨t, history, hfind, hmem⟩ := (mem_retained_iff r).mp hr
    have hsame : t = topic := ((hsaved.formed t history hfind r hmem).topic.symm.trans htopic)
    subst hsame
    rw [PublisherLog.history, hfind, Option.getD_some]
    exact (List.pairwise_cons.mp (hsaved.sorted t history hfind)).1 _ (List.mem_map_of_mem hmem)
  · obtain ⟨gone, hrecords, _, hmark⟩ := h.lost topic
    cases hlast : gone.getLast? with
    | none =>
      rw [hlast] at hmark
      exact .inl hmark
    | some r =>
      rw [hlast] at hmark
      have hmem : r ∈ (live.history topic).records := by
        rw [hrecords]
        exact List.mem_append_left _ (List.mem_of_getLast? hlast)
      exact .inr ⟨r, mem_retained_of_history hmem, (hlive.history_formed topic r hmem).topic,
        hmark.symm⟩

theorem LogReached.evicted (hlive : LogReached live) {count : Nat}
    (hevict : live.evictTimes count = some saved) :
    Truncates live saved ∧ Coherent saved ∧ WithinLimits saved :=
  (Truncates.refl live).evictTimes hlive.restorable.coherent hlive.restorable.toWithinLimits hevict

/-- What is saved is read back: the log that fits, and the inbox. -/
theorem LogReached.bundle (hlive : LogReached live) {bytes : Bytes}
    (hbytes : inbox.snapshotWithPublisher json owner live = .ok bytes) :
    ∃ inboxBytes saved, inbox.snapshot json = .ok inboxBytes ∧
      live.fitAttachment inboxBytes.length live.retained.length = .ok saved ∧
      readBundle owner bytes = .ok (saved, inboxBytes) ∧
      bytes.length = 9 + saved.snapshot.length + inboxBytes.length := by
  simp only [snapshotWithPublisher, bind_eq_ok, pure_eq_ok, PublisherLog.validateOwner,
    failIf_eq_ok, not_or, not_not] at hbytes
  obtain ⟨_, _, _, ⟨hworkspace, hepoch, hmember⟩, inboxBytes, hinbox, saved, hfit, rfl⟩ := hbytes
  obtain ⟨⟨count, _, hevict⟩, _⟩ := fitAttachment_eq_ok hfit
  obtain ⟨htruncates, hsaved, hlimits⟩ := hlive.evicted hevict
  refine ⟨inboxBytes, saved, hinbox, hfit, ?_, length_bundle _ _⟩
  exact readBundle_eq (hsaved.restorable hlimits) (hworkspace.trans htruncates.scope.1.symm)
    (hepoch.trans htruncates.scope.2.2.symm)
    (hmember.trans (congrArg some htruncates.scope.2.1.symm)) inboxBytes

/-- Whatever is saved: evicting ended after at most as many records as there were, the bytes fit
one attachment, and the log in them has the head and the scope of the live one and the end of each
topic's records. Its selections are those of the live log, and it only refuses where a selected
topic has lost a record after the start of the range. -/
theorem saved_log_honest (hlive : LogReached live) {bytes : Bytes}
    (hbytes : inbox.snapshotWithPublisher json owner live = .ok bytes) :
    bytes.length ≤ maxWorkspaceAttachment ∧
    ∃ saved rest, readBundle owner bytes = .ok (saved, rest) ∧
      (∀ publisher restored, restoreSnapshot json owner bytes = .ok (publisher, restored) →
        publisher = saved) ∧
      (∃ count ≤ live.retained.length, live.evictTimes count = some saved) ∧
      (saved.head = live.head ∧ saved.workspace = live.workspace ∧
        saved.author = live.author ∧ saved.epoch = live.epoch) ∧
      (∀ topic, (saved.history topic).records <:+ (live.history topic).records) ∧
      ∀ sha256 after through topics,
        (∀ range, saved.select sha256 after through topics = .ok range →
          live.select sha256 after through topics = .ok range) ∧
        (saved.select sha256 after through topics = .error .unavailable →
          ∃ topic ∈ topics.val, HasLost live saved topic after) := by
  obtain ⟨inboxBytes, saved, _, hfit, hbundle, hlength⟩ := hlive.bundle hbytes
  obtain ⟨⟨count, hcount, hevict⟩, hroom⟩ := fitAttachment_eq_ok hfit
  have hcoherent := hlive.restorable.coherent
  obtain ⟨htruncates, hsaved, _⟩ := hlive.evicted hevict
  refine ⟨hlength.trans_le hroom, saved, inboxBytes, hbundle, ?_, ⟨count, hcount, hevict⟩,
    ⟨htruncates.head, htruncates.scope⟩, ?_, ?_⟩
  · intro publisher restored hrestored
    simp only [restoreSnapshot, bind_eq_ok, pure_eq_ok, Prod.mk.injEq, hbundle] at hrestored
    obtain ⟨_, _, _, hpair, _, _, _, _, _, _, rfl, _⟩ := hrestored
    cases hpair
    rfl
  · intro topic
    obtain ⟨gone, hrecords, _⟩ := htruncates.lost topic
    exact ⟨gone, hrecords.symm⟩
  · intro sha256 after through topics
    refine ⟨fun range => htruncates.select, fun hselect => ?_⟩
    obtain ⟨topic, htopic, hafter⟩ := unavailable_of_select hselect
    exact ⟨topic, htopic, htruncates.hasLost hcoherent hsaved hafter⟩

end Saving

section Sample

open PublisherLog ObjectInbox Sample
open Security.Sample (ident)

def alerts : Topic := ⟨utf8 "alerts", by decide⟩

/-- The log after one more publication; the same where it is refused. -/
def publishing (log : PublisherLog) (topic : Topic) (n : UInt8) (length : Nat) : PublisherLog :=
  (log.append ⟨receiver.id, 1, topic, ident n, NonZeroU64.new (Fin.ofNat _ n.toNat)⟩
    (List.replicate length n)).toOption.elim log Prod.snd

/-- The log of the member with id 2 after two alerts and a note. -/
def crowdedLog (length : Nat) : PublisherLog :=
  publishing (publishing (publishing silent alerts 1 40) alerts 2 40) Sample.notes 3 length

theorem LogReached.publishing {log : PublisherLog} (h : LogReached log) (topic : Topic) (n : UInt8)
    (length : Nat) : LogReached (publishing log topic n length) := by
  rw [Delivery.publishing]
  generalize hcontext : PublicationContext.mk .. = context
  cases happend : log.append context (List.replicate length n) with
  | error message => exact h
  | ok appended => exact h.append happend

theorem crowdedLog_reached (length : Nat) : LogReached (crowdedLog length) :=
  (((LogReached.new _ _ _).publishing _ _ _).publishing _ _ _).publishing _ _ _

/-- An inbox that retains as many replies as it may, with what was asked for them. -/
def retaining (asked length : Nat) : ObjectInbox :=
  let reply : RetainedReply := ⟨List.replicate asked 0, List.replicate length 0, 0⟩
  { emptyInbox with
    retainedRanges := [reply, reply, reply, reply]
    retainedCurrentViews := [reply, reply, reply, reply] }

def retainingJson : Json := Json.among directLength [emptyInbox.toSnapshot]

theorem retaining_snapshot (asked length : Nat)
    (h : 8 * (asked + length) + 143 ≤ maxWorkspaceAttachment) :
    ∃ bytes, (retaining asked length).snapshot retainingJson = .ok bytes ∧
      bytes.length = 8 * (asked + length) + 143 := by
  have hencode : retainingJson.encode (retaining asked length).toSnapshot = some [] := rfl
  have hcurrent : (retaining asked length).current = none := rfl
  have hmagic : (cacheMagic 3).length = 5 := by decide
  simp only [ObjectInbox.snapshot, hencode, hcurrent, orFail_some, ok_bind, encodeCurrent,
    bind_eq_ok, pure_eq_ok, failIf_eq_ok, exists_eq_left', not_lt]
  refine ⟨_, ⟨(), ?_, rfl⟩, ?_⟩
  all_goals
    simp only [retaining, encodeReply, List.flatMap_cons, List.flatMap_nil, List.length_append,
      List.length_cons, List.length_nil, List.length_replicate, beBytes_length, hmagic]
    omega

/-- An inbox beside which 232 bytes are left for a log. -/
def crowdedInbox : ObjectInbox := retaining 2000 65536

def fitted (length : Nat) : PublisherLog :=
  ((crowdedLog length).fitAttachment 540431 3).toOption.getD silent

theorem crowdedLog_saved (length : Nat)
    (hvalid : (crowdedLog length).validateOwner receiver = .ok ())
    (hcount : (crowdedLog length).retained.length = 3)
    (hfit : (crowdedLog length).fitAttachment 540431 3 = .ok (fitted length)) :
    ∃ bytes rest, crowdedInbox.snapshotWithPublisher retainingJson receiver (crowdedLog length) =
        .ok bytes ∧ readBundle receiver bytes = .ok (fitted length, rest) := by
  obtain ⟨inboxBytes, hinbox, hlength⟩ := retaining_snapshot 2000 65536 (by decide)
  have howned : crowdedInbox.validateOwner receiver = .ok () := validateOwner_eq_ok.mpr ⟨rfl, rfl⟩
  obtain ⟨bytes, hbytes⟩ : ∃ bytes, crowdedInbox.snapshotWithPublisher retainingJson receiver
      (crowdedLog length) = .ok bytes := by
    rw [snapshotWithPublisher, howned, ok_bind, hvalid, ok_bind, crowdedInbox, hinbox, ok_bind,
      hlength, hcount]
    exact ⟨_, bind_eq_ok.mpr ⟨_, hfit, rfl⟩⟩
  obtain ⟨_, saved, hinbox', hfit', hbundle, _⟩ := (crowdedLog_reached length).bundle hbytes
  obtain rfl := ok_unique hinbox hinbox'
  rw [hlength, hcount] at hfit'
  rw [← ok_unique hfit hfit'] at hbundle
  exact ⟨bytes, _, hbytes, hbundle⟩

abbrev onlyNotes : TopicSet := ⟨[Sample.notes], List.pairwise_singleton _ _⟩

/-- Everything is evicted. The saved log then refuses the notes up to the sequence 1, although the
only note there ever was has the sequence 3; the live log answers that there are none. -/
theorem refused_beyond_loss :
    ∃ live saved bytes rest, LogReached live ∧
      crowdedInbox.snapshotWithPublisher retainingJson receiver live = .ok bytes ∧
      readBundle receiver bytes = .ok (saved, rest) ∧
      saved.select receiver.sha256 0 1 onlyNotes = .error .unavailable ∧
      (live.select receiver.sha256 0 1 onlyNotes).map (·.records) = .ok [] ∧
      (live.history Sample.notes).evictedThrough = 0 ∧
      (live.history Sample.notes).records.map (·.sequence) = [3] := by
  obtain ⟨bytes, rest, hbytes, hbundle⟩ := crowdedLog_saved 100 (by decide +kernel)
    (by decide +kernel) (by decide +kernel)
  exact ⟨crowdedLog 100, fitted 100, bytes, rest, crowdedLog_reached _, hbytes, hbundle,
    by decide +kernel, by decide +kernel, by decide +kernel, by decide +kernel⟩

/-- Both alerts are evicted and refused; the note is kept, and selected as from the live log. -/
theorem saved_log_honest_crowded :
    ∃ bytes saved rest, crowdedInbox.snapshotWithPublisher retainingJson receiver (crowdedLog 1) =
        .ok bytes ∧ bytes.length ≤ maxWorkspaceAttachment ∧
      readBundle receiver bytes = .ok (saved, rest) ∧ saved.head = 3 ∧
      (crowdedLog 1).retained.map (·.sequence) = [1, 2, 3] ∧
      saved.retained.map (·.sequence) = [3] ∧ HasLost (crowdedLog 1) saved alerts 0 ∧
      ∃ range, saved.select receiver.sha256 0 3 onlyNotes = .ok range ∧
        (crowdedLog 1).select receiver.sha256 0 3 onlyNotes = .ok range := by
  obtain ⟨bytes, rest, hbytes, hbundle⟩ := crowdedLog_saved 1 (by decide +kernel)
    (by decide +kernel) (by decide +kernel)
  obtain ⟨hlength, saved, rest', hbundle', _, _, ⟨hhead, _⟩, _, hselect⟩ :=
    saved_log_honest (crowdedLog_reached 1) hbytes
  have hsaved : fitted 1 = saved := (Prod.mk.inj (ok_unique hbundle hbundle')).1
  refine ⟨bytes, saved, rest', hbytes, hlength, hbundle', hhead.trans (by decide +kernel),
    by decide +kernel, by rw [← hsaved]; decide +kernel, ?_, ?_⟩
  · obtain ⟨topic, htopic, hlost⟩ := (hselect receiver.sha256 0 2
      ⟨[alerts], List.pairwise_singleton _ _⟩).2 (by rw [← hsaved]; decide +kernel)
    obtain rfl := List.mem_singleton.mp htopic
    exact hlost
  · have hok : (saved.select receiver.sha256 0 3 onlyNotes).toBool = true := by
      rw [← hsaved]
      decide +kernel
    cases hfound : saved.select receiver.sha256 0 3 onlyNotes with
    | error e =>
      rw [hfound] at hok
      cases hok
    | ok range => exact ⟨range, rfl, (hselect _ _ _ _).1 range hfound⟩

end Sample

end Arachne.Delivery
