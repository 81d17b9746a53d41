import Mathlib.Logic.Relation
import Arachne.Delivery.PublisherSnapshot

/-! Whole runs of a publisher log: appends, evictions, saves and restarts. -/

namespace Arachne.Delivery

open ByteCodec Fallible Routing Watermark

variable {log : PublisherLog} {through : U64} {acc records : List RetainedPublication}
  {sha256 : Bytes → Block 32} {range : RetainedRange}

def maxWorkspaceAttachment : Nat := 528 * 1024

namespace PublisherLog

/-- The eviction loop of `snapshot_with_publisher`: records go, oldest first, until log and
inbox fit one attachment. The number of retained records bounds the loop. -/
def fitAttachment (inboxLength : Nat) : Nat → PublisherLog → Outcome PublisherLog
  | 0, log =>
      if 9 + log.snapshot.length + inboxLength ≤ maxWorkspaceAttachment then .ok log
      else .error "combined object delivery state exceeds bound"
  | fuel + 1, log =>
      if 9 + log.snapshot.length + inboxLength ≤ maxWorkspaceAttachment then .ok log
      else do
        let log ← orFail log.evictOldest "combined object delivery state exceeds bound"
        fitAttachment inboxLength fuel log

end PublisherLog

/-- One step of a publisher: the log, and everything it ever accepted. -/
inductive PublisherStep :
    PublisherLog × List RetainedPublication → PublisherLog × List RetainedPublication → Prop
  | append {log log' : PublisherLog} {published : List RetainedPublication}
      {context : PublicationContext} {ciphertext : Bytes} {sequence : U64}
      (h : log.append context ciphertext = .ok (sequence, log')) :
      PublisherStep (log, published) (log', published ++ [⟨sequence, context, ciphertext⟩])
  | refuse {log : PublisherLog} {published : List RetainedPublication}
      {context : PublicationContext} {ciphertext : Bytes} {message : String}
      (h : log.append context ciphertext = .error message) :
      PublisherStep (log, published) (log, published)
  | evict {log log' : PublisherLog} {published : List RetainedPublication}
      (h : log.evictOldest = some log') : PublisherStep (log, published) (log', published)
  | restart {log log' : PublisherLog} {published : List RetainedPublication}
      (h : PublisherLog.restore log.workspace log.author log.epoch log.snapshot = .ok log') :
      PublisherStep (log, published) (log', published)
  | restartFitted {log fitted log' : PublisherLog} {published : List RetainedPublication}
      {inboxLength : Nat}
      (hfit : log.fitAttachment inboxLength log.retained.length = .ok fitted)
      (h : PublisherLog.restore fitted.workspace fitted.author fitted.epoch fitted.snapshot =
        .ok log') : PublisherStep (log, published) (log', published)

variable {after : U64}

theorem PublisherLog.mem_retained_of_gather {topics : List Topic}
    (hgather : log.gather after through topics acc = .ok records)
    (hacc : ∀ r ∈ acc, r ∈ log.retained) : ∀ r ∈ records, r ∈ log.retained := by
  induction topics generalizing acc with
  | nil =>
    cases hgather
    exact hacc
  | cons topic topics ih =>
    simp only [gather] at hgather
    split at hgather
    · exact ih hgather hacc
    · rename_i history hfind
      split at hgather
      · cases hgather
      · split at hgather
        · cases hgather
        · refine ih hgather fun r hr => ?_
          rcases List.mem_append.mp hr with hr | hr
          · exact hacc r hr
          · exact (mem_retained_iff r).mpr ⟨topic, history, hfind, List.mem_of_mem_filter hr⟩

theorem PublisherLog.gather_of_select {topics : TopicSet}
    (hselect : log.select sha256 after through topics = .ok range) :
    ∃ records, log.gather after through topics.val [] = .ok records ∧
      range.records = records.insertionSort fun a b => a.sequence ≤ b.sequence := by
  unfold select at hselect
  split at hselect
  · cases hselect
  · cases hgather : log.gather after through topics.val [] <;> rw [hgather] at hselect <;>
      cases hselect
    exact ⟨_, rfl, rfl⟩

theorem PublisherLog.mem_retained_of_select {topics : TopicSet}
    (hselect : log.select sha256 after through topics = .ok range) :
    ∀ r ∈ range.records, r ∈ log.retained := by
  obtain ⟨records, hgather, hrecords⟩ := gather_of_select hselect
  rw [hrecords]
  intro r hr
  exact mem_retained_of_gather hgather (by simp) r ((List.perm_insertionSort _ _).subset hr)

theorem PublisherLog.allRecords_eq (log : PublisherLog) :
    allRecords log.topics.entries = log.retained := by
  simp [allRecords, retained, OrderedMap.values, List.flatMap_map]

theorem PublisherLog.sequences_nodup (h : (allSequences log.topics.entries).Nodup) :
    (log.retained.map RetainedPublication.sequence).Nodup := by
  have hsublist : ∀ entries : List (Topic × History),
      ((allRecords entries).map RetainedPublication.sequence).Sublist (allSequences entries) := by
    intro entries
    induction entries with
    | nil => exact List.Sublist.refl _
    | cons entry entries ih =>
      simp only [allRecords, allSequences, List.flatMap_cons, List.map_append] at ih ⊢
      exact (List.sublist_append_right _ _).append ih
  rw [← allRecords_eq]
  exact h.sublist (hsublist log.topics.entries)

theorem PublisherLog.retained_nodup (h : (allSequences log.topics.entries).Nodup) :
    log.retained.Nodup :=
  (sequences_nodup h).of_map _

namespace Retains

open PublisherLog

variable {log' : PublisherLog} {published : List RetainedPublication}

variable {topic : Topic} {history : History} {after : U64}

variable (h : Retains log published)

include h

theorem mem_sequences (hfind : log.topics.find? topic = some history) {s : U64}
    (hs : s ∈ (if history.evictedThrough ≠ 0 then [history.evictedThrough] else []) ++
      history.records.map RetainedPublication.sequence) :
    ∃ p ∈ published, p.context.topic = topic ∧ p.sequence = s := by
  rcases List.mem_append.mp hs with hmark | hrecord
  · split_ifs at hmark with hne
    · rcases h.watermarks topic history hfind with hzero | ⟨p, hp, htopic, hsequence⟩
      · exact absurd hzero hne
      · exact ⟨p, hp, htopic, hsequence.trans (List.mem_singleton.mp hmark).symm⟩
    · cases hmark
  · obtain ⟨p, hp, rfl⟩ := List.mem_map.mp hrecord
    rw [h.records topic history hfind, List.mem_filter] at hp
    exact ⟨p, hp.1, (of_decide_eq_true hp.2).1, rfl⟩

theorem sorted_history (hfind : log.topics.find? topic = some history) :
    (history.evictedThrough :: history.records.map RetainedPublication.sequence).Pairwise
      (· < ·) := by
  rw [h.records topic history hfind]
  refine List.pairwise_cons.mpr ⟨?_, List.pairwise_map.mpr (h.sorted.filter _)⟩
  intro s hs
  obtain ⟨p, hp, rfl⟩ := List.mem_map.mp hs
  exact (of_decide_eq_true (List.mem_filter.mp hp).2).2

theorem allSequences_nodup :
    (allSequences log.topics.entries).Nodup := by
  refine List.nodup_flatMap.mpr ⟨?_, ?_⟩
  · rintro ⟨topic, history⟩ hentry
    have hsorted := h.sorted_history ((log.topics.mem_entries_iff topic history).mp hentry)
    split_ifs with hne
    · exact hsorted.imp ne_of_lt
    · exact (List.pairwise_cons.mp hsorted).2.imp ne_of_lt
  · have hentries : ∀ entry ∈ log.topics.entries,
        log.topics.find? entry.1 = some entry.2 := fun entry hentry =>
      (log.topics.mem_entries_iff entry.1 entry.2).mp hentry
    refine List.Pairwise.imp_of_mem ?_ log.topics.ascending
    intro e e' he he' hlt s hs hs'
    obtain ⟨p, hp, htopic, hsequence⟩ := h.mem_sequences (hentries e he) hs
    obtain ⟨p', hp', htopic', hsequence'⟩ := h.mem_sequences (hentries e' he') hs'
    have hsame := key_injOn RetainedPublication.sequence h.sorted hp hp'
      (hsequence.trans hsequence'.symm)
    exact hlt.ne (by rw [← htopic, ← htopic', hsame])

theorem head_reached :
    log.head ∈ allSequences log.topics.entries ∨ log.head = 0 := by
  by_cases hzero : log.head = 0
  · exact .inr hzero
  · have hpos : 0 < log.head.val := Nat.pos_of_ne_zero fun h0 => hzero (Fin.ext h0)
    have hmem : log.head.val ∈ published.map fun p => p.sequence.val := by
      rw [h.sequences, List.mem_range'_1]
      omega
    obtain ⟨p, hp, hsequence⟩ := List.mem_map.mp hmem
    have hp_head : p.sequence = log.head := Fin.ext hsequence
    obtain ⟨history, hfind⟩ := Option.isSome_iff_exists.mp
      ((h.observed p.context.topic).mpr ⟨p, hp, rfl⟩)
    refine .inl (List.mem_flatMap.mpr ⟨(p.context.topic, history),
      (log.topics.mem_entries_iff _ _).mpr hfind, ?_⟩)
    have hle := h.watermark_le_head p.context.topic
    rw [PublisherLog.history, hfind, Option.getD_some] at hle
    rcases hle.lt_or_eq with hlt | heq
    · refine List.mem_append_right _ (List.mem_map.mpr ⟨p, ?_, hp_head⟩)
      simp only [h.records _ _ hfind, List.mem_filter, decide_eq_true_eq, true_and]
      exact ⟨hp, hp_head ▸ hlt⟩
    · refine List.mem_append_left _ ?_
      simp only
      rw [heq, if_pos hzero]
      exact List.mem_singleton_self _

theorem retained_nodup : log.retained.Nodup :=
  PublisherLog.retained_nodup h.allSequences_nodup

/-- Every log an author can reach decodes from its own snapshot. -/
theorem restorable (hlimits : WithinLimits log) : Restorable log := by
  have hfind : ∀ entry ∈ log.topics.entries, log.topics.find? entry.1 = some entry.2 :=
    fun entry hentry => (log.topics.mem_entries_iff entry.1 entry.2).mp hentry
  refine ⟨hlimits, ?_, ?_, ?_, h.allSequences_nodup, ?_, h.head_reached, ?_, ?_⟩
  · intro entry hentry r hr
    rw [h.records _ _ (hfind entry hentry), List.mem_filter] at hr
    obtain ⟨hr, hmatch⟩ := hr
    exact ⟨h.workspaces r hr, (of_decide_eq_true hmatch).1, (h.ciphertexts r hr).1,
      (h.ciphertexts r hr).2, h.numbered r hr⟩
  · exact fun entry hentry => h.sorted_history (hfind entry hentry)
  · rintro entry hentry ⟨hnil, hzero⟩
    obtain ⟨p, hp, htopic⟩ := (h.observed entry.1).mp (by simp [hfind entry hentry])
    have hmem : p ∈ entry.2.records := by
      rw [h.records _ _ (hfind entry hentry), List.mem_filter, hzero]
      exact ⟨hp, decide_eq_true ⟨htopic, (h.sequence_mem hp).1⟩⟩
    rw [hnil] at hmem
    cases hmem
  · intro s hs
    obtain ⟨entry, hentry, hs⟩ := List.mem_flatMap.mp hs
    obtain ⟨p, hp, _, rfl⟩ := h.mem_sequences (hfind entry hentry) hs
    exact (h.sequence_mem hp).2
  · rw [allRecords_eq]
    exact h.retained_nodup.map_on fun r hr r' hr' => h.ids r hr r' hr'
  · rw [allRecords_eq]
    exact h.bytes

theorem fitAttachment {fuel inboxLength : Nat} (hlimits : WithinLimits log)
    (hfit : log.fitAttachment inboxLength fuel = .ok log') :
    Retains log' published ∧ WithinLimits log' := by
  induction fuel generalizing log with
  | zero =>
    simp only [PublisherLog.fitAttachment] at hfit
    split at hfit
    · cases hfit
      exact ⟨h, hlimits⟩
    · cases hfit
  | succ fuel ih =>
    simp only [PublisherLog.fitAttachment] at hfit
    split at hfit
    · cases hfit
      exact ⟨h, hlimits⟩
    · obtain ⟨next, hnext, hrest⟩ := bind_eq_ok.mp hfit
      have hevict := orFail_eq_ok.mp hnext
      exact ih (h.evictOldest hevict) (hlimits.evictOldest hevict) hrest

/-- What the topic loop of a selection gathers, and that no watermark passes its start. -/
theorem gather {topics : List Topic} (hgather : log.gather after through topics acc = .ok records) :
    records = acc ++ topics.flatMap fun topic => published.filter fun p =>
      p.context.topic = topic ∧ after < p.sequence ∧ p.sequence ≤ through := by
  induction topics generalizing acc with
  | nil =>
    cases hgather
    simp
  | cons topic topics ih =>
    have hrecords := h.history_records topic
    simp only [PublisherLog.gather] at hgather
    split at hgather
    · rename_i hfind
      have hnone : published.filter (fun p =>
          p.context.topic = topic ∧ after < p.sequence ∧ p.sequence ≤ through) = [] := by
        refine List.filter_eq_nil_iff.mpr fun p hp hmatch => ?_
        have hsome := (h.observed topic).mpr ⟨p, hp, (of_decide_eq_true hmatch).1⟩
        simp [hfind] at hsome
      rw [ih hgather, List.flatMap_cons, hnone, List.nil_append]
    · rename_i history hfind
      rw [PublisherLog.history, hfind, Option.getD_some] at hrecords
      split at hgather
      · cases hgather
      · rename_i hmark
        split at hgather
        · cases hgather
        · rw [ih hgather, List.flatMap_cons, List.append_assoc, hrecords, List.filter_filter]
          congr 2
          refine List.filter_congr fun p _ => ?_
          rw [← Bool.decide_and, decide_eq_decide]
          have hle : after < p.sequence → history.evictedThrough < p.sequence :=
            fun hlt => (not_lt.mp hmark).trans_lt hlt
          tauto

theorem select {topics : TopicSet} (hselect : log.select sha256 after through topics = .ok range) :
    range.records = published.filter fun p =>
      p.context.topic ∈ topics.val ∧ after < p.sequence ∧ p.sequence ≤ through := by
  obtain ⟨records, hgather, hrecords⟩ := PublisherLog.gather_of_select hselect
  have hperm := flatMap_filter_perm (fun p : RetainedPublication => p.context.topic)
    (fun p => after < p.sequence ∧ p.sequence ≤ through) published
    (topics.property.imp ne_of_lt)
  rw [hrecords]
  refine insertionSort_eq_of_perm RetainedPublication.sequence ?_ (h.sorted.filter _)
  rw [h.gather hgather, List.nil_append]
  convert hperm

end Retains

theorem PublisherStep.preserves {s s' : PublisherLog × List RetainedPublication}
    (hstep : PublisherStep s s') (h : Retains s.1 s.2 ∧ WithinLimits s.1) :
    Retains s'.1 s'.2 ∧ WithinLimits s'.1 := by
  obtain ⟨hretains, hlimits⟩ := h
  cases hstep with
  | append happend => exact ⟨hretains.append happend, hlimits.append happend⟩
  | refuse _ => exact ⟨hretains, hlimits⟩
  | evict hevict => exact ⟨hretains.evictOldest hevict, hlimits.evictOldest hevict⟩
  | restart hrestore =>
    rw [(hretains.restorable hlimits).restore_snapshot] at hrestore
    cases hrestore
    exact ⟨hretains, hlimits⟩
  | restartFitted hfit hrestore =>
    obtain ⟨hretains, hlimits⟩ := hretains.fitAttachment hlimits hfit
    rw [(hretains.restorable hlimits).restore_snapshot] at hrestore
    cases hrestore
    exact ⟨hretains, hlimits⟩

/-- A log and everything it accepted, after any run from a new log. -/
def PublisherRun (workspace : WorkspaceId) (author : Block 32) (epoch : U64)
    (log : PublisherLog) (published : List RetainedPublication) : Prop :=
  Relation.ReflTransGen PublisherStep (PublisherLog.new workspace author epoch, [])
    (log, published)

theorem PublisherRun.retains {workspace : WorkspaceId} {author : Block 32} {epoch : U64}
    {published : List RetainedPublication}
    (hrun : PublisherRun workspace author epoch log published) :
    Retains log published ∧ WithinLimits log := by
  have hall : ∀ s, Relation.ReflTransGen PublisherStep
      (PublisherLog.new workspace author epoch, []) s → Retains s.1 s.2 ∧ WithinLimits s.1 := by
    intro s hs
    induction hs with
    | refl =>
      refine ⟨Retains.new workspace author epoch, ⟨⟨Nat.zero_le _, ?_⟩, Nat.zero_le _⟩⟩
      simp [PublisherLog.new]
    | tail _ hstep ih => exact hstep.preserves ih
  exact hall _ hrun

/-- Truthful retention: after any run, an answered selection lists all publications ever
accepted in its range and topics, in order and unchanged; once one of them was evicted the
selection is not answered. -/
theorem select_truthful {workspace : WorkspaceId} {author : Block 32} {epoch : U64}
    {log : PublisherLog} {published : List RetainedPublication}
    (hrun : PublisherRun workspace author epoch log published) (sha256 : Bytes → Block 32)
    (after through : U64) (topics : TopicSet) :
    (∀ range, log.select sha256 after through topics = .ok range →
      (range.records = published.filter fun p =>
        p.context.topic ∈ topics.val ∧ after < p.sequence ∧ p.sequence ≤ through) ∧
      range.records.Pairwise fun a b => a.sequence < b.sequence) ∧
    ((∃ p ∈ published, (p.context.topic ∈ topics.val ∧ after < p.sequence ∧
        p.sequence ≤ through) ∧ p ∉ log.retained) →
      ∀ range, log.select sha256 after through topics ≠ .ok range) := by
  obtain ⟨hretains, _⟩ := hrun.retains
  refine ⟨fun range hselect => ?_, ?_⟩
  · have hrecords := hretains.select hselect
    exact ⟨hrecords, hrecords ▸ hretains.sorted.filter _⟩
  · rintro ⟨p, hp, hmatch, hevicted⟩ range hselect
    refine hevicted (PublisherLog.mem_retained_of_select hselect p ?_)
    rw [hretains.select hselect]
    exact List.mem_filter.mpr ⟨hp, decide_eq_true hmatch⟩

/-- Two publications on topic `a`, of which the first is evicted: the second is selected alone, and
no selection goes back to the first. -/
theorem select_truthful_evicted :
    let context (n : UInt8) : PublicationContext :=
      ⟨zeroBlock 32, 0, ⟨[97], by decide⟩, ⟨List.replicate 16 n, rfl⟩, none⟩
    let log (bytes : Nat) (history : History) (head : U64) : PublisherLog :=
      ⟨zeroBlock 32, zeroBlock 32, 0, head, bytes, ⟨[((context 1).topic, history)],
        List.pairwise_singleton _ _⟩⟩
    let records := [⟨1, context 1, [7]⟩, ⟨2, context 2, [8]⟩]
    let topics : TopicSet := ⟨[(context 1).topic], List.pairwise_singleton _ _⟩
    PublisherRun (zeroBlock 32) (zeroBlock 32) 0 (log 98 ⟨1, records.drop 1⟩ 2) records ∧
      (∃ range, (log 98 ⟨1, records.drop 1⟩ 2).select (fun _ => zeroBlock 32) 1 2 topics =
        .ok range ∧ range.records = records.drop 1) ∧
      ∀ range, (log 98 ⟨1, records.drop 1⟩ 2).select (fun _ => zeroBlock 32) 0 2 topics ≠
        .ok range := by
  intro context log records topics
  have hfirst : (PublisherLog.new (zeroBlock 32) (zeroBlock 32) 0).append (context 1) [7] =
      .ok (1, log 98 ⟨0, records.take 1⟩ 1) := by rfl
  have hsecond : (log 98 ⟨0, records.take 1⟩ 1).append (context 2) [8] =
      .ok (2, log 196 ⟨0, records⟩ 2) := by rfl
  have hevict : (log 196 ⟨0, records⟩ 2).evictOldest =
      some (log 98 ⟨1, records.drop 1⟩ 2) := by rfl
  have hrun : PublisherRun (zeroBlock 32) (zeroBlock 32) 0 (log 98 ⟨1, records.drop 1⟩ 2) records :=
    ((Relation.ReflTransGen.single (.append hfirst)).tail (.append hsecond)).tail (.evict hevict)
  refine ⟨hrun, ⟨_, rfl, ?_⟩, (select_truthful hrun _ 0 2 topics).2 ⟨⟨1, context 1, [7]⟩, ?_⟩⟩
  · exact ((select_truthful hrun (fun _ => zeroBlock 32) 1 2 topics).1 _ rfl).1
  · decide

end Arachne.Delivery
