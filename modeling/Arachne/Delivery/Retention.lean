import Arachne.Lib.Watermark
import Arachne.Delivery.PublisherLog

/-! What a publisher log retains of everything that was ever appended to it. -/

namespace Arachne.Delivery

open ByteCodec Fallible Routing Watermark OrderedMap
open Security (maxApplicationCiphertext)

variable {log log' : PublisherLog} {r : RetainedPublication} {mark : U64} {fuel : Nat}
  {ciphertext : Bytes}

/-- The publications appended so far, in order, and what the log still says about them: per
topic it holds exactly those past the topic's watermark. -/
structure Retains (log : PublisherLog) (published : List RetainedPublication) : Prop where
  sequences : published.map (fun p => p.sequence.val) = List.range' 1 log.head.val
  workspaces : ∀ p ∈ published, p.context.workspace = log.workspace
  ciphertexts : ∀ p ∈ published,
    p.ciphertext ≠ [] ∧ p.ciphertext.length ≤ maxApplicationCiphertext
  numbered : ∀ p ∈ published, ∀ number, p.context.sequence = some number → number.val = p.sequence
  observed : ∀ topic, (log.topics.find? topic).isSome ↔ ∃ p ∈ published, p.context.topic = topic
  records : ∀ topic history, log.topics.find? topic = some history →
    history.records = published.filter fun p =>
      p.context.topic = topic ∧ history.evictedThrough < p.sequence
  watermarks : ∀ topic history, log.topics.find? topic = some history →
    history.evictedThrough = 0 ∨
      ∃ p ∈ published, p.context.topic = topic ∧ p.sequence = history.evictedThrough
  bytes : log.bytes = (log.retained.map RetainedPublication.weight).sum
  ids : ∀ r ∈ log.retained, ∀ r' ∈ log.retained, r.context.id = r'.context.id → r = r'

/-- The limits on topics and on packets per topic. -/
structure WithinCounts (log : PublisherLog) : Prop where
  topics : log.topics.size ≤ maxTopics
  packets : ∀ topic history, log.topics.find? topic = some history →
    history.records.length ≤ maxPacketsPerTopic

structure WithinLimits (log : PublisherLog) : Prop extends WithinCounts log where
  bytes : log.bytes ≤ maxRetainedBytes

namespace PublisherLog

theorem mem_retained_iff (r : RetainedPublication) :
    r ∈ log.retained ↔ ∃ topic history, log.topics.find? topic = some history ∧
      r ∈ history.records := by
  simp only [retained, OrderedMap.values, List.mem_flatMap, List.mem_map, Prod.exists,
    exists_eq_right, ← mem_entries_iff]
  constructor
  · rintro ⟨history, ⟨topic, hentry⟩, hr⟩
    exact ⟨topic, history, hentry, hr⟩
  · rintro ⟨topic, history, hentry, hr⟩
    exact ⟨history, ⟨topic, hentry⟩, hr⟩

theorem sum_retained (f : RetainedPublication → Nat) (log : PublisherLog) :
    (log.retained.map f).sum =
      (log.topics.values.map fun history => (history.records.map f).sum).sum := by
  unfold retained
  induction log.topics.values with
  | nil => rfl
  | cons history histories ih => simp [ih]

variable {topic : Topic} {record : RetainedPublication}

theorem mem_retained_of_history (h : r ∈ (log.history topic).records) : r ∈ log.retained := by
  unfold history at h
  cases hfind : log.topics.find? topic with
  | some history => exact (mem_retained_iff r).mpr ⟨topic, history, hfind, by simpa [hfind] using h⟩
  | none => simp [hfind] at h

theorem find?_push (log : PublisherLog) (record : RetainedPublication) (t : Topic) :
    (log.push record).topics.find? t =
      if record.context.topic = t then
        some { log.history record.context.topic with
          records := (log.history record.context.topic).records ++ [record] }
      else log.topics.find? t :=
  find?_insert _ _ _ _

theorem sum_retained_push (f : RetainedPublication → Nat) (log : PublisherLog)
    (record : RetainedPublication) :
    ((log.push record).retained.map f).sum = (log.retained.map f).sum + f record := by
  have hinsert := sum_values_insert
    (fun history : History => (history.records.map f).sum) log.topics record.context.topic
    { log.history record.context.topic with
      records := (log.history record.context.topic).records ++ [record] }
  have hold : ((log.topics.find? record.context.topic).map fun history : History =>
      (history.records.map f).sum).getD 0 =
        ((log.history record.context.topic).records.map f).sum := by
    unfold history
    cases log.topics.find? record.context.topic <;> rfl
  simp only [hold, List.map_append, List.sum_append, List.map_singleton, List.sum_singleton]
    at hinsert
  simp only [sum_retained, push]
  omega

theorem evict_eq_some : log.evict topic = some log' ↔
    ∃ mark record rest, log.topics.find? topic = some ⟨mark, record :: rest⟩ ∧
      log' = log.dropFront topic record rest := by
  unfold evict
  split
  · rename_i mark record rest hfind
    simp only [hfind, Option.some.injEq]
    constructor
    · rintro rfl
      exact ⟨mark, record, rest, rfl, rfl⟩
    · rintro ⟨mark', record', rest', heq, rfl⟩
      cases heq
      rfl
  · rename_i hfind
    simp only [reduceCtorEq, false_iff]
    rintro ⟨mark, record, rest, heq, _⟩
    exact hfind mark record rest heq

theorem sum_retained_dropFront (f : RetainedPublication → Nat) {rest : List RetainedPublication}
    (hfind : log.topics.find? topic = some ⟨mark, record :: rest⟩) :
    f record + ((log.dropFront topic record rest).retained.map f).sum =
      (log.retained.map f).sum := by
  have hinsert := sum_values_insert
    (fun history : History => (history.records.map f).sum) log.topics topic
    ⟨record.sequence, rest⟩
  simp only [hfind, Option.map_some, Option.getD_some, List.map_cons, List.sum_cons] at hinsert
  simp only [sum_retained, dropFront]
  omega

theorem find?_dropFront (log : PublisherLog) (topic t : Topic) (record : RetainedPublication)
    (rest : List RetainedPublication) : (log.dropFront topic record rest).topics.find? t =
      if topic = t then some ⟨record.sequence, rest⟩ else log.topics.find? t :=
  find?_insert log.topics topic t _

theorem mem_retained_push : r ∈ (log.push record).retained ↔ r ∈ log.retained ∨ r = record := by
  constructor
  · intro hr
    obtain ⟨t, history, ht, hr⟩ := (mem_retained_iff r).mp hr
    rw [find?_push] at ht
    split_ifs at ht with heq
    · cases ht
      rcases List.mem_append.mp hr with hr | hr
      · exact .inl (mem_retained_of_history hr)
      · exact .inr (List.mem_singleton.mp hr)
    · exact .inl ((mem_retained_iff r).mpr ⟨t, history, ht, hr⟩)
  · intro hr
    rw [mem_retained_iff]
    rcases hr with hr | rfl
    · obtain ⟨t, history, ht, hr⟩ := (mem_retained_iff r).mp hr
      by_cases heq : record.context.topic = t
      · refine ⟨t, _, by rw [find?_push, if_pos heq], ?_⟩
        rw [PublisherLog.history, heq, ht]
        exact List.mem_append_left _ hr
      · exact ⟨t, history, by rw [find?_push, if_neg heq, ht], hr⟩
    · refine ⟨r.context.topic, _, by rw [find?_push, if_pos rfl], ?_⟩
      exact List.mem_append_right _ (List.mem_singleton_self r)

theorem ids_push
    (h : ∀ r ∈ log.retained, ∀ r' ∈ log.retained, r.context.id = r'.context.id → r = r')
    (hid : ∀ r ∈ log.retained, r.context.id ≠ record.context.id) :
    ∀ r ∈ (log.push record).retained, ∀ r' ∈ (log.push record).retained,
      r.context.id = r'.context.id → r = r' := by
  intro r hr r' hr' heq
  rcases mem_retained_push.mp hr with hold | hnew <;>
    rcases mem_retained_push.mp hr' with hold' | hnew'
  · exact h r hold r' hold' heq
  · exact absurd (hnew' ▸ heq) (hid r hold)
  · exact absurd (hnew ▸ heq.symm) (hid r' hold')
  · rw [hnew, hnew']

section Fronts

variable {topic : Topic} {record : RetainedPublication} {rest : List RetainedPublication}

variable (hfind : log.topics.find? topic = some ⟨mark, record :: rest⟩)

include hfind

theorem mem_retained_of_dropFront (hr : r ∈ (log.dropFront topic record rest).retained) :
    r ∈ log.retained := by
  obtain ⟨t, history, ht, hmem⟩ := (mem_retained_iff r).mp hr
  rw [find?_dropFront] at ht
  split_ifs at ht with heq
  · cases ht
    exact (mem_retained_iff r).mpr ⟨topic, _, hfind, List.mem_cons_of_mem _ hmem⟩
  · exact (mem_retained_iff r).mpr ⟨t, history, ht, hmem⟩

theorem mem_dropFront_of_retained (hr : r ∈ log.retained) :
    r = record ∨ r ∈ (log.dropFront topic record rest).retained := by
  obtain ⟨t, history, ht, hmem⟩ := (mem_retained_iff r).mp hr
  by_cases heq : topic = t
  · subst heq
    cases Option.some.inj (hfind.symm.trans ht)
    rcases List.mem_cons.mp hmem with rfl | hmem
    · exact .inl rfl
    · exact .inr ((mem_retained_iff r).mpr
        ⟨topic, _, by rw [find?_dropFront, if_pos rfl], hmem⟩)
  · exact .inr ((mem_retained_iff r).mpr
      ⟨t, history, by rw [find?_dropFront, if_neg heq, ht], hmem⟩)

theorem length_retained_dropFront :
    (log.dropFront topic record rest).retained.length + 1 = log.retained.length := by
  have hcount := sum_retained_dropFront (fun _ => 1) hfind
  simp only [List.map_const', List.sum_replicate_nat, Nat.mul_one] at hcount
  omega

end Fronts

theorem evictOldest_eq_some (h : log.evictOldest = some log') :
    ∃ topic, log.evict topic = some log' := by
  unfold evictOldest at h
  split at h
  · exact ⟨_, h⟩
  · cases h

end PublisherLog

namespace Retains

open PublisherLog

variable {published : List RetainedPublication}

theorem sorted (h : Retains log published) :
    published.Pairwise fun a b => a.sequence < b.sequence := by
  have hrange : (published.map fun p => p.sequence.val).Pairwise (· < ·) := by
    rw [h.sequences]
    exact List.pairwise_lt_range'
  exact (List.pairwise_map.mp hrange).imp fun hlt => hlt

theorem sequence_mem (h : Retains log published) {p : RetainedPublication} (hp : p ∈ published) :
    0 < p.sequence ∧ p.sequence ≤ log.head := by
  have hmem : p.sequence.val ∈ published.map fun p => p.sequence.val := List.mem_map_of_mem hp
  rw [h.sequences, List.mem_range'_1] at hmem
  exact ⟨Fin.lt_def.mpr hmem.1, Fin.le_def.mpr (by omega)⟩

theorem published_of_mem (h : Retains log published) (hr : r ∈ log.retained) : r ∈ published := by
  obtain ⟨topic, history, hfind, hmem⟩ := (mem_retained_iff r).mp hr
  rw [h.records topic history hfind] at hmem
  exact List.mem_of_mem_filter hmem

theorem new (workspace : WorkspaceId) (author : Block 32) (epoch : U64) :
    Retains (PublisherLog.new workspace author epoch) [] where
  sequences := rfl
  workspaces := by simp
  ciphertexts := by simp
  numbered := by simp
  observed := by simp [PublisherLog.new]
  records := by simp [PublisherLog.new]
  watermarks := by simp [PublisherLog.new]
  bytes := rfl
  ids := by simp [PublisherLog.new, retained, OrderedMap.values]

variable {topic : Topic}

section

variable (h : Retains log published)

include h

/-- Evicting keeps every publication accounted for: the dropped one is covered by the new
watermark. -/
theorem evict (hevict : log.evict topic = some log') :
    Retains log' published := by
  obtain ⟨mark, record, rest, hfind, rfl⟩ := evict_eq_some.mp hevict
  have hrecords := h.records topic _ hfind
  have hrecord : record ∈ published.filter fun p =>
      p.context.topic = topic ∧ mark < p.sequence := by
    rw [← hrecords]
    exact List.mem_cons_self
  simp only [List.mem_filter, decide_eq_true_eq] at hrecord
  obtain ⟨hpublished, htopic, hmark⟩ := hrecord
  refine ⟨h.sequences, h.workspaces, h.ciphertexts, h.numbered, ?_, ?_, ?_, ?_, ?_⟩
  · intro t
    rw [← h.observed t, find?_dropFront]
    split_ifs with ht
    · subst ht
      simp [hfind]
    · rfl
  · refine forall_find?_insert ?_ h.records
    have hlater := filter_after_head RetainedPublication.sequence h.sorted hrecords.symm
    rw [← hlater]
    refine List.filter_congr fun p _ => ?_
    simp only [decide_eq_decide]
    constructor
    · rintro ⟨⟨ht, _⟩, hlt⟩
      exact ⟨ht, hlt⟩
    · rintro ⟨ht, hlt⟩
      exact ⟨⟨ht, hmark.trans hlt⟩, hlt⟩
  · exact forall_find?_insert (.inr ⟨record, hpublished, htopic, rfl⟩) h.watermarks
  · have hweight := sum_retained_dropFront RetainedPublication.weight hfind
    have hbytes := h.bytes
    simp only [dropFront] at hweight ⊢
    omega
  · have hsubset := fun r => mem_retained_of_dropFront (r := r) hfind
    exact fun r hr r' hr' => h.ids r (hsubset r hr) r' (hsubset r' hr')

theorem evictOldest (hevict : log.evictOldest = some log') :
    Retains log' published := by
  obtain ⟨topic, htopic⟩ := evictOldest_eq_some hevict
  exact h.evict htopic

theorem history_records (topic : Topic) :
    (log.history topic).records = published.filter fun p =>
      p.context.topic = topic ∧ (log.history topic).evictedThrough < p.sequence := by
  unfold PublisherLog.history
  cases hfind : log.topics.find? topic with
  | some history => exact h.records topic history hfind
  | none =>
    have hnone : ¬∃ p ∈ published, p.context.topic = topic := by
      rw [← h.observed topic, hfind]
      simp
    refine (List.filter_eq_nil_iff.mpr fun p hp => ?_).symm
    simp only [decide_eq_true_eq, not_and]
    exact fun ht => absurd ⟨p, hp, ht⟩ hnone

theorem history_watermark (topic : Topic) :
    (log.history topic).evictedThrough = 0 ∨ ∃ p ∈ published, p.context.topic = topic ∧
      p.sequence = (log.history topic).evictedThrough := by
  unfold PublisherLog.history
  cases hfind : log.topics.find? topic with
  | some history => exact h.watermarks topic history hfind
  | none => exact .inl rfl

theorem watermark_le_head (topic : Topic) :
    (log.history topic).evictedThrough ≤ log.head := by
  rcases h.history_watermark topic with hzero | ⟨p, hp, _, heq⟩
  · rw [hzero]
    exact Fin.zero_le _
  · rw [← heq]
    exact (h.sequence_mem hp).2

/-- Appending the next publication to the history. -/
theorem push {record : RetainedPublication}
    (hsequence : checkedSucc log.head = some record.sequence)
    (hworkspace : record.context.workspace = log.workspace)
    (hciphertext : record.ciphertext ≠ [] ∧ record.ciphertext.length ≤ maxApplicationCiphertext)
    (hnumber : ∀ number, record.context.sequence = some number → number.val = record.sequence)
    (hid : ∀ r ∈ log.retained, r.context.id ≠ record.context.id) :
    Retains (log.push record) (published ++ [record]) := by
  have hhead : record.sequence.val = log.head.val + 1 := checkedSucc_val hsequence
  have hmark : (log.history record.context.topic).evictedThrough < record.sequence := by
    have hle := h.watermark_le_head record.context.topic
    rw [Fin.le_def] at hle
    rw [Fin.lt_def]
    omega
  refine ⟨?_, ?_, ?_, ?_, ?_, ?_, ?_, ?_, ?_⟩
  · simp only [List.map_append, h.sequences, List.map_singleton, hhead, PublisherLog.push]
    rw [List.range'_concat]
    simp [Nat.add_comm]
  · exact List.forall_mem_append.mpr ⟨h.workspaces, fun p hp =>
      List.mem_singleton.mp hp ▸ hworkspace⟩
  · exact List.forall_mem_append.mpr ⟨h.ciphertexts, by simpa using hciphertext⟩
  · exact List.forall_mem_append.mpr ⟨h.numbered, fun p hp => List.mem_singleton.mp hp ▸ hnumber⟩
  · intro t
    rw [find?_push]
    split_ifs with ht
    · simp [ht]
    · rw [h.observed]
      simp [ht]
  · intro t history ht
    rw [find?_push] at ht
    split_ifs at ht with heq
    · cases ht
      subst heq
      rw [List.filter_append, ← h.history_records]
      simp [hmark]
    · simp [List.filter_append, heq, h.records t history ht]
  · have hmore : ∀ {p : RetainedPublication → Prop}, (∃ r ∈ published, p r) →
        ∃ r ∈ published ++ [record], p r := by
      rintro p ⟨r, hr, hp⟩
      exact ⟨r, List.mem_append_left _ hr, hp⟩
    exact forall_find?_insert ((h.history_watermark record.context.topic).imp_right hmore)
      fun t history ht => (h.watermarks t history ht).imp_right hmore
  · rw [sum_retained_push, ← h.bytes]
    rfl
  · exact ids_push h.ids hid

theorem evictToCount (hevict : log.evictToCount topic = .ok log') :
    Retains log' published := by
  unfold PublisherLog.evictToCount at hevict
  split at hevict
  · split at hevict
    · exact h.evict (orFail_eq_ok.mp hevict)
    · cases hevict
      exact h
  · cases hevict

theorem evictToBytes (hevict : PublisherLog.evictToBytes fuel log = .ok log') :
    Retains log' published := by
  induction fuel generalizing log with
  | zero =>
    simp only [PublisherLog.evictToBytes] at hevict
    split at hevict
    · cases hevict
      exact h
    · cases hevict
  | succ fuel ih =>
    simp only [PublisherLog.evictToBytes] at hevict
    split at hevict
    · cases hevict
      exact h
    · obtain ⟨next, hnext, hrest⟩ := bind_eq_ok.mp hevict
      exact ih (h.evictOldest (orFail_eq_ok.mp hnext)) hrest

theorem append {context : PublicationContext} {sequence : U64}
    (happend : log.append context ciphertext = .ok (sequence, log')) :
    Retains log' (published ++ [⟨sequence, context, ciphertext⟩]) := by
  simp only [PublisherLog.append, bind_eq_ok, failIf_eq_ok, orFail_eq_ok, pure_eq_ok,
    Prod.mk.injEq] at happend
  obtain ⟨_, hvalid, _, _, _, hfresh, next, hnext, _, hnumber, counted, hcounted, trimmed,
    htrimmed, rfl, rfl⟩ := happend
  push Not at hvalid hfresh
  have hnumbered : ∀ number, context.sequence = some number → number.val = next := by
    intro number heq
    rw [heq] at hnumber
    simpa using hnumber
  have hpush : Retains (log.push ⟨next, context, ciphertext⟩) _ :=
    h.push hnext hvalid.1 ⟨hvalid.2.1, hvalid.2.2⟩ hnumbered hfresh
  exact (hpush.evictToCount hcounted).evictToBytes htrimmed

end

end Retains

section Limits

open PublisherLog

variable {topic : Topic}

theorem size_dropFront {record : RetainedPublication} {rest : List RetainedPublication}
    (hfind : log.topics.find? topic = some ⟨mark, record :: rest⟩) :
    (log.dropFront topic record rest).topics.size = log.topics.size := by
  have hsize := size_insert log.topics topic ⟨record.sequence, rest⟩
  simpa [hfind, dropFront] using hsize

theorem WithinCounts.evict_of (htopics : log.topics.size ≤ maxTopics)
    (hothers : ∀ t history, t ≠ topic → log.topics.find? t = some history →
      history.records.length ≤ maxPacketsPerTopic)
    (hpackets : ∀ history, log.topics.find? topic = some history →
      history.records.length ≤ maxPacketsPerTopic + 1)
    (hevict : log.evict topic = some log') : WithinCounts log' := by
  obtain ⟨mark, record, rest, hfind, rfl⟩ := evict_eq_some.mp hevict
  refine ⟨size_dropFront hfind ▸ htopics, ?_⟩
  intro t history ht
  rw [find?_dropFront] at ht
  split_ifs at ht with heq
  · cases ht
    exact Nat.le_of_succ_le_succ (hpackets _ hfind)
  · exact hothers t history (Ne.symm heq) ht

theorem WithinCounts.evict (h : WithinCounts log) (hevict : log.evict topic = some log') :
    WithinCounts log' :=
  .evict_of h.topics (fun t history _ => h.packets t history)
    (fun history hfind => (h.packets topic history hfind).trans (Nat.le_succ _)) hevict

theorem WithinLimits.evictOldest (h : WithinLimits log) (hevict : log.evictOldest = some log') :
    WithinLimits log' := by
  obtain ⟨topic, htopic⟩ := evictOldest_eq_some hevict
  refine ⟨h.toWithinCounts.evict htopic, ?_⟩
  obtain ⟨mark, record, rest, _, rfl⟩ := evict_eq_some.mp htopic
  exact (Nat.sub_le _ _).trans h.bytes

theorem WithinCounts.evictToBytes (h : WithinCounts log)
    (hevict : PublisherLog.evictToBytes fuel log = .ok log') : WithinLimits log' := by
  induction fuel generalizing log with
  | zero =>
    simp only [PublisherLog.evictToBytes] at hevict
    split at hevict
    · cases hevict
      exact ⟨h, by assumption⟩
    · cases hevict
  | succ fuel ih =>
    simp only [PublisherLog.evictToBytes] at hevict
    split at hevict
    · cases hevict
      exact ⟨h, by assumption⟩
    · obtain ⟨next, hnext, hrest⟩ := bind_eq_ok.mp hevict
      obtain ⟨topic, htopic⟩ := evictOldest_eq_some (orFail_eq_ok.mp hnext)
      exact ih (h.evict htopic) hrest

theorem WithinLimits.append (h : WithinLimits log) {context : PublicationContext} {sequence : U64}
    (happend : log.append context ciphertext = .ok (sequence, log')) : WithinLimits log' := by
  simp only [PublisherLog.append, bind_eq_ok, failIf_eq_ok, orFail_eq_ok, pure_eq_ok,
    Prod.mk.injEq] at happend
  obtain ⟨_, _, _, hroom, _, _, next, _, _, _, counted, hcounted, trimmed, htrimmed, rfl, rfl⟩ :=
    happend
  suffices hcounts : WithinCounts counted from hcounts.evictToBytes htrimmed
  set record : RetainedPublication := ⟨next, context, ciphertext⟩ with hrecord
  have htopics : (log.push record).topics.size ≤ maxTopics := by
    have hsize := size_insert log.topics context.topic
      ⟨(log.history context.topic).evictedThrough,
        (log.history context.topic).records ++ [record]⟩
    have hle := h.topics
    change (log.topics.insert context.topic ⟨(log.history context.topic).evictedThrough,
      (log.history context.topic).records ++ [record]⟩).size ≤ maxTopics
    cases hfind : log.topics.find? context.topic with
    | some history =>
      simp only [hfind, Option.isSome_some, if_true] at hsize
      omega
    | none =>
      simp only [hfind, Option.isSome_none, Bool.false_eq_true, if_false] at hsize
      simp only [hfind, true_and] at hroom
      omega
  have hothers : ∀ t history, t ≠ context.topic → (log.push record).topics.find? t = some history →
      history.records.length ≤ maxPacketsPerTopic := by
    intro t history hne ht
    rw [find?_push, if_neg (Ne.symm hne)] at ht
    exact h.packets t history ht
  have hlength : (log.history context.topic).records.length ≤ maxPacketsPerTopic := by
    unfold history
    cases hfind : log.topics.find? context.topic with
    | some history => exact h.packets _ _ hfind
    | none => exact Nat.zero_le _
  have hfind := find?_push log record context.topic
  rw [if_pos rfl] at hfind
  simp only [evictToCount, hfind] at hcounted
  split at hcounted
  · refine .evict_of htopics hothers ?_ (orFail_eq_ok.mp hcounted)
    intro history ht
    cases hfind.symm.trans ht
    simpa using hlength
  · rename_i hcount
    cases hcounted
    refine ⟨htopics, ?_⟩
    intro t history ht
    by_cases heq : t = context.topic
    · subst heq
      cases hfind.symm.trans ht
      exact Nat.le_of_not_lt hcount
    · exact hothers t history heq ht

end Limits

end Arachne.Delivery
