import Mathlib.Data.List.Pairwise
import Arachne.Delivery.PublisherRuns

/-! The representation of a publisher log. What the decoder accepts is represented as it should
be, appending keeps the representation, and a log so represented decodes from its own snapshot. -/

namespace Arachne.Delivery

open ByteCodec Fallible Routing Watermark OrderedMap
open RetainedPublication (weight)

variable {log log' : PublisherLog} {ciphertext : Bytes}

/-- The sequences that a history carries: its watermark, where it has one, and its records. -/
def History.sequences (history : History) : List U64 :=
  (if history.evictedThrough ≠ 0 then [history.evictedThrough] else []) ++
    history.records.map RetainedPublication.sequence

theorem allSequences_eq (entries : List (Topic × History)) :
    allSequences entries = entries.flatMap fun entry => entry.2.sequences := rfl

/-- The representation of a log, topic by topic and without the limits. -/
structure Coherent (log : PublisherLog) : Prop where
  formed : ∀ topic history, log.topics.find? topic = some history →
    ∀ r ∈ history.records, WellFormed log.workspace topic r
  sorted : ∀ topic history, log.topics.find? topic = some history →
    (history.evictedThrough :: history.records.map RetainedPublication.sequence).Pairwise (· < ·)
  observed : ∀ topic history, log.topics.find? topic = some history →
    ¬(history.records = [] ∧ history.evictedThrough = 0)
  apart : ∀ topic history topic' history', log.topics.find? topic = some history →
    log.topics.find? topic' = some history' →
    ∀ s ∈ history.sequences, s ∈ history'.sequences → topic = topic'
  bounded : ∀ topic history, log.topics.find? topic = some history →
    ∀ s ∈ history.sequences, s ≤ log.head
  reached : log.head = 0 ∨ ∃ topic history, log.topics.find? topic = some history ∧
    log.head ∈ history.sequences
  ids : ∀ r ∈ log.retained, ∀ r' ∈ log.retained, r.context.id = r'.context.id → r = r'
  total : log.bytes = (log.retained.map weight).sum

section Representation

open PublisherLog

theorem Restorable.coherent (h : Restorable log) : Coherent log := by
  have hentry : ∀ topic history, log.topics.find? topic = some history →
      (topic, history) ∈ log.topics.entries :=
    fun topic history => (log.topics.mem_entries_iff topic history).mpr
  refine ⟨fun t history hfind => h.formed _ (hentry t history hfind),
    fun t history hfind => h.sorted _ (hentry t history hfind),
    fun t history hfind => h.observed _ (hentry t history hfind), ?_, ?_, ?_, ?_, ?_⟩
  · intro t history t' history' hfind hfind' s hs hs'
    have hdistinct := h.distinct
    rw [allSequences_eq, List.nodup_flatMap] at hdistinct
    have hsymm : Std.Symm (Function.onFun List.Disjoint fun entry : Topic × History =>
        entry.2.sequences) := ⟨fun _ _ hdisjoint _ hs hs' => hdisjoint hs' hs⟩
    by_contra hne
    have hapart := hdistinct.2.forall (hentry t history hfind) (hentry t' history' hfind')
      (fun heq => hne (congrArg Prod.fst heq))
    exact hapart hs hs'
  · intro t history hfind s hs
    exact h.bounded s (List.mem_flatMap.mpr ⟨_, hentry t history hfind, hs⟩)
  · rcases h.reached with hmem | hzero
    · obtain ⟨⟨t, history⟩, hmem, hhead⟩ := List.mem_flatMap.mp hmem
      exact .inr ⟨t, history, (log.topics.mem_entries_iff t history).mp hmem, hhead⟩
    · exact .inl hzero
  · have hids := h.ids
    rw [allRecords_eq] at hids
    exact fun r hr r' hr' => List.inj_on_of_nodup_map hids hr hr'
  · rw [← allRecords_eq]
    exact h.total

theorem Coherent.distinct (h : Coherent log) : (allSequences log.topics.entries).Nodup := by
  have hfind : ∀ entry ∈ log.topics.entries, log.topics.find? entry.1 = some entry.2 :=
    fun entry => (log.topics.mem_entries_iff entry.1 entry.2).mp
  refine List.nodup_flatMap.mpr ⟨?_, ?_⟩
  · intro entry hentry
    have hsorted := h.sorted entry.1 entry.2 (hfind entry hentry)
    split_ifs
    · exact hsorted.imp ne_of_lt
    · exact (List.pairwise_cons.mp hsorted).2.imp ne_of_lt
  · refine List.Pairwise.imp_of_mem ?_ log.topics.ascending
    intro e e' he he' hlt s hs hs'
    exact hlt.ne (h.apart _ _ _ _ (hfind e he) (hfind e' he') s hs hs')

theorem Coherent.restorable (h : Coherent log) (hlimits : WithinLimits log) : Restorable log := by
  have hfind : ∀ entry ∈ log.topics.entries, log.topics.find? entry.1 = some entry.2 :=
    fun entry => (log.topics.mem_entries_iff entry.1 entry.2).mp
  refine ⟨hlimits, fun entry hentry => h.formed _ _ (hfind entry hentry),
    fun entry hentry => h.sorted _ _ (hfind entry hentry),
    fun entry hentry => h.observed _ _ (hfind entry hentry), h.distinct, ?_, ?_, ?_, ?_⟩
  · intro s hs
    obtain ⟨entry, hentry, hs⟩ := List.mem_flatMap.mp hs
    exact h.bounded _ _ (hfind entry hentry) s hs
  · rcases h.reached with hzero | ⟨topic, history, hhistory, hhead⟩
    · exact .inr hzero
    · exact .inl (List.mem_flatMap.mpr
        ⟨_, (log.topics.mem_entries_iff topic history).mpr hhistory, hhead⟩)
  · rw [allRecords_eq]
    exact (retained_nodup h.distinct).map_on h.ids
  · rw [allRecords_eq]
    exact h.total

theorem coherent_new (workspace : WorkspaceId) (author : Block 32) (epoch : U64) :
    Coherent (PublisherLog.new workspace author epoch) := by
  refine ⟨nofun, nofun, nofun, nofun, nofun, .inl rfl, nofun, rfl⟩

theorem Coherent.history_sorted (h : Coherent log) (topic : Topic) :
    ((log.history topic).evictedThrough ::
      (log.history topic).records.map RetainedPublication.sequence).Pairwise (· < ·) := by
  rw [history]
  cases hfind : log.topics.find? topic with
  | none => exact List.pairwise_singleton _ _
  | some history => exact h.sorted topic history hfind

theorem Coherent.history_bounded (h : Coherent log) (topic : Topic) :
    ∀ s ∈ (log.history topic).evictedThrough ::
      (log.history topic).records.map RetainedPublication.sequence, s ≤ log.head := by
  rw [history]
  cases hfind : log.topics.find? topic with
  | none =>
    intro s hs
    rw [List.mem_singleton.mp hs]
    exact Fin.zero_le _
  | some history =>
    rw [Option.getD_some, List.forall_mem_cons]
    refine ⟨?_, fun s hs => h.bounded topic history hfind s (List.mem_append_right _ hs)⟩
    by_cases hzero : history.evictedThrough = 0
    · rw [hzero]
      exact Fin.zero_le _
    · exact h.bounded topic history hfind _
        (List.mem_append_left _ (by rw [if_pos hzero]; exact List.mem_singleton_self _))

theorem Coherent.history_formed (h : Coherent log) (topic : Topic) :
    ∀ r ∈ (log.history topic).records, WellFormed log.workspace topic r := by
  rw [history]
  cases hfind : log.topics.find? topic with
  | none => exact List.forall_mem_nil _
  | some history => exact h.formed topic history hfind

theorem History.sequences_subset (history : History) :
    history.sequences ⊆
      history.evictedThrough :: history.records.map RetainedPublication.sequence := by
  rw [History.sequences]
  split_ifs
  · exact List.Subset.refl _
  · exact List.subset_cons_self _ _

theorem History.sequences_concat (history : History) (record : RetainedPublication) :
    History.sequences { history with records := history.records ++ [record] } =
      history.sequences ++ [record.sequence] := by
  simp only [History.sequences, List.map_append, List.map_singleton, List.append_assoc]

variable {topic : Topic} {record r newest : RetainedPublication}

section

variable (h : Coherent log)

include h

theorem Coherent.history_apart {topic' : Topic} {history' : History}
    (hfind : log.topics.find? topic' = some history') {s : U64}
    (hs : s ∈ (log.history topic).sequences) (hs' : s ∈ history'.sequences) : topic = topic' := by
  rw [history] at hs
  cases hhistory : log.topics.find? topic with
  | none =>
    rw [hhistory] at hs
    cases hs
  | some history =>
    rw [hhistory] at hs
    exact h.apart _ _ _ _ hhistory hfind s hs hs'

/-- Appending a record with the next sequence keeps the representation. -/
theorem Coherent.push (hsequence : checkedSucc log.head = some record.sequence)
    (hformed : WellFormed log.workspace record.context.topic record)
    (hid : ∀ r ∈ log.retained, r.context.id ≠ record.context.id) : Coherent (log.push record) := by
  have hlt : log.head < record.sequence := by
    rw [Fin.lt_def, checkedSucc_val hsequence]
    exact Nat.lt_succ_self _
  have hbelow : ∀ topic history, log.topics.find? topic = some history →
      ∀ s ∈ history.sequences, s < record.sequence :=
    fun topic history hfind s hs => (h.bounded topic history hfind s hs).trans_lt hlt
  have hown : ∀ topic history, log.topics.find? topic = some history →
      ∀ s ∈ (log.history record.context.topic).sequences ++ [record.sequence],
        s ∈ history.sequences → record.context.topic = topic := by
    intro topic history hfind s hs hmem
    rcases List.mem_append.mp hs with hs | hs
    · exact h.history_apart hfind hs hmem
    · rw [List.mem_singleton.mp hs] at hmem
      exact absurd (hbelow topic history hfind _ hmem) (lt_irrefl _)
  refine ⟨forall_find?_insert ?_ h.formed, forall_find?_insert ?_ h.sorted,
    forall_find?_insert ?_ h.observed, ?_, forall_find?_insert ?_ ?_, ?_, ids_push h.ids hid, ?_⟩
  · rw [List.forall_mem_append]
    exact ⟨h.history_formed _, fun r hr => List.mem_singleton.mp hr ▸ hformed⟩
  · rw [List.map_append, ← List.cons_append]
    refine List.pairwise_append.mpr ⟨h.history_sorted _, List.pairwise_singleton _ _, ?_⟩
    intro s hs s' hs'
    rw [List.mem_singleton.mp hs']
    exact (h.history_bounded _ s hs).trans_lt hlt
  · rintro ⟨hnil, _⟩
    exact List.append_ne_nil_of_right_ne_nil _ (List.cons_ne_nil _ _) hnil
  · intro t history t' history' hfind hfind' s hs hs'
    rw [find?_push] at hfind hfind'
    split_ifs at hfind hfind' with heq heq' heq'
    · exact heq.symm.trans heq'
    · cases hfind
      rw [History.sequences_concat] at hs
      exact heq.symm.trans (hown t' history' hfind' s hs hs')
    · cases hfind'
      rw [History.sequences_concat] at hs'
      exact (hown t history hfind s hs' hs).symm.trans heq'
    · exact h.apart t history t' history' hfind hfind' s hs hs'
  · intro s hs
    rw [History.sequences_concat] at hs
    rcases List.mem_append.mp hs with hs | hs
    · exact (h.history_bounded _ s (History.sequences_subset _ hs)).trans hlt.le
    · exact (List.mem_singleton.mp hs).le
  · exact fun t history hfind s hs => (hbelow t history hfind s hs).le
  · refine .inr ⟨record.context.topic, _, by rw [find?_push, if_pos rfl], ?_⟩
    rw [History.sequences_concat]
    exact List.mem_append_right _ (List.mem_singleton_self _)
  · rw [sum_retained_push, ← h.total]
    rfl

/-- Evicting the front record of a topic keeps the representation. -/
theorem Coherent.evict (hevict : log.evict topic = some log') :
    Coherent log' := by
  obtain ⟨mark, record, rest, hfind, rfl⟩ := evict_eq_some.mp hevict
  have hsorted := h.sorted topic _ hfind
  rw [List.map_cons] at hsorted
  have hmark : mark < record.sequence := (List.pairwise_cons.mp hsorted).1 _ List.mem_cons_self
  have hsequences : History.sequences ⟨record.sequence, rest⟩ =
      (record :: rest).map RetainedPublication.sequence := by
    rw [History.sequences, if_pos (Fin.ne_zero_of_lt hmark)]
    rfl
  have hkept : ∀ t history, (log.dropFront topic record rest).topics.find? t = some history →
      ∃ old, log.topics.find? t = some old ∧ history.sequences ⊆ old.sequences := by
    refine forall_find?_insert ⟨_, hfind, ?_⟩ fun t history ht => ⟨history, ht, List.Subset.refl _⟩
    rw [hsequences]
    exact List.subset_append_right _ _
  refine ⟨forall_find?_insert ?_ h.formed, forall_find?_insert ?_ h.sorted,
    forall_find?_insert ?_ h.observed, ?_, ?_, ?_, ?_, ?_⟩
  · exact fun r hr => h.formed topic _ hfind r (List.mem_cons_of_mem _ hr)
  · exact (List.pairwise_cons.mp hsorted).2
  · exact fun hnone => Fin.ne_zero_of_lt hmark hnone.2
  · intro t history t' history' ht ht' s hs hs'
    obtain ⟨old, hold, hsubset⟩ := hkept t history ht
    obtain ⟨old', hold', hsubset'⟩ := hkept t' history' ht'
    exact h.apart t old t' old' hold hold' s (hsubset hs) (hsubset' hs')
  · intro t history ht s hs
    obtain ⟨old, hold, hsubset⟩ := hkept t history ht
    exact h.bounded t old hold s (hsubset hs)
  · rcases h.reached with hzero | ⟨t, history, ht, hhead⟩
    · exact .inl hzero
    · by_cases heq : topic = t
      · subst heq
        cases Option.some.inj (hfind.symm.trans ht)
        refine .inr ⟨topic, _, by rw [find?_dropFront, if_pos rfl], ?_⟩
        rw [hsequences]
        -- the head is not the old watermark, which lies below the evicted record
        rcases List.mem_cons.mp (History.sequences_subset _ hhead) with hold | hmem
        · have hbound := h.bounded topic _ hfind record.sequence
            (List.mem_append_right _ List.mem_cons_self)
          exact absurd (hbound.trans_lt (hold.trans_lt hmark)) (lt_irrefl _)
        · exact hmem
      · exact .inr ⟨t, history, by rw [find?_dropFront, if_neg heq, ht], hhead⟩
  · have hsubset := fun r => mem_retained_of_dropFront (r := r) hfind
    exact fun r hr r' hr' => h.ids r (hsubset r hr) r' (hsubset r' hr')
  · have hweight := sum_retained_dropFront weight hfind
    have htotal := h.total
    simp only [dropFront] at hweight ⊢
    omega

theorem Coherent.evictOldest (hevict : log.evictOldest = some log') :
    Coherent log' := by
  obtain ⟨topic, htopic⟩ := evictOldest_eq_some hevict
  exact h.evict htopic

/-- While a record is retained, the oldest one can be evicted. -/
theorem Coherent.exists_evictOldest (hr : r ∈ log.retained) :
    ∃ topic mark record rest, log.topics.find? topic = some ⟨mark, record :: rest⟩ ∧
      log.evictOldest = some (log.dropFront topic record rest) ∧
      record.sequence ≤ r.sequence := by
  obtain ⟨t, ⟨mark, records⟩, hfind, hmem⟩ := (mem_retained_iff r).mp hr
  obtain ⟨first, others, rfl⟩ := List.exists_cons_of_ne_nil (List.ne_nil_of_mem hmem)
  have hfirst : first.sequence ≤ r.sequence := by
    rcases List.mem_cons.mp hmem with rfl | hmem
    · exact le_rfl
    · have hsorted := (List.pairwise_cons.mp (h.sorted t _ hfind)).2
      exact ((List.pairwise_cons.mp hsorted).1 _ (List.mem_map_of_mem hmem)).le
  have hfront : (first.sequence, t) ∈ log.fronts := by
    rw [fronts, List.mem_filterMap]
    exact ⟨_, (log.topics.mem_entries_iff t _).mpr hfind, rfl⟩
  obtain ⟨⟨s, topic⟩, holdest⟩ := Option.ne_none_iff_exists'.mp
    (mt List.argmin_eq_none.mp (List.ne_nil_of_mem hfront) : log.fronts.argmin Prod.fst ≠ none)
  have hleast : s ≤ first.sequence := List.le_of_mem_argmin hfront holdest
  have hmemFronts := List.argmin_mem holdest
  rw [fronts, List.mem_filterMap] at hmemFronts
  obtain ⟨⟨topic', mark', records'⟩, hentry, hhead⟩ := hmemFronts
  obtain ⟨record, hrecord, hpair⟩ := Option.map_eq_some_iff.mp hhead
  cases hpair
  obtain ⟨rest, rfl⟩ := List.head?_eq_some_iff.mp hrecord
  have hfind' := (log.topics.mem_entries_iff _ _).mp hentry
  refine ⟨_, mark', record, rest, hfind', ?_, hleast.trans hfirst⟩
  simp only [PublisherLog.evictOldest, holdest]
  exact evict_eq_some.mpr ⟨mark', record, rest, hfind', rfl⟩

theorem Coherent.sequence_le_head (hr : r ∈ log.retained) :
    r.sequence ≤ log.head := by
  obtain ⟨t, history, hfind, hmem⟩ := (mem_retained_iff r).mp hr
  exact h.bounded t history hfind _ (List.mem_append_right _ (List.mem_map_of_mem hmem))

theorem Coherent.exists_other (hmem : newest ∈ log.retained) (hweight : newest.weight < log.bytes) :
    ∃ r ∈ log.retained, r ≠ newest := by
  by_contra hall
  push Not at hall
  have hsingle : log.retained = [newest] := by
    have hnodup := retained_nodup h.distinct
    have hcount := (List.nodup_iff_count_le_one.mp hnodup) newest
    have hreplicate := List.eq_replicate_of_mem hall
    rw [hreplicate, List.count_replicate_self] at hcount
    have hpos := List.length_pos_of_mem hmem
    rw [hreplicate, show log.retained.length = 1 by omega]
    rfl
  have htotal := h.total
  rw [hsingle, List.map_singleton, List.sum_singleton] at htotal
  omega

/-- The byte loop of `append` ends without its assertion failing, and keeps the newest record. -/
theorem Coherent.evictToBytes (hmem : newest ∈ log.retained) (hnewest : newest.sequence = log.head)
    (hweight : newest.weight ≤ maxRetainedBytes) {fuel : Nat} (hfuel : log.retained.length ≤ fuel) :
    ∃ trimmed, PublisherLog.evictToBytes fuel log = .ok trimmed ∧ Coherent trimmed ∧
      newest ∈ trimmed.retained := by
  induction fuel generalizing log with
  | zero =>
    have hpos := List.length_pos_of_mem hmem
    omega
  | succ fuel ih =>
    rw [PublisherLog.evictToBytes]
    by_cases hfits : log.bytes ≤ maxRetainedBytes
    · exact ⟨log, if_pos hfits, h, hmem⟩
    · obtain ⟨r, hr, hne⟩ := h.exists_other hmem (by omega)
      obtain ⟨topic, mark, record, rest, hfind, holdest, hle⟩ := h.exists_evictOldest hr
      have hlt : r.sequence < log.head :=
        lt_of_le_of_ne (h.sequence_le_head hr)
          (fun heq => hne (List.inj_on_of_nodup_map (sequences_nodup h.distinct) hr hmem
            (heq.trans hnewest.symm)))
      have hkept : newest ∈ (log.dropFront topic record rest).retained := by
        rcases mem_dropFront_of_retained hfind hmem with rfl | hkept
        · rw [hnewest] at hle
          exact absurd (hle.trans_lt hlt) (lt_irrefl _)
        · exact hkept
      have hlength := length_retained_dropFront hfind
      rw [if_neg hfits, holdest, orFail_some, ok_bind]
      exact ih (h.evictOldest holdest) hkept hnewest (by omega)

end

theorem Coherent.evictToCount (h : Coherent (log.push record)) :
    ∃ counted, (log.push record).evictToCount record.context.topic = .ok counted ∧
      Coherent counted ∧ record ∈ counted.retained ∧ counted.head = record.sequence := by
  have hfind := find?_push log record record.context.topic
  rw [if_pos rfl] at hfind
  have hmem : record ∈ (log.push record).retained := mem_retained_push.mpr (.inr rfl)
  rw [PublisherLog.evictToCount, hfind]
  simp only []
  split
  · rename_i hmany
    rw [List.length_append, List.length_singleton] at hmany
    obtain ⟨first, others, hrecords⟩ :=
      List.exists_cons_of_length_pos (l := (log.history record.context.topic).records)
        (by rw [maxPacketsPerTopic] at hmany; omega)
    rw [hrecords, List.cons_append] at hfind
    have hevict := evict_eq_some.mpr ⟨_, first, others ++ [record], hfind, rfl⟩
    refine ⟨_, by rw [hevict, orFail_some], h.evict hevict, ?_, rfl⟩
    refine (mem_retained_iff record).mpr
      ⟨record.context.topic, ⟨first.sequence, others ++ [record]⟩, ?_, ?_⟩
    · rw [find?_dropFront, if_pos rfl]
    · exact List.mem_append_right _ (List.mem_singleton_self _)
  · exact ⟨_, rfl, h, hmem, rfl⟩

end Representation

/-- The errors that `append` returns. -/
def appendRefusals : List String :=
  ["invalid retained publication", "retention topic limit", "publication already retained",
    "publisher sequence exhausted", "authenticated sequence does not match publisher index"]

section Append

open PublisherLog

/-- The evictions of an append that is not refused end, with the new record retained. -/
theorem Coherent.settles (h : Coherent log) {context : PublicationContext} {sequence : U64}
    (hsequence : checkedSucc log.head = some sequence)
    (hformed : WellFormed log.workspace context.topic ⟨sequence, context, ciphertext⟩)
    (hid : ∀ r ∈ log.retained, r.context.id ≠ context.id) : ∃ counted trimmed,
      (log.push ⟨sequence, context, ciphertext⟩).evictToCount context.topic = .ok counted ∧
      PublisherLog.evictToBytes counted.retained.length counted = .ok trimmed ∧
      Coherent trimmed ∧ ⟨sequence, context, ciphertext⟩ ∈ trimmed.retained := by
  have hpushed : Coherent (log.push ⟨sequence, context, ciphertext⟩) := h.push hsequence hformed hid
  have hweight : weight ⟨sequence, context, ciphertext⟩ ≤
      maxRetainedBytes := by
    have hcontext := context.length_authenticatedBytes_le
    have hciphertext : ciphertext.length ≤ 16 * 1024 := hformed.bounded
    simp only [weight, maxRetainedBytes]
    omega
  obtain ⟨counted, hcounted, hcoherent, hmem, hhead⟩ := hpushed.evictToCount
  obtain ⟨trimmed, htrimmed, hresult, hkept⟩ :=
    hcoherent.evictToBytes hmem hhead.symm hweight le_rfl
  exact ⟨counted, trimmed, hcounted, htrimmed, hresult, hkept⟩

theorem wellFormed_of_append {context : PublicationContext} {sequence : U64}
    (hvalid : ¬(context.workspace ≠ log.workspace ∨ ciphertext = [] ∨
      ciphertext.length > Security.maxApplicationCiphertext))
    (hnumber : ¬context.sequence.any (fun number => number.val ≠ sequence) = true) :
    WellFormed log.workspace context.topic ⟨sequence, context, ciphertext⟩ := by
  push Not at hvalid
  refine ⟨hvalid.1, rfl, hvalid.2.1, hvalid.2.2, ?_⟩
  intro number hsome
  have hsome' : context.sequence = some number := hsome
  rw [hsome', Option.any_some, decide_eq_true_eq, not_not] at hnumber
  exact hnumber

variable {context : PublicationContext} {sequence : U64}

theorem Coherent.append_ok (h : Coherent log)
    (happend : log.append context ciphertext = .ok (sequence, log')) :
    Coherent log' ∧ sequence.val = log.head.val + 1 ∧
      ⟨sequence, context, ciphertext⟩ ∈ log'.retained := by
  simp only [PublisherLog.append, bind_eq_ok, failIf_eq_ok, orFail_eq_ok, pure_eq_ok,
    Prod.mk.injEq] at happend
  obtain ⟨_, hvalid, _, _, _, hfresh, _, hnext, _, hnumber, counted, hcounted, _, htrimmed, rfl,
    rfl⟩ := happend
  push Not at hfresh
  obtain ⟨counted', trimmed', hcounted', htrimmed', hcoherent, hkept⟩ :=
    h.settles hnext (wellFormed_of_append hvalid hnumber) hfresh
  cases ok_unique hcounted hcounted'
  cases ok_unique htrimmed htrimmed'
  exact ⟨hcoherent, checkedSucc_val hnext, hkept⟩

theorem Coherent.append_error (h : Coherent log) {message : String}
    (happend : log.append context ciphertext = .error message) : message ∈ appendRefusals := by
  simp only [PublisherLog.append, bind_eq_error, failIf_eq_error, failIf_eq_ok, orFail_eq_error,
    orFail_eq_ok, pure_ne_error, and_false, exists_false, or_false] at happend
  obtain ⟨_, rfl⟩ | ⟨_, hvalid, ⟨_, rfl⟩ | ⟨_, hroom, ⟨_, rfl⟩ | ⟨_, hfresh, ⟨_, rfl⟩ |
    ⟨sequence, hnext, ⟨_, rfl⟩ | ⟨_, hnumber, hcounted | ⟨counted, hcounted, htrimmed⟩⟩⟩⟩⟩⟩ :=
    happend
  · simp [appendRefusals]
  · simp [appendRefusals]
  · simp [appendRefusals]
  · simp [appendRefusals]
  · simp [appendRefusals]
  · push Not at hfresh
    obtain ⟨_, _, hcounted', _⟩ :=
      h.settles hnext (wellFormed_of_append hvalid hnumber) hfresh
    rw [hcounted'] at hcounted
    cases hcounted
  · push Not at hfresh
    obtain ⟨_, _, hcounted', htrimmed', _⟩ :=
      h.settles hnext (wellFormed_of_append hvalid hnumber) hfresh
    cases ok_unique hcounted hcounted'
    rw [htrimmed'] at htrimmed
    cases htrimmed

end Append

/-- A log as its owner can have it: new, or restored from any bytes, and then appended to. -/
inductive LogReached : PublisherLog → Prop
  | new (workspace : WorkspaceId) (author : Block 32) (epoch : U64) :
      LogReached (PublisherLog.new workspace author epoch)
  | restore {workspace : WorkspaceId} {author : Block 32} {epoch : U64} {bytes : Bytes}
      {log : PublisherLog} (h : PublisherLog.restore workspace author epoch bytes = .ok log) :
      LogReached log
  | append {log log' : PublisherLog} {context : PublicationContext} {ciphertext : Bytes}
      {sequence : U64} (hlog : LogReached log)
      (h : log.append context ciphertext = .ok (sequence, log')) : LogReached log'

theorem LogReached.restorable (h : LogReached log) : Restorable log := by
  induction h with
  | new workspace author epoch =>
    refine (coherent_new workspace author epoch).restorable ⟨⟨Nat.zero_le _, ?_⟩, Nat.zero_le _⟩
    simp [PublisherLog.new]
  | restore hrestore => exact (PublisherLog.restore_eq_ok hrestore).2
  | append _ happend ih =>
    exact (ih.coherent.append_ok happend).1.restorable (ih.toWithinLimits.append happend)

/-- Every log that its owner can have accounts for its bytes within the limit, appends to it end
with the new record retained or are refused, and it decodes from its own snapshot, which is within
bounds; and what the decoder accepts has the same representation. -/
theorem publisher_log_codec :
    (∀ log, LogReached log →
      (log.bytes = (log.retained.map weight).sum ∧
        log.bytes ≤ maxRetainedBytes) ∧
      (∀ context ciphertext,
        (∃ sequence log', log.append context ciphertext = .ok (sequence, log') ∧
          ⟨sequence, context, ciphertext⟩ ∈ log'.retained) ∨
        ∃ message ∈ appendRefusals, log.append context ciphertext = .error message) ∧
      log.snapshot.length ≤ maxSnapshotBytes ∧
      PublisherLog.restore log.workspace log.author log.epoch log.snapshot = .ok log) ∧
    ∀ workspace author epoch bytes log,
      PublisherLog.restore workspace author epoch bytes = .ok log →
      (log.workspace = workspace ∧ log.author = author ∧ log.epoch = epoch) ∧ Restorable log := by
  constructor
  · intro log hlog
    have hrestorable := hlog.restorable
    have hcoherent := hrestorable.coherent
    refine ⟨⟨hcoherent.total, hrestorable.bytes⟩, ?_, hrestorable.snapshot_length_le,
      hrestorable.restore_snapshot⟩
    intro context ciphertext
    cases happend : log.append context ciphertext with
    | ok result =>
      exact .inl ⟨result.1, result.2, rfl, (hcoherent.append_ok happend).2.2⟩
    | error message => exact .inr ⟨message, hcoherent.append_error happend, rfl⟩
  · intro workspace author epoch bytes log hrestore
    exact PublisherLog.restore_eq_ok hrestore

/-- A log with a legacy publication and one that authenticates its sequence. -/
theorem publisher_log_codec_mixed :
    let legacy : PublicationContext := ⟨zeroBlock 32, 0, ⟨[97], by decide⟩, zeroBlock 16, none⟩
    let numbered : PublicationContext :=
      ⟨zeroBlock 32, 0, ⟨[97], by decide⟩, ⟨List.replicate 16 1, rfl⟩, some ⟨2, by decide⟩⟩
    ∃ first log, (PublisherLog.new (zeroBlock 32) (zeroBlock 32) 0).append legacy [7] =
        .ok (1, first) ∧
      first.append numbered [8] = .ok (2, log) ∧ log.snapshot.length ≤ maxSnapshotBytes ∧
      PublisherLog.restore log.workspace log.author log.epoch log.snapshot = .ok log := by
  intro legacy numbered
  obtain ⟨first, hfirst⟩ : ∃ first,
      (PublisherLog.new (zeroBlock 32) (zeroBlock 32) 0).append legacy [7] = .ok (1, first) :=
    ⟨_, rfl⟩
  obtain ⟨log, hlog⟩ : ∃ log, first.append numbered [8] = .ok (2, log) := by
    cases hfirst
    exact ⟨_, rfl⟩
  refine ⟨first, log, hfirst, hlog, ?_⟩
  exact (publisher_log_codec.1 log (.append (.append (.new _ _ _) hfirst) hlog)).2.2

end Arachne.Delivery
