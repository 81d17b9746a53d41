import Arachne.Lib.PinnedWindow
import Arachne.Delivery.Stagings

/-! Which objects a stream can still take. The receipts of a stream are a window over counters
in which what is pending is pinned. -/

namespace Arachne.Delivery

open ByteCodec Fallible SortedWindow PinnedWindow

namespace Stream

def counters (stream : Stream) : Finset U64 := (stream.receipts.map (·.counter)).toFinset

def pendingCounters (stream : Stream) : Finset U64 :=
  ((stream.receipts.filter (·.pending.isSome)).map (·.counter)).toFinset

variable {stream next : Stream} {receipt : Receipt} {c : U64} {offered : Finset U64}

theorem mem_counters : c ∈ stream.counters ↔ ∃ known ∈ stream.receipts, known.counter = c := by
  simp [counters]

theorem mem_pendingCounters : c ∈ stream.pendingCounters ↔
    ∃ known ∈ stream.receipts, known.pending.isSome = true ∧ known.counter = c := by
  simp [pendingCounters, and_assoc]

theorem counter_notMem (hfresh : ∀ known ∈ stream.receipts, known.counter ≠ c) :
    c ∉ stream.counters := by
  rw [mem_counters]
  rintro ⟨known, hknown, heq⟩
  exact hfresh known hknown heq

theorem card_counters (h : stream.WellKept) : stream.counters.card = stream.receipts.length := by
  rw [counters, List.toFinset_card_of_nodup (nodup_of_increasing h.increasing), List.length_map]

/-- The stream takes these counters in increasing order: none is below the floor, and the new ones
with everything from the first of them on, or from the first pending one on, fit the window. -/
def Admits (stream : Stream) (offered : Finset U64) : Prop :=
  (∀ c ∈ offered, stream.floor < c) ∧
    Room window stream.counters stream.pendingCounters (offered \ stream.counters)

theorem admits_empty (h : stream.WellKept) : stream.Admits ∅ := by
  refine ⟨by simp, ?_⟩
  rw [Finset.empty_sdiff]
  exact room_empty (card_counters h ▸ h.bounded)

theorem admits_insert_known (h : stream.WellKept) (hc : c ∈ stream.counters) :
    stream.Admits (insert c offered) ↔ stream.Admits offered := by
  obtain ⟨known, hknown, rfl⟩ := mem_counters.mp hc
  rw [Admits, Admits, Finset.insert_sdiff_of_mem _ hc, Finset.forall_mem_insert,
    and_iff_right (h.above known hknown)]

theorem not_admits_of_le (h : c ≤ stream.floor) : ¬ stream.Admits (insert c offered) := by
  rintro ⟨habove, _⟩
  exact absurd (habove c (Finset.mem_insert_self c _)) (not_lt_of_ge h)

theorem not_admits_of_lt (h : stream.WellKept) (hfull : stream.receipts.length = window)
    (hbelow : ∀ known ∈ stream.receipts, c < known.counter) :
    ¬ stream.Admits (insert c offered) := by
  rintro ⟨_, hroom⟩
  have hnew : c ∉ stream.counters := counter_notMem fun known hknown => (hbelow known hknown).ne'
  have hfresh : c ∈ insert c offered \ stream.counters :=
    Finset.mem_sdiff.mpr ⟨Finset.mem_insert_self c _, hnew⟩
  refine not_room_of_full ((card_counters h).trans hfull) hfresh
    (Finset.mem_union_right _ hfresh) ?_ hroom
  intro y hy
  obtain ⟨known, hknown, rfl⟩ := mem_counters.mp hy
  exact (hbelow known hknown).le

/-- The stream with one receipt more, before the window is enforced. -/
def extended (stream : Stream) (receipt : Receipt) : Stream :=
  { stream with receipts := sortBy Receipt.counter (stream.receipts ++ [receipt]) }

theorem mem_extended {known : Receipt} : known ∈ (stream.extended receipt).receipts ↔
    known ∈ stream.receipts ∨ known = receipt := by
  rw [extended, mem_sortBy, List.mem_append, List.mem_singleton]

theorem counters_extended :
    (stream.extended receipt).counters = insert receipt.counter stream.counters := by
  ext x
  rw [Finset.mem_insert, mem_counters, mem_counters]
  simp only [mem_extended]
  constructor
  · rintro ⟨known, hknown | rfl, rfl⟩
    · exact .inr ⟨known, hknown, rfl⟩
    · exact .inl rfl
  · rintro (rfl | ⟨known, hknown, rfl⟩)
    · exact ⟨receipt, .inr rfl, rfl⟩
    · exact ⟨known, .inl hknown, rfl⟩

theorem pendingCounters_extended (hpending : receipt.pending.isSome = true) :
    (stream.extended receipt).pendingCounters =
      insert receipt.counter stream.pendingCounters := by
  ext x
  rw [Finset.mem_insert, mem_pendingCounters, mem_pendingCounters]
  simp only [mem_extended]
  constructor
  · rintro ⟨known, hknown | rfl, hsome, rfl⟩
    · exact .inr ⟨known, hknown, hsome, rfl⟩
    · exact .inl rfl
  · rintro (rfl | ⟨known, hknown, hsome, rfl⟩)
    · exact ⟨receipt, .inr rfl, hpending, rfl⟩
    · exact ⟨known, .inl hknown, hsome, rfl⟩

/-- A stream that gives up its first receipt and takes its counter for the floor. -/
def dropped (stream : Stream) (first : Receipt) (rest : List Receipt) : Stream :=
  { stream with floor := first.counter, receipts := rest }

section Dropped

variable {first : Receipt} {rest : List Receipt} (hreceipts : stream.receipts = first :: rest)
include hreceipts

theorem counters_dropped (hincreasing : stream.receipts.Pairwise fun a b => a.counter < b.counter) :
    (stream.dropped first rest).counters = stream.counters.erase first.counter := by
  rw [hreceipts, List.pairwise_cons] at hincreasing
  ext x
  rw [Finset.mem_erase, mem_counters, mem_counters, hreceipts]
  simp only [dropped, List.mem_cons]
  constructor
  · rintro ⟨known, hknown, rfl⟩
    exact ⟨(hincreasing.1 known hknown).ne', known, .inr hknown, rfl⟩
  · rintro ⟨hne, known, rfl | hknown, rfl⟩
    · exact absurd rfl hne
    · exact ⟨known, hknown, rfl⟩

theorem pendingCounters_dropped (hfirst : first.pending = none) :
    (stream.dropped first rest).pendingCounters = stream.pendingCounters := by
  ext x
  rw [mem_pendingCounters, mem_pendingCounters, hreceipts]
  simp only [dropped, List.mem_cons]
  constructor
  · rintro ⟨known, hknown, hsome⟩
    exact ⟨known, .inr hknown, hsome⟩
  · rintro ⟨known, rfl | hknown, hsome⟩
    · rw [hfirst] at hsome
      cases hsome.1
    · exact ⟨known, hknown, hsome⟩

theorem first_lt_pending (hincreasing : stream.receipts.Pairwise fun a b => a.counter < b.counter)
    (hfirst : first.pending = none) {x : U64} (hx : x ∈ stream.pendingCounters) :
    first.counter < x := by
  obtain ⟨known, hknown, hsome, rfl⟩ := mem_pendingCounters.mp hx
  rw [hreceipts] at hknown hincreasing
  rcases List.mem_cons.mp hknown with rfl | hrest
  · rw [hfirst] at hsome
    cases hsome
  · exact List.rel_of_pairwise_cons hincreasing hrest

theorem admits_dropped (hincreasing : stream.receipts.Pairwise fun a b => a.counter < b.counter)
    (hfirst : first.pending = none) (hfloor : stream.floor < first.counter)
    (hlater : ∀ x ∈ offered, first.counter < x) :
    (stream.dropped first rest).Admits offered ↔ stream.Admits offered := by
  have hsame : offered \ stream.counters.erase first.counter = offered \ stream.counters := by
    ext x
    simp only [Finset.mem_sdiff, Finset.mem_erase, not_and]
    constructor
    · rintro ⟨hx, hnot⟩
      exact ⟨hx, hnot (hlater x hx).ne'⟩
    · rintro ⟨hx, hnot⟩
      exact ⟨hx, fun _ => hnot⟩
  have hbelow : ∀ x ∈ stream.pendingCounters ∪ (offered \ stream.counters), first.counter < x := by
    intro x hx
    rcases Finset.mem_union.mp hx with hpending | hfresh
    · exact first_lt_pending hreceipts hincreasing hfirst hpending
    · exact hlater x (Finset.mem_sdiff.mp hfresh).1
  rw [Admits, Admits, counters_dropped hreceipts hincreasing,
    pendingCounters_dropped hreceipts hfirst, hsame, room_erase_iff hbelow]
  have habove : ∀ x ∈ offered, stream.floor < x := fun x hx => hfloor.trans (hlater x hx)
  exact and_congr_left fun _ => ⟨fun _ => habove, fun _ => hlater⟩

end Dropped

section Push

variable (hpending : receipt.pending.isSome = true)
  (hfresh : ∀ known ∈ stream.receipts, known.counter ≠ receipt.counter)
  (hfloor : stream.floor < receipt.counter) (hlater : ∀ x ∈ offered, receipt.counter < x)
include hpending hfresh hfloor hlater

theorem admits_extended :
    (stream.extended receipt).Admits offered ↔ stream.Admits (insert receipt.counter offered) := by
  have hnew := counter_notMem hfresh
  have hcoming : receipt.counter ∉ offered := fun hmem => lt_irrefl _ (hlater _ hmem)
  have herase : (insert receipt.counter offered \ stream.counters).erase receipt.counter =
      offered \ insert receipt.counter stream.counters := by
    rw [← Finset.sdiff_insert, Finset.insert_sdiff_insert, Finset.sdiff_insert_of_notMem hcoming]
  rw [Admits, Admits, Finset.forall_mem_insert, and_iff_right hfloor, counters_extended,
    pendingCounters_extended hpending, ← herase, room_insert_iff _ hnew]
  · rfl
  · exact Finset.mem_sdiff.mpr ⟨Finset.mem_insert_self _ _, hnew⟩

variable (hkept : stream.WellKept)
include hkept

theorem admits_push (hpush : stream.push receipt = .ok next) :
    next.Admits offered ↔ stream.Admits (insert receipt.counter offered) := by
  rw [← admits_extended hpending hfresh hfloor hlater]
  rcases push_eq_ok hpush with ⟨_, rfl⟩ | ⟨first, rest, heq, _, hfirst, rfl⟩
  · rfl
  · have hreceipts : (stream.extended receipt).receipts = first :: rest := heq
    have hincreasing := sortBy_push_increasing hkept.increasing hfresh
    have hmem : first ∈ (stream.extended receipt).receipts := by
      rw [hreceipts]
      exact List.mem_cons_self
    have hbelow : first.counter < receipt.counter := by
      refine first_lt_pending hreceipts hincreasing hfirst ?_
      rw [pendingCounters_extended hpending]
      exact Finset.mem_insert_self _ _
    refine admits_dropped hreceipts hincreasing hfirst (above_sorted hkept hfloor hmem) ?_
    intro x hx
    exact hbelow.trans (hlater x hx)

omit hpending hfloor hlater in
/-- The window refuses a receipt only where a pending one would have to go. -/
theorem not_admits_of_push {message : String} (hpush : stream.push receipt = .error message)
    (hlower : stream.receipts.length = window →
      ∃ known ∈ stream.receipts, known.counter < receipt.counter) :
    ¬ stream.Admits (insert receipt.counter offered) := by
  have hincreasing := sortBy_push_increasing hkept.increasing hfresh
  rw [push] at hpush
  split at hpush
  · cases hpush
  · rename_i hlength
    rw [length_sortBy, List.length_append, List.length_singleton] at hlength
    have hfull : stream.receipts.length = window := by
      have hbounded := hkept.bounded
      omega
    obtain ⟨known, hknown, hlt⟩ := hlower hfull
    split at hpush
    · rename_i hnil
      have hmem : known ∈ sortBy Receipt.counter (stream.receipts ++ [receipt]) := by
        simp [mem_sortBy, hknown]
      rw [hnil] at hmem
      cases hmem
    · rename_i first rest heq
      have hsorted : ∀ entry ∈ stream.receipts ++ [receipt], first.counter ≤ entry.counter := by
        intro entry hentry
        rw [heq] at hincreasing
        apply head_le_of_increasing hincreasing
        rwa [← heq, mem_sortBy]
      have hpending : first.pending.isSome = true := by
        by_contra hnone
        rw [failIf_of_not hnone] at hpush
        cases hpush
      have hfirst : first ∈ stream.receipts := by
        have hmem : first ∈ sortBy Receipt.counter (stream.receipts ++ [receipt]) :=
          heq ▸ List.mem_cons_self
        rw [mem_sortBy, List.mem_append, List.mem_singleton] at hmem
        rcases hmem with hold | rfl
        · exact hold
        · exact absurd hlt (not_lt_of_ge (hsorted known (List.mem_append_left _ hknown)))
      rintro ⟨_, hroom⟩
      have hnew := counter_notMem hfresh
      have hanchor : first.counter ∈ stream.pendingCounters :=
        mem_pendingCounters.mpr ⟨first, hfirst, hpending, rfl⟩
      refine not_room_of_full ((card_counters hkept).trans hfull)
        (Finset.mem_sdiff.mpr ⟨Finset.mem_insert_self _ _, hnew⟩)
        (Finset.mem_union_left _ hanchor) ?_ hroom
      intro y hy
      obtain ⟨entry, hentry, rfl⟩ := mem_counters.mp hy
      exact hsorted entry (List.mem_append_left _ hentry)

end Push

end Stream

end Arachne.Delivery
