import Mathlib.Data.Finset.Card
import Mathlib.Order.Defs.LinearOrder

/-! A bounded window over positions of a linear order. A new position is kept; a full window then
gives up its least position, unless that one is pinned. What was added stays pinned. Which
positions can still be added, in increasing order, is a question of counting. -/

namespace Arachne.PinnedWindow

variable {α : Type} [LinearOrder α] {bound : Nat} {kept pinned fresh : Finset α} {c first : α}

/-- The positions from `x` on and all that are to come fit in the window, for every `x` that must
stay. -/
def Room (bound : Nat) (kept pinned fresh : Finset α) : Prop :=
  ∀ x ∈ pinned ∪ fresh, fresh.card + (kept.filter (x ≤ ·)).card ≤ bound

theorem room_empty (h : kept.card ≤ bound) : Room bound kept pinned ∅ := by
  intro x _
  rw [Finset.card_empty, Nat.zero_add]
  exact (Finset.card_filter_le _ _).trans h

theorem card_filter_insert (hc : c ∉ kept) (x : α) :
    ((insert c kept).filter (x ≤ ·)).card =
      (kept.filter (x ≤ ·)).card + if x ≤ c then 1 else 0 := by
  rw [Finset.filter_insert]
  split
  · rw [Finset.card_insert_of_notMem (fun h => hc (Finset.mem_filter.mp h).1)]
  · rfl

theorem anchors_insert (hc : c ∈ fresh) :
    insert c pinned ∪ fresh.erase c = pinned ∪ fresh := by
  rw [Finset.insert_union, ← Finset.union_insert, Finset.insert_erase hc]

theorem room_insert_iff (hc : c ∈ fresh) (hnew : c ∉ kept) :
    Room bound (insert c kept) (insert c pinned) (fresh.erase c) ↔
      Room bound kept pinned fresh := by
  have hcard := Finset.card_erase_add_one hc
  constructor
  · intro h x hx
    by_cases hle : x ≤ c
    · have hcount := h x (by rwa [anchors_insert hc])
      rw [card_filter_insert hnew, if_pos hle] at hcount
      omega
    · have hcount := h c (Finset.mem_union_left _ (Finset.mem_insert_self c _))
      rw [card_filter_insert hnew, if_pos le_rfl] at hcount
      have hsubset : kept.filter (x ≤ ·) ⊆ kept.filter (c ≤ ·) := by
        intro y hy
        rw [Finset.mem_filter] at hy ⊢
        exact ⟨hy.1, (le_of_not_ge hle).trans hy.2⟩
      have hless := Finset.card_le_card hsubset
      omega
  · intro h x hx
    rw [anchors_insert hc] at hx
    have hcount := h x hx
    rw [card_filter_insert hnew]
    split <;> omega

theorem room_erase_iff (hbelow : ∀ x ∈ pinned ∪ fresh, first < x) :
    Room bound (kept.erase first) pinned fresh ↔ Room bound kept pinned fresh := by
  have hfilter : ∀ x ∈ pinned ∪ fresh, (kept.erase first).filter (x ≤ ·) =
      kept.filter (x ≤ ·) := by
    intro x hx
    ext y
    rw [Finset.mem_filter, Finset.mem_filter, Finset.mem_erase]
    constructor
    · rintro ⟨⟨_, hy⟩, hle⟩
      exact ⟨hy, hle⟩
    · rintro ⟨hy, hle⟩
      exact ⟨⟨((hbelow x hx).trans_le hle).ne', hy⟩, hle⟩
  constructor
  · intro h x hx
    rw [← hfilter x hx]
    exact h x hx
  · intro h x hx
    rw [hfilter x hx]
    exact h x hx

theorem not_room_of_full (hfull : kept.card = bound) (hc : c ∈ fresh) {x : α}
    (hx : x ∈ pinned ∪ fresh) (hbelow : ∀ y ∈ kept, x ≤ y) : ¬ Room bound kept pinned fresh := by
  intro h
  have hcount := h x hx
  rw [Finset.filter_true_of_mem hbelow, hfull] at hcount
  have hpositive := Finset.card_pos.mpr ⟨c, hc⟩
  omega

end Arachne.PinnedWindow
