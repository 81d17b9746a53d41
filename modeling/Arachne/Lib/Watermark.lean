import Mathlib.Data.List.Sort
import Mathlib.Data.List.Nodup
import Mathlib.Order.MinMax

/-! Histories in strictly increasing order of a key, and their selections. -/

namespace Arachne.Watermark

variable {α N : Type} [LinearOrder N] (key : α → N)

theorem filter_after_head {items : List α} (hsorted : items.Pairwise fun a b => key a < key b)
    {p : α → Prop} [DecidablePred p] {a : α} {rest : List α}
    (h : items.filter (fun x => p x) = a :: rest) :
    items.filter (fun x => p x ∧ key a < key x) = rest := by
  have hselected := hsorted.filter (fun x => decide (p x))
  rw [h] at hselected
  obtain ⟨hafter, _⟩ := List.pairwise_cons.mp hselected
  calc items.filter (fun x => p x ∧ key a < key x)
      = (items.filter (fun x => p x)).filter (fun x => key a < key x) := by
        rw [List.filter_filter]
        exact List.filter_congr fun x _ => by simp [Bool.and_comm]
    _ = rest := by
        rw [h, List.filter_cons_of_neg (by simp)]
        exact List.filter_eq_self.mpr fun x hx => by simpa using hafter x hx

theorem flatMap_filter_perm {T : Type} [DecidableEq T] (label : α → T) (p : α → Prop)
    [DecidablePred p] (items : List α) {labels : List T} (hnodup : labels.Nodup) :
    (labels.flatMap fun t => items.filter fun a => label a = t ∧ p a).Perm
      (items.filter fun a => label a ∈ labels ∧ p a) := by
  induction labels with
  | nil => simp
  | cons t labels ih =>
    obtain ⟨hfresh, hnodup⟩ := List.nodup_cons.mp hnodup
    have hsplit := List.filter_append_perm (fun a => decide (label a = t))
      (items.filter fun a => label a ∈ t :: labels ∧ p a)
    rw [List.filter_filter, List.filter_filter] at hsplit
    rw [List.flatMap_cons]
    refine (List.Perm.append_left _ (ih hnodup)).trans ((List.Perm.of_eq ?_).trans hsplit)
    congr 1 <;> refine List.filter_congr fun a _ => ?_ <;> simp only [List.mem_cons] <;> grind

theorem key_injOn {items : List α} (hsorted : items.Pairwise fun a b => key a < key b)
    {a b : α} (ha : a ∈ items) (hb : b ∈ items) (hkey : key a = key b) : a = b :=
  List.inj_on_of_nodup_map (List.pairwise_map.mpr (hsorted.imp ne_of_lt)) ha hb hkey

theorem insertionSort_eq_of_perm {items sorted : List α} (hperm : items.Perm sorted)
    (hsorted : sorted.Pairwise fun a b => key a < key b) :
    items.insertionSort (fun a b => key a ≤ key b) = sorted := by
  have htotal : Std.Total fun a b : α => key a ≤ key b := ⟨fun a b => le_total _ _⟩
  have htrans : IsTrans α fun a b => key a ≤ key b := ⟨fun _ _ _ => le_trans⟩
  have hresult := (items.perm_insertionSort fun a b => key a ≤ key b).trans hperm
  refine List.Perm.eq_of_pairwise ?_ (List.pairwise_insertionSort (fun a b => key a ≤ key b) items)
    (hsorted.imp le_of_lt) hresult
  intro a b ha hb hab hba
  exact key_injOn key hsorted (hresult.subset ha) hb (le_antisymm hab hba)

theorem le_foldl_max {β : Type*} [LinearOrder β] (items : List β) (start : β) :
    start ≤ items.foldl max start ∧ ∀ item ∈ items, item ≤ items.foldl max start := by
  induction items generalizing start with
  | nil => exact ⟨le_rfl, by simp⟩
  | cons item items ih =>
    obtain ⟨hstart, hitems⟩ := ih (max start item)
    rw [List.foldl_cons, List.forall_mem_cons]
    exact ⟨(le_max_left start item).trans hstart, (le_max_right start item).trans hstart, hitems⟩

theorem foldl_max_mem {β : Type*} [LinearOrder β] (items : List β) (start : β) :
    items.foldl max start = start ∨ items.foldl max start ∈ items := by
  induction items generalizing start with
  | nil => exact .inl rfl
  | cons item items ih =>
    rw [List.foldl_cons]
    rcases ih (max start item) with heq | hmem
    · rcases max_choice start item with hmax | hmax
      · exact .inl (heq.trans hmax)
      · exact .inr (List.mem_cons.mpr (.inl (heq.trans hmax)))
    · exact .inr (List.mem_cons_of_mem _ hmem)

end Arachne.Watermark
