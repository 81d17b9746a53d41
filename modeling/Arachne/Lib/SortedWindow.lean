import Arachne.Lib.Keyed
import Mathlib.Data.List.Sort

/-! Entries kept in the order of a number, above a floor below which entries were dropped. -/

namespace Arachne.SortedWindow

variable {Entry Position : Type} [LinearOrder Position]

/-- `sort_by_key`. -/
def sortBy (position : Entry → Position) (entries : List Entry) : List Entry :=
  entries.insertionSort fun a b => position a ≤ position b

section Sorting

variable (position : Entry → Position)

theorem sortBy_perm (entries : List Entry) : (sortBy position entries).Perm entries :=
  List.perm_insertionSort _ _

theorem mem_sortBy {entries : List Entry} {entry : Entry} :
    entry ∈ sortBy position entries ↔ entry ∈ entries :=
  (sortBy_perm position entries).mem_iff

theorem length_sortBy (entries : List Entry) :
    (sortBy position entries).length = entries.length :=
  (sortBy_perm position entries).length_eq

theorem sortBy_nondecreasing (entries : List Entry) :
    (sortBy position entries).Pairwise fun a b => position a ≤ position b := by
  have htotal : Std.Total fun a b : Entry => position a ≤ position b :=
    ⟨fun a b => le_total (position a) (position b)⟩
  have htrans : IsTrans Entry fun a b => position a ≤ position b := ⟨fun _ _ _ => le_trans⟩
  exact List.pairwise_insertionSort _ entries

theorem sortBy_increasing {entries : List Entry} (h : (entries.map position).Nodup) :
    (sortBy position entries).Pairwise fun a b => position a < position b := by
  have hnodup : ((sortBy position entries).map position).Nodup :=
    ((sortBy_perm position entries).map position).nodup_iff.mpr h
  have hne : (sortBy position entries).Pairwise fun a b => position a ≠ position b :=
    List.pairwise_map.mp hnodup
  exact (sortBy_nondecreasing position entries).imp₂ (fun _ _ hle hne => lt_of_le_of_ne hle hne) hne

end Sorting

variable {position : Entry → Position} {floor : Position} {entries : List Entry} {entry : Entry}

theorem nodup_of_increasing (h : entries.Pairwise fun a b => position a < position b) :
    (entries.map position).Nodup :=
  List.pairwise_map.mpr (h.imp fun hlt => ne_of_lt hlt)

theorem sortBy_push_increasing (h : entries.Pairwise fun a b => position a < position b)
    (hnew : ∀ known ∈ entries, position known ≠ position entry) :
    (sortBy position (entries ++ [entry])).Pairwise fun a b => position a < position b := by
  apply sortBy_increasing
  rw [List.map_append, List.nodup_append]
  refine ⟨nodup_of_increasing h, List.nodup_singleton _, ?_⟩
  rintro a ha b hb rfl
  obtain ⟨known, hknown, rfl⟩ := List.mem_map.mp ha
  exact hnew known hknown (List.mem_singleton.mp hb)

theorem head_le_of_increasing {first : Entry} {rest : List Entry}
    (h : (first :: rest).Pairwise fun a b => position a < position b) (ha : entry ∈ first :: rest) :
    position first ≤ position entry := by
  rcases List.mem_cons.mp ha with rfl | ha
  · exact le_rfl
  · exact le_of_lt (List.rel_of_pairwise_cons h ha)

section Put

variable {Entry Key : Type} [LinearOrder Key] [DecidableEq Key] {key : Entry → Key}
  {entries : List Entry}
  {entry new : Entry}

/-- The entries with a new one put in: in place of the one with its key, or in order. -/
def putOrdered (key : Entry → Key) (new : Entry) (entries : List Entry) : List Entry :=
  match Keyed.lookup key (key new) entries with
  | some _ => Keyed.put key new entries
  | none => sortBy key (entries ++ [new])

theorem mem_putOrdered (h : entry ∈ putOrdered key new entries) :
    entry = new ∨ entry ∈ entries := by
  rw [putOrdered] at h
  split at h
  · exact Keyed.mem_put h
  · rw [mem_sortBy, List.mem_append, List.mem_singleton] at h
    exact h.symm

theorem putOrdered_increasing (h : (entries.map key).Pairwise (· < ·)) :
    ((putOrdered key new entries).map key).Pairwise (· < ·) := by
  rw [putOrdered]
  split
  · rename_i known hlookup
    obtain ⟨hmem, hkey⟩ := Keyed.mem_of_lookup hlookup
    rwa [Keyed.map_key_put, if_pos (hkey ▸ List.mem_map_of_mem hmem)]
  · rename_i hlookup
    exact List.pairwise_map.mpr (sortBy_push_increasing (List.pairwise_map.mp h)
      (Keyed.lookup_eq_none.mp hlookup))

theorem length_putOrdered {bound : Nat} (h : entries.length ≤ bound)
    (hroom : Keyed.lookup key (key new) entries = none → entries.length ≠ bound) :
    (putOrdered key new entries).length ≤ bound := by
  rw [putOrdered]
  split
  · rename_i known hlookup
    rwa [Keyed.length_put_of_lookup hlookup]
  · rename_i hlookup
    rw [length_sortBy, List.length_append, List.length_singleton]
    exact lt_of_le_of_ne h (hroom hlookup)

end Put

end Arachne.SortedWindow
