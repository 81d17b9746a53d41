import Mathlib.Algebra.GroupWithZero.Nat
import Mathlib.Data.List.Basic
import Mathlib.Data.List.Nodup

/-! Lists whose entries are found by a key: a new entry replaces the one with its key, or comes
last. -/

namespace Arachne.Keyed

variable {Entry Key : Type} [DecidableEq Key] (key : Entry → Key)

def lookup (k : Key) (entries : List Entry) : Option Entry :=
  entries.find? fun entry => key entry = k

def put (new : Entry) : List Entry → List Entry
  | [] => [new]
  | entry :: entries =>
      if key entry = key new then new :: entries else entry :: put new entries

variable {key} {k : Key} {entries : List Entry} {entry new : Entry}

theorem mem_of_lookup (h : lookup key k entries = some entry) : entry ∈ entries ∧ key entry = k :=
  ⟨List.mem_of_find?_eq_some h, by simpa using List.find?_some h⟩

theorem lookup_eq_none : lookup key k entries = none ↔ ∀ entry ∈ entries, key entry ≠ k := by
  simp [lookup, List.find?_eq_none]

theorem lookup_of_mem (hnodup : (entries.map key).Nodup) (hentry : entry ∈ entries) :
    lookup key (key entry) entries = some entry := by
  induction entries with
  | nil => simp at hentry
  | cons first entries ih =>
    rw [List.map_cons, List.nodup_cons] at hnodup
    rcases List.mem_cons.mp hentry with rfl | hrest
    · simp [lookup]
    · have hne : key first ≠ key entry :=
        fun heq => hnodup.1 (heq ▸ List.mem_map_of_mem hrest)
      simpa [lookup, List.find?_cons, hne] using ih hnodup.2 hrest

theorem lookup_put (k : Key) (new : Entry) (entries : List Entry) :
    lookup key k (put key new entries) =
      if k = key new then some new else lookup key k entries := by
  induction entries with
  | nil =>
    by_cases hk : k = key new
    · simp [put, lookup, hk]
    · simp [put, lookup, hk, Ne.symm hk]
  | cons first entries ih =>
    by_cases hfirst : key first = key new
    · by_cases hk : k = key new
      · simp [put, lookup, hfirst, hk]
      · simp [put, lookup, hfirst, hk, Ne.symm hk]
    · rw [put, if_neg hfirst]
      by_cases hk : key first = k
      · have hne : k ≠ key new := hk ▸ hfirst
        simp [lookup, hk, hne]
      · simpa [lookup, List.find?_cons, hk] using ih

theorem mem_put (h : entry ∈ put key new entries) : entry = new ∨ entry ∈ entries := by
  induction entries with
  | nil => simpa [put] using h
  | cons first entries ih =>
    rw [put] at h
    split at h
    · rcases List.mem_cons.mp h with rfl | hrest
      · exact .inl rfl
      · exact .inr (List.mem_cons_of_mem _ hrest)
    · rcases List.mem_cons.mp h with rfl | hrest
      · exact .inr (by simp)
      · exact (ih hrest).imp_right (List.mem_cons_of_mem _)

theorem new_mem_put (new : Entry) (entries : List Entry) : new ∈ put key new entries := by
  have hlookup : lookup key (key new) (put key new entries) = some new := by
    rw [lookup_put, if_pos rfl]
  exact (mem_of_lookup hlookup).1

theorem mem_put_of_ne (h : entry ∈ entries) (hne : key entry ≠ key new) :
    entry ∈ put key new entries := by
  induction entries with
  | nil => simp at h
  | cons first entries ih =>
    rw [put]
    rcases List.mem_cons.mp h with rfl | hrest
    · simp [hne]
    · split
      · exact List.mem_cons_of_mem _ hrest
      · exact List.mem_cons_of_mem _ (ih hrest)

theorem map_key_put (new : Entry) (entries : List Entry) :
    (put key new entries).map key =
      if key new ∈ entries.map key then entries.map key else entries.map key ++ [key new] := by
  induction entries with
  | nil => simp [put]
  | cons first entries ih =>
    by_cases hfirst : key first = key new
    · simp [put, hfirst]
    · rw [put, if_neg hfirst, List.map_cons, ih]
      by_cases hmem : key new ∈ entries.map key
      · rw [if_pos hmem, List.map_cons, if_pos (List.mem_cons_of_mem _ hmem)]
      · have hnot : key new ∉ (first :: entries).map key := by
          rw [List.map_cons, List.mem_cons, not_or]
          exact ⟨Ne.symm hfirst, hmem⟩
        rw [if_neg hmem, if_neg hnot, List.map_cons, List.cons_append]

theorem nodup_put (h : (entries.map key).Nodup) : ((put key new entries).map key).Nodup := by
  rw [map_key_put]
  split
  · exact h
  · rename_i hnot
    rw [List.nodup_append]
    refine ⟨h, List.nodup_singleton _, ?_⟩
    rintro a ha b hb rfl
    exact hnot (List.mem_singleton.mp hb ▸ ha)

theorem length_put_of_lookup (h : lookup key (key new) entries = some entry) :
    (put key new entries).length = entries.length := by
  obtain ⟨hmem, hkey⟩ := mem_of_lookup h
  have hkeys : (put key new entries).map key = entries.map key := by
    rw [map_key_put, if_pos (hkey ▸ List.mem_map_of_mem hmem)]
  simpa using congrArg List.length hkeys

theorem put_of_lookup_eq_none (h : lookup key (key new) entries = none) :
    put key new entries = entries ++ [new] := by
  induction entries with
  | nil => rfl
  | cons first entries ih =>
    have hfirst : key first ≠ key new := lookup_eq_none.mp h first (by simp)
    have hrest : lookup key (key new) entries = none :=
      lookup_eq_none.mpr fun e he => lookup_eq_none.mp h e (List.mem_cons_of_mem _ he)
    rw [put, if_neg hfirst, ih hrest, List.cons_append]

theorem sum_put_lt {f : Entry → Nat} (h : lookup key (key new) entries = some entry)
    (hlt : f new < f entry) : ((put key new entries).map f).sum < (entries.map f).sum := by
  induction entries with
  | nil => simp [lookup] at h
  | cons first entries ih =>
    rw [put]
    split
    · rename_i heq
      have hfirst : first = entry := by simpa [lookup, heq] using h
      subst hfirst
      rw [List.map_cons, List.sum_cons, List.map_cons, List.sum_cons]
      omega
    · rename_i hne
      have hrest : lookup key (key new) entries = some entry := by
        simpa [lookup, List.find?_cons, hne] using h
      have hsum := ih hrest
      rw [List.map_cons, List.sum_cons, List.map_cons, List.sum_cons]
      omega

end Arachne.Keyed
