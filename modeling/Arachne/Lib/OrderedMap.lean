import Mathlib.Algebra.GroupWithZero.Nat
import Mathlib.Data.List.Sort
import Mathlib.Data.Prod.Basic

/-! Finite maps kept as key-sorted entry lists. The list is determined by the map, so
equality of two maps is equality of their lookups. -/

namespace Arachne.OrderedMap

variable {K V : Type} [LinearOrder K]

/-- Entries in strictly increasing key order. -/
def Ascending (entries : List (K × V)) : Prop :=
  entries.Pairwise fun a b => a.1 < b.1

def lookup (k : K) : List (K × V) → Option V
  | [] => none
  | (k', v) :: rest => if k' = k then some v else lookup k rest

def insertEntry (k : K) (v : V) : List (K × V) → List (K × V)
  | [] => [(k, v)]
  | (k', v') :: rest =>
      if k < k' then (k, v) :: (k', v') :: rest
      else if k = k' then (k, v) :: rest
      else (k', v') :: insertEntry k v rest

variable {k : K} {v : V} {entries : List (K × V)}

theorem mem_of_lookup (h : lookup k entries = some v) : (k, v) ∈ entries := by
  induction entries with
  | nil => cases h
  | cons entry rest ih =>
    obtain ⟨k', v'⟩ := entry
    simp only [lookup] at h
    split at h
    · rename_i hk
      simp_all
    · exact List.mem_cons_of_mem _ (ih h)

theorem Ascending.lookup_of_mem (hsorted : Ascending entries) (h : (k, v) ∈ entries) :
    lookup k entries = some v := by
  induction entries with
  | nil => cases h
  | cons entry rest ih =>
    obtain ⟨k', v'⟩ := entry
    obtain ⟨hhead, htail⟩ := List.pairwise_cons.mp hsorted
    rcases List.mem_cons.mp h with heq | hrest
    · cases heq
      simp [lookup]
    · have hne : k' ≠ k := (hhead _ hrest).ne
      simp [lookup, hne, ih htail hrest]

theorem mem_insertEntry {e : K × V} (h : e ∈ insertEntry k v entries) :
    e = (k, v) ∨ e ∈ entries := by
  induction entries with
  | nil => simpa [insertEntry] using h
  | cons entry rest ih =>
    obtain ⟨k', v'⟩ := entry
    simp only [insertEntry] at h
    split_ifs at h <;> grind

theorem Ascending.insertEntry (hsorted : Ascending entries) (k : K) (v : V) :
    Ascending (insertEntry k v entries) := by
  induction entries with
  | nil => exact List.pairwise_singleton _ _
  | cons entry rest ih =>
    obtain ⟨k', v'⟩ := entry
    obtain ⟨hhead, htail⟩ := List.pairwise_cons.mp hsorted
    simp only [OrderedMap.insertEntry]
    split_ifs with hlt heq
    · refine List.pairwise_cons.mpr ⟨?_, hsorted⟩
      intro e he
      rcases List.mem_cons.mp he with rfl | he
      · exact hlt
      · exact hlt.trans (hhead e he)
    · subst heq
      exact List.pairwise_cons.mpr ⟨hhead, htail⟩
    · refine List.pairwise_cons.mpr ⟨?_, ih htail⟩
      intro e he
      rcases mem_insertEntry he with rfl | he
      · exact lt_of_le_of_ne (not_lt.mp hlt) (Ne.symm heq)
      · exact hhead e he

theorem lookup_insertEntry (k k' : K) (v : V) (entries : List (K × V)) :
    lookup k' (insertEntry k v entries) = if k = k' then some v else lookup k' entries := by
  induction entries with
  | nil => simp [insertEntry, lookup]
  | cons entry rest ih =>
    obtain ⟨l, w⟩ := entry
    by_cases hk : k = k'
    · subst hk
      simp only [insertEntry]
      split_ifs with hlt heq
      · simp [lookup]
      · simp [lookup]
      · simpa [lookup, Ne.symm heq] using ih
    · simp only [insertEntry]
      split_ifs with hlt heq
      · simp [lookup, hk]
      · subst heq
        simp [lookup, hk]
      · simpa [lookup, hk] using congrArg (fun r => if l = k' then some w else r) ih

end Arachne.OrderedMap

/-- A map from keys to values, its entries in key order. -/
structure Arachne.OrderedMap (K V : Type) [LinearOrder K] where
  entries : List (K × V)
  ascending : Arachne.OrderedMap.Ascending entries

namespace Arachne.OrderedMap

variable {K V : Type} [LinearOrder K]

instance [DecidableEq V] : DecidableEq (OrderedMap K V) := fun m m' =>
  decidable_of_iff (m.entries = m'.entries) (by cases m; cases m'; simp)

theorem ext_entries {m m' : OrderedMap K V} (h : m.entries = m'.entries) : m = m' := by
  cases m
  cases m'
  cases h
  rfl

def empty : OrderedMap K V := ⟨[], List.Pairwise.nil⟩

def find? (m : OrderedMap K V) (k : K) : Option V := lookup k m.entries

def insert (m : OrderedMap K V) (k : K) (v : V) : OrderedMap K V :=
  ⟨insertEntry k v m.entries, m.ascending.insertEntry k v⟩

def filter (m : OrderedMap K V) (keep : K → Bool) : OrderedMap K V :=
  ⟨m.entries.filter fun e => keep e.1, m.ascending.filter _⟩

def keys (m : OrderedMap K V) : List K := m.entries.map Prod.fst

def values (m : OrderedMap K V) : List V := m.entries.map Prod.snd

def size (m : OrderedMap K V) : Nat := m.entries.length

@[simp] theorem entries_empty : (empty : OrderedMap K V).entries = [] := rfl

@[simp] theorem find?_empty (k : K) : (empty : OrderedMap K V).find? k = none := rfl

theorem find?_insert (m : OrderedMap K V) (k k' : K) (v : V) [Decidable (k = k')] :
    (m.insert k v).find? k' = if k = k' then some v else m.find? k' := by
  refine (lookup_insertEntry k k' v m.entries).trans ?_
  by_cases hk : k = k' <;> simp [hk, find?]

@[simp] theorem find?_insert_self (m : OrderedMap K V) (k : K) (v : V) :
    (m.insert k v).find? k = some v := by
  simp [find?_insert]

theorem forall_find?_insert {P : K → V → Prop} {m : OrderedMap K V} {k : K} {v : V} (hnew : P k v)
    (hold : ∀ k' v', m.find? k' = some v' → P k' v') :
    ∀ k' v', (m.insert k v).find? k' = some v' → P k' v' := by
  intro k' v' hfind
  rw [find?_insert] at hfind
  split at hfind
  · rename_i hk
    cases hfind
    exact hk ▸ hnew
  · exact hold k' v' hfind

theorem lookup_filter (keep : K → Bool) (k : K) (entries : List (K × V)) :
    lookup k (entries.filter fun e => keep e.1) = if keep k then lookup k entries else none := by
  induction entries with
  | nil => simp [lookup]
  | cons entry rest ih =>
    obtain ⟨l, w⟩ := entry
    by_cases hl : keep l
    · by_cases hk : l = k
      · subst hk
        simp [lookup, hl]
      · simp [lookup, hl, hk, ih]
    · by_cases hk : l = k
      · subst hk
        simp [hl, ih]
      · simp [lookup, hl, hk, ih]

theorem find?_filter (m : OrderedMap K V) (keep : K → Bool) (k : K) :
    (m.filter keep).find? k = if keep k then m.find? k else none :=
  lookup_filter keep k m.entries

def erase (m : OrderedMap K V) (k : K) : OrderedMap K V := m.filter fun k' => k' ≠ k

theorem find?_erase (m : OrderedMap K V) (k k' : K) [Decidable (k = k')] :
    (m.erase k).find? k' = if k = k' then none else m.find? k' := by
  rw [erase, find?_filter]
  by_cases hk : k = k'
  · simp [hk]
  · simp [hk, Ne.symm hk]

def filterMap (m : OrderedMap K V) {W : Type} (f : K → V → Option W) : OrderedMap K W where
  entries := m.entries.filterMap fun e => (f e.1 e.2).map fun w => (e.1, w)
  ascending := by
    refine m.ascending.filterMap _ ?_
    intro a b hlt c hc d hd
    obtain ⟨_, _, rfl⟩ := Option.map_eq_some_iff.mp hc
    obtain ⟨_, _, rfl⟩ := Option.map_eq_some_iff.mp hd
    exact hlt

theorem find?_filterMap (m : OrderedMap K V) {W : Type} (f : K → V → Option W) (k : K) :
    (m.filterMap f).find? k = (m.find? k).bind (f k) := by
  obtain ⟨entries, hsorted⟩ := m
  change lookup k (entries.filterMap fun e => (f e.1 e.2).map fun w => (e.1, w)) =
    (lookup k entries).bind (f k)
  induction entries with
  | nil => rfl
  | cons entry rest ih =>
    obtain ⟨l, v⟩ := entry
    obtain ⟨hhead, htail⟩ := List.pairwise_cons.mp hsorted
    by_cases hk : l = k
    · subst hk
      have hnone : lookup l rest = none := by
        cases hlookup : lookup l rest with
        | none => rfl
        | some w => exact absurd (hhead _ (mem_of_lookup hlookup)) (lt_irrefl l)
      cases hf : f l v with
      | none => simp [lookup, hf, ih htail, hnone]
      | some w => simp [lookup, hf]
    · cases hf : f l v with
      | none => simp [lookup, hf, hk, ih htail]
      | some w => simp [lookup, hf, hk, ih htail]

theorem mem_entries_iff (m : OrderedMap K V) (k : K) (v : V) :
    (k, v) ∈ m.entries ↔ m.find? k = some v :=
  ⟨m.ascending.lookup_of_mem, mem_of_lookup⟩

theorem mem_keys_iff (m : OrderedMap K V) (k : K) :
    k ∈ m.keys ↔ ∃ v, m.find? k = some v := by
  simp [keys, ← mem_entries_iff]

theorem keys_sorted (m : OrderedMap K V) : m.keys.Pairwise (· < ·) :=
  List.pairwise_map.mpr m.ascending

theorem keys_nodup (m : OrderedMap K V) : m.keys.Nodup :=
  m.keys_sorted.imp ne_of_lt

theorem eq_of_increasing {α : Type} {key : α → K} {xs ys : List α}
    (hxs : (xs.map key).Pairwise (· < ·)) (hys : (ys.map key).Pairwise (· < ·))
    (h : ∀ x, x ∈ xs ↔ x ∈ ys) : xs = ys := by
  rw [List.pairwise_map] at hxs hys
  refine List.Perm.eq_of_pairwise (fun a b _ _ hab hba => absurd hba hab.not_gt) hxs hys ?_
  refine (List.perm_ext_iff_of_nodup ?_ ?_).mpr h
  · exact hxs.imp fun hlt heq => hlt.ne (congrArg key heq)
  · exact hys.imp fun hlt heq => hlt.ne (congrArg key heq)

@[ext] theorem ext {m m' : OrderedMap K V} (h : ∀ k, m.find? k = m'.find? k) : m = m' := by
  have hentries : m.entries = m'.entries := by
    refine eq_of_increasing m.keys_sorted m'.keys_sorted ?_
    rintro ⟨k, v⟩
    rw [mem_entries_iff, mem_entries_iff, h]
  cases m
  cases m'
  simpa using hentries

theorem erase_eq_self {m : OrderedMap K V} {k : K} (h : m.find? k = none) : m.erase k = m := by
  ext1 k'
  rw [find?_erase]
  split
  · rename_i heq
    rw [← heq, h]
  · rfl

theorem insert_erase {m : OrderedMap K V} {k : K} {v : V} (h : m.find? k = some v) :
    (m.erase k).insert k v = m := by
  ext1 k'
  rw [find?_insert, find?_erase]
  split
  · rename_i heq
    rw [← heq, h]
  · rfl

theorem filter_insert (m : OrderedMap K V) (keep : K → Bool) (k : K) (v : V) :
    (m.insert k v).filter keep =
      if keep k then (m.filter keep).insert k v else m.filter keep := by
  ext1 k'
  by_cases hk : k = k'
  · subst hk
    cases hkeep : keep k <;> simp [find?_filter, hkeep]
  · cases hkeep : keep k <;> simp [find?_filter, find?_insert, hk]

theorem filter_erase_of_not {m : OrderedMap K V} {keep : K → Bool} {k : K} (h : keep k = false) :
    (m.erase k).filter keep = m.filter keep := by
  ext1 k'
  by_cases hk : k = k'
  · subst hk
    simp [find?_filter, h]
  · simp [find?_filter, find?_erase, hk]

theorem entries_insert_of_lt (m : OrderedMap K V) {k : K} (v : V)
    (h : ∀ k' ∈ m.keys, k' < k) : (m.insert k v).entries = m.entries ++ [(k, v)] := by
  obtain ⟨entries, hsorted⟩ := m
  change insertEntry k v entries = entries ++ [(k, v)]
  simp only [keys] at h
  clear hsorted
  induction entries with
  | nil => rfl
  | cons entry rest ih =>
    obtain ⟨k', v'⟩ := entry
    have hlt : k' < k := h k' (by simp)
    simp only [insertEntry, hlt.not_gt, hlt.ne', if_false, List.cons_append]
    rw [ih fun l hl => h l (by simp [hl])]

theorem lookup_eq_none_of_lt {k : K} {entries : List (K × V)}
    (h : ∀ e ∈ entries, k < e.1) : lookup k entries = none := by
  cases hlookup : lookup k entries with
  | none => rfl
  | some v => exact absurd (h _ (mem_of_lookup hlookup)) (lt_irrefl k)

theorem sum_values_insert (f : V → Nat) (m : OrderedMap K V) (k : K) (v : V) :
    ((m.insert k v).values.map f).sum + ((m.find? k).map f).getD 0 =
      (m.values.map f).sum + f v := by
  obtain ⟨entries, hsorted⟩ := m
  change (((insertEntry k v entries).map Prod.snd).map f).sum + ((lookup k entries).map f).getD 0 =
    ((entries.map Prod.snd).map f).sum + f v
  induction entries with
  | nil => simp [insertEntry, lookup]
  | cons entry rest ih =>
    obtain ⟨l, w⟩ := entry
    obtain ⟨hhead, htail⟩ := List.pairwise_cons.mp hsorted
    simp only [insertEntry]
    split_ifs with hlt heq
    · have hnone : lookup k ((l, w) :: rest) = none := lookup_eq_none_of_lt fun e he => by
        rcases List.mem_cons.mp he with rfl | he
        · exact hlt
        · exact hlt.trans (hhead e he)
      simp only [hnone, List.map_cons, List.sum_cons, Option.map_none, Option.getD_none]
      omega
    · subst heq
      simp only [lookup, if_true, List.map_cons, List.sum_cons, Option.map_some,
        Option.getD_some]
      omega
    · have hih := ih htail
      simp only [lookup, if_neg (Ne.symm heq), List.map_cons, List.sum_cons] at hih ⊢
      omega

theorem size_insert (m : OrderedMap K V) (k : K) (v : V) :
    (m.insert k v).size + (if (m.find? k).isSome then 1 else 0) = m.size + 1 := by
  have h := sum_values_insert (fun _ => 1) m k v
  have hone : ∀ l : List V, (l.map fun _ => 1).sum = l.length := by simp
  rw [hone, hone] at h
  simp only [values, List.length_map] at h
  cases hfind : m.find? k with
  | none => simpa [hfind, size] using h
  | some w => simpa [hfind, size] using h

/-- The entries that a test on key and value keeps. -/
def retain (m : OrderedMap K V) (keep : K → V → Bool) : OrderedMap K V :=
  ⟨m.entries.filter fun e => keep e.1 e.2, m.ascending.filter _⟩

theorem find?_retain_eq_some (m : OrderedMap K V) (keep : K → V → Bool) (k : K) (v : V) :
    (m.retain keep).find? k = some v ↔ m.find? k = some v ∧ keep k v = true := by
  rw [← mem_entries_iff, ← mem_entries_iff]
  exact List.mem_filter

/-- All the entries inserted, one after the other. -/
def extend (m : OrderedMap K V) (entries : List (K × V)) : OrderedMap K V :=
  entries.foldl (fun m e => m.insert e.1 e.2) m

@[simp] theorem extend_nil (m : OrderedMap K V) : m.extend [] = m := rfl

@[simp] theorem extend_cons (m : OrderedMap K V) (e : K × V) (entries : List (K × V)) :
    m.extend (e :: entries) = (m.insert e.1 e.2).extend entries := rfl

variable {m : OrderedMap K V} {k : K} {entries : List (K × V)} {v : V}

theorem find?_extend_of_notMem (h : k ∉ entries.map Prod.fst) :
    (m.extend entries).find? k = m.find? k := by
  induction entries generalizing m with
  | nil => rfl
  | cons e entries ih =>
    rw [List.map_cons, List.mem_cons, not_or] at h
    rw [extend_cons, ih h.2, find?_insert, if_neg (Ne.symm h.1)]

theorem find?_extend_of_mem (hnodup : (entries.map Prod.fst).Nodup) (h : (k, v) ∈ entries) :
    (m.extend entries).find? k = some v := by
  induction entries generalizing m with
  | nil => cases h
  | cons e entries ih =>
    rw [List.map_cons, List.nodup_cons] at hnodup
    rw [extend_cons]
    rcases List.mem_cons.mp h with rfl | h
    · rw [find?_extend_of_notMem hnodup.1, find?_insert_self]
    · exact ih hnodup.2 h

theorem find?_extend_eq_some (h : (m.extend entries).find? k = some v) :
    (k, v) ∈ entries ∨ m.find? k = some v := by
  induction entries generalizing m with
  | nil => exact .inr h
  | cons e entries ih =>
    rcases ih h with hmem | hfind
    · exact .inl (List.mem_cons_of_mem _ hmem)
    · rw [find?_insert] at hfind
      split at hfind
      · rename_i hkey
        left
        rw [← hkey, ← Option.some.inj hfind]
        exact List.mem_cons_self
      · exact .inr hfind

theorem filter_lt_of_getElem? (m : OrderedMap K V) {i : Nat} {e : K × V}
    (h : m.entries[i]? = some e) :
    (m.entries.filter fun e' => decide (e.1 < e'.1)) = m.entries.drop (i + 1) := by
  obtain ⟨entries, hsorted⟩ := m
  dsimp only at h ⊢
  induction entries generalizing i with
  | nil => cases h
  | cons first entries ih =>
    obtain ⟨hhead, htail⟩ := List.pairwise_cons.mp hsorted
    cases i with
    | zero =>
      cases h
      rw [List.filter_cons_of_neg (by simp), List.drop_succ_cons, List.drop_zero,
        List.filter_eq_self]
      exact fun other hother => decide_eq_true (hhead other hother)
    | succ i =>
      have hlt := hhead e (List.mem_of_getElem? h)
      rw [List.filter_cons_of_neg (by simpa using hlt.le), List.drop_succ_cons]
      exact ih htail h

end Arachne.OrderedMap
