import Arachne.Lib.ByteCodec
import Arachne.Lib.OrderedMap

/-! Decoders of ordered maps and sorted lists: a loop reads entry after entry, each key above the
last one. -/

namespace Arachne.ByteCodec

open Fallible

variable {K V : Type} [LinearOrder K] {valid : K × V → Prop} {write : K × V → Bytes}
  {loop : Nat → Option K → OrderedMap K V → Reader (OrderedMap K V)}

/-- What one round of such a loop does, in terms of the largest key so far. -/
structure ReadsEntries (loop : Nat → Option K → OrderedMap K V → Reader (OrderedMap K V))
    (valid : K × V → Prop) (write : K × V → Bytes) : Prop where
  done : ∀ previous map, loop 0 previous map = pure map
  next : ∀ count (map : OrderedMap K V) bytes result,
    loop (count + 1) map.keys.getLast? map bytes = .ok result ↔ ∃ entry rest,
      valid entry ∧ (∀ key ∈ map.keys, key < entry.1) ∧ bytes = write entry ++ rest ∧
        loop count (some entry.1) (map.insert entry.1 entry.2) rest = .ok result

theorem any_getLast_le {map : OrderedMap K V} {key : K} :
    ¬map.keys.getLast?.any (fun last => key ≤ last) = true ↔ ∀ k ∈ map.keys, k < key := by
  cases hlast : map.keys.getLast? with
  | none =>
    rw [List.getLast?_eq_none_iff] at hlast
    simp [hlast]
  | some last =>
    rw [Option.any_some, decide_eq_true_eq, not_le]
    obtain ⟨keys, hkeys⟩ := List.getLast?_eq_some_iff.mp hlast
    have hsorted := map.keys_sorted
    rw [hkeys, List.pairwise_append] at hsorted
    rw [hkeys]
    constructor
    · intro hlt k hk
      rcases List.mem_append.mp hk with hk | hk
      · exact (hsorted.2.2 k hk last (by simp)).trans hlt
      · exact List.mem_singleton.mp hk ▸ hlt
    · exact fun hall => hall last (by simp)

theorem find_eq_none_of_lt {map : OrderedMap K V} {key : K} (h : ∀ k ∈ map.keys, k < key) :
    map.find? key = none := by
  by_contra hfound
  obtain ⟨value, hvalue⟩ := Option.ne_none_iff_exists'.mp hfound
  exact lt_irrefl key (h key ((map.mem_keys_iff key).mpr ⟨value, hvalue⟩))

theorem ReadsEntries.read (h : ReadsEntries loop valid write) {count : Nat}
    {map result : OrderedMap K V} {bytes rest : Bytes} :
    loop count map.keys.getLast? map bytes = .ok (result, rest) ↔ ∃ entries,
      result.entries = map.entries ++ entries ∧ entries.length = count ∧
        (∀ entry ∈ entries, valid entry) ∧ bytes = entries.flatMap write ++ rest := by
  induction count generalizing map bytes with
  | zero =>
    rw [h.done, pure_apply_eq_ok, Prod.mk.injEq]
    constructor
    · rintro ⟨rfl, rfl⟩
      exact ⟨[], (List.append_nil _).symm, rfl, List.forall_mem_nil _, rfl⟩
    · rintro ⟨entries, hentries, hlength, _, hbytes⟩
      obtain rfl := List.length_eq_zero_iff.mp hlength
      exact ⟨OrderedMap.ext_entries (hentries.trans (List.append_nil _)), hbytes.symm⟩
  | succ count ih =>
    have hround {entry : K × V} (hkeys : ∀ key ∈ map.keys, key < entry.1) (rest' : Bytes) :
        loop count (some entry.1) (map.insert entry.1 entry.2) rest' = .ok (result, rest) ↔
          ∃ entries, result.entries = map.entries ++ entry :: entries ∧
            entries.length = count ∧ (∀ entry ∈ entries, valid entry) ∧
              rest' = entries.flatMap write ++ rest := by
      have hinsert := map.entries_insert_of_lt entry.2 hkeys
      have hlast : (map.insert entry.1 entry.2).keys.getLast? = some entry.1 := by
        simp [OrderedMap.keys, hinsert]
      simp only [← hlast, ih, hinsert, List.append_assoc, List.singleton_append]
    rw [h.next]
    constructor
    · rintro ⟨entry, rest', hvalid, hkeys, rfl, hrest⟩
      obtain ⟨entries, hresult, rfl, hall, rfl⟩ := (hround hkeys rest').mp hrest
      exact ⟨entry :: entries, hresult, rfl, List.forall_mem_cons.mpr ⟨hvalid, hall⟩, by simp⟩
    · rintro ⟨entries, hresult, hlength, hall, rfl⟩
      obtain ⟨entry, entries, rfl⟩ := List.exists_cons_of_length_eq_add_one hlength
      obtain ⟨hvalid, hall⟩ := List.forall_mem_cons.mp hall
      have hkeys : ∀ key ∈ map.keys, key < entry.1 := by
        have hsorted := result.keys_sorted
        rw [OrderedMap.keys, hresult, List.map_append, List.pairwise_append] at hsorted
        exact fun key hkey => hsorted.2.2 key hkey entry.1 (by simp)
      exact ⟨entry, _, hvalid, hkeys, by simp,
        (hround hkeys _).mpr ⟨entries, hresult, Nat.succ.inj hlength, hall, rfl⟩⟩

/-- From the start, such a loop reads the maps of so many valid entries. -/
theorem ReadsEntries.exact (h : ReadsEntries loop valid write) (count : Nat) :
    Exact (loop count none .empty)
      (fun map => map.size = count ∧ ∀ entry ∈ map.entries, valid entry)
      (fun map => map.entries.flatMap write) := by
  intro bytes map rest
  change loop count (OrderedMap.empty : OrderedMap K V).keys.getLast? .empty bytes = _ ↔ _
  rw [h.read]
  constructor
  · rintro ⟨entries, hentries, rfl, hall, rfl⟩
    rw [OrderedMap.entries_empty, List.nil_append] at hentries
    obtain rfl := hentries
    exact ⟨⟨rfl, hall⟩, rfl⟩
  · rintro ⟨⟨rfl, hall⟩, rfl⟩
    exact ⟨map.entries, rfl, rfl, hall, rfl⟩

section Sorted

variable {α : Type} {key : α → K} {valid : α → Prop} {write : α → Bytes}
  {loop : Nat → Option K → Reader (List α)}

/-- What one round of a loop over a list does whose keys increase. -/
structure ReadsSorted (loop : Nat → Option K → Reader (List α)) (key : α → K) (valid : α → Prop)
    (write : α → Bytes) : Prop where
  done : ∀ previous, loop 0 previous = pure []
  next : ∀ count previous bytes result, loop (count + 1) previous bytes = .ok result ↔
    ∃ a values rest, valid a ∧ ¬previous.any (fun last => key a ≤ last) = true ∧
      bytes = write a ++ rest ∧ loop count (some (key a)) rest = .ok (values, result.2) ∧
        result.1 = a :: values

theorem pairwise_after {previous : Option K} {a : α} {values : List α} :
    (previous.toList ++ (a :: values).map key).Pairwise (· < ·) ↔
      ¬previous.any (fun last => key a ≤ last) = true ∧
        ((some (key a)).toList ++ values.map key).Pairwise (· < ·) := by
  cases previous with
  | none => simp
  | some last =>
    simp only [Option.toList_some, List.map_cons, List.singleton_append, List.pairwise_cons,
      List.mem_cons, forall_eq_or_imp, Option.any_some, decide_eq_true_eq, not_le]
    constructor
    · rintro ⟨⟨hlast, _⟩, hrest⟩
      exact ⟨hlast, hrest⟩
    · rintro ⟨hlast, hrest⟩
      exact ⟨⟨hlast, fun k hk => hlast.trans (hrest.1 k hk)⟩, hrest⟩

theorem ReadsSorted.read (h : ReadsSorted loop key valid write) {count : Nat} {previous : Option K}
    {bytes rest : Bytes} {values : List α} :
    loop count previous bytes = .ok (values, rest) ↔
      (values.length = count ∧ (previous.toList ++ values.map key).Pairwise (· < ·) ∧
        ∀ a ∈ values, valid a) ∧ bytes = values.flatMap write ++ rest := by
  induction count generalizing previous bytes values with
  | zero =>
    rw [h.done, pure_apply_eq_ok, Prod.mk.injEq, List.length_eq_zero_iff]
    constructor
    · rintro ⟨rfl, rfl⟩
      refine ⟨⟨rfl, ?_, List.forall_mem_nil _⟩, rfl⟩
      cases previous <;> simp
    · rintro ⟨⟨rfl, _⟩, rfl⟩
      exact ⟨rfl, rfl⟩
  | succ count ih =>
    rw [h.next]
    constructor
    · rintro ⟨a, values, rest', ha, hkey, rfl, hrest, rfl⟩
      obtain ⟨⟨rfl, hsorted, hall⟩, rfl⟩ := ih.mp hrest
      exact ⟨⟨rfl, pairwise_after.mpr ⟨hkey, hsorted⟩, List.forall_mem_cons.mpr ⟨ha, hall⟩⟩,
        by simp⟩
    · rintro ⟨⟨hlength, hsorted, hall⟩, rfl⟩
      obtain ⟨a, values, rfl⟩ := List.exists_cons_of_length_eq_add_one hlength
      obtain ⟨ha, hall⟩ := List.forall_mem_cons.mp hall
      obtain ⟨hkey, hsorted⟩ := pairwise_after.mp hsorted
      exact ⟨a, values, _, ha, hkey, by simp,
        ih.mpr ⟨⟨Nat.succ.inj hlength, hsorted, hall⟩, rfl⟩, rfl⟩

theorem ReadsSorted.exact (h : ReadsSorted loop key valid write) (count : Nat) :
    Exact (loop count none) (fun values => values.length = count ∧
      (values.map key).Pairwise (· < ·) ∧ ∀ a ∈ values, valid a)
      (fun values => values.flatMap write) :=
  fun _ _ _ => h.read

end Sorted

end Arachne.ByteCodec
