import Arachne.Lib.OrderedMap
import Mathlib.Data.List.Lex

/-! Maps with a revision number: a batch of changes is applied as a whole and makes the next
revision. Keys that are themselves lists can be listed by a common beginning. -/

namespace Arachne

variable {K V : Type} [LinearOrder K]

/-- The new value of a key; `none` removes it. -/
abbrev Change (K V : Type) := K × Option V

def OrderedMap.change (records : OrderedMap K V) : Change K V → OrderedMap K V
  | (key, some value) => records.insert key value
  | (key, none) => records.erase key

def OrderedMap.changeAll (records : OrderedMap K V) (changes : List (Change K V)) :
    OrderedMap K V :=
  changes.foldl OrderedMap.change records

theorem OrderedMap.find?_change (records : OrderedMap K V) (change : Change K V) (key : K)
    [Decidable (change.1 = key)] :
    (records.change change).find? key = if change.1 = key then change.2 else records.find? key := by
  obtain ⟨changed, value⟩ := change
  cases value with
  | none => exact records.find?_erase changed key
  | some value => exact records.find?_insert changed key value

structure VersionedMap (K V : Type) [LinearOrder K] where
  revision : Nat
  records : OrderedMap K V

namespace VersionedMap

def new : VersionedMap K V := ⟨0, OrderedMap.empty⟩

/-- A batch made against the current revision is applied as a whole; any other is refused. -/
def commit (map : VersionedMap K V) (expected : Nat) (changes : List (Change K V)) :
    Option (VersionedMap K V) :=
  if expected = map.revision then some ⟨map.revision + 1, map.records.changeAll changes⟩ else none

theorem commit_eq_some {map map' : VersionedMap K V} {expected : Nat}
    {changes : List (Change K V)} :
    map.commit expected changes = some map' ↔
      expected = map.revision ∧ map' = ⟨map.revision + 1, map.records.changeAll changes⟩ := by
  rw [commit]
  split
  · rename_i h
    rw [Option.some.injEq]
    exact ⟨fun heq => ⟨h, heq.symm⟩, fun heq => heq.2.symm⟩
  · rename_i h
    exact ⟨fun hnone => (nomatch hnone), fun heq => absurd heq.1 h⟩

end VersionedMap

section Listing

variable {α : Type} [LinearOrder α]

private theorem cons_le_cons_iff' {a b : α} {l l' : List α} :
    a :: l ≤ b :: l' ↔ a < b ∨ a = b ∧ l ≤ l' := by
  rw [← not_lt, List.cons_lt_cons_iff, not_or, not_lt, not_and, not_lt]
  constructor
  · rintro ⟨hle, htail⟩
    rcases hle.lt_or_eq with hlt | heq
    · exact .inl hlt
    · exact .inr ⟨heq, htail heq.symm⟩
  · rintro (hlt | ⟨rfl, htail⟩)
    · exact ⟨hlt.le, fun heq => absurd heq hlt.ne'⟩
    · exact ⟨le_rfl, fun _ => htail⟩

theorem le_of_isPrefix {stem name : List α} (h : stem <+: name) : stem ≤ name := by
  obtain ⟨rest, rfl⟩ := h
  induction stem with
  | nil => exact not_lt.mp (fun hlt => nomatch hlt)
  | cons a stem ih =>
    rw [List.cons_append, cons_le_cons_iff']
    exact .inr ⟨rfl, ih⟩

theorem isPrefix_of_between {stem name name' : List α} (hlow : stem ≤ name) (hhigh : name ≤ name')
    (h : stem <+: name') : stem <+: name := by
  induction stem generalizing name name' with
  | nil => exact List.nil_prefix
  | cons a stem ih =>
    obtain ⟨rest, rfl⟩ := h
    cases name with
    | nil => exact absurd hlow (by simp)
    | cons b name =>
      rw [cons_le_cons_iff'] at hlow
      rw [List.cons_append, cons_le_cons_iff'] at hhigh
      have heq : a = b := by
        rcases hlow with hlt | ⟨heq, _⟩
        · rcases hhigh with hgt | ⟨heq, _⟩
          · exact absurd hlt hgt.not_gt
          · exact heq.symm
        · exact heq
      subst heq
      have hlow' : stem ≤ name := by
        rcases hlow with hlt | ⟨_, hle⟩
        · exact absurd hlt (lt_irrefl a)
        · exact hle
      have hhigh' : name ≤ stem ++ rest := by
        rcases hhigh with hlt | ⟨_, hle⟩
        · exact absurd hlt (lt_irrefl a)
        · exact hle
      exact List.cons_prefix_cons.mpr ⟨rfl, ih hlow' hhigh' (List.prefix_append stem rest)⟩

theorem takeWhile_range_eq_filter (stem : List α) {names : List (List α)}
    (hsorted : names.Pairwise (· < ·)) :
    (names.filter fun name => stem ≤ name).takeWhile (fun name => stem.isPrefixOf name) =
      names.filter fun name => stem.isPrefixOf name := by
  induction names with
  | nil => rfl
  | cons name names ih =>
    obtain ⟨hhead, htail⟩ := List.pairwise_cons.mp hsorted
    by_cases hstem : stem <+: name
    · have hle := le_of_isPrefix hstem
      have hbool := List.isPrefixOf_iff_prefix.mpr hstem
      simp [hle, hbool, ih htail]
    · have hbool : stem.isPrefixOf name = false :=
        Bool.eq_false_iff.mpr fun h => hstem (List.isPrefixOf_iff_prefix.mp h)
      by_cases hle : stem ≤ name
      · have hnone : names.filter (fun name => stem.isPrefixOf name) = [] := by
          rw [List.filter_eq_nil_iff]
          intro name' hname' h'
          exact hstem (isPrefix_of_between hle (hhead name' hname').le
            (List.isPrefixOf_iff_prefix.mp h'))
        simp [hle, hbool, hnone]
      · simp only [List.filter_cons, decide_eq_true_eq, hle, if_false, hbool, Bool.false_eq_true]
        exact ih htail

end Listing

end Arachne
