import Mathlib.Algebra.Order.BigOperators.Group.List
import Arachne.Delivery.CurrentService
import Arachne.Delivery.RangeRoundTrip

/-! Runs of an index of current values: what every reachable index keeps, and that the views it
serves are exactly the values it stores. -/

namespace Arachne.Delivery

open ByteCodec Fallible Routing Transition
open PublicationContext (unpack)
open Security (Mls SFrame Workspace)

variable {Group Signer Staged : Type} {ids : List (Block 16)}

/-- The arguments of one `insert`. -/
structure CurrentInsert where
  context : PublicationContext
  selector : Block 32
  replacementKey : Block 32
  expiresAt : U64
  tombstone : Bool
  packet : Bytes
deriving DecidableEq

namespace CurrentInsert

def key (value : CurrentInsert) : ValueKey :=
  valueKey value.context.revision value.context.topic value.selector value.replacementKey

def scope (value : CurrentInsert) : Selection :=
  selection value.context.revision value.context.topic value.selector

def entry (value : CurrentInsert) : IndexedValue :=
  ⟨value.context, value.selector,
    ⟨value.replacementKey, value.expiresAt, value.tombstone, value.packet⟩⟩

end CurrentInsert

namespace CurrentViewIndex

variable {index next : CurrentViewIndex} {value : CurrentInsert} {query : CurrentViewQuery}

def put (index : CurrentViewIndex) (value : CurrentInsert) : Outcome CurrentViewIndex :=
  index.insert value.context value.selector value.replacementKey value.expiresAt value.tombstone
    value.packet

section InPlace

/-- A part of a method that does not touch the index. -/
def attempt {α : Type} (x : Outcome α) : EStateM String CurrentViewIndex α :=
  match x with
  | .ok a => pure a
  | .error message => throw message

/-- The body of `insert` as a method: it checks against the index it has, and then writes the value
and the cut, one after the other. -/
def insertInPlace (value : CurrentInsert) : EStateM String CurrentViewIndex Unit := do
  let sequence ← attempt (orFail value.context.sequence "current value lacks publisher sequence")
  let (unpacked, _) ← attempt (unpack value.context.workspace
    value.context.revision value.context.topic value.packet)
  let index ← get
  attempt (failIf (value.context ≠ unpacked ∨ value.context.workspace ≠ index.workspace ∨
    value.expiresAt = 0) "invalid current value")
  match ← attempt (index.priorValue value.key sequence.val value.entry) with
  | some _ => pure ()
  | none =>
      attempt (failIf (∃ stored ∈ index.values.entries, stored.1 ≠ value.key ∧
        stored.2.context.id = value.context.id)
        "publication identity already indexes another current value")
      let prior := (index.values.find? value.key).elim 0 fun entry => entry.value.packet.length
      attempt (failIf (index.retainedBytes < prior ∨
        maxPacketBytes < index.retainedBytes - prior + value.packet.length)
        "current-view byte capacity exhausted")
      attempt (failIf (index.cuts.find? value.scope = none ∧
        index.cuts.size = maxCurrentSelections) "current-view selection capacity exhausted")
      let cut ← attempt (orFail (checkedSucc ((index.cuts.find? value.scope).getD 0))
        "current-view cut exhausted")
      modify fun index => { index with values := index.values.insert value.key value.entry }
      modify fun index => { index with cuts := index.cuts.insert value.scope cut }

/-- What is left of the index after a method, whether it returns or fails. -/
def left : EStateM.Result String CurrentViewIndex Unit → CurrentViewIndex
  | .ok _ index => index
  | .error _ index => index

/-- A method that ends as a function does: with its index, or failing with the index as it was. -/
def Follows (method : EStateM String CurrentViewIndex Unit) (index : CurrentViewIndex)
    (x : Outcome CurrentViewIndex) : Prop :=
  method index =
    match x with
    | .ok next => .ok () next
    | .error message => .error message index

theorem Follows.bind {α : Type} {x : Outcome α} {f : α → EStateM String CurrentViewIndex Unit}
    {g : α → Outcome CurrentViewIndex} (h : ∀ a, x = .ok a → Follows (f a) index (g a)) :
    Follows (attempt x >>= f) index (x >>= g) := by
  cases x with
  | error message => exact rfl
  | ok a => exact h a rfl

theorem Follows.get {f : CurrentViewIndex → EStateM String CurrentViewIndex Unit}
    {x : Outcome CurrentViewIndex} (h : Follows (f index) index x) :
    Follows (MonadState.get >>= f) index x :=
  h

theorem insertInPlace_follows (index : CurrentViewIndex) (value : CurrentInsert) :
    Follows (insertInPlace value) index (index.put value) := by
  refine Follows.bind fun sequence _ => ?_
  refine Follows.bind fun unpacked _ => ?_
  refine Follows.get ?_
  refine Follows.bind fun _ _ => ?_
  refine Follows.bind fun prior hprior => ?_
  cases prior with
  | some known =>
    have hknown := (priorValue_eq_some hprior).1
    subst hknown
    exact rfl
  | none =>
    refine Follows.bind fun _ _ => ?_
    refine Follows.bind fun _ _ => ?_
    refine Follows.bind fun _ _ => ?_
    refine Follows.bind fun cut _ => ?_
    exact rfl

theorem eq_of_insertInPlace_error {message : String} {after : CurrentViewIndex}
    (h : insertInPlace value index = .error message after) : after = index := by
  rw [insertInPlace_follows index value] at h
  split at h <;> cases h
  rfl

end InPlace

/-- What `insert` checks of its arguments alone. -/
structure Acceptable (workspace : WorkspaceId) (value : CurrentInsert) (sequence : NonZeroU64) :
    Prop where
  sequence : value.context.sequence = some sequence
  unpacks : ∃ ciphertext, unpack workspace value.context.revision
    value.context.topic value.packet = .ok (value.context, ciphertext)
  expires : value.expiresAt ≠ 0

/-- An insertion that writes: what it checks, and what it leaves. -/
structure Writes (index : CurrentViewIndex) (value : CurrentInsert) (sequence : NonZeroU64)
    (next : CurrentViewIndex) : Prop where
  room : index.values.find? value.key = none → index.values.size ≠ maxCurrentValues
  newer : ∀ existing, index.values.find? value.key = some existing →
    ∃ current, existing.context.sequence = some current ∧ current.val < sequence.val
  identity : ∀ key entry, index.values.find? key = some entry →
    entry.context.id = value.context.id → key = value.key
  bytes : (next.values.values.map fun entry => entry.value.packet.length).sum ≤ maxPacketBytes
  selections : index.cuts.find? value.scope = none → index.cuts.size ≠ maxCurrentSelections
  result : ∃ cut, cut.val = ((index.cuts.find? value.scope).getD 0).val + 1 ∧
    next = { index with
      values := index.values.insert value.key value.entry
      cuts := index.cuts.insert value.scope cut }

theorem put_eq_ok (h : index.put value = .ok next) :
    ∃ sequence, Acceptable index.workspace value sequence ∧
      ((next = index ∧ ∃ existing, index.values.find? value.key = some existing ∧
          Outdates existing value.entry sequence.val) ∨
        Writes index value sequence next) := by
  simp only [put, insert, bind_eq_ok, orFail_eq_ok, failIf_eq_ok, not_or, not_not] at h
  obtain ⟨sequence, hsequence, ⟨unpacked, ciphertext⟩, hunpack, _, ⟨rfl, hworkspace, hexpires⟩,
    prior, hprior, h⟩ := h
  rw [hworkspace] at hunpack
  refine ⟨sequence, ⟨hsequence, ⟨ciphertext, hunpack⟩, hexpires⟩, ?_⟩
  cases prior with
  | some known =>
    obtain ⟨rfl, hexisting⟩ := priorValue_eq_some hprior
    rw [pure_eq_ok] at h
    exact .inl ⟨h.symm, hexisting⟩
  | none =>
    obtain ⟨hroom, hnewer⟩ := priorValue_eq_none hprior
    simp only [replaceValue, bind_eq_ok, orFail_eq_ok, failIf_eq_ok, pure_eq_ok, not_or] at h
    obtain ⟨_, hidentity, _, ⟨hprior, hbytes⟩, _, hselections, cut, hcut, rfl⟩ := h
    refine .inr ⟨hroom, hnewer, ?_, ?_, ?_, cut, checkedSucc_val hcut, rfl⟩
    · intro key entry hfind hid
      by_contra hne
      exact hidentity ⟨(key, entry), (index.values.mem_entries_iff key entry).mpr hfind, hne, hid⟩
    · change ((index.values.insert value.key value.entry).values.map
        fun entry => entry.value.packet.length).sum ≤ maxPacketBytes
      change ¬ index.retainedBytes < (index.values.find? value.key).elim 0 _ at hprior
      change ¬ maxPacketBytes < index.retainedBytes - (index.values.find? value.key).elim 0 _ +
        value.entry.value.packet.length at hbytes
      have hsum := index.values.sum_values_insert (fun entry => entry.value.packet.length)
        value.key value.entry
      cases hfind : index.values.find? value.key with
      | none =>
        rw [retainedBytes, hfind, Option.elim_none] at hbytes
        rw [hfind, Option.map_none, Option.getD_none] at hsum
        omega
      | some existing =>
        rw [retainedBytes, hfind, Option.elim_some] at hprior hbytes
        rw [hfind, Option.map_some, Option.getD_some] at hsum
        omega
    · intro hnone hfull
      exact hselections ⟨hnone, hfull⟩

/-- A value as an index stores it, under its own key. -/
structure Stored (workspace : WorkspaceId) (key : ValueKey) (entry : IndexedValue) : Prop where
  key : key = valueKey entry.context.revision entry.context.topic entry.selector
    entry.value.replacementKey
  unpacks : ∃ ciphertext, unpack workspace entry.context.revision
    entry.context.topic entry.value.packet = .ok (entry.context, ciphertext)
  sequenced : entry.context.sequence ≠ none
  expires : entry.value.expiresAt ≠ 0

structure Kept (index : CurrentViewIndex) : Prop where
  selections : index.cuts.size ≤ maxCurrentSelections
  size : index.values.size ≤ maxCurrentValues
  cuts : ∀ scope, index.cuts.find? scope ≠ some 0
  bytes : (index.values.values.map fun entry => entry.value.packet.length).sum ≤ maxPacketBytes
  stored : ∀ key entry, index.values.find? key = some entry → Stored index.workspace key entry
  ids : ∀ key entry key' entry', index.values.find? key = some entry →
    index.values.find? key' = some entry' → entry.context.id = entry'.context.id → key = key'
  scopes : ∀ key entry, index.values.find? key = some entry →
    index.cuts.find? (selection entry.context.revision entry.context.topic entry.selector) ≠ none

theorem new_kept (workspace : WorkspaceId) (authority : Block 32) (epoch : U64) :
    Kept (new workspace authority epoch) where
  selections := Nat.zero_le _
  size := Nat.zero_le _
  cuts := by simp [new]
  bytes := Nat.zero_le _
  stored := by simp [new]
  ids := by simp [new]
  scopes := by simp [new]

section Kept

variable {sequence : NonZeroU64}

theorem Acceptable.stored (h : Acceptable index.workspace value sequence) :
    Stored index.workspace value.key value.entry where
  key := rfl
  unpacks := h.unpacks
  sequenced := by
    rw [CurrentInsert.entry, h.sequence]
    exact nofun
  expires := h.expires

theorem find?_insert_eq_some {key : ValueKey} {entry : IndexedValue}
    (h : (index.values.insert value.key value.entry).find? key = some entry) :
    (key = value.key ∧ entry = value.entry) ∨
      (key ≠ value.key ∧ index.values.find? key = some entry) := by
  rw [OrderedMap.find?_insert] at h
  split at h
  · rename_i hkey
    cases h
    exact .inl ⟨hkey.symm, rfl⟩
  · rename_i hkey
    exact .inr ⟨Ne.symm hkey, h⟩

theorem Writes.kept (h : Writes index value sequence next) (hkept : Kept index)
    (hvalue : Acceptable index.workspace value sequence) : Kept next := by
  obtain ⟨hroom, _, hidentity, hbytes, hselections, cut, hcut, rfl⟩ := h
  have hcuts := index.cuts.size_insert value.scope cut
  have hvalues := index.values.size_insert value.key value.entry
  have hcutsBound := hkept.selections
  have hvaluesBound := hkept.size
  constructor
  · cases hfind : index.cuts.find? value.scope with
    | none =>
      have hfree := hselections hfind
      rw [hfind] at hcuts
      simp only [Option.isSome_none, Bool.false_eq_true, if_false] at hcuts
      dsimp only
      omega
    | some known =>
      rw [hfind] at hcuts
      simp only [Option.isSome_some, if_true] at hcuts
      dsimp only
      omega
  · cases hfind : index.values.find? value.key with
    | none =>
      have hfree := hroom hfind
      rw [hfind] at hvalues
      simp only [Option.isSome_none, Bool.false_eq_true, if_false] at hvalues
      dsimp only
      omega
    | some existing =>
      rw [hfind] at hvalues
      simp only [Option.isSome_some, if_true] at hvalues
      dsimp only
      omega
  · intro scope hzero
    rw [OrderedMap.find?_insert] at hzero
    split at hzero
    · cases hzero
      exact Nat.succ_ne_zero _ hcut.symm
    · exact hkept.cuts scope hzero
  · exact hbytes
  · intro key entry hfind
    rcases find?_insert_eq_some hfind with ⟨rfl, rfl⟩ | ⟨_, hold⟩
    · exact hvalue.stored
    · exact hkept.stored key entry hold
  · intro key entry key' entry' hfind hfind' hid
    rcases find?_insert_eq_some hfind with ⟨rfl, rfl⟩ | ⟨hne, hold⟩
    · rcases find?_insert_eq_some hfind' with ⟨rfl, rfl⟩ | ⟨_, hold'⟩
      · rfl
      · exact (hidentity key' entry' hold' hid.symm).symm
    · rcases find?_insert_eq_some hfind' with ⟨rfl, rfl⟩ | ⟨_, hold'⟩
      · exact hidentity key entry hold hid
      · exact hkept.ids key entry key' entry' hold hold' hid
  · intro key entry hfind
    rw [OrderedMap.find?_insert]
    split
    · exact nofun
    · rename_i hscope
      rcases find?_insert_eq_some hfind with ⟨rfl, rfl⟩ | ⟨_, hold⟩
      · exact absurd rfl hscope
      · exact hkept.scopes key entry hold

theorem Kept.put (hkept : Kept index) (h : index.put value = .ok next) : Kept next := by
  obtain ⟨sequence, hvalue, ⟨rfl, _⟩ | hwrites⟩ := put_eq_ok h
  · exact hkept
  · exact hwrites.kept hkept hvalue

theorem Kept.ids_nodup (hkept : Kept index) :
    (index.values.entries.map fun entry => entry.2.context.id).Nodup := by
  rw [List.Nodup, List.pairwise_map]
  refine index.values.ascending.imp_of_mem ?_
  rintro ⟨key, entry⟩ ⟨key', entry'⟩ hmem hmem' hlt hid
  have hkey := hkept.ids key entry key' entry' ((index.values.mem_entries_iff _ _).mp hmem)
    ((index.values.mem_entries_iff _ _).mp hmem') hid
  exact absurd hkey (ne_of_lt hlt)

theorem Kept.validateValues (hkept : Kept index) {entries : List (ValueKey × IndexedValue)}
    (hentries : ∀ entry ∈ entries, index.values.find? entry.1 = some entry.2)
    (hnodup : (entries.map fun entry => entry.2.context.id).Nodup)
    (hids : ∀ entry ∈ entries, entry.2.context.id ∉ ids) :
    index.validateValues ids entries = .ok () := by
  induction entries generalizing ids with
  | nil => rfl
  | cons entry entries ih =>
    obtain ⟨key, entry⟩ := entry
    rw [List.forall_mem_cons] at hentries hids
    rw [List.map_cons, List.nodup_cons] at hnodup
    dsimp only at hentries hnodup hids
    obtain ⟨rfl, ⟨ciphertext, hunpack⟩, hsequenced, hexpires⟩ := hkept.stored _ _ hentries.1
    have hscope := hkept.scopes _ _ hentries.1
    rw [CurrentViewIndex.validateValues]
    change (unpack index.workspace entry.context.revision entry.context.topic
      entry.value.packet >>= _) = _
    rw [hunpack, ok_bind]
    dsimp only
    rw [failIf_of_not, ok_bind]
    · refine ih hentries.2 hnodup.2 ?_
      intro other hother hmem
      rcases List.mem_cons.mp hmem with heq | hmem
      · exact hnodup.1 (List.mem_map.mpr ⟨other, hother, heq⟩)
      · exact hids.2 other hother hmem
    · rintro (hne | hnone | hne | hne | hne | hzero | hmem | hnone)
      · exact hne rfl
      · exact hsequenced hnone
      · exact hne rfl
      · exact hne rfl
      · exact hne rfl
      · exact hexpires hzero
      · exact hids.1 hmem
      · exact hscope hnone

theorem Kept.validate (hkept : Kept index) : index.validate = .ok () := by
  have hcuts : 0 ∉ index.cuts.values := by
    intro hzero
    obtain ⟨⟨scope, cut⟩, hmem, rfl⟩ := List.mem_map.mp hzero
    exact hkept.cuts scope ((index.cuts.mem_entries_iff _ _).mp hmem)
  have hbounded : boundedPacketBytes (index.values.values.map fun entry => entry.value.packet) ≠
      none := by
    have hcount : (index.values.values.map fun entry => entry.value.packet).length ≤
        maxCurrentValues := by
      rw [List.length_map, OrderedMap.values, List.length_map]
      exact hkept.size
    have hbytes : ((index.values.values.map fun entry => entry.value.packet).map List.length).sum ≤
        maxPacketBytes := by
      rw [List.map_map]
      exact hkept.bytes
    rw [boundedPacketBytes_eq_some.mpr ⟨hcount, hbytes, rfl⟩]
    exact Option.some_ne_none _
  rw [CurrentViewIndex.validate, failIf_of_not, ok_bind]
  · refine hkept.validateValues ?_ hkept.ids_nodup (fun _ _ => List.not_mem_nil)
    rintro ⟨key, entry⟩ hmem
    exact (index.values.mem_entries_iff _ _).mp hmem
  · rw [not_or, not_or, not_or, not_lt, not_lt]
    exact ⟨hkept.selections, hkept.size, hcuts, hbounded⟩

end Kept

section Selected

theorem valueKey_lt_iff {revision : U64} {topic : Topic} {selector first second : Block 32} :
    valueKey revision topic selector first < valueKey revision topic selector second ↔
      first < second := by
  simp [valueKey, Prod.Lex.toLex_lt_toLex]

theorem IndexedValue.answers_iff {entry : IndexedValue} :
    entry.answers query = true ↔ entry.context.revision = query.policyRevision ∧
      entry.context.topic = query.topic ∧ entry.selector = query.selector := by
  rw [IndexedValue.answers, decide_eq_true_eq]

theorem selected_eq (index : CurrentViewIndex) (query : CurrentViewQuery) :
    index.selected query =
      (index.values.entries.filter (·.2.answers query)).map (·.2.value) := by
  rw [selected, OrderedMap.values, List.filter_map, List.map_map]
  rfl

theorem Kept.key_of_answers (hkept : Kept index) {entry : ValueKey × IndexedValue}
    (hentry : entry ∈ index.values.entries.filter (·.2.answers query)) :
    index.values.find? entry.1 = some entry.2 ∧
      entry.1 = valueKey query.policyRevision query.topic query.selector
        entry.2.value.replacementKey := by
  rw [List.mem_filter, IndexedValue.answers_iff] at hentry
  obtain ⟨hmem, hrevision, htopic, hselector⟩ := hentry
  have hfind := (index.values.mem_entries_iff entry.1 entry.2).mp hmem
  refine ⟨hfind, ?_⟩
  rw [(hkept.stored _ _ hfind).key, hrevision, htopic, hselector]

theorem Kept.mem_selected (hkept : Kept index) {stored : CurrentValue} :
    stored ∈ index.selected query ↔ ∃ entry, index.values.find? (valueKey query.policyRevision
      query.topic query.selector stored.replacementKey) = some entry ∧ entry.value = stored := by
  rw [selected_eq, List.mem_map]
  constructor
  · rintro ⟨⟨key, entry⟩, hentry, rfl⟩
    obtain ⟨hfind, hkey⟩ := hkept.key_of_answers hentry
    dsimp only at hfind hkey
    exact ⟨entry, hkey ▸ hfind, rfl⟩
  · rintro ⟨entry, hfind, rfl⟩
    refine ⟨(valueKey query.policyRevision query.topic query.selector entry.value.replacementKey,
      entry), ?_, rfl⟩
    have hkey := (hkept.stored _ _ hfind).key
    simp only [valueKey, EmbeddingLike.apply_eq_iff_eq, Prod.mk.injEq, and_true] at hkey
    rw [List.mem_filter, IndexedValue.answers_iff]
    exact ⟨(index.values.mem_entries_iff _ _).mpr hfind, hkey.1.symm, hkey.2.1.symm,
      hkey.2.2.symm⟩

theorem Kept.selected_sorted (hkept : Kept index) (query : CurrentViewQuery) :
    ((index.selected query).map (·.replacementKey)).Pairwise (· < ·) := by
  rw [selected_eq, List.map_map, List.pairwise_map]
  refine (index.values.ascending.filter _).imp_of_mem ?_
  intro first second hfirst hsecond hlt
  rw [(hkept.key_of_answers hfirst).2, (hkept.key_of_answers hsecond).2, valueKey_lt_iff] at hlt
  exact hlt

theorem encodeEntries_ok (sha256 : Bytes → Block 32) (tombstones : Bool)
    {entries : List (ValueKey × IndexedValue)}
    (hunpack : ∀ entry ∈ entries, ∃ ciphertext, unpack query.workspace query.policyRevision
      query.topic entry.2.value.packet = .ok (entry.2.context, ciphertext))
    (hsequenced : ∀ entry ∈ entries, entry.2.context.sequence ≠ none)
    (hexpires : ∀ entry ∈ entries, entry.2.value.expiresAt ≠ 0)
    (hnodup : (entries.map fun entry => entry.2.context.id).Nodup)
    (hids : ∀ entry ∈ entries, entry.2.context.id ∉ ids) :
    ∃ bytes, encodeEntries sha256 query tombstones ids (entries.map (·.2.value)) = .ok bytes := by
  induction entries generalizing ids with
  | nil => exact ⟨[], rfl⟩
  | cons entry entries ih =>
    rw [List.forall_mem_cons] at hunpack hsequenced hexpires hids
    rw [List.map_cons, List.nodup_cons] at hnodup
    obtain ⟨ciphertext, hfirst⟩ := hunpack.1
    obtain ⟨sequence, hsequence⟩ := Option.ne_none_iff_exists'.mp hsequenced.1
    have hrest : ∀ other ∈ entries, other.2.context.id ∉ entry.2.context.id :: ids := by
      intro other hother hmem
      rcases List.mem_cons.mp hmem with heq | hmem
      · exact hnodup.1 (List.mem_map.mpr ⟨other, hother, heq⟩)
      · exact hids.2 other hother hmem
    obtain ⟨bytes, hbytes⟩ := ih hunpack.2 hsequenced.2 hexpires.2 hnodup.2 hrest
    rw [List.map_cons, encodeEntries, hfirst, ok_bind]
    dsimp only
    rw [hsequence, orFail_some, ok_bind, failIf_of_not, ok_bind, hbytes]
    · exact ⟨_, rfl⟩
    · rw [not_or]
      exact ⟨hexpires.1, hids.1⟩

theorem sum_length_selected_le (index : CurrentViewIndex) (query : CurrentViewQuery) :
    (((index.selected query).map (·.packet)).map List.length).sum ≤
      (index.values.values.map fun entry => entry.value.packet.length).sum := by
  rw [selected, List.map_map, List.map_map]
  exact (List.filter_sublist.map _).sum_le_sum (fun _ _ => Nat.zero_le _)

variable {mls : Mls Group Signer Staged}

theorem Kept.viewable (hkept : Kept index) (cut : U64)
    (hquery : query.workspace = index.workspace) :
    Viewable mls query cut (index.selected query) := by
  have hbytes := le_trans (index.sum_length_selected_le query) hkept.bytes
  have hunpack : ∀ entry ∈ index.values.entries.filter (·.2.answers query), ∃ ciphertext,
      unpack query.workspace query.policyRevision query.topic
        entry.2.value.packet = .ok (entry.2.context, ciphertext) := by
    intro entry hentry
    have hstored := hkept.stored _ _ (hkept.key_of_answers hentry).1
    rw [List.mem_filter, IndexedValue.answers_iff] at hentry
    obtain ⟨ciphertext, hunpack⟩ := hstored.unpacks
    rw [hentry.2.1, hentry.2.2.1] at hunpack
    exact ⟨ciphertext, hquery ▸ hunpack⟩
  have hnodup : ((index.values.entries.filter (·.2.answers query)).map
      fun entry => entry.2.context.id).Nodup :=
    hkept.ids_nodup.sublist (List.filter_sublist.map _)
  have hcount : (index.selected query).length ≤ maxCurrentValues := by
    rw [selected_eq, List.length_map]
    exact le_trans (List.length_filter_le _ _) hkept.size
  obtain ⟨encoded, hencoded⟩ := encodeEntries_ok mls.sha256
    ((index.selected query).any (·.tombstone)) hunpack
    (fun entry hentry => (hkept.stored _ _ (hkept.key_of_answers hentry).1).sequenced)
    (fun entry hentry => (hkept.stored _ _ (hkept.key_of_answers hentry).1).expires) hnodup
    (fun _ _ => List.not_mem_nil)
  rw [← selected_eq] at hencoded
  refine ⟨?_, hbytes, ?_⟩
  · have hbounded := boundedPacketBytes_eq_some.mpr
      ⟨by rw [List.length_map]; exact hcount, hbytes, rfl⟩
    rw [entries, failIf_of_not, ok_bind]
    · dsimp only
      rw [hencoded]
      exact ⟨_, rfl⟩
    · rw [not_or, not_or, not_lt, not_not, hbounded]
      exact ⟨hcount, hkept.selected_sorted query, Option.some_ne_none _⟩
  · intro stored hstored
    rw [selected_eq, List.mem_map] at hstored
    obtain ⟨entry, hentry, rfl⟩ := hstored
    obtain ⟨ciphertext, hentryUnpack⟩ := hunpack entry hentry
    exact PublicationContext.length_of_unpack hentryUnpack

end Selected

inductive IndexCall where
  | insert (value : CurrentInsert)
  | reload
deriving DecidableEq

/-- One call on the index: an insertion, whether or not it succeeds, or a restart from what the
index saves. -/
inductive IndexStep : CurrentViewIndex → IndexCall → CurrentViewIndex → Prop
  | insert (index : CurrentViewIndex) (value : CurrentInsert) :
      IndexStep index (.insert value) (left (insertInPlace value index))
  | reload {index next : CurrentViewIndex} {bytes : Bytes} (hsaved : index.snapshot = .ok bytes)
      (hrestored : restore index.workspace index.authority index.epoch bytes = .ok next) :
      IndexStep index .reload next

/-- The index after insertions one after the other. -/
def insertAll (index : CurrentViewIndex) (values : List CurrentInsert) : CurrentViewIndex :=
  values.foldl (fun index value => left (insertInPlace value index)) index

theorem insertAll_run (index : CurrentViewIndex) (values : List CurrentInsert) :
    ∃ trace, Run IndexStep index trace (insertAll index values) := by
  induction values generalizing index with
  | nil => exact ⟨[], .nil index⟩
  | cons value values ih =>
    obtain ⟨trace, hrun⟩ := ih (left (insertInPlace value index))
    exact ⟨_, .cons (.insert index value) hrun⟩

theorem left_insertInPlace (index : CurrentViewIndex) (value : CurrentInsert) :
    left (insertInPlace value index) =
      match index.put value with
      | .ok next => next
      | .error _ => index := by
  rw [insertInPlace_follows index value]
  split <;> rfl

theorem IndexStep.changes {call : IndexCall} (h : IndexStep index call next) :
    next = index ∨ ∃ value, call = .insert value ∧ index.put value = .ok next := by
  cases h with
  | insert value =>
    rw [left_insertInPlace]
    split
    · rename_i next hput
      exact .inr ⟨value, rfl, hput⟩
    · exact .inl rfl
  | reload hsaved hrestored =>
    rw [restore_snapshot hsaved] at hrestored
    cases hrestored
    exact .inl rfl

theorem put_scope (h : index.put value = .ok next) : next.workspace = index.workspace ∧
    next.authority = index.authority ∧ next.epoch = index.epoch := by
  obtain ⟨sequence, _, ⟨rfl, _⟩ | hwrites⟩ := put_eq_ok h
  · exact ⟨rfl, rfl, rfl⟩
  · obtain ⟨cut, _, rfl⟩ := hwrites.result
    exact ⟨rfl, rfl, rfl⟩

/-- An index that keeps its invariant, for one authority in one epoch. -/
structure KeptFor (workspace : WorkspaceId) (authority : Block 32) (epoch : U64)
    (index : CurrentViewIndex) : Prop where
  kept : Kept index
  workspace : index.workspace = workspace
  authority : index.authority = authority
  epoch : index.epoch = epoch

variable {workspace : WorkspaceId} {authority : Block 32} {epoch : U64}

theorem KeptFor.step {call : IndexCall} (h : KeptFor workspace authority epoch index)
    (hstep : IndexStep index call next) : KeptFor workspace authority epoch next := by
  rcases hstep.changes with rfl | ⟨value, _, hput⟩
  · exact h
  · obtain ⟨hworkspace, hauthority, hepoch⟩ := put_scope hput
    exact ⟨h.kept.put hput, hworkspace.trans h.workspace, hauthority.trans h.authority,
      hepoch.trans h.epoch⟩

theorem keptFor_of_run {trace : List (Taken CurrentViewIndex IndexCall)}
    (hrun : Run IndexStep (new workspace authority epoch) trace index) :
    KeptFor workspace authority epoch index :=
  (hrun.invariant (fun _ _ _ h hstep => h.step hstep)
    ⟨new_kept workspace authority epoch, rfl, rfl, rfl⟩).1

section Serve

variable {Key : Type} {mls : Mls Group Signer Staged}

/-- The workspace that speaks for an authority. -/
structure SpeaksFor (mls : Mls Group Signer Staged) (owner : Workspace Group Signer)
    (workspace : WorkspaceId) (authority : Block 32) (epoch : U64) : Prop where
  workspace : owner.id = workspace
  epoch : mls.epoch owner = epoch
  member : owner.member.map (·.id) = some authority

/-- An authorized query is served, and verifies to the cut and the values of the index. -/
theorem KeptFor.serve (sframe : SFrame Group Key) (h : KeptFor workspace authority epoch index)
    {owner reader : Workspace Group Signer} {policy : RoutingTable} {requester : PeerId}
    (howner : SpeaksFor mls owner workspace authority epoch)
    (hreader : Trusts mls reader owner.signer workspace authority epoch)
    (hauthorized : index.authorizes mls owner policy requester query = true) :
    ∃ view : CurrentView, protect mls owner query (index.cutOf query) (index.selected query) =
        .ok view ∧
      index.serve mls owner policy requester query = .ok view.encoded ∧
      verifyWireReply (securityOwner mls sframe reader) query view.encoded =
        .ok (some ⟨index.cutOf query, index.selected query⟩) := by
  have hscope : index.InScope query := by
    rw [authorizes, Bool.and_eq_true, decide_eq_true_eq] at hauthorized
    exact hauthorized.1
  have ⟨hworkspace, hauthority, hepoch⟩ := hscope
  have hqueryWorkspace := hworkspace.trans h.workspace
  have hqueryAuthority := hauthority.trans h.authority
  have hqueryEpoch := hepoch.trans h.epoch
  obtain ⟨view, hview, hwire, hverified⟩ := verifyWireReply_protect sframe
    (h.kept.viewable (index.cutOf query) hworkspace) (howner.workspace.trans hqueryWorkspace.symm)
    (howner.epoch.trans hqueryEpoch.symm) (by rw [howner.member, hqueryAuthority])
    (by rwa [hqueryWorkspace, hqueryAuthority, hqueryEpoch])
  refine ⟨view, hview, ?_, hverified⟩
  rw [CurrentViewIndex.serve, if_pos hauthorized, CurrentViewIndex.view,
    failIf_of_not (not_not.mpr hscope), ok_bind, hview, ok_bind, hwire]

/-- Every index that a run of insertions and restarts reaches is valid, an insertion that fails
leaves it as it was, and what it serves for an authorized query verifies to its cut and exactly
the values stored for the selection, in the order of their keys. -/
theorem served_view_exact (mls : Mls Group Signer Staged) (sframe : SFrame Group Key)
    {trace : List (Taken CurrentViewIndex IndexCall)}
    (hrun : Run IndexStep (new workspace authority epoch) trace index) :
    index.validate = .ok () ∧
      (∀ value message after,
        insertInPlace value index = .error message after → after = index) ∧
      ∀ (owner reader : Workspace Group Signer) (policy : RoutingTable) (requester : PeerId)
        (query : CurrentViewQuery), SpeaksFor mls owner workspace authority epoch →
        Trusts mls reader owner.signer workspace authority epoch →
        index.authorizes mls owner policy requester query = true →
        ∃ reply values, index.serve mls owner policy requester query = .ok reply ∧
          verifyWireReply (securityOwner mls sframe reader) query reply =
            .ok (some ⟨index.cutOf query, values⟩) ∧
          (values.map (·.replacementKey)).Pairwise (· < ·) ∧
          ∀ stored, stored ∈ values ↔ ∃ entry, index.values.find? (valueKey query.policyRevision
            query.topic query.selector stored.replacementKey) = some entry ∧
              entry.value = stored := by
  have hkept := keptFor_of_run hrun
  refine ⟨hkept.kept.validate, fun _ _ _ => eq_of_insertInPlace_error, ?_⟩
  intro owner reader policy requester query howner hreader hauthorized
  obtain ⟨view, _, hserved, hverified⟩ := hkept.serve sframe howner hreader hauthorized
  exact ⟨view.encoded, index.selected query, hserved, hverified, hkept.kept.selected_sorted query,
    fun _ => hkept.kept.mem_selected⟩

end Serve

section Sample

open Security.Sample (block ident workspaceId pair leader follower sframe one_ne two_ne)

def boardContext (id : UInt8) (sequence : NonZeroU64) : PublicationContext :=
  ⟨workspaceId, 1, notesTopic, ident id, some sequence⟩

/-- A card of the board, with one byte of text. -/
def boardCard (card id : UInt8) (sequence : NonZeroU64) (tombstone : Bool) (text : UInt8) :
    CurrentInsert :=
  ⟨boardContext id sequence, zeroBlock 32, block card, 100,
    tombstone, sequencedPacketMagic ++ List.replicate 16 id ++ beBytes 8 sequence.val.val ++ [text]⟩

/-- The administrator's index of the board after some insertions. -/
def board (cards : List CurrentInsert) : CurrentViewIndex :=
  insertAll (new workspaceId (block 1) 1) cards

def boardQuery : CurrentViewQuery :=
  ⟨workspaceId, block 1, 1, 1, notesTopic, zeroBlock 32⟩

theorem leader_speaksFor : SpeaksFor pair.mls (leader pair) workspaceId
    (block 1) 1 where
  workspace := rfl
  epoch := rfl
  member := rfl

theorem follower_trusts : Trusts pair.mls (follower pair)
    (leader pair).signer workspaceId (block 1) 1 where
  workspace := rfl
  epoch := rfl
  signs := by
    refine ⟨block 11, (block 1).1, by decide, ?_⟩
    intro text
    exact ⟨List.replicate 64 0, rfl, List.length_replicate, rfl⟩

/-- Two cards are written, the first again, and then an older version of the second. -/
def boardCards : List CurrentInsert :=
  [boardCard 4 1 ⟨1, one_ne⟩ false 7, boardCard 5 2 ⟨2, two_ne⟩ false 8,
    boardCard 4 3 ⟨3, by decide⟩ true 9, boardCard 5 4 ⟨1, one_ne⟩ false 6]

theorem served_view_exact_board :
    ∃ reply values, (board boardCards).serve pair.mls (leader pair) notesPolicy
        (block 12) boardQuery = .ok reply ∧
      verifyWireReply (securityOwner pair.mls sframe (follower pair))
        boardQuery reply = .ok (some ⟨3, values⟩) ∧
      (boardCard 4 3 ⟨3, by decide⟩ true 9).entry.value ∈ values := by
  obtain ⟨trace, hrun⟩ : ∃ trace, Run IndexStep (new workspaceId (block 1) 1) trace
      (board boardCards) := insertAll_run _ _
  obtain ⟨_, _, hserve⟩ := served_view_exact pair.mls sframe hrun
  obtain ⟨reply, values, hreply, hverified, _, hvalues⟩ := hserve (leader pair)
    (follower pair) notesPolicy (block 12) boardQuery leader_speaksFor
    follower_trusts (by decide +kernel)
  have hcut : (board boardCards).cutOf boardQuery = 3 := by decide +kernel
  have hstored : (board boardCards).values.find? (valueKey boardQuery.policyRevision
      boardQuery.topic boardQuery.selector
        (boardCard 4 3 ⟨3, by decide⟩ true 9).entry.value.replacementKey) =
          some (boardCard 4 3 ⟨3, by decide⟩ true 9).entry := by decide +kernel
  rw [hcut] at hverified
  exact ⟨reply, values, hreply, hverified, (hvalues _).mpr ⟨_, hstored, rfl⟩⟩

end Sample

end CurrentViewIndex

end Arachne.Delivery
