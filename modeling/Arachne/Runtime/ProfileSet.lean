import Arachne.Runtime.MembershipReplies

/-! The signed names of the members that a session keeps. The host and the inquiry responder
merge into one set, each against the committed view it holds, and the set remembers the state it
was last checked against. -/

namespace Arachne.Runtime

open ByteCodec Fallible Transition OrderedMap
open Security (Mls Workspace profileAuthor maxMemberProfile)

variable {Group Signer Staged : Type} {budget total : Nat} {added : List (Block 32 × Bytes)}
  {me : Block 32}

def maxRequestProfiles : Nat := 64

def maxProfileSetBytes : Nat := 4 * 128 * 1024

structure ProfileSet where
  retained : OrderedMap (Block 32) Bytes
  cursor : Option (Block 32)
  service : Bool
  /-- The epoch and fingerprint of the state every profile was last verified against. -/
  checked : Option (U64 × Block 32)
  toGossip : List Bytes
  answered : Option (Option (Block 32))
deriving DecidableEq

def ProfileSet.empty : ProfileSet := ⟨.empty, none, false, none, [], none⟩

def retainedBytes (retained : OrderedMap (Block 32) Bytes) : Nat :=
  (retained.values.map List.length).sum

def entryBytes (retained : OrderedMap (Block 32) Bytes) (id : Block 32) : Nat :=
  ((retained.find? id).map List.length).getD 0

/-- The budget loop of `merge_into`: what is kept, and what is dropped for its size. -/
def fit (budget : Nat) (retained : OrderedMap (Block 32) Bytes) :
    Nat → List (Block 32 × Bytes) → List (Block 32 × Bytes) × List (Block 32 × Bytes)
  | _, [] => ([], [])
  | total, entry :: incoming =>
      let projected := total - entryBytes retained entry.1 + entry.2.length
      if budget < projected then
        let (kept, dropped) := fit budget retained total incoming
        (kept, entry :: dropped)
      else
        let (kept, dropped) := fit budget retained projected incoming
        (entry :: kept, dropped)

section Merge

variable (mls : Mls Group Signer Staged)

def stateOf (owner : Workspace Group Signer) : U64 × Block 32 :=
  (mls.epoch owner, mls.epochFingerprint owner)

/-- A view older than the last state the set was checked against. -/
def ProfileSet.behind (set : ProfileSet) (owner : Workspace Group Signer) : Bool :=
  set.checked.any fun checked => decide (mls.epoch owner < checked.1)

/-- The profiles are verified again when the state is new, but never against an older one. -/
def ProfileSet.recheck (set : ProfileSet) (owner : Workspace Group Signer) : ProfileSet :=
  if set.behind mls owner = false ∧ set.checked ≠ some (stateOf mls owner) then
    { set with
      retained := set.retained.retain fun _ bytes => (mls.verifyMemberProfile owner bytes).isOk
      checked := some (stateOf mls owner) }
  else set

def takeVerified (owner : Workspace Group Signer) (me : Block 32)
    (incoming : OrderedMap (Block 32) Bytes) (bytes : Bytes) : OrderedMap (Block 32) Bytes :=
  match mls.verifyMemberProfile owner bytes with
  | .ok profile => if profile.id = me then incoming else incoming.insert profile.id bytes
  | .error _ => incoming

/-- The verified profiles of a batch, one for each member other than the local one. -/
def verifiedOthers (owner : Workspace Group Signer) (me : Block 32) (profiles : List Bytes) :
    OrderedMap (Block 32) Bytes :=
  profiles.foldl (takeVerified mls owner me) .empty

/-- What a merge adds, the local member's own profile first, and what it drops. -/
def additions (owner : Workspace Group Signer) (set : ProfileSet) (profiles : List Bytes)
    (budget : Nat) : Outcome (List (Block 32 × Bytes) × List (Block 32 × Bytes)) := do
  let own ← mls.signProfile owner set.service
  let member ← orFail owner.member "member profile required"
  let total := retainedBytes set.retained - entryBytes set.retained member.id + own.length
  let (kept, dropped) := fit budget set.retained total
    (verifiedOthers mls owner member.id profiles).entries
  pure ((member.id, own) :: kept, dropped)

def Oversized (profiles : List Bytes) : Prop :=
  maxRequestProfiles < profiles.length ∨ ∃ profile ∈ profiles, maxMemberProfile < profile.length

instance (profiles : List Bytes) : Decidable (Oversized profiles) :=
  inferInstanceAs (Decidable (_ ∨ _))

/-- Whether the budget made the merge drop a profile, and the set it leaves. A failed merge may
have checked the set. -/
def mergeInto (owner : Workspace Group Signer) (set : ProfileSet) (profiles : List Bytes)
    (budget : Nat) : Outcome Bool × ProfileSet :=
  if Oversized profiles then (.error "member profile cache exceeds bounds", set)
  else
    let set := set.recheck mls owner
    match additions mls owner set profiles budget with
    | .error message => (.error message, set)
    | .ok (added, dropped) =>
        (.ok (!dropped.isEmpty), { set with retained := set.retained.extend added })

end Merge

theorem entryBytes_eq {retained other : OrderedMap (Block 32) Bytes} {id : Block 32}
    (h : retained.find? id = other.find? id) : entryBytes retained id = entryBytes other id := by
  rw [entryBytes, entryBytes, h]

section Sums

variable (retained : OrderedMap (Block 32) Bytes) (id : Block 32) (bytes : Bytes)

theorem retainedBytes_insert :
    retainedBytes (retained.insert id bytes) + entryBytes retained id =
      retainedBytes retained + bytes.length :=
  sum_values_insert List.length retained id bytes

theorem retainedBytes_erase :
    retainedBytes (retained.erase id) + entryBytes retained id = retainedBytes retained := by
  cases hfind : retained.find? id with
  | none =>
    have herase : retained.erase id = retained := by
      ext1 other
      rw [find?_erase]
      split
      · rename_i hother
        rw [← hother, hfind]
      · rfl
    rw [herase, entryBytes, hfind]
    rfl
  | some bytes =>
    have hinsert : (retained.erase id).insert id bytes = retained := by
      ext1 other
      rw [find?_insert, find?_erase]
      split
      · rename_i hother
        rw [← hother, hfind]
      · rfl
    have hbytes := retainedBytes_insert (retained.erase id) id bytes
    have hgone : entryBytes (retained.erase id) id = 0 := by
      rw [entryBytes, find?_erase, if_pos rfl]
      rfl
    rw [hinsert, hgone] at hbytes
    rw [entryBytes, hfind]
    exact hbytes.symm

theorem retainedBytes_insert_eq : retainedBytes (retained.insert id bytes) =
    retainedBytes retained - entryBytes retained id + bytes.length := by
  have hinsert := retainedBytes_insert retained id bytes
  have herase := retainedBytes_erase retained id
  omega

theorem retainedBytes_erase_insert :
    retainedBytes ((retained.insert id bytes).erase id) = retainedBytes (retained.erase id) := by
  have hmap : (retained.insert id bytes).erase id = retained.erase id := by
    ext1 other
    rw [find?_erase, find?_erase, find?_insert]
    split <;> rfl
  rw [hmap]

theorem retainedBytes_erase_retain (keep : Block 32 → Bytes → Bool) :
    retainedBytes ((retained.retain keep).erase id) ≤ retainedBytes (retained.erase id) := by
  have hsublist : ((retained.retain keep).erase id).entries.Sublist (retained.erase id).entries :=
    List.filter_sublist.filter _
  exact ((hsublist.map Prod.snd).map List.length).sum_le_sum (fun _ _ => Nat.zero_le _)

end Sums

section Fit

variable {retained : OrderedMap (Block 32) Bytes} {incoming : List (Block 32 × Bytes)}

theorem fit_sublist : (fit budget retained total incoming).1.Sublist incoming := by
  induction incoming generalizing total with
  | nil => exact .slnil
  | cons entry incoming ih =>
    rw [fit]
    dsimp only
    split
    · exact ih.cons _
    · exact ih.cons_cons _

variable {entry : Block 32 × Bytes} {current : OrderedMap (Block 32) Bytes}

theorem mem_fit (budget : Nat) (retained : OrderedMap (Block 32) Bytes) (total : Nat)
    (h : entry ∈ incoming) : entry ∈ (fit budget retained total incoming).1 ∨
      entry ∈ (fit budget retained total incoming).2 := by
  induction incoming generalizing total with
  | nil => cases h
  | cons first incoming ih =>
    rw [fit]
    dsimp only
    split
    · rcases List.mem_cons.mp h with rfl | h
      · exact .inr List.mem_cons_self
      · exact (ih _ h).imp_right (List.mem_cons_of_mem _)
    · rcases List.mem_cons.mp h with rfl | h
      · exact .inl List.mem_cons_self
      · exact (ih _ h).imp_left (List.mem_cons_of_mem _)

theorem fit_next (hsame : ∀ entry ∈ incoming, current.find? entry.1 = retained.find? entry.1)
    (hentry : entry.1 ∉ incoming.map Prod.fst) : ∀ other ∈ incoming,
      (current.insert entry.1 entry.2).find? other.1 = retained.find? other.1 := by
  intro other hother
  rw [find?_insert, if_neg, hsame other hother]
  rintro heq
  exact hentry (heq ▸ List.mem_map_of_mem hother)

/-- The loop counts right: whenever it keeps a profile, the set with all that it keeps is within
the budget. -/
theorem retainedBytes_fit
    (hsame : ∀ entry ∈ incoming, current.find? entry.1 = retained.find? entry.1)
    (hnodup : (incoming.map Prod.fst).Nodup)
    (hkept : (fit budget retained (retainedBytes current) incoming).1 ≠ []) :
    retainedBytes (current.extend (fit budget retained (retainedBytes current) incoming).1) ≤
      budget := by
  induction incoming generalizing current with
  | nil => exact absurd rfl hkept
  | cons entry incoming ih =>
    rw [List.forall_mem_cons] at hsame
    rw [List.map_cons, List.nodup_cons] at hnodup
    have hprojected : retainedBytes current - entryBytes retained entry.1 + entry.2.length =
        retainedBytes (current.insert entry.1 entry.2) := by
      rw [retainedBytes_insert_eq, entryBytes_eq hsame.1]
    rw [fit] at hkept ⊢
    dsimp only at hkept ⊢
    rw [hprojected] at hkept ⊢
    split at hkept
    · rename_i hover
      rw [if_pos hover]
      exact ih hsame.2 hnodup.2 hkept
    · rename_i hover
      rw [if_neg hover, extend_cons]
      by_cases hrest : (fit budget retained
          (retainedBytes (current.insert entry.1 entry.2)) incoming).1 = []
      · rw [hrest, extend_nil]
        exact Nat.not_lt.mp hover
      · exact ih (fit_next hsame.2 hnodup.1) hnodup.2 hrest

end Fit

section Additions

variable {mls : Mls Group Signer Staged} {owner : Workspace Group Signer} {set : ProfileSet}
  {profiles : List Bytes} {dropped : List (Block 32 × Bytes)}

/-- A view verifies a profile as the one of the member it is stored under. -/
def VerifiesAs (mls : Mls Group Signer Staged) (owner : Workspace Group Signer)
    (entry : Block 32 × Bytes) : Prop :=
  ∃ profile, mls.verifyMemberProfile owner entry.2 = .ok profile ∧ profile.id = entry.1

instance (entry : Block 32 × Bytes) : Decidable (VerifiesAs mls owner entry) :=
  match h : mls.verifyMemberProfile owner entry.2 with
  | .ok profile =>
      decidable_of_iff (profile.id = entry.1) ⟨fun hid => ⟨profile, h, hid⟩, fun ⟨_, hok, hid⟩ =>
        Except.ok.inj (h.symm.trans hok) ▸ hid⟩
  | .error _ => isFalse fun ⟨_, hok, _⟩ => nomatch h.symm.trans hok

theorem find?_verifiedOthers {id : Block 32} {bytes : Bytes}
    (h : (verifiedOthers mls owner me profiles).find? id = some bytes) :
    bytes ∈ profiles ∧ id ≠ me ∧ VerifiesAs mls owner (id, bytes) := by
  suffices hfold : ∀ incoming : OrderedMap (Block 32) Bytes,
      (profiles.foldl (takeVerified mls owner me) incoming).find? id = some bytes →
      incoming.find? id = some bytes ∨
        bytes ∈ profiles ∧ id ≠ me ∧ VerifiesAs mls owner (id, bytes) by
    rcases hfold .empty h with hempty | hverified
    · cases hempty
    · exact hverified
  clear h
  induction profiles with
  | nil => exact fun _ => .inl
  | cons first profiles ih =>
    intro incoming h
    rw [List.foldl_cons] at h
    rcases ih _ h with hfind | ⟨hmem, hverified⟩
    · rw [takeVerified] at hfind
      split at hfind
      · rename_i profile hprofile
        split at hfind
        · exact .inl hfind
        · rename_i hother
          rw [find?_insert] at hfind
          split at hfind
          · rename_i hid
            cases hfind
            subst hid
            exact .inr ⟨List.mem_cons_self, hother, profile, hprofile, rfl⟩
          · exact .inl hfind
      · exact .inl hfind
    · exact .inr ⟨List.mem_cons_of_mem _ hmem, hverified⟩

theorem additions_eq_ok (h : additions mls owner set profiles budget = .ok (added, dropped)) :
    ∃ member own kept, owner.member = some member ∧ mls.signProfile owner set.service = .ok own ∧
      added = (member.id, own) :: kept ∧
      (kept, dropped) = fit budget set.retained
        (retainedBytes (set.retained.insert member.id own))
        (verifiedOthers mls owner member.id profiles).entries := by
  simp only [additions, bind_eq_ok, orFail_eq_ok, pure_eq_ok, Prod.mk.injEq] at h
  obtain ⟨own, hown, member, hmember, hadded, hdropped⟩ := h
  refine ⟨member, own, _, hmember, hown, hadded.symm, ?_⟩
  rw [retainedBytes_insert_eq, ← hdropped]

theorem insert_own_same (mls : Mls Group Signer Staged) (owner : Workspace Group Signer)
    (retained : OrderedMap (Block 32) Bytes) (me : Block 32) (own : Bytes) (profiles : List Bytes) :
    ∀ entry ∈ (verifiedOthers mls owner me profiles).entries,
      (retained.insert me own).find? entry.1 = retained.find? entry.1 := by
  rintro ⟨id, bytes⟩ hentry
  have hother := find?_verifiedOthers ((mem_entries_iff _ _ _).mp hentry)
  rw [find?_insert, if_neg (Ne.symm hother.2.1)]

theorem kept_verified {entry : Block 32 × Bytes}
    (h : entry ∈ (fit budget set.retained total (verifiedOthers mls owner me profiles).entries).1) :
    entry.2 ∈ profiles ∧ entry.1 ≠ me ∧ VerifiesAs mls owner entry := by
  have hmem := fit_sublist.subset h
  exact find?_verifiedOthers ((mem_entries_iff _ _ _).mp hmem)

theorem additions_nodup (h : additions mls owner set profiles budget = .ok (added, dropped)) :
    (added.map Prod.fst).Nodup := by
  obtain ⟨member, own, kept, _, _, rfl, hfit⟩ := additions_eq_ok h
  have hkept : kept = (fit budget set.retained _ _).1 := congrArg Prod.fst hfit
  rw [List.map_cons, List.nodup_cons]
  constructor
  · rintro hmem
    obtain ⟨entry, hentry, heq⟩ := List.mem_map.mp hmem
    rw [hkept] at hentry
    exact (kept_verified hentry).2.1 heq
  · rw [hkept]
    exact (fit_sublist.map Prod.fst).nodup (keys_nodup _)

theorem additions_within (h : additions mls owner set profiles budget = .ok (added, dropped))
    (hme : ∀ member, owner.member = some member → member.id = me)
    (hset : retainedBytes (set.retained.erase me) ≤ budget) :
    retainedBytes ((set.retained.extend added).erase me) ≤ budget := by
  obtain ⟨member, own, kept, hmember, _, rfl, hfit⟩ := additions_eq_ok h
  have hid := hme member hmember
  subst hid
  have hkept : kept = (fit budget set.retained _ _).1 := congrArg Prod.fst hfit
  rw [extend_cons]
  by_cases hnil : kept = []
  · rw [hnil, extend_nil, retainedBytes_erase_insert]
    exact hset
  · have hsame := insert_own_same mls owner set.retained member.id own profiles
    have hwithin := retainedBytes_fit hsame (keys_nodup _) (hkept ▸ hnil)
    rw [← hkept] at hwithin
    have herase := retainedBytes_erase
      ((set.retained.insert member.id own).extend kept) member.id
    dsimp only at hwithin ⊢
    omega

end Additions

section Runs

variable (mls : Mls Group Signer Staged)

/-- A merge by the host or by a responder, with the committed view it holds. -/
structure Merge (Group Signer : Type) where
  owner : Workspace Group Signer
  profiles : List Bytes

/-- A view of the local member. It verifies the profiles that the state verifies which its epoch
and fingerprint name. -/
structure IsView (states : U64 × Block 32 → Workspace Group Signer) (me : Block 32)
    (owner : Workspace Group Signer) : Prop where
  verifies : ∀ bytes, mls.verifyMemberProfile owner bytes =
    mls.verifyMemberProfile (states (stateOf mls owner)) bytes
  me : ∀ member, owner.member = some member → member.id = me

/-- One holder of the lock: it merges, or writes the other fields of the set. -/
inductive ProfileStep (states : U64 × Block 32 → Workspace Group Signer) (me : Block 32)
    (budget : Nat) : ProfileSet → Option (Merge Group Signer) → ProfileSet → Prop where
  | merge {set : ProfileSet} (merge : Merge Group Signer)
      (hview : IsView mls states me merge.owner) :
      ProfileStep states me budget set (some merge)
        (mergeInto mls merge.owner set merge.profiles budget).2
  | note {set next : ProfileSet} (hretained : next.retained = set.retained)
      (hchecked : next.checked = set.checked) : ProfileStep states me budget set none next

/-- Every profile verifies against the state that the marker names, as its member's. -/
def Checked (states : U64 × Block 32 → Workspace Group Signer) (set : ProfileSet) : Prop :=
  ∀ id bytes, set.retained.find? id = some bytes →
    ∃ state, set.checked = some state ∧ VerifiesAs mls (states state) (id, bytes)

/-- The budget is exceeded at most by the local member's own profile. -/
def WithinBudget (me : Block 32) (budget : Nat) (set : ProfileSet) : Prop :=
  retainedBytes set.retained ≤ budget + entryBytes set.retained me

/-- What a merge may add: from a view that is not behind, an own profile that the view verifies;
from one that is behind, profiles that the newer state verifies. -/
def AddsChecked (states : U64 × Block 32 → Workspace Group Signer) (budget : Nat)
    (set : ProfileSet) : Option (Merge Group Signer) → Prop
  | none => True
  | some merge =>
      ¬Oversized merge.profiles → ∀ result ∈ (additions mls merge.owner
          (set.recheck mls merge.owner) merge.profiles budget).toOption,
        if set.behind mls merge.owner then
          ∀ state ∈ set.checked, ∀ entry ∈ result.1, VerifiesAs mls (states state) entry
        else ∀ own ∈ result.1.head?, VerifiesAs mls merge.owner own

instance (states : U64 × Block 32 → Workspace Group Signer) (budget : Nat) (set : ProfileSet) :
    ∀ label, Decidable (AddsChecked mls states budget set label)
  | none => inferInstanceAs (Decidable True)
  | some _ => inferInstanceAs (Decidable (¬_ → ∀ _ ∈ _, _))

variable {mls} {states : U64 × Block 32 → Workspace Group Signer} {set next : ProfileSet}
  {owner : Workspace Group Signer}

theorem withinBudget_iff :
    WithinBudget me budget set ↔ retainedBytes (set.retained.erase me) ≤ budget := by
  have herase := retainedBytes_erase set.retained me
  rw [WithinBudget]
  omega

theorem recheck_of_behind (h : set.behind mls owner = true) : set.recheck mls owner = set := by
  rw [ProfileSet.recheck, if_neg]
  rintro ⟨hbehind, _⟩
  rw [h] at hbehind
  cases hbehind

theorem recheck_checked (h : set.behind mls owner = false) :
    (set.recheck mls owner).checked = some (stateOf mls owner) := by
  rw [ProfileSet.recheck]
  split
  · rfl
  · rename_i hsame
    rw [not_and, not_not] at hsame
    exact hsame h

theorem Checked.recheck (hchecked : Checked mls states set) (hview : IsView mls states me owner) :
    Checked mls states (set.recheck mls owner) := by
  rw [ProfileSet.recheck]
  split
  · rintro id bytes hfind
    rw [find?_retain_eq_some] at hfind
    obtain ⟨state, _, before, hbefore, hid⟩ := hchecked id bytes hfind.1
    refine ⟨_, rfl, ?_⟩
    cases hverify : mls.verifyMemberProfile owner bytes with
    | error message =>
      have hok := hfind.2
      rw [hverify] at hok
      cases hok
    | ok profile =>
      refine ⟨profile, (hview.verifies bytes).symm.trans hverify, ?_⟩
      have hname := (Mls.verifyMemberProfile_eq_ok hverify).2.1
      rw [(Mls.verifyMemberProfile_eq_ok hbefore).2.1] at hname
      exact (Option.some.inj hname).symm.trans hid
  · exact hchecked

theorem recheck_within (hwithin : WithinBudget me budget set) :
    WithinBudget me budget (set.recheck mls owner) := by
  rw [withinBudget_iff] at hwithin ⊢
  rw [ProfileSet.recheck]
  split
  · exact (retainedBytes_erase_retain _ _ _).trans hwithin
  · exact hwithin

theorem checked_extend_iff {state : U64 × Block 32} (hchecked : Checked mls states set)
    (hstate : set.checked = some state) (hnodup : (added.map Prod.fst).Nodup) :
    Checked mls states { set with retained := set.retained.extend added } ↔
      ∀ entry ∈ added, VerifiesAs mls (states state) entry := by
  constructor
  · rintro h ⟨id, bytes⟩ hentry
    obtain ⟨state', hstate', hverifies⟩ := h id bytes (find?_extend_of_mem hnodup hentry)
    rw [hstate] at hstate'
    cases hstate'
    exact hverifies
  · rintro h id bytes hfind
    rcases find?_extend_eq_some hfind with hentry | hbefore
    · exact ⟨state, hstate, h _ hentry⟩
    · exact hchecked id bytes hbefore

theorem verifiesAs_view (hview : IsView mls states me owner) (entry : Block 32 × Bytes) :
    VerifiesAs mls (states (stateOf mls owner)) entry ↔ VerifiesAs mls owner entry := by
  rw [VerifiesAs, VerifiesAs, hview.verifies]

/-- One merge keeps the set checked exactly when what it adds is. -/
theorem checked_mergeInto_iff {merge : Merge Group Signer} (hchecked : Checked mls states set)
    (hview : IsView mls states me merge.owner) :
    Checked mls states (mergeInto mls merge.owner set merge.profiles budget).2 ↔
      AddsChecked mls states budget set (some merge) := by
  rw [mergeInto, AddsChecked]
  split
  · rename_i hoversized
    exact iff_of_true hchecked fun h => absurd hoversized h
  · rename_i hsized
    rw [forall_prop_of_true hsized]
    dsimp only
    have hrechecked := hchecked.recheck hview
    cases hadditions : additions mls merge.owner (set.recheck mls merge.owner) merge.profiles
        budget with
    | error message => exact iff_of_true hrechecked fun _ h => nomatch h
    | ok result =>
      obtain ⟨added, dropped⟩ := result
      have hnodup := additions_nodup hadditions
      dsimp only
      cases hbehind : set.behind mls merge.owner with
      | true =>
        rw [recheck_of_behind hbehind] at hrechecked ⊢
        have hsome : ∃ state, set.checked = some state := by
          rw [ProfileSet.behind, Option.any_eq_true] at hbehind
          exact hbehind.imp fun _ h => h.1
        obtain ⟨state, hstate⟩ := hsome
        rw [checked_extend_iff hrechecked hstate hnodup, hstate]
        constructor
        · rintro hadded _ hresult _ hmarker
          cases hresult
          cases hmarker
          exact hadded
        · exact fun h => h _ rfl _ rfl
      | false =>
        rw [checked_extend_iff hrechecked (recheck_checked hbehind) hnodup]
        obtain ⟨member, own, kept, _, _, rfl, hfit⟩ := additions_eq_ok hadditions
        have hkept : kept = (fit budget _ _ _).1 := congrArg Prod.fst hfit
        simp only [verifiesAs_view hview, List.forall_mem_cons]
        have hverified : ∀ entry ∈ kept, VerifiesAs mls merge.owner entry := by
          rw [hkept]
          exact fun entry hentry => (kept_verified hentry).2.2
        rw [and_iff_left hverified]
        constructor
        · rintro hown _ hresult _ hhead
          cases hresult
          cases hhead
          exact hown
        · exact fun h => h _ rfl _ rfl

theorem mergeInto_within {merge : Merge Group Signer} (hwithin : WithinBudget me budget set)
    (hview : IsView mls states me merge.owner) :
    WithinBudget me budget (mergeInto mls merge.owner set merge.profiles budget).2 := by
  rw [mergeInto]
  split
  · exact hwithin
  · have hrechecked : WithinBudget me budget (set.recheck mls merge.owner) :=
      recheck_within hwithin
    dsimp only
    split
    · exact hrechecked
    · rename_i added dropped hadditions
      rw [withinBudget_iff] at hrechecked ⊢
      exact additions_within hadditions hview.me hrechecked

/-- Whatever the order of the merges, each profile stays under its member's id and the set within
its budget. It matches the state it was checked against exactly when merges from older views add
only profiles that this state verifies, and the local member's own profile always verifies. -/
theorem profiles_checked_iff (mls : Mls Group Signer Staged)
    (states : U64 × Block 32 → Workspace Group Signer) (me : Block 32) (budget : Nat)
    {trace : List (Taken ProfileSet (Option (Merge Group Signer)))} {last : ProfileSet}
    (hrun : Run (ProfileStep mls states me budget) .empty trace last) :
    (∀ taken ∈ trace, WithinBudget me budget taken.after) ∧
      ((∀ taken ∈ trace, Checked mls states taken.after) ↔
        ∀ taken ∈ trace, AddsChecked mls states budget taken.before taken.label) := by
  constructor
  · have hstep : ∀ set label next, WithinBudget me budget set →
        ProfileStep mls states me budget set label next → WithinBudget me budget next := by
      rintro set label next hwithin (⟨_, hview⟩ | ⟨hretained, _⟩)
      · exact mergeInto_within hwithin hview
      · rw [WithinBudget, hretained]
        exact hwithin
    have hinvariant := hrun.invariant hstep (Nat.zero_le _)
    exact fun taken htaken => (hinvariant.2 taken htaken).2.2
  · refine hrun.forall_after_iff (J := fun _ => True) (fun _ _ _ _ _ => trivial) ?_ trivial ?_
    · rintro set label next _ hchecked (⟨_, hview⟩ | ⟨hretained, hstate⟩)
      · exact checked_mergeInto_iff hchecked hview
      · refine iff_of_true ?_ trivial
        rw [Checked, hretained, hstate]
        exact hchecked
    · rintro id bytes hfind
      cases hfind

/-- Every profile stands under the member it names and can be sent. -/
def Named (retained : OrderedMap (Block 32) Bytes) : Prop :=
  ∀ id bytes, retained.find? id = some bytes →
    profileAuthor bytes = some id ∧ bytes.length ≤ maxMemberProfile

theorem Named.recheck (h : Named set.retained) : Named (set.recheck mls owner).retained := by
  rw [ProfileSet.recheck]
  split
  · rintro id bytes hfind
    rw [find?_retain_eq_some] at hfind
    exact h id bytes hfind.1
  · exact h

theorem additions_named (hsigns : mls.SignsShort) {profiles : List Bytes}
    {dropped : List (Block 32 × Bytes)}
    (h : additions mls owner set profiles budget = .ok (added, dropped)) :
    ∀ entry ∈ added, profileAuthor entry.2 = some entry.1 ∧ entry.2.length ≤ maxMemberProfile := by
  obtain ⟨member, own, kept, hmember, hown, rfl, hfit⟩ := additions_eq_ok h
  have hkept : kept = (fit budget set.retained _ _).1 := congrArg Prod.fst hfit
  rw [List.forall_mem_cons]
  constructor
  · exact Mls.signProfile_eq_ok hsigns hmember hown
  · rw [hkept]
    intro entry hentry
    obtain ⟨_, _, profile, hverify, hid⟩ := kept_verified hentry
    obtain ⟨hlength, hauthor, _⟩ := Mls.verifyMemberProfile_eq_ok hverify
    exact ⟨hid ▸ hauthor, hlength⟩

theorem Named.mergeInto (hsigns : mls.SignsShort) (h : Named set.retained) (profiles : List Bytes) :
    Named (Runtime.mergeInto mls owner set profiles budget).2.retained := by
  rw [Runtime.mergeInto]
  split
  · exact h
  · dsimp only
    split
    · exact h.recheck
    · rename_i added dropped hadditions
      intro id bytes hfind
      rcases find?_extend_eq_some hfind with hentry | hbefore
      · exact additions_named hsigns hadditions _ hentry
      · exact h.recheck id bytes hbefore

/-- What merges leave can be sent, the own profile included. -/
theorem named_of_run (hsigns : mls.SignsShort)
    {trace : List (Taken ProfileSet (Option (Merge Group Signer)))}
    (hrun : Run (ProfileStep mls states me budget) .empty trace set) : Named set.retained := by
  have hstep : ∀ set label next, Named set.retained →
      ProfileStep mls states me budget set label next → Named next.retained := by
    rintro set label next h (⟨merge, _⟩ | ⟨hretained, _⟩)
    · exact h.mergeInto hsigns merge.profiles
    · rw [hretained]
      exact h
  refine (hrun.invariant (P := fun set => Named set.retained) hstep ?_).1
  rintro id bytes hfind
  cases hfind

end Runs

section Sample

open Security

open Sample

/-- The group without the first joiner, in the epoch after the admission. -/
def departed : PublicGroup :=
  { pair.state 1 with
    context := { (pair.state 1).context with epoch := 2 }
    tree := ⟨(pair.state 1).members.filter fun member => member.index ≠ 1, []⟩ }

def departing : Mls ScriptGroup Bytes ScriptGroup :=
  { pair.mls with
    publicGroup := fun group => if group.epoch = 2 then departed else pair.state group.epoch }

/-- The administrator's view in an epoch. -/
def viewAt (epoch : UInt8) : Workspace ScriptGroup Bytes :=
  { owner with group := ⟨epoch, false, 0⟩ }

def viewStates (state : U64 × Block 32) : Workspace ScriptGroup Bytes :=
  viewAt (UInt8.ofNat state.1.val)

/-- The name that the first joiner signs. -/
def joinerProfile : Bytes :=
  (departing.signProfile (follower pair) false).toOption.getD []

theorem viewAt_isView {epoch : UInt8}
    (h : viewStates (stateOf departing (viewAt epoch)) = viewAt epoch) :
    IsView departing viewStates (block 1) (viewAt epoch) := by
  constructor
  · intro bytes
    rw [h]
  · rintro member hmember
    cases hmember
    rfl

/-- The set after a merge from one of these views. -/
def mergeNext (set : ProfileSet) (label : Option (Merge ScriptGroup Bytes)) : ProfileSet :=
  match label with
  | none => set
  | some merge => (mergeInto departing merge.owner set merge.profiles maxProfileSetBytes).2

theorem run_merges (labels : List (Option (Merge ScriptGroup Bytes)))
    (hviews : ∀ label ∈ labels, ∀ merge ∈ label, ∃ epoch, merge.owner = viewAt epoch ∧
      viewStates (stateOf departing (viewAt epoch)) = viewAt epoch) :
    Run (ProfileStep departing viewStates (block 1) maxProfileSetBytes) .empty
      (play mergeNext .empty labels) (labels.foldl mergeNext .empty) := by
  refine play_run_of ?_
  rintro ⟨set, label, next⟩ htaken
  have hlabel := hviews label (label_of_mem_play htaken)
  obtain rfl : next = mergeNext set label := after_of_mem_play htaken
  cases label with
  | none => exact .note rfl rfl
  | some merge =>
    obtain ⟨epoch, howner, hstate⟩ := hlabel merge rfl
    exact .merge merge (howner ▸ viewAt_isView hstate)

/-- The host has committed the removal and merged. A responder that still holds the view before
it merges the name of the removed member. -/
def lateAnswer : List (Option (Merge ScriptGroup Bytes)) :=
  [some ⟨viewAt 2, []⟩, some ⟨viewAt 1, [joinerProfile]⟩]

theorem viewStates_viewAt : viewStates (stateOf departing (viewAt 1)) = viewAt 1 ∧
    viewStates (stateOf departing (viewAt 2)) = viewAt 2 := by
  decide

theorem late_answer_unchecked :
    ∃ trace last, Run (ProfileStep departing viewStates (block 1) maxProfileSetBytes) .empty
        trace last ∧ last.checked = some (stateOf departing (viewAt 2)) ∧
      last.retained.find? (block 2) = some joinerProfile ∧
      departing.verifyMemberProfile (viewAt 2) joinerProfile =
        .error "profile author is not a current member" ∧
      ¬Checked departing viewStates last := by
  have hlast : (lateAnswer.foldl mergeNext .empty).checked = some (stateOf departing (viewAt 2)) ∧
      (lateAnswer.foldl mergeNext .empty).retained.find? (block 2) = some joinerProfile ∧
      departing.verifyMemberProfile (viewAt 2) joinerProfile =
        .error "profile author is not a current member" := by
    decide +kernel
  obtain ⟨hold, hnew⟩ := viewStates_viewAt
  obtain ⟨hstate, hfind, hverify⟩ := hlast
  refine ⟨_, _, run_merges _ ?_, hstate, hfind, hverify, ?_⟩
  · rw [lateAnswer, List.forall_mem_cons, List.forall_mem_singleton]
    exact ⟨fun _ h => Option.some.inj h ▸ ⟨2, rfl, hnew⟩,
      fun _ h => Option.some.inj h ▸ ⟨1, rfl, hold⟩⟩
  · rintro hchecked
    obtain ⟨state, hmarker, profile, hprofile, _⟩ := hchecked _ _ hfind
    rw [hstate] at hmarker
    cases hmarker
    rw [hnew, hverify] at hprofile
    cases hprofile

/-- The same merges with the views in order. -/
def earlyAnswer : List (Option (Merge ScriptGroup Bytes)) :=
  [some ⟨viewAt 1, [joinerProfile]⟩, some ⟨viewAt 2, []⟩]

theorem profiles_checked_iff_removal :
    ∃ trace last, Run (ProfileStep departing viewStates (block 1) maxProfileSetBytes) .empty
        trace last ∧ (∀ taken ∈ trace, Checked departing viewStates taken.after) ∧
      (∃ taken ∈ trace, taken.after.retained.find? (block 2) = some joinerProfile) ∧
      last.retained.find? (block 2) = none := by
  have hsteps : (∀ taken ∈ play mergeNext .empty earlyAnswer,
        AddsChecked departing viewStates maxProfileSetBytes taken.before taken.label) ∧
      (∃ taken ∈ play mergeNext .empty earlyAnswer,
        taken.after.retained.find? (block 2) = some joinerProfile) ∧
      (earlyAnswer.foldl mergeNext .empty).retained.find? (block 2) = none := by
    decide +kernel
  obtain ⟨hold, hnew⟩ := viewStates_viewAt
  obtain ⟨hadds, hfind, hgone⟩ := hsteps
  have hrun := run_merges earlyAnswer (by
    rw [earlyAnswer, List.forall_mem_cons, List.forall_mem_singleton]
    exact ⟨fun _ h => Option.some.inj h ▸ ⟨1, rfl, hold⟩,
      fun _ h => Option.some.inj h ▸ ⟨2, rfl, hnew⟩⟩)
  have hiff := (profiles_checked_iff departing viewStates (block 1) maxProfileSetBytes
    hrun).2
  exact ⟨_, _, hrun, hiff.mpr hadds, hfind, hgone⟩

end Sample

end Arachne.Runtime
