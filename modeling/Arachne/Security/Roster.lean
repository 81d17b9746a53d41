import Mathlib.Data.List.Perm.Basic
import Arachne.Lib.Transition
import Arachne.Security.Accepted

/-! What accepted transitions do to the roster, and when the ids and the endpoints of its
members stay pairwise distinct. -/

namespace Arachne.Security

open Fallible ByteCodec Transition

variable {group : PublicGroup} {actor : Member} {staged : StagedCommit} {action : ManagementAction}
  {before : List Bytes}

abbrev Binding := Block 32 × Block 32

def rosterBindings (members : List Member) : Outcome (List Binding) :=
  members.mapM fun member => binding member.credential

/-- The ids are pairwise distinct, and so are the endpoints. -/
def Distinct (bindings : List Binding) : Prop :=
  (bindings.map Prod.fst).Nodup ∧ (bindings.map Prod.snd).Nodup

instance (bindings : List Binding) : Decidable (Distinct bindings) :=
  inferInstanceAs (Decidable (_ ∧ _))

def DistinctRoster (group : PublicGroup) : Prop :=
  ∃ bindings, rosterBindings group.members = .ok bindings ∧ Distinct bindings

theorem checkRoster_eq_ok {members : List Member} {ids endpoints : List (Block 32)} {u : Unit} :
    checkRoster members ids endpoints = .ok u ↔
      ∃ bindings, rosterBindings members = .ok bindings ∧ Distinct bindings ∧
        (∀ b ∈ bindings, b.1 ∉ ids) ∧ ∀ b ∈ bindings, b.2 ∉ endpoints := by
  induction members generalizing ids endpoints with
  | nil => simp [checkRoster, rosterBindings, Distinct]
  | cons member members ih =>
    simp only [checkRoster, rosterBindings, List.mapM_cons, bind_eq_ok, failIf_eq_ok,
      pure_eq_ok, not_or]
    constructor
    · rintro ⟨⟨id, endpoint⟩, hbinding, _, ⟨hid, hendpoint⟩, hrest⟩
      obtain ⟨bindings, hbindings, hdistinct, hids, hendpoints⟩ := ih.mp hrest
      refine ⟨(id, endpoint) :: bindings, ⟨_, hbinding, _, hbindings, rfl⟩, ?_, ?_, ?_⟩
      · simp only [Distinct, List.map_cons, List.nodup_cons, List.mem_map] at hdistinct ⊢
        refine ⟨⟨?_, hdistinct.1⟩, ?_, hdistinct.2⟩
        · rintro ⟨b, hb, rfl⟩
          exact hids b hb (by simp)
        · rintro ⟨b, hb, rfl⟩
          exact hendpoints b hb (by simp)
      · intro b hb
        rcases List.mem_cons.mp hb with rfl | hb
        · exact hid
        · exact fun hmem => hids b hb (List.mem_cons_of_mem _ hmem)
      · intro b hb
        rcases List.mem_cons.mp hb with rfl | hb
        · exact hendpoint
        · exact fun hmem => hendpoints b hb (List.mem_cons_of_mem _ hmem)
    · rintro ⟨_, ⟨⟨id, endpoint⟩, hbinding, bindings, hbindings, rfl⟩, hdistinct, hids,
        hendpoints⟩
      simp only [Distinct, List.map_cons, List.nodup_cons, List.mem_map,
        List.forall_mem_cons] at hdistinct hids hendpoints
      refine ⟨(id, endpoint), hbinding, (), ⟨hids.1, hendpoints.1⟩, ih.mpr ?_⟩
      refine ⟨bindings, hbindings, ⟨hdistinct.1.2, hdistinct.2.2⟩, ?_, ?_⟩
      · intro b hb hmem
        rcases List.mem_cons.mp hmem with heq | hmem
        · exact hdistinct.1.1 ⟨b, hb, heq⟩
        · exact hids.2 b hb hmem
      · intro b hb hmem
        rcases List.mem_cons.mp hmem with heq | hmem
        · exact hdistinct.2.1 ⟨b, hb, heq⟩
        · exact hendpoints.2 b hb hmem

theorem checkRoster_iff_distinctRoster :
    checkRoster group.members [] [] = .ok () ↔ DistinctRoster group := by
  simp [checkRoster_eq_ok, DistinctRoster]

section Members

variable {member : Member} {members : List Member} {bindings : List Binding}

theorem refresh_eq_self (hwell : group.WellFormed) (hactor : actor ∈ group.members)
    (hidentity : keepsIdentity actor staged) (hmember : member ∈ group.members) :
    refresh (.member actor.index) staged.updatePathLeaf member = member := by
  cases hpath : staged.updatePathLeaf with
  | none => rfl
  | some leaf =>
    simp only [keepsIdentity, hpath, Option.all_some, Bool.and_eq_true, beq_iff_eq] at hidentity
    by_cases hindex : actor.index = member.index
    · obtain rfl := List.inj_on_of_nodup_map hwell.indices hactor hmember hindex
      simp [refresh, hidentity]
    · simp [refresh, hindex]

theorem membersAfter_of_keepsIdentity (hwell : group.WellFormed) (hactor : actor ∈ group.members)
    (hidentity : keepsIdentity actor staged) :
    group.membersAfter (.member actor.index) staged =
      staged.adds.foldl (fun members package => placeFrom 0 package.leafNode members)
        (group.kept staged) := by
  have hkept : (group.kept staged).map (refresh (.member actor.index) staged.updatePathLeaf) =
      group.kept staged := by
    rw [List.map_congr_left (g := id), List.map_id]
    intro member hmember
    exact refresh_eq_self hwell hactor hidentity (List.mem_of_mem_filter hmember)
  rw [PublicGroup.membersAfter, hkept]

theorem placeFrom_perm (index : Nat) (leaf : LeafNode) (members : List Member) :
    ∃ index', (placeFrom index leaf members).Perm
      (⟨index', leaf.credential, leaf.signatureKey⟩ :: members) := by
  induction members generalizing index with
  | nil => exact ⟨index, .refl _⟩
  | cons member members ih =>
    by_cases h : member.index = index
    · obtain ⟨index', hperm⟩ := ih (index + 1)
      refine ⟨index', ?_⟩
      rw [placeFrom, if_pos h]
      exact (hperm.cons member).trans (.swap _ _ _)
    · exact ⟨index, by rw [placeFrom, if_neg h]⟩

theorem mem_foldl_place (packages : List KeyPackage) (h : member ∈ members) :
    member ∈ packages.foldl
      (fun members package => placeFrom 0 package.leafNode members) members := by
  induction packages generalizing members with
  | nil => exact h
  | cons package packages ih =>
    obtain ⟨index, hperm⟩ := placeFrom_perm 0 package.leafNode members
    exact ih (hperm.mem_iff.mpr (List.mem_cons_of_mem _ h))

theorem rosterBindings_perm {members' : List Member} (hperm : members.Perm members')
    (h : rosterBindings members' = .ok bindings) :
    ∃ bindings', rosterBindings members = .ok bindings' ∧ bindings'.Perm bindings := by
  obtain ⟨bindings', hforall, hbindings⟩ := List.perm_comp_forall₂ hperm (mapM_eq_ok.mp h)
  exact ⟨bindings', mapM_eq_ok.mpr hforall, hbindings⟩

theorem rosterBindings_foldl_place {packages : List KeyPackage} {added : List Binding}
    (hadded : List.Forall₂
      (fun package b => binding package.leafNode.credential = .ok b) packages added)
    (hmembers : rosterBindings members = .ok bindings) : ∃ bindings', rosterBindings (packages.foldl
        (fun members package => placeFrom 0 package.leafNode members) members) = .ok bindings' ∧
      bindings'.Perm (added ++ bindings) := by
  induction hadded generalizing members bindings with
  | nil => exact ⟨bindings, hmembers, .refl _⟩
  | @cons package b packages added hb _ ih =>
    obtain ⟨index, hperm⟩ := placeFrom_perm 0 package.leafNode members
    have hcons : rosterBindings (⟨index, package.leafNode.credential,
        package.leafNode.signatureKey⟩ :: members) = .ok (b :: bindings) :=
      mapM_eq_ok.mpr (.cons hb (mapM_eq_ok.mp hmembers))
    obtain ⟨placed, hplaced, hplacedPerm⟩ := rosterBindings_perm hperm hcons
    obtain ⟨bindings', hbindings', hperm'⟩ := ih hplaced
    refine ⟨bindings', hbindings', hperm'.trans ?_⟩
    exact (hplacedPerm.append_left added).trans List.perm_middle

end Members

variable {bindings bindings' added : List Binding} {members : List Member} {id : Block 32}
  {target : Member}

theorem Distinct.perm (hperm : bindings.Perm bindings') :
    Distinct bindings ↔ Distinct bindings' := by
  simp only [Distinct, (hperm.map Prod.fst).nodup_iff, (hperm.map Prod.snd).nodup_iff]

theorem Distinct.sublist (hsub : bindings.Sublist bindings') (h : Distinct bindings') :
    Distinct bindings :=
  ⟨h.1.sublist (hsub.map Prod.fst), h.2.sublist (hsub.map Prod.snd)⟩

theorem distinct_append_iff (hold : Distinct bindings)
    (hfresh : ∀ b ∈ added, ∀ existing ∈ bindings, existing.1 ≠ b.1 ∧ existing.2 ≠ b.2) :
    Distinct (added ++ bindings) ↔ Distinct added := by
  refine ⟨fun h => h.sublist (List.sublist_append_left _ _), fun h => ?_⟩
  simp only [Distinct, List.map_append, List.nodup_append, List.mem_map] at hold h ⊢
  refine ⟨⟨h.1, hold.1, ?_⟩, h.2, hold.2, ?_⟩
  · rintro _ ⟨b, hb, rfl⟩ _ ⟨existing, hexisting, rfl⟩ heq
    exact (hfresh b hb existing hexisting).1 heq.symm
  · rintro _ ⟨b, hb, rfl⟩ _ ⟨existing, hexisting, rfl⟩ heq
    exact (hfresh b hb existing hexisting).2 heq.symm

theorem distinctRoster_place_iff {after : PublicGroup} {packages : List KeyPackage}
    (hmembers : after.members =
      packages.foldl (fun members package => placeFrom 0 package.leafNode members) group.members)
    (hadded : List.Forall₂
      (fun package b => binding package.leafNode.credential = .ok b) packages added)
    (hfresh : ∀ bindings, rosterBindings group.members = .ok bindings →
      ∀ b ∈ added, ∀ existing ∈ bindings, existing.1 ≠ b.1 ∧ existing.2 ≠ b.2)
    (hdistinct : DistinctRoster group) : DistinctRoster after ↔ Distinct added := by
  obtain ⟨bindings, hbindings, hold⟩ := hdistinct
  obtain ⟨placed, hplaced, hperm⟩ := rosterBindings_foldl_place hadded hbindings
  rw [← hmembers] at hplaced
  have hiff : Distinct placed ↔ Distinct added := by
    rw [Distinct.perm hperm, distinct_append_iff hold (hfresh bindings hbindings)]
  refine ⟨?_, fun h => ⟨placed, hplaced, hiff.mpr h⟩⟩
  rintro ⟨placed', hplaced', hdistinct⟩
  obtain rfl := ok_unique hplaced hplaced'
  exact hiff.mp hdistinct

theorem rosterBindings_filter (p : Member → Bool) (h : rosterBindings members = .ok bindings) :
    ∃ bindings', rosterBindings (members.filter p) = .ok bindings' ∧
      bindings'.Sublist bindings := by
  have hforall := mapM_eq_ok.mp h
  clear h
  induction hforall with
  | nil => exact ⟨[], rfl, .refl _⟩
  | @cons member b members bindings hb _ ih =>
    obtain ⟨bindings', hbindings', hsub⟩ := ih
    by_cases hp : p member
    · refine ⟨b :: bindings', ?_, hsub.cons_cons b⟩
      rw [List.filter_cons_of_pos hp]
      exact mapM_eq_ok.mpr (.cons hb (mapM_eq_ok.mp hbindings'))
    · refine ⟨bindings', ?_, hsub.cons b⟩
      rwa [List.filter_cons_of_neg hp]

theorem findTarget_some {result : Option Member}
    (h : findTarget id members (some target) = .ok result) :
    result = some target ∧ ∀ member ∈ members, ∀ endpoint,
      binding member.credential ≠ .ok (id, endpoint) := by
  induction members with
  | nil =>
    obtain rfl := pure_eq_ok.mp h
    simp
  | cons member members ih =>
    simp only [findTarget, bind_eq_ok] at h
    obtain ⟨bound, hbound, h⟩ := h
    split at h
    · simp at h
    · rename_i hid
      obtain ⟨hresult, hmembers⟩ := ih h
      refine ⟨hresult, List.forall_mem_cons.mpr ⟨fun endpoint hendpoint => ?_, hmembers⟩⟩
      exact hid (congrArg Prod.fst (ok_unique hbound hendpoint))

theorem findTarget_none (h : findTarget id members none = .ok (some target)) :
    target ∈ members ∧ (∃ endpoint, binding target.credential = .ok (id, endpoint)) ∧
      ∀ member ∈ members, ∀ endpoint, binding member.credential = .ok (id, endpoint) →
        member = target := by
  induction members with
  | nil => simp [findTarget] at h
  | cons member members ih =>
    simp only [findTarget, bind_eq_ok] at h
    obtain ⟨⟨found, endpoint⟩, hbound, h⟩ := h
    split at h
    · rename_i hid
      simp only [Option.isSome_none, Bool.false_eq_true, failIf_of_not not_false, bind_eq_ok] at h
      obtain ⟨_, _, h⟩ := h
      obtain ⟨hresult, hmembers⟩ := findTarget_some h
      obtain rfl := Option.some.inj hresult
      refine ⟨by simp, ⟨endpoint, by rw [hbound, ← hid]⟩, List.forall_mem_cons.mpr ⟨?_, ?_⟩⟩
      · exact fun _ _ => rfl
      · exact fun other hother endpoint hendpoint =>
          absurd hendpoint (hmembers other hother endpoint)
    · rename_i hid
      obtain ⟨hmem, hbinding, hunique⟩ := ih h
      refine ⟨List.mem_cons_of_mem _ hmem, hbinding, List.forall_mem_cons.mpr ⟨?_, hunique⟩⟩
      intro endpoint' hendpoint
      exact absurd (congrArg Prod.fst (ok_unique hbound hendpoint)) hid

namespace PublicMls

variable {mls : PublicMls} {group' : PublicGroup} {commit : Bytes}

/-- The bindings of the KeyPackages that a commit adds to the group. -/
def addedBindings (mls : PublicMls) (group : PublicGroup) (commit : Bytes) : List Binding :=
  match mls.process group commit with
  | some ⟨_, .stagedCommit staged⟩ =>
      staged.adds.filterMap fun package => (binding package.leafNode.credential).toOption
  | _ => []

theorem mem_of_find {members : List Member} {index : Nat}
    (h : members.find? (·.index = index) = some actor) : actor ∈ members :=
  List.mem_of_find?_eq_some h

theorem filterMap_toOption {packages : List KeyPackage} {added : List Binding}
    (h : List.Forall₂ (fun package b => binding package.leafNode.credential = .ok b)
      packages added) :
    packages.filterMap (fun package => (binding package.leafNode.credential).toOption) =
      added := by
  induction h with
  | nil => rfl
  | @cons package b packages added hb _ ih =>
    have hsome : (binding package.leafNode.credential).toOption = some b := by
      rw [hb]
      rfl
    rw [List.filterMap_cons, hsome, ih]

namespace AcceptedBatch

variable {authorizations : List AdmissionAuthorization} {admins : List Bytes} {added : List Binding}

variable (h : mls.AcceptedBatch group authorizations commit actor staged admins added)

include h

theorem isAdd :
    ∀ queued ∈ staged.proposals, ∃ package, queued.proposal = .add package := by
  have hlength : staged.adds.length = staged.proposals.length := h.adds.trans h.proposals.symm
  rw [StagedCommit.adds, List.filterMap_length_eq_length] at hlength
  intro queued hqueued
  have hsome := hlength queued hqueued
  cases hproposal : queued.proposal <;> simp_all

theorem packages :
    List.Forall₂ (fun package b => binding package.leafNode.credential = .ok b)
      staged.adds added := by
  have hsnd : (authorizations.zip staged.adds).map Prod.snd = staged.adds :=
    List.map_snd_zip h.adds.le
  rw [← hsnd, List.forall₂_map_left_iff]
  exact h.authorized.imp fun _ _ haccepted => haccepted.binding

theorem addedBindings_eq :
    mls.addedBindings group commit = added := by
  simp only [addedBindings, h.processed]
  exact filterMap_toOption h.packages

theorem members_eq (laws : mls.Lawful) (hwell : group.WellFormed) :
    staged.merged.members = staged.adds.foldl
      (fun members package => placeFrom 0 package.leafNode members) group.members := by
  have hstages := laws.process hwell h.processed
  have hkept : group.kept staged = group.members := by
    rw [PublicGroup.kept, List.filter_eq_self]
    intro member _
    simp only [decide_not, Bool.not_eq_true', decide_eq_false_iff_not]
    rintro ⟨queued, hqueued, hremove⟩
    obtain ⟨package, hadd⟩ := h.isAdd queued hqueued
    simp [hadd] at hremove
  calc staged.merged.members
      = group.membersAfter (.member actor.index) staged := by
        refine hstages.members fun queued hqueued kind hother => ?_
        obtain ⟨package, hadd⟩ := h.isAdd queued hqueued
        simp [hadd] at hother
    _ = _ := by
        rw [membersAfter_of_keepsIdentity hwell (mem_of_find h.committer) h.identity, hkept]

theorem fresh {bindings : List Binding} (hbindings : rosterBindings group.members = .ok bindings) :
    ∀ b ∈ added, ∀ existing ∈ bindings, existing.1 ≠ b.1 ∧ existing.2 ≠ b.2 := by
  intro b hb existing hexisting
  obtain ⟨pair, _, haccepted⟩ := exists_of_mem_right h.authorized hb
  obtain ⟨member, hmember, hexists⟩ := exists_of_mem_right (mapM_eq_ok.mp hbindings) hexisting
  obtain ⟨existing', hbinding, hid, hendpoint⟩ := haccepted.fresh member hmember
  obtain rfl := ok_unique hexists hbinding
  exact ⟨hid, hendpoint⟩

theorem distinctRoster_iff (laws : mls.Lawful) (hwell : group.WellFormed)
    (hdistinct : DistinctRoster group) :
    DistinctRoster staged.merged ↔ Distinct added :=
  distinctRoster_place_iff (h.members_eq laws hwell) h.packages
    (fun _ hbindings => h.fresh hbindings) hdistinct

end AcceptedBatch

theorem AcceptedMemberAction.isRemoveOrPolicy {target : Member} {expected : List Bytes}
    (h : mls.AcceptedMemberAction group actor before staged action target expected) :
    ∀ queued ∈ staged.proposals, queued.proposal = .remove target.index ∨
      ∃ extensions, queued.proposal = .groupContextExtensions extensions := by
  intro queued hqueued
  obtain ⟨_, _, hkind⟩ := h.proposals queued hqueued
  rcases hkind with hremoval | hpolicy
  · left
    simp only [isRemoval, Bool.and_eq_true, beq_iff_eq] at hremoval
    exact hremoval.2
  · right
    cases hproposal : queued.proposal <;> simp_all [isPolicyChange]

namespace AcceptedManagement

variable (h : mls.AcceptedManagement group action commit actor before staged)

include h

theorem isRemoveOrPolicy :
    ∀ queued ∈ staged.proposals, (∃ index, queued.proposal = .remove index) ∨
      ∃ extensions, queued.proposal = .groupContextExtensions extensions := by
  intro queued hqueued
  have hverified := h.verified
  split at hverified
  · obtain ⟨extensions, hproposals⟩ := hverified.proposals
    rw [hproposals, List.mem_singleton] at hqueued
    exact .inr ⟨extensions, by rw [hqueued]⟩
  · obtain ⟨target, expected, haction⟩ := hverified
    rcases haction.isRemoveOrPolicy queued hqueued with hremove | hpolicy
    · exact .inl ⟨target.index, hremove⟩
    · exact .inr hpolicy

theorem identity :
    keepsIdentity actor staged := by
  have hverified := h.verified
  split at hverified
  · exact hverified.identity
  · obtain ⟨target, expected, haction⟩ := hverified
    exact haction.identity

theorem adds_eq_nil :
    staged.adds = [] := by
  rw [StagedCommit.adds, List.filterMap_eq_nil_iff]
  intro queued hqueued
  rcases h.isRemoveOrPolicy queued hqueued with ⟨_, hremove⟩ | ⟨_, hpolicy⟩
  · simp [hremove]
  · simp [hpolicy]

theorem members_eq (laws : mls.Lawful) (hwell : group.WellFormed) :
    staged.merged.members = group.kept staged := by
  calc staged.merged.members
      = group.membersAfter (.member actor.index) staged := by
        refine (laws.process hwell h.processed).members fun queued hqueued kind hother => ?_
        rcases h.isRemoveOrPolicy queued hqueued with ⟨_, hremove⟩ | ⟨_, hpolicy⟩
        · simp [hremove] at hother
        · simp [hpolicy] at hother
    _ = _ := by
        rw [membersAfter_of_keepsIdentity hwell (mem_of_find h.committer) h.identity,
          h.adds_eq_nil, List.foldl_nil]

theorem distinctRoster (laws : mls.Lawful) (hwell : group.WellFormed)
    (hdistinct : DistinctRoster group) : DistinctRoster staged.merged := by
  obtain ⟨bindings, hbindings, hold⟩ := hdistinct
  obtain ⟨after, hafter, hsub⟩ := rosterBindings_filter _ hbindings
  refine ⟨after, ?_, hold.sublist hsub⟩
  rw [h.members_eq laws hwell]
  exact hafter

end AcceptedManagement

variable {authorization : MembershipAuthorization}

/-- One accepted transition keeps the roster distinct exactly when the bindings it adds are
distinct among themselves. -/
theorem applyTransition_distinctRoster_iff (laws : mls.Lawful) (hwell : group.WellFormed)
    (hdistinct : DistinctRoster group)
    (h : mls.applyTransition group commit authorization = .ok group') :
    DistinctRoster group' ↔ Distinct (mls.addedBindings group commit) := by
  obtain ⟨actor, staged, rfl, ⟨_, _, _, _, haccepted⟩ | ⟨_, _, _, haccepted⟩⟩ :=
    applyTransition_cases h
  · rw [haccepted.addedBindings_eq]
    exact haccepted.distinctRoster_iff laws hwell hdistinct
  · have hadded : mls.addedBindings group commit = [] := by
      simp [addedBindings, haccepted.processed, haccepted.adds_eq_nil]
    rw [hadded]
    exact iff_of_true (haccepted.distinctRoster laws hwell hdistinct) (by simp [Distinct])

theorem applyTransition_wellFormed (laws : mls.Lawful) (hwell : group.WellFormed)
    (h : mls.applyTransition group commit authorization = .ok group') : group'.WellFormed := by
  obtain ⟨actor, staged, rfl, ⟨_, _, _, _, haccepted⟩ | ⟨_, _, _, haccepted⟩⟩ :=
    applyTransition_cases h
  · exact (laws.process hwell haccepted.processed).wellFormed
  · exact (laws.process hwell haccepted.processed).wellFormed

end PublicMls

end Arachne.Security
