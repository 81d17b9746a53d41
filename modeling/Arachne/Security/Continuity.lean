import Arachne.Security.Invitations
import Arachne.Security.Managed
import Arachne.Security.Policy

/-! What one accepted step does to a workspace: the group moves on by its commit, the owner
keeps its leaf, registered invitations stay registered, and the history grows by the step. -/

namespace Arachne.Security

open Fallible ByteCodec

variable {action : ManagementAction} {staged : StagedCommit} {legacy : Bool}

/-- The invitation of the key is registered in the group's policy. -/
def Listed (extensions : List Extension) (key : Block 32) : Prop :=
  ∃ legacy controls, invitationControls extensions = .ok (legacy, controls) ∧
    key ∈ controls.map (·.key)

theorem keys_updateControl (key : Block 32) (change : InvitationControl → InvitationControl)
    (hchange : ∀ control, (change control).key = control.key)
    (controls : List InvitationControl) :
    (updateControl key change controls).map (·.key) = controls.map (·.key) := by
  induction controls with
  | nil => rfl
  | cons control controls ih =>
    rw [updateControl]
    split
    · simp [hchange]
    · simp [ih]

/-- How a control may differ later; `disabled` says that its own key was disabled meanwhile. -/
structure InvitationControl.Becomes (disabled : Prop) (before after : InvitationControl) :
    Prop where
  key : after.key = before.key
  expiresAt : after.expiresAt = before.expiresAt
  personal : after.personal = before.personal
  enabled : after.enabled = before.enabled ∨ disabled ∧ after.enabled = false
  package : after.approvedPackage = before.approvedPackage ∨
    (before.approvedPackage = zeroBlock 32 ∨ before.approvedPackage = automaticApproval) ∧
      ¬ PublicMls.isReserved after.approvedPackage

namespace PublicMls

variable {mls : PublicMls} {group group' : PublicGroup}

variable {controls' : List InvitationControl} {commit : Bytes} {actor : Member}
  {before : List Bytes} {authorization : MembershipAuthorization}

theorem createControl_eq_ok {controls : List InvitationControl} {control : InvitationControl}
    (h : createControl controls control = .ok controls') :
    control.key ∉ controls.map (·.key) ∧ controls' = controls ++ [control] := by
  simp only [createControl, bind_eq_ok, failIf_eq_ok, not_or, pure_eq_ok, List.any_eq_true,
    decide_eq_true_iff, not_exists, not_and] at h
  obtain ⟨_, ⟨_, hfresh⟩, rfl⟩ := h
  refine ⟨fun hmem => ?_, rfl⟩
  obtain ⟨existing, hexisting, hkey⟩ := List.mem_map.mp hmem
  exact hfresh existing hexisting hkey

theorem decide_eq_ok {controls : List InvitationControl} {parent : InvitationControl}
    {package : Block 32} {approved : Bool}
    (h : mls.decide controls parent package approved = .ok controls') :
    ¬ isReserved package ∧ mls.decisionKey parent.key package ∉ controls.map (·.key) ∧
      controls' = controls ++
        [⟨mls.decisionKey parent.key package, parent.expiresAt, approved, true, package⟩] := by
  simp only [PublicMls.decide, bind_eq_ok, failIf_eq_ok, Bool.or_eq_true, not_or, pure_eq_ok,
    List.any_eq_true, decide_eq_true_iff, not_exists, not_and] at h
  obtain ⟨_, ⟨_, hpackage⟩, _, hfresh, rfl⟩ := h
  refine ⟨hpackage, fun hmem => ?_, rfl⟩
  obtain ⟨existing, hexisting, hkey⟩ := List.mem_map.mp hmem
  exact hfresh existing hexisting hkey

/-- What an invitation action does: it adds a control, of the key that it creates or with a decided
package, changes one, or ends the older invitations. -/
theorem changeControls_cases {controls : List InvitationControl}
    {new : Bool × List InvitationControl}
    (h : mls.changeControls legacy controls action = .ok new) :
    (∃ control, new = (legacy, controls ++ [control]) ∧ control.key ∉ controls.map (·.key) ∧
      (action.createdKey = some control.key ∨
        action.createdKey = none ∧ ¬ isReserved control.approvedPackage)) ∨
    action.createdKey = none ∧
      ((∃ key control change, controlOf controls key = some control ∧
        (∀ control, InvitationControl.key (change control) = control.key) ∧
        new = (legacy, updateControl key change controls) ∧
        control.Becomes (action = .disableInvitation key) (change control)) ∨
      new = (false, controls)) := by
  cases action with
  | createInvitation key expiresAt personal
  | createAutomaticInvitation key expiresAt
  | createRequestInvitation key expiresAt =>
    simp only [changeControls, bind_eq_ok, pure_eq_ok] at h
    obtain ⟨controls', h, rfl⟩ := h
    obtain ⟨hfresh, rfl⟩ := createControl_eq_ok h
    exact .inl ⟨_, rfl, hfresh, .inl rfl⟩
  | approveInvitation key package =>
    simp only [changeControls, bind_eq_ok, orFail_eq_ok] at h
    obtain ⟨parent, hparent, h⟩ := h
    split at h
    · simp only [bind_eq_ok, pure_eq_ok] at h
      obtain ⟨controls', h, rfl⟩ := h
      obtain ⟨hpackage, hfresh, rfl⟩ := decide_eq_ok h
      exact .inl ⟨_, rfl, hfresh, .inr ⟨rfl, hpackage⟩⟩
    · simp only [bind_eq_ok, failIf_eq_ok, Bool.or_eq_true, not_or, pure_eq_ok] at h
      obtain ⟨_, ⟨⟨_, hwaiting⟩, hpackage⟩, rfl⟩ := h
      refine .inr ⟨rfl, .inl ⟨key, parent, ({ · with approvedPackage := package }), hparent,
        fun _ => rfl, rfl, rfl, rfl, rfl, .inl rfl, .inr ⟨?_, hpackage⟩⟩⟩
      by_cases hzero : parent.approvedPackage = zeroBlock 32
      · exact .inl hzero
      · refine .inr ?_
        simp only [bne_iff_ne, ne_eq, hzero, not_false_iff, Bool.and_eq_true, true_and,
          Bool.not_eq_true', Bool.not_eq_false] at hwaiting
        exact eq_of_beq (Bool.and_eq_true_iff.mp hwaiting).2
  | declineInvitationRequest key package =>
    simp only [changeControls, bind_eq_ok, pure_eq_ok] at h
    obtain ⟨parent, _, _, _, controls', h, rfl⟩ := h
    obtain ⟨hpackage, hfresh, rfl⟩ := decide_eq_ok h
    exact .inl ⟨_, rfl, hfresh, .inr ⟨rfl, hpackage⟩⟩
  | disableInvitation key =>
    rw [changeControls] at h
    split at h
    · simp only [bind_eq_ok, pure_eq_ok] at h
      obtain ⟨_, _, rfl⟩ := h
      exact .inr ⟨rfl, .inr rfl⟩
    · simp only [bind_eq_ok, orFail_eq_ok, pure_eq_ok] at h
      obtain ⟨control, hcontrol, _, _, rfl⟩ := h
      exact .inr ⟨rfl, .inl ⟨key, control, ({ · with enabled := false }), hcontrol, fun _ => rfl,
        rfl, rfl, rfl, rfl, .inr ⟨rfl, rfl⟩, .inl rfl⟩⟩
  | promote id | demote id | remove id | leave id signature => simp [changeControls] at h

/-- Controls are added and changed, never dropped; a creation adds the one of its key. -/
theorem changeControls_keys {controls : List InvitationControl}
    {new : Bool × List InvitationControl}
    (h : mls.changeControls legacy controls action = .ok new) :
    controls.map (·.key) ⊆ new.2.map (·.key) ∧ ∀ key ∈ action.createdKey,
      key ∉ controls.map (·.key) ∧ key ∈ new.2.map (·.key) := by
  rcases changeControls_cases h with ⟨control, rfl, hfresh, hkind⟩ |
    ⟨hnone, ⟨key, control, change, _, hkey, rfl, _⟩ | rfl⟩
  · refine ⟨by simp, fun key hcreated => ?_⟩
    rcases hkind with hkind | ⟨hkind, _⟩
    · obtain rfl := Option.some.inj (hkind.symm.trans hcreated)
      exact ⟨hfresh, by simp⟩
    · cases hkind.symm.trans hcreated
  · exact ⟨by simp [keys_updateControl key change hkey], by simp [hnone]⟩
  · exact ⟨List.Subset.refl _, by simp [hnone]⟩

theorem AcceptedManagement.policy
    (h : mls.AcceptedManagement group action commit actor before staged) :
    ∃ old new : Bool × List InvitationControl,
      invitationControls group.extensions = .ok old ∧
      invitationControls staged.context.extensions = .ok new ∧
      (mls.changeControls old.1 old.2 action = .ok new ∨
        new = old ∧ action.changesInvitations = false) := by
  have hverified := h.verified
  split at hverified
  · obtain ⟨_, old, new, hchanged⟩ := changed_eq_ok hverified.changed
    exact ⟨old, new, hchanged.current, hchanged.written, .inl hchanged.intended⟩
  · rename_i hmember
    obtain ⟨_, _, haction⟩ := hverified
    obtain ⟨policy, hbefore, hafter⟩ := haction.policy
    obtain ⟨_, controls, hpolicy, hdecoded, hcontrols⟩ :=
      invitationControls_of_authority h.authority
    obtain rfl := ok_unique hbefore hpolicy
    refine ⟨controls, controls, hcontrols, ?_, .inr ⟨rfl, by simpa using hmember⟩⟩
    rw [invitationControls, hafter, ok_bind, hdecoded]

theorem AcceptedManagement.controls
    (h : mls.AcceptedManagement group action commit actor before staged) :
    ∃ old new : Bool × List InvitationControl,
      invitationControls group.extensions = .ok old ∧
      invitationControls staged.context.extensions = .ok new ∧
      old.2.map (·.key) ⊆ new.2.map (·.key) ∧ ∀ key ∈ action.createdKey,
        key ∉ old.2.map (·.key) ∧ key ∈ new.2.map (·.key) := by
  obtain ⟨old, new, hold, hnew, hchanged | ⟨rfl, hmember⟩⟩ := h.policy
  · exact ⟨old, new, hold, hnew, changeControls_keys hchanged⟩
  · have hnone : action.createdKey = none := by
      cases action <;> simp_all [ManagementAction.changesInvitations, ManagementAction.createdKey]
    exact ⟨new, new, hold, hnew, List.Subset.refl _, by simp [hnone]⟩

/-- Accepted transitions keep registered invitations, and a creation registers a new one. -/
theorem applyTransition_listed (h : mls.applyTransition group commit authorization = .ok group') :
    (∀ key, Listed group.extensions key → Listed group'.extensions key) ∧
      ∀ action, authorization = .management action → ∀ key ∈ action.createdKey,
        ¬ Listed group.extensions key ∧ Listed group'.extensions key := by
  obtain ⟨actor, staged, rfl, ⟨_, _, _, hkind, haccepted⟩ | ⟨action, _, rfl, haccepted⟩⟩ :=
    applyTransition_cases h
  · have hsame : staged.merged.extensions = group.extensions := haccepted.extensions
    refine ⟨fun key hkey => hsame ▸ hkey, ?_⟩
    rcases hkind with rfl | ⟨_, rfl, _⟩ <;> simp
  · obtain ⟨old, new, hold, hnew, hsub, hcreated⟩ := haccepted.controls
    have hlisted : ∀ key, Listed group.extensions key → key ∈ old.2.map (·.key) := by
      rintro key ⟨_, _, hcontrols, hkey⟩
      obtain rfl := ok_unique hold hcontrols
      exact hkey
    refine ⟨fun key hkey => ⟨_, _, hnew, hsub (hlisted key hkey)⟩, ?_⟩
    rintro _ ⟨⟩ key hkey
    exact ⟨fun hbefore => (hcreated key hkey).1 (hlisted key hbefore),
      ⟨_, _, hnew, (hcreated key hkey).2⟩⟩

theorem applyTransition_batchAuthorization (authorizations : List AdmissionAuthorization) :
    mls.applyTransition group commit (batchAuthorization authorizations) =
      mls.applyAddBatch group authorizations commit := by
  unfold batchAuthorization
  split <;> rfl

/-- Accepted transitions put no other member at a leaf that is taken. -/
theorem applyTransition_leaf (laws : mls.Lawful) (hwell : group.WellFormed)
    (h : mls.applyTransition group commit authorization = .ok group') {member member' : Member}
    (hmember : member ∈ group.members) (hmember' : member' ∈ group'.members)
    (hindex : member'.index = member.index) : member' = member := by
  have hwell' := applyTransition_wellFormed laws hwell h
  obtain ⟨actor, staged, rfl, ⟨_, _, _, _, haccepted⟩ | ⟨_, _, _, haccepted⟩⟩ :=
    applyTransition_cases h
  · have hkept : member ∈ staged.merged.members := by
      rw [haccepted.members_eq laws hwell]
      exact mem_foldl_place _ hmember
    exact List.inj_on_of_nodup_map hwell'.indices hmember' hkept hindex
  · rw [haccepted.members_eq laws hwell] at hmember'
    exact List.inj_on_of_nodup_map hwell.indices (List.mem_of_mem_filter hmember') hmember
      hindex

end PublicMls

namespace Mls

variable {Group Signer Staged : Type} {mls : Mls Group Signer Staged}
  {before after : Workspace Group Signer} {step : Step}

/-- The step from one workspace to the next, whoever made the commit. -/
structure Moves (mls : Mls Group Signer Staged) (before after : Workspace Group Signer)
    (step : Step) : Prop where
  sound : mls.Sound after
  processed : ∃ sender staged, mls.process (mls.publicGroup before.group) step.2 =
    some ⟨sender, .stagedCommit staged⟩ ∧ mls.publicGroup after.group = staged.merged
  listed : ∀ key, Listed (mls.extensions before) key → Listed (mls.extensions after) key
  records : SameRecords before.provider after.provider
  scope : after.id = before.id ∧ after.endpoint = before.endpoint ∧ after.member = before.member
  history : before.joinHistory = none ∧ after.joinHistory = none ∨ ∃ history,
    mls.appendHistory before step.1 step.2 = .ok history ∧ after.joinHistory = some history

section

variable (laws : mls.Lawful) (sound : mls.Sound before)

include laws sound

theorem Moves.epoch (h : mls.Moves before after step) :
    (mls.epoch after).val = (mls.epoch before).val + 1 := by
  obtain ⟨_, staged, hprocess, hafter⟩ := h.processed
  have hstages := laws.process sound.ready.wellFormed hprocess
  rw [Mls.epoch, hafter]
  exact hstages.epoch

variable {commit : Bytes} {now : U64} {arrivals : List Arrival}
  {prepared : PreparedAdmissionBatch Group Signer} {added : List Binding}

/-- A workspace stays sound over a transition that the verifier has accepted. -/
theorem Sound.of_accepted {authorization : MembershipAuthorization}
    (haccepted : mls.applyTransition (mls.publicGroup before.group) commit authorization =
      .ok (mls.publicGroup after.group))
    (hready : mls.Ready after.owner after.signer) (hkeeps : mls.Keeps before.owner after.owner)
    (hscope : after.id = before.id ∧ after.endpoint = before.endpoint ∧
      after.member = before.member) :
    mls.Sound after := by
  obtain ⟨hid, hendpoint, hmember⟩ := hscope
  have hwell : (mls.publicGroup before.group).WellFormed := sound.ready.wellFormed
  obtain ⟨_, staged, hprocess, hafter, _⟩ := PublicMls.applyTransition_process haccepted
  have hstages := laws.process hwell hprocess
  obtain ⟨own, hown, hindex, hcredential⟩ := sound.credential
  obtain ⟨own', hown', hindex', _⟩ := hready.own
  have hleaf : own'.index = own.index := by
    rw [hindex', hindex]
    exact hkeeps.ownLeafIndex
  obtain rfl := PublicMls.applyTransition_leaf laws.toLawful hwell haccepted hown hown' hleaf
  refine ⟨hready, ?_, ?_, own', hown', hindex', ?_⟩
  · rw [hafter, hid, ← sound.groupId]
    exact hstages.groupId
  · rw [hafter, ← sound.ciphersuite]
    exact hstages.ciphersuite
  · rw [hendpoint, hmember]
    exact hcredential

theorem Moves.of_accepted
    (haccepted : mls.applyTransition (mls.publicGroup before.group) step.2 step.1 =
      .ok (mls.publicGroup after.group))
    (hready : mls.Ready after.owner after.signer) (hkeeps : mls.Keeps before.owner after.owner)
    (hscope : after.id = before.id ∧ after.endpoint = before.endpoint ∧
      after.member = before.member)
    {history : MembershipHistory} (hhistory : mls.appendHistory before step.1 step.2 = .ok history)
    (hsaved : after.joinHistory = some history) : mls.Moves before after step := by
  obtain ⟨sender, staged, hprocess, hafter, _⟩ := PublicMls.applyTransition_process haccepted
  exact ⟨sound.of_accepted laws haccepted hready hkeeps hscope,
    ⟨sender, staged, hprocess, hafter⟩, (PublicMls.applyTransition_listed haccepted).1,
    hkeeps.records, hscope, .inr ⟨history, hhistory, hsaved⟩⟩

theorem Managed.moves {prepared : PreparedManagement Group Signer} {removals : List Nat}
    (h : mls.Managed before prepared removals) :
    mls.Moves before prepared.workspace (.management prepared.action, prepared.commit) := by
  obtain ⟨random, extensions, pending, hbuilt, hmerged⟩ := h.built
  obtain ⟨hready, staged, hcommits⟩ := laws.buildCommit sound.ready hbuilt hmerged
  obtain ⟨history, hsaved, hhistory⟩ := h.history
  have hrest := h.rest
  have hsigner : prepared.workspace.signer = before.signer := by rw [hrest]
  refine .of_accepted laws sound h.accepted (hsigner ▸ hready) hcommits.keeps ?_ hhistory hsaved
  rw [hrest]
  exact ⟨rfl, rfl, rfl⟩

theorem prepareManagementUpdate_eq_active
    (h : mls.prepareManagementUpdate before now action commit = .ok (.active after)) :
    mls.Moves before after (.management action, commit) ∧
      mls.applyTransition (mls.publicGroup before.group) commit (.management action) =
        .ok (mls.publicGroup after.group) ∧
      (∃ history, after.joinHistory = some history) ∧ after.admissions = before.admissions ∧
        after.invitationCheckpoints.Sublist before.invitationCheckpoints := by
  simp only [prepareManagementUpdate, bind_eq_ok, orFail_eq_ok, sound.provisionalCopy] at h
  obtain ⟨_, _, verifier, hverifier, proof, hproof, copy, hcopy, ⟨secret, between⟩, hprivate, owner,
    hmerged, h⟩ := h
  obtain rfl := Except.ok.inj hcopy
  obtain ⟨_, _, rfl⟩ := (verifierOf_eq_ok laws sound).mp hverifier
  by_cases hactive : mls.isActive owner.group = true
  · rw [if_neg (by simp [hactive])] at h
    simp only [bind_eq_ok, failIf_eq_ok, pure_eq_ok, ManagementUpdate.active.injEq] at h
    obtain ⟨history, hhistory, pruned, hpruned, _, hmatch, rfl⟩ := h
    obtain ⟨kept, hsub, rfl⟩ := pruneInvitationCheckpoints_eq_ok hpruned
    obtain rfl : proof = mls.publicGroup owner.group := matchesWorkspace_iff.mp hmatch
    simp only [processManagement, bind_eq_ok, orFail_eq_ok, pure_eq_ok, Prod.mk.injEq] at hprivate
    obtain ⟨_, _, message, _, ⟨secret', between'⟩, hprocessed, _, hsecret, rfl, rfl⟩ := hprivate
    dsimp only at hsecret
    subst hsecret
    obtain ⟨hready, hkeeps⟩ := (laws.receive sound.ready hprocessed hmerged).1 hactive
    exact ⟨.of_accepted laws sound hproof hready hkeeps ⟨rfl, rfl, rfl⟩ hhistory rfl, hproof,
      ⟨history, rfl⟩, rfl, hsub⟩
  · rw [if_pos (by simpa using hactive)] at h
    simp only [map_eq_ok, reduceCtorEq, and_false, exists_false] at h

theorem prepareAdmissionUpdate_eq_ok {authorizations : List AdmissionAuthorization}
    (h : mls.prepareAdmissionUpdate before authorizations commit = .ok after) :
    mls.Moves before after (batchAuthorization authorizations, commit) ∧
      mls.applyTransition (mls.publicGroup before.group) commit
        (batchAuthorization authorizations) = .ok (mls.publicGroup after.group) ∧
      after.admissions = before.admissions ∧
        after.invitationCheckpoints = before.invitationCheckpoints := by
  simp only [prepareAdmissionUpdate, bind_eq_ok, orFail_eq_ok, sound.provisionalCopy, failIf_eq_ok,
    pure_eq_ok] at h
  obtain ⟨_, _, verifier, hverifier, proof, hproof, copy, hcopy, encoded, hdecoded, message,
    hmessage, ⟨secret, between⟩, hprivate, secret', hsecret, owner, hmerged, history, hhistory, _,
    hmatch, rfl⟩ := h
  obtain rfl := Except.ok.inj hcopy
  obtain ⟨_, _, rfl⟩ := (verifierOf_eq_ok laws sound).mp hverifier
  obtain rfl : proof = mls.publicGroup owner.group := matchesWorkspace_iff.mp hmatch
  dsimp only at hsecret hmerged
  subst hsecret
  obtain ⟨hreceived, hstays⟩ := laws.receive sound.ready hprivate hmerged
  have hactive : mls.isActive owner.group = true := by
    obtain ⟨actor, staged, _, _, haccepted, _⟩ :=
      PublicMls.applyAddBatch_eq_ok.mp
        ((PublicMls.applyTransition_batchAuthorization _).symm.trans hproof)
    have hprocess := haccepted.processed
    simp only [PublicMls.process, hdecoded, Option.bind_eq_bind, Option.bind_some, hmessage]
      at hprocess
    refine hstays _ staged hprocess fun queued hqueued hremove => ?_
    obtain ⟨package, hadd⟩ := haccepted.isAdd queued hqueued
    rw [hadd] at hremove
    cases hremove
  obtain ⟨hready, hkeeps⟩ := hreceived hactive
  exact ⟨.of_accepted laws sound hproof hready hkeeps ⟨rfl, rfl, rfl⟩ hhistory rfl, hproof, rfl,
    rfl⟩

theorem Admitted.extensions_eq (h : mls.Admitted before now arrivals prepared added staged) :
    mls.extensions prepared.workspace = mls.extensions before := by
  have hstages := laws.process sound.ready.wellFormed h.commits.process
  have hafter : mls.publicGroup prepared.workspace.group = staged.merged := h.commits.merged
  rw [Mls.extensions, hafter]
  refine hstages.extensions.trans ?_
  rw [PublicGroup.extensionsAfter, List.findSome?_eq_none_iff.mpr]
  · rfl
  · simp [h.proposals, ownProposal]

/-- The owner's own admission; the verifier is not asked before it is made. -/
theorem Admitted.moves (h : mls.Admitted before now arrivals prepared added staged) :
    mls.Moves before prepared.workspace
      (batchAuthorization (arrivals.map (·.request.authorization)), prepared.commit) := by
  have hrest := h.rest
  have hwell : (mls.publicGroup before.group).WellFormed := sound.ready.wellFormed
  have hstages := laws.process hwell h.commits.process
  have hafter : mls.publicGroup prepared.workspace.group = staged.merged := h.commits.merged
  have hsound : mls.Sound prepared.workspace := by
    obtain ⟨own, hown, hindex, hcredential⟩ := sound.credential
    refine ⟨?_, ?_, ?_, own, ?_, ?_, ?_⟩
    · have hsigner : prepared.workspace.signer = before.signer := by rw [hrest]
      exact hsigner ▸ h.ready
    · have hid : prepared.workspace.id = before.id := by rw [hrest]
      rw [hafter, hid, ← sound.groupId]
      exact hstages.groupId
    · rw [hafter, ← sound.ciphersuite]
      exact hstages.ciphersuite
    · rw [h.members_eq laws sound]
      exact mem_foldl_place _ hown
    · rw [hindex]
      exact h.commits.keeps.ownLeafIndex.symm
    · rw [hcredential, hrest]
  refine ⟨hsound, ⟨_, staged, h.commits.process, hafter⟩, fun key hkey => ?_,
    h.commits.keeps.records, ?_, ?_⟩
  · rwa [h.extensions_eq laws sound]
  · rw [hrest]
    exact ⟨rfl, rfl, rfl⟩
  · have hhistory := h.history
    rw [admissionHistory] at hhistory
    split at hhistory
    · rename_i hsingle
      exact .inl ⟨Option.isNone_iff_eq_none.mp hsingle.2, (pure_eq_ok.mp hhistory).symm⟩
    · obtain ⟨history, hhistory, hsaved⟩ := map_eq_ok.mp hhistory
      exact .inr ⟨history, hhistory, hsaved.symm⟩

end

end Mls

end Arachne.Security
