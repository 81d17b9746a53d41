import Arachne.Security.NameLives
import Arachne.Security.Sample

/-! A prepared management commit at the other members of the group: they come to the same state
exactly when the state they export for the check fits into an inline history. -/

namespace Arachne.Security

open Fallible ByteCodec

theorem binding_credentialIdentity {endpoint : Block 32} {member : Option MemberProfile}
    {bound : Binding} (h : binding (.basic (credentialIdentity endpoint member)) = .ok bound) :
    ∃ profile, member = some profile ∧ bound = (profile.id, endpoint) := by
  simp only [binding, bind_eq_ok, orFail_eq_ok] at h
  obtain ⟨bytes, hbytes, h⟩ := h
  cases member with
  | none =>
    have hother : memberCredentialText.isPrefixOf? (credentialIdentity endpoint none) = none := rfl
    rw [hother] at hbytes
    cases hbytes
  | some profile =>
    rw [List.isPrefixOf?_eq_some_iff_append_eq, credentialIdentity, List.append_assoc,
      List.append_cancel_left_eq] at hbytes
    subst hbytes
    rw [dif_pos (by simp [profile.id.2, endpoint.2]), bind_eq_ok] at h
    obtain ⟨_, _, h⟩ := h
    obtain rfl := pure_eq_ok.mp h
    refine ⟨profile, rfl, Prod.ext (Subtype.ext ?_) (Subtype.ext ?_)⟩
    · exact List.take_left' profile.id.2
    · exact List.drop_left' profile.id.2

theorem PublicMls.AcceptedManagement.readable {mls : PublicMls} {group : PublicGroup}
    {action : ManagementAction} {commit : Bytes} {actor : Member} {before : List Bytes}
    {staged : StagedCommit}
    (h : mls.AcceptedManagement group action commit actor before staged) :
    ∃ controls, invitationControls staged.context.extensions = .ok controls := by
  have hverified := h.verified
  split at hverified
  · obtain ⟨_, _, new, hchanged⟩ := changed_eq_ok hverified.changed
    exact ⟨new, hchanged.written⟩
  · obtain ⟨_, _, haction⟩ := hverified
    obtain ⟨_, controls, _, _, hcontrols⟩ := invitationControls_of_authority haction.authority
    exact ⟨controls, hcontrols⟩

namespace Mls

variable {Group Signer Staged : Type} {mls : Mls Group Signer Staged}
  {producer receiver : Workspace Group Signer} {prepared : PreparedManagement Group Signer}
  {removals : List Nat}

/-- The action removes the owner of the workspace. -/
def IsTarget (workspace : Workspace Group Signer) (action : ManagementAction) : Prop :=
  action.removes ∧ ∃ member, workspace.member = some member ∧ member.id = action.target

theorem bindsId_iff {id : Block 32} {member : Member} :
    bindsId id member = true ↔ ∃ endpoint, binding member.credential = .ok (id, endpoint) := by
  rw [bindsId]
  cases binding member.credential with
  | error message => simp
  | ok bound =>
    obtain ⟨found, endpoint⟩ := bound
    simp

section

variable (h : mls.Managed producer prepared removals)

include h

theorem Managed.processManagement (laws : mls.Lawful) (hproducer : mls.Sound producer)
    (hreceiver : mls.Sound receiver) (hsame : mls.SameEpoch receiver.group producer.group)
    (hleaf : mls.ownLeafIndex receiver.group ≠ mls.ownLeafIndex producer.group) :
    ∃ secret between after,
      mls.processManagement receiver.owner prepared.commit = .ok (secret, between) ∧
      mls.mergeStagedCommit between secret = some after ∧
      (mls.isActive after.group = true ↔ mls.ownLeafIndex receiver.group ∉ removals) ∧
      (mls.isActive after.group = true → mls.SameEpoch after.group prepared.workspace.group) := by
  obtain ⟨random, extensions, pending, hbuilt, hmerge⟩ := h.built
  obtain ⟨message, secret, between, after, hdecode, hprocess, hstaged, hactive, hafter⟩ :=
    laws.accept hproducer.ready hbuilt hmerge hreceiver.ready hsame hleaf
  refine ⟨secret, between, after, ?_, hstaged, hactive, hafter⟩
  simp [Mls.processManagement, hdecode, MlsMessage.toProtocol, hprocess]

theorem Managed.management :
    ∃ staged actor before, mls.AcceptedManagement (mls.publicGroup producer.group) prepared.action
      prepared.commit actor before staged ∧
        staged.merged = mls.publicGroup prepared.workspace.group := by
  have haccepted := h.accepted
  simp only [PublicMls.applyTransition, PublicMls.applyManagement, bind_eq_ok,
    pure_eq_ok] at haccepted
  obtain ⟨staged, hstaged, hmerged⟩ := haccepted
  obtain ⟨actor, before, hmanagement⟩ := PublicMls.managementCommit_eq_ok.mp hstaged
  exact ⟨staged, actor, before, hmanagement, hmerged⟩

theorem Managed.found (hremoves : prepared.action.removes = true) :
    ∃ target, findTarget prepared.action.target
      (mls.publicGroup producer.group).members none = .ok (some target) := by
  obtain ⟨staged, actor, before, hmanagement, _⟩ := h.management
  have hverified := hmanagement.verified
  rw [if_neg] at hverified
  · obtain ⟨target, _, haction⟩ := hverified
    exact ⟨target, haction.found⟩
  · cases haction : prepared.action <;>
      simp_all [ManagementAction.removes, ManagementAction.changesInvitations]

theorem Managed.readable : ∃ controls,
    invitationControls (mls.publicGroup prepared.workspace.group).extensions = .ok controls := by
  obtain ⟨staged, actor, before, hmanagement, hmerged⟩ := h.management
  rw [← hmerged]
  exact hmanagement.readable

theorem Managed.mem_removals_iff (hreceiver : mls.Sound receiver)
    (hsame : mls.SameEpoch receiver.group producer.group) :
    mls.ownLeafIndex receiver.group ∈ removals ↔ IsTarget receiver prepared.action := by
  have hremovals := h.removals
  cases hremoves : prepared.action.removes with
  | false =>
    rw [hremoves, if_neg (by decide)] at hremovals
    simp [hremovals, IsTarget, hremoves]
  | true =>
    rw [hremoves, if_pos rfl] at hremovals
    obtain ⟨target, rfl, hfind⟩ := hremovals
    have hwell : (mls.publicGroup receiver.group).WellFormed := hreceiver.ready.wellFormed
    obtain ⟨own, hown, hindex, hcredential⟩ := hreceiver.credential
    have htarget : target ∈ (mls.publicGroup receiver.group).members := by
      rw [hsame.publicGroup]
      exact List.mem_of_find?_eq_some hfind
    have hbound : ∃ endpoint,
        binding target.credential = .ok (prepared.action.target, endpoint) :=
      bindsId_iff.mp (List.find?_some hfind)
    rw [List.mem_singleton, ← hindex]
    constructor
    · intro hsameIndex
      obtain rfl := List.inj_on_of_nodup_map hwell.indices hown htarget hsameIndex
      obtain ⟨endpoint, hbinding⟩ := hbound
      rw [hcredential] at hbinding
      obtain ⟨profile, hprofile, hid⟩ := binding_credentialIdentity hbinding
      exact ⟨hremoves, profile, hprofile, (congrArg Prod.fst hid).symm⟩
    · rintro ⟨_, profile, hprofile, hid⟩
      have hmember : own ∈ (mls.publicGroup producer.group).members := hsame.publicGroup ▸ hown
      obtain ⟨bound, hbinding⟩ := h.valid.exists_binding hmember
      have hown' := hbinding
      rw [hcredential, hprofile] at hown'
      obtain ⟨_, hsome, rfl⟩ := binding_credentialIdentity hown'
      obtain rfl := Option.some.inj hsome
      obtain ⟨found, hfound⟩ := h.found hremoves
      obtain ⟨_, _, hunique⟩ := findTarget_none hfound
      obtain ⟨endpoint, htargetBound⟩ := hbound
      rw [hid] at hbinding
      rw [hunique own hmember _ hbinding,
        hunique target (List.mem_of_find?_eq_some hfind) _ htargetBound]

end

/-- A receiver's check of a commit: the state it exports has to fit into an inline history. -/
theorem verifyManagementCommit_eq_ok (laws : mls.Lawful) (sound : mls.Sound receiver)
    {action : ManagementAction} {commit : Bytes} {u : Unit} :
    mls.verifyManagementCommit receiver action commit = .ok u ↔
      (∃ bytes, mls.exportOwnState receiver = .ok bytes ∧ bytes.length ≤ maxBytes - 41) ∧
        ValidCheckpoint (mls.publicGroup receiver.group) ∧
        (∃ staged, mls.managementCommit (mls.publicGroup receiver.group) action commit =
          .ok staged) ∧
        ∃ processed, mls.processManagement receiver.owner commit = .ok processed := by
  have hload : mls.load receiver.provider receiver.id.1 = some (some receiver.group) := by
    have hsaved := sound.ready.saved
    rwa [Workspace.owner, sound.groupId] at hsaved
  simp only [verifyManagementCommit, hload, orFail_some, ok_bind]
  simp only [bind_eq_ok, joinProofOf_eq_ok laws sound, pure_eq_ok]
  constructor
  · rintro ⟨_, ⟨bytes, hbytes, hsize, hvalid, rfl⟩, staged, hstaged, processed, hprocessed, _⟩
    exact ⟨⟨bytes, hbytes, hsize⟩, hvalid, ⟨staged, hstaged⟩, processed, hprocessed⟩
  · rintro ⟨⟨bytes, hbytes, hsize⟩, hvalid, ⟨staged, hstaged⟩, processed, hprocessed⟩
    exact ⟨_, ⟨bytes, hbytes, hsize, hvalid, rfl⟩, staged, hstaged, processed, hprocessed, trivial⟩

/-- The outcome the producer expects at a receiver. -/
def Agrees (mls : Mls Group Signer Staged) (receiver : Workspace Group Signer)
    (prepared : PreparedManagement Group Signer) : ManagementUpdate Group Signer → Prop
  | .active workspace => ¬ IsTarget receiver prepared.action ∧
      mls.SameEpoch workspace.group prepared.workspace.group
  | .removed _ => IsTarget receiver prepared.action

/-- What a receiver makes of the commit once its check has passed. -/
theorem Managed.update_eq_ok (laws : mls.Lawful) (hproducer : mls.Sound producer)
    (hreceiver : mls.Sound receiver) (hsame : mls.SameEpoch receiver.group producer.group)
    (hleaf : mls.ownLeafIndex receiver.group ≠ mls.ownLeafIndex producer.group)
    (h : mls.Managed producer prepared removals) {bytes : Bytes}
    (hbytes : mls.exportOwnState receiver = .ok bytes) (hsize : bytes.length ≤ maxBytes - 41)
    (now : U64) :
    ∃ update, mls.prepareManagementUpdate receiver now prepared.action prepared.commit =
      .ok update ∧ mls.Agrees receiver prepared update := by
  obtain ⟨secret, between, after, hprocess, hstaged, hactive, hafter⟩ :=
    h.processManagement laws hproducer hreceiver hsame hleaf
  have haccepted : mls.applyTransition (mls.publicGroup receiver.group) prepared.commit
      (.management prepared.action) = .ok (mls.publicGroup prepared.workspace.group) := by
    rw [hsame.publicGroup]
    exact h.accepted
  have hvalid := h.valid
  rw [← hsame.publicGroup] at hvalid
  have hverify : mls.verifyManagementCommit receiver prepared.action prepared.commit = .ok () := by
    refine (verifyManagementCommit_eq_ok laws hreceiver).mpr
      ⟨⟨bytes, hbytes, hsize⟩, hvalid, ?_, _, hprocess⟩
    simp only [PublicMls.applyTransition, PublicMls.applyManagement, bind_eq_ok] at haccepted
    obtain ⟨staged, hmanagement, _⟩ := haccepted
    exact ⟨staged, hmanagement⟩
  have hverifier : mls.verifierOf receiver = .ok (mls.publicGroup receiver.group) := by
    refine (verifierOf_eq_ok laws hreceiver).mpr ⟨⟨bytes, hbytes, hsize.trans ?_⟩, hvalid, rfl⟩
    decide
  simp only [prepareManagementUpdate, hverify, hverifier, haccepted, ok_bind,
    hreceiver.provisionalCopy, hprocess, hstaged, orFail_some]
  have htarget := h.mem_removals_iff hreceiver hsame
  cases hlive : mls.isActive after.group with
  | false =>
    have hremoved : IsTarget receiver prepared.action := by
      rw [← htarget]
      by_contra hkept
      rw [hactive.mpr hkept] at hlive
      cases hlive
    obtain ⟨hremoves, profile, hprofile, hid⟩ := hremoved
    have hrecord : mls.removedBy receiver prepared.action
        (mls.publicGroup prepared.workspace.group).context.epoch prepared.commit =
          .ok ⟨receiver.id, receiver.endpoint, profile,
            (mls.publicGroup prepared.workspace.group).context.epoch,
            mls.sha256 prepared.commit, false⟩ := by
      simp [removedBy, hprofile, hremoves, hid]
    rw [hrecord]
    exact ⟨_, rfl, hremoves, profile, hprofile, hid⟩
  | true =>
    have hkept : ¬ IsTarget receiver prepared.action := by
      rw [← htarget]
      exact hactive.mp hlive
    have hepoch := hafter hlive
    obtain ⟨history, hhistory⟩ : ∃ history, mls.appendHistory receiver
        (.management prepared.action) prepared.commit = .ok history := by
      cases hjoin : receiver.joinHistory with
      | some base =>
        exact ⟨_, (appendHistory_eq_ok laws hreceiver).mpr ⟨base, rfl, .inl hjoin⟩⟩
      | none =>
        exact ⟨_, (appendHistory_eq_ok laws hreceiver).mpr
          ⟨⟨bytes, []⟩, rfl, .inr ⟨hjoin, rfl, hbytes, hsize, hvalid⟩⟩⟩
    obtain ⟨controls, hcontrols⟩ := h.readable
    rw [← hepoch.publicGroup] at hcontrols
    obtain ⟨kept, hpruned⟩ := pruneInvitationCheckpoints_of_readable { receiver with
      provider := after.provider, group := after.group, joinHistory := some history } now hcontrols
    rw [hhistory, ok_bind, hpruned, ok_bind, failIf_of_not]
    · exact ⟨_, rfl, hkept, hepoch⟩
    · exact matchesWorkspace_iff.mpr hepoch.publicGroup.symm

end Mls

/-- A member in the same epoch takes over what an administrator (or the one who commits a leave)
has prepared, as that action means it, exactly when the state the member exports is small
enough for an inline history; the one who prepared it does not have that limit. Every reachable
workspace is sound. -/
theorem management_accepted_iff {Group Signer Staged : Type} {mls : Mls Group Signer Staged}
    (laws : mls.Lawful) {producer receiver : Workspace Group Signer}
    (hproducer : mls.Sound producer) (hreceiver : mls.Sound receiver)
    (hsame : mls.SameEpoch receiver.group producer.group)
    (hleaf : mls.ownLeafIndex receiver.group ≠ mls.ownLeafIndex producer.group)
    {random : Bytes} {now : U64} {action : ManagementAction}
    {prepared : PreparedManagement Group Signer}
    (hprepared : mls.prepareManagement producer random now action = .ok prepared) (later : U64) :
    (∃ update, mls.prepareManagementUpdate receiver later action prepared.commit = .ok update ∧
        mls.Agrees receiver prepared update) ↔
      ∃ bytes, mls.exportOwnState receiver = .ok bytes ∧ bytes.length ≤ maxBytes - 41 := by
  obtain ⟨rfl, removals, hmanaged⟩ := Mls.prepareManagement_eq_ok laws hproducer hprepared
  constructor
  · rintro ⟨update, hupdate, _⟩
    simp only [Mls.prepareManagementUpdate, bind_eq_ok] at hupdate
    obtain ⟨_, hverify, _⟩ := hupdate
    exact ((Mls.verifyManagementCommit_eq_ok laws hreceiver).mp hverify).1
  · rintro ⟨bytes, hbytes, hsize⟩
    exact hmanaged.update_eq_ok laws hproducer hreceiver hsame hleaf hbytes hsize later

namespace Sample

theorem leader_reachable :
    ∀ script ∈ [pair, crowded], script.mls.Reachable (leader script) := by
  have hcreated : ∀ script ∈ [pair, crowded], script.mls.create
      ⟨some (block 1), some workspaceId, (block 1).1, []⟩ (block 11) "Alex" = .ok owner := by
    decide
  have hadmitted : ∀ script ∈ [pair, crowded], script.mls.prepareAdmissionBatch owner [] 0
      [arrival 2 2 12, arrival 3 3 13] = .ok ⟨leader script, Script.commit 0, Script.welcome 0,
        (leader script).admissions.map (·.reply)⟩ := by
    decide
  have hgenuine : ∀ script ∈ [pair, crowded], ∀ one ∈ [arrival 2 2 12, arrival 3 3 13],
      script.mls.decodeRequest 0 one.bytes true =
        .ok { one.request with endpoint := zeroBlock 32 } ∧
      one.request = { one.request with endpoint := one.remoteEndpoint } := by
    decide +kernel
  intro script hscript
  refine ⟨owner, _, .created (hcreated script hscript),
    .cons (.moved (.admitted (fun one hone => ?_) (hadmitted script hscript))) (.nil _)⟩
  obtain ⟨hdecoded, hrequest⟩ := hgenuine script hscript one hone
  exact ⟨0, _, hdecoded, hrequest⟩

theorem joiner_proves :
    ∀ script ∈ [pair, crowded], script.mls.Proves (joiner script) (admissionProof script) := by
  have hfounding : ∀ script ∈ [pair, crowded], script.mls.joinProofFrom (joiner script).workspace
      (joiner script).checkpointDigest (script.infoBytes 0 0) = .ok (foundingProof script) := by
    decide
  have hextended : ∀ script ∈ [pair, crowded],
      [batchStep].foldlM script.mls.extendProof (foundingProof script) =
        .ok (admissionProof script) := by
    decide +kernel
  intro script hscript
  exact ⟨_, _, _, hfounding script hscript, hextended script hscript⟩

theorem follower_reachable :
    ∀ script ∈ [pair, crowded], script.mls.Reachable (follower script) := by
  have hpending : ∀ script ∈ [pair, crowded], script.mls.newPendingJoin
      ⟨some (block 2), none, (block 2).1, []⟩ workspaceId (Script.digest (script.infoBytes 0 0))
        (block 12) "Blair" = .ok (joiner script) := by
    decide
  have hjoined : ∀ script ∈ [pair, crowded], script.mls.prepareWorkspace (joiner script)
      (admissionProof script) (Script.welcome 0) = .ok (follower script) := by
    decide +kernel
  intro script hscript
  have hstarted : script.mls.Started (follower script) :=
    .joined (hpending script hscript) rfl (joiner_proves script hscript) (hjoined script hscript)
  exact ⟨follower script, [], hstarted, .nil _⟩

theorem exportOwnState_script (script : Script) (workspace : Workspace ScriptGroup Bytes) :
    script.mls.exportOwnState workspace =
      .ok (script.infoBytes workspace.group.epoch workspace.group.leaf) := by
  simp [Mls.exportOwnState, Script.hashing, Script.info]

theorem length_infoBytes (script : Script) (i leaf : UInt8) :
    (script.infoBytes i leaf).length = script.padding.getD i.toNat 0 + 3 := by
  simp [Script.infoBytes]

theorem state_valid : ValidCheckpoint (crowded.state 1) :=
  ⟨⟨[(block 1).1], by decide⟩, by decide⟩

theorem crowded_verifier : crowded.mls.verifierOf (leader crowded) = .ok (crowded.state 1) := by
  have sound := (leader_reachable crowded (by simp)).sound Script.lawful
  refine (Mls.verifierOf_eq_ok Script.lawful sound).mpr
    ⟨⟨_, exportOwnState_script _ _, ?_⟩, state_valid, rfl⟩
  rw [length_infoBytes]
  decide

theorem leader_merges : crowded.mls.mergeOwnCommit (leader crowded) (leader crowded)
    ⟨(leader crowded).provider, ⟨1, true, 0⟩⟩ registration (Script.commit 1)
      "invitation control merge failed" = .ok (crowded.state 2, registrar crowded) := by
  have haccepted : crowded.mls.applyTransition (crowded.state 1) (Script.commit 1)
      (.management registration) = .ok (crowded.state 2) := by
    decide
  have hmerged : crowded.mls.mergePendingCommit ⟨(leader crowded).provider, ⟨1, true, 0⟩⟩ =
      some (registrar crowded).owner := by
    decide
  have hhistory : crowded.mls.appendHistory (leader crowded) (.management registration)
      (Script.commit 1) = .ok ⟨crowded.infoBytes 0 0,
        [batchStep, (.management registration, Script.commit 1)]⟩ := by
    decide
  rw [Mls.mergeOwnCommit, crowded_verifier, ok_bind, haccepted, ok_bind, hmerged, orFail_some,
    ok_bind, hhistory, ok_bind]
  rfl

theorem leader_registers :
    crowded.mls.prepareManagement (leader crowded) [] 0 registration =
      .ok ⟨registrar crowded, registration, Script.commit 1⟩ := by
  have hadmins : Security.authority (crowded.mls.extensions (leader crowded)) =
      .ok [(block 1).1] := by
    decide
  have hchanged : crowded.mls.changed (crowded.mls.extensions (leader crowded)) registration =
      .ok (crowded.state 2).extensions := by
    decide
  have hbuilt : crowded.mls.buildOwnCommit invitationTexts [] (leader crowded).owner
      (leader crowded).signer [] (some (crowded.state 2).extensions) =
        .ok (Script.commit 1, ⟨(leader crowded).provider, ⟨1, true, 0⟩⟩) := by
    decide
  have hpruned : crowded.mls.pruneInvitationCheckpoints 0 (registrar crowded) =
      .ok (registrar crowded) := by
    decide +kernel
  have sound := (leader_reachable crowded (by simp)).sound Script.lawful
  have hprepared : crowded.mls.prepareInvitationAction (leader crowded) [] 0 registration =
      .ok ⟨registrar crowded, registration, Script.commit 1⟩ := by
    rw [Mls.prepareInvitationAction, hchanged, ok_bind, sound.provisionalCopy, ok_bind, hbuilt,
      ok_bind]
    dsimp only
    rw [leader_merges, ok_bind]
    dsimp only
    rw [hpruned, ok_bind, failIf_of_not (by decide), ok_bind]
    rfl
  have hinvites : registration.changesInvitations = true := rfl
  rw [Mls.prepareManagement, hadmins, ok_bind, failIf_of_not (by decide), ok_bind,
    if_pos hinvites, hprepared]

theorem follower_refuses :
    crowded.mls.prepareManagementUpdate (follower crowded) 0 registration (Script.commit 1) =
      .error "checkpoint exceeds inline history bounds" := by
  have hproof : crowded.mls.joinProofOf (follower crowded) =
      .error "checkpoint exceeds inline history bounds" := by
    rw [Mls.joinProofOf, exportOwnState_script, ok_bind, PublicMls.joinProofFrom, length_infoBytes]
    rw [failIf_of (by decide)]
    rfl
  rw [Mls.prepareManagementUpdate, Mls.verifyManagementCommit, hproof]
  rfl

end Sample

open Sample

/-- A management commit that its author has prepared and another member of the epoch refuses. -/
theorem management_refused :
    ∃ (script : Script) (producer receiver : Workspace ScriptGroup Bytes)
      (prepared : PreparedManagement ScriptGroup Bytes),
      script.mls.Lawful ∧ script.mls.Reachable producer ∧ script.mls.Reachable receiver ∧
        script.mls.SameEpoch receiver.group producer.group ∧
        script.mls.ownLeafIndex receiver.group ≠ script.mls.ownLeafIndex producer.group ∧
        script.mls.prepareManagement producer [] 0 registration = .ok prepared ∧
        script.mls.prepareManagementUpdate receiver 0 registration prepared.commit =
          .error "checkpoint exceeds inline history bounds" := by
  refine ⟨crowded, leader crowded, follower crowded, _,
    Script.lawful, leader_reachable _ (by simp), follower_reachable _ (by simp),
    ⟨rfl, rfl⟩, ?_, leader_registers, follower_refuses⟩
  decide

/-- In the smaller group the other joiner follows the registration. -/
theorem management_accepted_pair :
    ∃ update, pair.mls.prepareManagementUpdate (follower pair) 0
      registration (Script.commit 1) = .ok update ∧
        pair.mls.Agrees (follower pair)
          ⟨registrar pair, registration, Script.commit 1⟩ update := by
  have hprepared : pair.mls.prepareManagement (leader pair) [] 0
      registration =
        .ok ⟨registrar pair, registration, Script.commit 1⟩ := by
    decide
  refine (management_accepted_iff Script.lawful
    ((leader_reachable _ (by simp)).sound Script.lawful)
    ((follower_reachable _ (by simp)).sound Script.lawful) ⟨rfl, rfl⟩
      (by decide) hprepared 0).mpr ?_
  exact ⟨_, exportOwnState_script _ _, by decide⟩

end Arachne.Security
