import Arachne.Security.ManagementUpdate
import Arachne.Security.OwnState

/-! What a prepared management commit is: a commit of the owner's that the verifier accepts on
the owner's own group, and the record of it. -/

namespace Arachne.Security

open Fallible ByteCodec

namespace Mls

variable {Group Signer Staged : Type} {mls : Mls Group Signer Staged}
  {workspace : Workspace Group Signer} {action : ManagementAction}

structure Managed (mls : Mls Group Signer Staged) (workspace : Workspace Group Signer)
    (prepared : PreparedManagement Group Signer) (removals : List Nat) : Prop where
  valid : ValidCheckpoint (mls.publicGroup workspace.group)
  built : ∃ random extensions pending,
    mls.buildCommit random workspace.owner workspace.signer removals extensions =
      .ok (some prepared.commit, pending) ∧
        mls.mergePendingCommit pending = some prepared.workspace.owner
  removals : if prepared.action.removes then ∃ target, removals = [target.index] ∧
      (mls.members workspace).find? (bindsId prepared.action.target) = some target
    else removals = []
  accepted : mls.applyTransition (mls.publicGroup workspace.group) prepared.commit
    (.management prepared.action) = .ok (mls.publicGroup prepared.workspace.group)
  history : ∃ history, prepared.workspace.joinHistory = some history ∧
    mls.appendHistory workspace (.management prepared.action) prepared.commit = .ok history
  checkpoints : prepared.workspace.invitationCheckpoints.Sublist workspace.invitationCheckpoints
  rest : prepared.workspace = { workspace with
    provider := prepared.workspace.provider, group := prepared.workspace.group,
    joinHistory := prepared.workspace.joinHistory,
    invitationCheckpoints := prepared.workspace.invitationCheckpoints }

variable {random commit : Bytes} {pending : Owner Group} {now : U64} {proof : PublicGroup}

theorem buildOwnCommit_eq_ok {texts : CommitTexts} {owner : Owner Group} {signer : Signer}
    {removals : List Nat} {extensions : Option (List Extension)} :
    mls.buildOwnCommit texts random owner signer removals extensions = .ok (commit, pending) ↔
      mls.buildCommit random owner signer removals extensions = .ok (some commit, pending) := by
  rw [buildOwnCommit]
  cases mls.buildCommit random owner signer removals extensions with
  | error failure => simp
  | ok built =>
    obtain ⟨commit', pending'⟩ := built
    simp only [bind_eq_ok, orFail_eq_ok, pure_eq_ok, Prod.mk.injEq, Except.ok.injEq]
    constructor
    · rintro ⟨_, rfl, rfl, rfl⟩
      exact ⟨rfl, rfl⟩
    · rintro ⟨rfl, rfl⟩
      exact ⟨commit, rfl, rfl, rfl⟩

theorem pruneInvitationCheckpoints_eq_ok {pruned : Workspace Group Signer}
    (h : mls.pruneInvitationCheckpoints now workspace = .ok pruned) :
    ∃ kept, kept.Sublist workspace.invitationCheckpoints ∧
      pruned = { workspace with invitationCheckpoints := kept } := by
  simp only [pruneInvitationCheckpoints, bind_eq_ok, pure_eq_ok] at h
  obtain ⟨controls, _, rfl⟩ := h
  exact ⟨_, List.filter_sublist, rfl⟩

theorem pruneInvitationCheckpoints_of_readable (candidate : Workspace Group Signer) (now : U64)
    {controls : Bool × List InvitationControl}
    (h : invitationControls (mls.extensions candidate) = .ok controls) :
    ∃ kept, mls.pruneInvitationCheckpoints now candidate =
      .ok { candidate with invitationCheckpoints := kept } := by
  rw [pruneInvitationCheckpoints, h]
  exact ⟨_, rfl⟩

theorem matchesWorkspace_iff : ¬ (!mls.matchesWorkspace proof workspace) = true ↔
      proof = mls.publicGroup workspace.group := by
  simp [matchesWorkspace]

theorem mergeOwnCommit_eq_ok (laws : mls.Lawful) (sound : mls.Sound workspace) {message : String}
    {candidate : Workspace Group Signer}
    (h : mls.mergeOwnCommit workspace workspace pending action commit message =
      .ok (proof, candidate)) :
    ValidCheckpoint (mls.publicGroup workspace.group) ∧
      mls.applyTransition (mls.publicGroup workspace.group) commit (.management action) =
        .ok proof ∧
      ∃ owner history, mls.mergePendingCommit pending = some owner ∧
        mls.appendHistory workspace (.management action) commit = .ok history ∧
        candidate = { workspace with
          provider := owner.provider, group := owner.group, joinHistory := some history } := by
  simp only [mergeOwnCommit, bind_eq_ok, orFail_eq_ok, pure_eq_ok, Prod.mk.injEq] at h
  obtain ⟨verifier, hverifier, _, hproof, owner, howner, history, hhistory, rfl, rfl⟩ := h
  obtain ⟨_, hvalid, rfl⟩ := (verifierOf_eq_ok laws sound).mp hverifier
  exact ⟨hvalid, hproof, owner, history, howner, hhistory, rfl⟩

theorem prepareManagement_eq_ok (laws : mls.Lawful) (sound : mls.Sound workspace)
    {prepared : PreparedManagement Group Signer}
    (h : mls.prepareManagement workspace random now action = .ok prepared) :
    prepared.action = action ∧ ∃ removals, mls.Managed workspace prepared removals := by
  simp only [prepareManagement, bind_eq_ok] at h
  obtain ⟨admins, _, _, _, h⟩ := h
  split at h
  · rename_i hinvitations
    simp only [prepareInvitationAction, bind_eq_ok, sound.provisionalCopy, failIf_eq_ok,
      pure_eq_ok] at h
    obtain ⟨extensions, _, _, hcopy, ⟨commit, pending⟩, hbuilt, ⟨proof, candidate⟩, hmerge, pruned,
      hpruned, _, hmatch, rfl⟩ := h
    obtain rfl := Except.ok.inj hcopy
    obtain ⟨hvalid, hproof, owner, history, howner, hhistory, rfl⟩ :=
      mergeOwnCommit_eq_ok laws sound hmerge
    obtain ⟨kept, hsub, rfl⟩ := pruneInvitationCheckpoints_eq_ok hpruned
    obtain rfl : proof = mls.publicGroup owner.group := matchesWorkspace_iff.mp hmatch
    have hnone : action.removes = false := by
      cases action <;> simp_all [ManagementAction.changesInvitations, ManagementAction.removes]
    refine ⟨rfl, [], hvalid, ⟨random, _, pending, buildOwnCommit_eq_ok.mp hbuilt, howner⟩, ?_,
      hproof, ⟨history, rfl, hhistory⟩, hsub, rfl⟩
    simp [hnone]
  · rename_i hmember
    simp only [prepareMemberAction, bind_eq_ok, sound.provisionalCopy, failIf_eq_ok,
      pure_eq_ok, orFail_eq_ok] at h
    obtain ⟨target, htarget, _, _, _, _, expected, _, _, _, _, hcopy, extensions, _,
      ⟨commit, pending⟩, hbuilt, ⟨proof, candidate⟩, hmerge, _, hmatch, rfl⟩ := h
    obtain rfl := Except.ok.inj hcopy
    obtain ⟨hvalid, hproof, owner, history, howner, hhistory, rfl⟩ :=
      mergeOwnCommit_eq_ok laws sound hmerge
    obtain rfl : proof = mls.publicGroup owner.group := matchesWorkspace_iff.mp hmatch
    refine ⟨rfl, _, hvalid, ⟨random, _, pending, buildOwnCommit_eq_ok.mp hbuilt, howner⟩, ?_,
      hproof, ⟨history, rfl, hhistory⟩, .refl _, rfl⟩
    cases action.removes with
    | true => exact ⟨target, rfl, htarget⟩
    | false => rfl

end Mls

end Arachne.Security
