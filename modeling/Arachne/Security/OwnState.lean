import Arachne.Security.HistoryCodec
import Arachne.Security.Roster

/-! A workspace's own exported state: it is the checkpoint of its public group, accepted again
up to the limit on its size. -/

namespace Arachne.Security

open Fallible ByteCodec

/-- The conditions on a group itself that a checkpoint of it is checked for. -/
structure ValidCheckpoint (group : PublicGroup) : Prop where
  authority : ∃ admins, authority group.extensions = .ok admins ∧
    ∀ key ∈ admins, ∃ member ∈ group.members, member.signatureKey = key
  roster : checkRoster group.members [] [] = .ok ()

theorem ValidCheckpoint.exists_binding {group : PublicGroup} (h : ValidCheckpoint group)
    {member : Member} (hmember : member ∈ group.members) :
    ∃ bound, binding member.credential = .ok bound := by
  obtain ⟨bindings, hbindings, _⟩ := checkRoster_iff_distinctRoster.mp h.roster
  obtain ⟨bound, _, hbound⟩ := exists_of_mem_left (mapM_eq_ok.mp hbindings) hmember
  exact ⟨bound, hbound⟩

namespace Mls

variable {Group Signer Staged : Type} {mls : Mls Group Signer Staged}
  {workspace : Workspace Group Signer} {bytes : Bytes} {group : PublicGroup}

/-- A GroupInfo of the workspace's group, in its encoding. -/
structure Checkpoint (mls : Mls Group Signer Staged) (workspace : Workspace Group Signer)
    (extensions : List Extension) (bytes : Bytes) (info : GroupInfo) : Prop where
  exports : mls.Exports workspace.group extensions info
  decoded : mls.decodeMessage bytes = some (.groupInfo info)

theorem exportOwnState_eq_ok (laws : mls.Lawful) (sound : mls.Sound workspace)
    (h : mls.exportOwnState workspace = .ok bytes) :
    ∃ info, mls.Checkpoint workspace [] bytes info := by
  simp only [exportOwnState, bind_eq_ok, orFail_eq_ok] at h
  obtain ⟨info, hinfo, hbytes⟩ := h
  have hexports : mls.Exports workspace.group [] info := laws.exportGroupInfo sound.ready hinfo
  exact ⟨info, hexports, hexports.decoded bytes hbytes⟩

theorem Checkpoint.fromCheckpointWithin_iff {extensions : List Extension} {info : GroupInfo}
    (h : mls.Checkpoint workspace extensions bytes info) (sound : mls.Sound workspace)
    {limit : Nat} :
    mls.fromCheckpointWithin workspace.id (mls.sha256 bytes) bytes limit = .ok group ↔
      bytes.length ≤ limit ∧ ValidCheckpoint (mls.publicGroup workspace.group) ∧
        group = mls.publicGroup workspace.group := by
  rw [PublicMls.fromCheckpointWithin_eq_ok]
  constructor
  · rintro ⟨info', tree, admins, hcheckpoint⟩
    have hinfo := hcheckpoint.decoded
    rw [h.decoded] at hinfo
    obtain rfl := MlsMessage.groupInfo.inj (Option.some.inj hinfo)
    obtain rfl := Option.some.inj (h.exports.ratchetTree.symm.trans hcheckpoint.ratchetTree)
    obtain rfl := Option.some.inj (h.exports.accepted.symm.trans hcheckpoint.accepted)
    exact ⟨hcheckpoint.size, ⟨⟨admins, hcheckpoint.authority, hcheckpoint.administrators⟩,
      hcheckpoint.roster⟩, rfl⟩
  · rintro ⟨hsize, ⟨⟨admins, hadmins, hmembers⟩, hroster⟩, rfl⟩
    refine ⟨info, _, admins, hsize, rfl, h.decoded, ?_, h.exports.ratchetTree, h.exports.accepted,
      hadmins, hroster, hmembers⟩
    rw [h.exports.context]
    exact ⟨sound.groupId, sound.ciphersuite⟩

theorem verifierOf_eq_ok (laws : mls.Lawful) (sound : mls.Sound workspace) :
    mls.verifierOf workspace = .ok group ↔ (∃ bytes, mls.exportOwnState workspace = .ok bytes ∧
        bytes.length ≤ maxLocalStateBytes) ∧
      ValidCheckpoint (mls.publicGroup workspace.group) ∧
        group = mls.publicGroup workspace.group := by
  simp only [verifierOf, bind_eq_ok]
  constructor
  · rintro ⟨bytes, hbytes, h⟩
    obtain ⟨info, hcheckpoint⟩ := exportOwnState_eq_ok laws sound hbytes
    obtain ⟨hsize, hrest⟩ := (hcheckpoint.fromCheckpointWithin_iff sound).mp h
    exact ⟨⟨bytes, hbytes, hsize⟩, hrest⟩
  · rintro ⟨⟨bytes, hbytes, hsize⟩, hrest⟩
    obtain ⟨info, hcheckpoint⟩ := exportOwnState_eq_ok laws sound hbytes
    exact ⟨bytes, hbytes, (hcheckpoint.fromCheckpointWithin_iff sound).mpr ⟨hsize, hrest⟩⟩

theorem joinProofOf_eq_ok (laws : mls.Lawful) (sound : mls.Sound workspace) {proof : JoinProof} :
    mls.joinProofOf workspace = .ok proof ↔ ∃ bytes, mls.exportOwnState workspace = .ok bytes ∧
      bytes.length ≤ maxBytes - 41 ∧ ValidCheckpoint (mls.publicGroup workspace.group) ∧
        proof = ⟨mls.sha256 bytes, mls.publicGroup workspace.group, NameState.unnamed,
          inlineBytes false (mls.sha256 bytes) bytes [], 0⟩ := by
  simp only [joinProofOf, bind_eq_ok]
  refine exists_congr fun bytes => and_congr_right fun hbytes => ?_
  obtain ⟨info, hcheckpoint⟩ := exportOwnState_eq_ok laws sound hbytes
  have hname : info.nameCheckpoint = .ok NameState.unnamed := by
    rw [GroupInfo.nameCheckpoint, hcheckpoint.exports.name]
    rfl
  have hhistory : inlineBytes false (mls.sha256 bytes) bytes [] =
      historyVersion 1 ++ (mls.sha256 bytes).1 ++ beBytes 4 bytes.length ++ bytes :=
    List.append_nil _
  rw [hhistory]
  simp only [PublicMls.joinProofFrom, bind_eq_ok, failIf_eq_ok, not_lt, hcheckpoint.decoded,
    orFail_some, PublicMls.fromTrustedCheckpoint, hcheckpoint.fromCheckpointWithin_iff sound,
    ok_bind, hname, pure_eq_ok]
  constructor
  · rintro ⟨_, hsize, _, ⟨_, hvalid, rfl⟩, rfl⟩
    exact ⟨hsize, hvalid, rfl⟩
  · rintro ⟨hsize, hvalid, rfl⟩
    exact ⟨(), hsize, _, ⟨le_trans hsize (Nat.sub_le _ _), hvalid, rfl⟩, rfl⟩

theorem maxInline_le {bytes : Bytes} (h : bytes.length ≤ maxBytes - 41) :
    bytes.length < 256 ^ 4 ∧ bytes.length + 41 ≤ maxHistoryBytes := by
  simp only [maxBytes, maxHistoryBytes] at h ⊢
  omega

theorem historyFromInline_start (h : bytes.length ≤ maxBytes - 41) :
    mls.historyFromInline (inlineBytes false (mls.sha256 bytes) bytes []) = .ok ⟨bytes, []⟩ := by
  obtain ⟨hlength, hsize⟩ := maxInline_le h
  have hinline : (inlineBytes false (mls.sha256 bytes) bytes []).length = 41 + bytes.length := by
    simp only [inlineBytes, List.flatMap_nil, List.append_nil, List.length_append, beBytes_length,
      (mls.sha256 bytes).2]
    rfl
  rw [PublicMls.historyFromInline, parseHistory_inlineBytes (by simp) (Nat.zero_le _) hlength
    (by rw [hinline]; omega)]
  simp

/-- Accepted transitions go to the end of the history, which starts with the first of them. -/
theorem appendHistory_eq_ok (laws : mls.Lawful) (sound : mls.Sound workspace)
    {authorization : MembershipAuthorization} {commit : Bytes} {history : MembershipHistory} :
    mls.appendHistory workspace authorization commit = .ok history ↔
      ∃ base, history = { base with steps := base.steps ++ [(authorization, commit)] } ∧
        (workspace.joinHistory = some base ∨
          workspace.joinHistory = none ∧ base.steps = [] ∧
            mls.exportOwnState workspace = .ok base.checkpoint ∧
              base.checkpoint.length ≤ maxBytes - 41 ∧
                ValidCheckpoint (mls.publicGroup workspace.group)) := by
  rw [appendHistory]
  cases hhistory : workspace.joinHistory with
  | some base =>
    simp only [bind_eq_ok, pure_eq_ok]
    constructor
    · rintro ⟨_, rfl, rfl⟩
      exact ⟨base, rfl, .inl rfl⟩
    · rintro ⟨_, rfl, hbase | ⟨hbase, _⟩⟩
      · exact ⟨_, Option.some.inj hbase, rfl⟩
      · cases hbase
  | none =>
    simp only [bind_eq_ok, pure_eq_ok, joinProofOf_eq_ok laws sound]
    constructor
    · rintro ⟨_, ⟨bytes, hbytes, hsize, hvalid, rfl⟩, _, hbase, rfl⟩
      rw [historyFromInline_start hsize] at hbase
      obtain rfl := Except.ok.inj hbase
      exact ⟨_, rfl, .inr ⟨trivial, rfl, hbytes, hsize, hvalid⟩⟩
    · rintro ⟨⟨checkpoint, steps⟩, rfl, hbase | ⟨_, hsteps, hbytes, hsize, hvalid⟩⟩
      · cases hbase
      · obtain rfl : steps = [] := hsteps
        exact ⟨_, ⟨checkpoint, hbytes, hsize, hvalid, rfl⟩, _, historyFromInline_start hsize,
          rfl⟩

end Mls

end Arachne.Security
