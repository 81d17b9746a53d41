import Arachne.Security.NameRuns

/-! The life of a workspace: membership changes, objects sent and changes of the name, in any
order. The group is not touched by the name, nor the name by the group. -/

namespace Arachne.Security

open Fallible ByteCodec Transition OrderedMap

variable {provider provider' : Provider} {missing : U64}

namespace Mls

variable {Group Signer Staged : Type} {mls : Mls Group Signer Staged}
  {workspace after : Workspace Group Signer} {record : Bytes} {previous next : NameState}

/-- The documented behaviour of OpenMLS that the name chain rests on besides `Lawful`: signatures
have 64 bytes, and the exports of one public group by its members are of one size. -/
structure NameLaws (mls : Mls Group Signer Staged) : Prop where
  signature {signer : Signer} {message signature : Bytes} :
    mls.sign signer message = some signature → signature.length = 64
  exported {owner other : Owner Group} {signer signer' : Signer} {info : GroupInfo}
      {bytes : Bytes} :
    mls.Ready owner signer → mls.Ready other signer' →
      mls.publicGroup owner.group = mls.publicGroup other.group →
        mls.exportGroupInfo owner.group signer [] = some info →
          mls.encodeGroupInfo info = some bytes →
            ∃ info' bytes', mls.exportGroupInfo other.group signer' [] = some info' ∧
              mls.encodeGroupInfo info' = some bytes' ∧ bytes'.length = bytes.length

theorem readsAlike_insert (laws : mls.Lawful) {name value : Bytes}
    (hname : isApplicationRecord name) (h : mls.ReadsAlike provider provider') :
    mls.ReadsAlike provider (provider'.insert name value) := by
  have hinsert : mls.ReadsAlike provider' (provider'.insert name value) := laws.records hname
  exact ⟨hinsert.1.trans h.1, hinsert.2.trans h.2⟩

/-- An entry that is put back is one that was written. -/
theorem readsAlike_erase (laws : mls.Lawful) {name : Bytes} (hname : isApplicationRecord name) :
    mls.ReadsAlike provider (provider.erase name) := by
  cases hfind : provider.find? name with
  | none =>
    rw [erase_eq_self hfind]
    exact ⟨rfl, rfl⟩
  | some value =>
    have hwritten : mls.ReadsAlike (provider.erase name) provider := by
      have hinsert : mls.ReadsAlike (provider.erase name)
          ((provider.erase name).insert name value) := laws.records hname
      rwa [insert_erase hfind] at hinsert
    exact ⟨hwritten.1.symm, hwritten.2.symm⟩

theorem readsAlike_recordName (laws : mls.Lawful) (provider : Provider) :
    mls.ReadsAlike provider (recordName provider previous next record) := by
  have hinsert : mls.ReadsAlike provider ((provider.insert nameRecord next.encode).insert
      (nameStepRecord previous.head) record) :=
    readsAlike_insert laws ⟨_, rfl⟩ (readsAlike_insert laws ⟨_, rfl⟩ ⟨rfl, rfl⟩)
  have herase : mls.ReadsAlike ((provider.insert nameRecord next.encode).insert
      (nameStepRecord previous.head) record) (recordName provider previous next record) :=
    readsAlike_erase laws ⟨_, rfl⟩
  exact ⟨herase.1.trans hinsert.1, herase.2.trans hinsert.2⟩

theorem readsAlike_recordNameCheckpoint (laws : mls.Lawful) (provider : Provider)
    {state : NameState} {bytes : Bytes} :
    mls.ReadsAlike provider (recordNameCheckpoint provider state bytes missing) :=
  readsAlike_insert laws ⟨_, rfl⟩
    (readsAlike_insert laws ⟨_, rfl⟩ (readsAlike_insert laws ⟨_, rfl⟩ ⟨rfl, rfl⟩))

theorem Sound.nameUpdate_iff (sound : mls.Sound workspace) :
    mls.prepareWorkspaceNameUpdate workspace record = .ok after ↔ ∃ previous next history,
      mls.nameChange workspace record = .ok (previous, next) ∧
      mls.startedHistory workspace = .ok history ∧
      after = { workspace with
        provider := recordName workspace.provider previous next record
        joinHistory := some history } := by
  simp only [prepareWorkspaceNameUpdate, bind_eq_ok, sound.provisionalCopy, pure_eq_ok]
  constructor
  · rintro ⟨⟨previous, next⟩, hchange, _, hcopy, history, hhistory, rfl⟩
    obtain rfl := Except.ok.inj hcopy
    exact ⟨previous, next, history, hchange, hhistory, rfl⟩
  · rintro ⟨previous, next, history, hchange, hhistory, rfl⟩
    exact ⟨⟨previous, next⟩, hchange, _, rfl, history, hhistory, rfl⟩

/-- A change of the name only: other entries of the storage, and a history where there was
none. -/
structure Renames (mls : Mls Group Signer Staged) (workspace after : Workspace Group Signer) :
    Prop where
  rest : after = { workspace with provider := after.provider, joinHistory := after.joinHistory }
  reads : mls.ReadsAlike workspace.provider after.provider
  history : after.joinHistory = workspace.joinHistory ∨
    ∃ history, mls.startedHistory workspace = .ok history ∧ after.joinHistory = some history

theorem Renames.sound (h : mls.Renames workspace after) (sound : mls.Sound workspace) :
    mls.Sound after := by
  rw [h.rest]
  exact ⟨sound.ready.of_readsAlike h.reads, sound.groupId, sound.ciphersuite, sound.credential⟩

theorem Renames.joinHistory_ne_none (h : mls.Renames workspace after)
    (hsome : workspace.joinHistory ≠ none) : after.joinHistory ≠ none := by
  rcases h.history with hsame | ⟨history, _, hstarted⟩
  · rwa [hsame]
  · rw [hstarted]
    exact Option.some_ne_none _

/-- An administrator without a history has made all its commits itself, one admission each; the
authority is still the one it created the workspace with. -/
def Alone (mls : Mls Group Signer Staged) (workspace : Workspace Group Signer) : Prop :=
  workspace.joinHistory = none → ∀ admins, authority (mls.extensions workspace) = .ok admins →
    admins = [mls.signerPublic workspace.signer]

theorem Renames.alone (h : mls.Renames workspace after) (halone : mls.Alone workspace) :
    mls.Alone after := by
  intro hnone
  have hbefore : workspace.joinHistory = none := by
    by_contra hsome
    exact h.joinHistory_ne_none hsome hnone
  rw [h.rest]
  exact halone hbefore

theorem Sound.update_renames (laws : mls.Lawful) (sound : mls.Sound workspace)
    (h : mls.prepareWorkspaceNameUpdate workspace record = .ok after) :
    mls.Renames workspace after := by
  obtain ⟨previous, next, history, _, hhistory, rfl⟩ := sound.nameUpdate_iff.mp h
  exact ⟨rfl, readsAlike_recordName laws _, .inr ⟨history, hhistory, rfl⟩⟩

/-- An accepted call changes nothing but the name. -/
theorem Sound.call_renames (laws : mls.Lawful) (sound : mls.Sound workspace) {call : NameCall}
    (h : mls.nameCall workspace call = .ok after) : mls.Renames workspace after := by
  cases call with
  | prepare name =>
    simp only [nameCall, bind_eq_ok, pure_eq_ok] at h
    obtain ⟨prepared, hprepared, rfl⟩ := h
    obtain ⟨_, candidate, checkpoint, hcandidate, hworkspace⟩ :=
      prepareWorkspaceName_eq_ok hprepared
    obtain ⟨hrest, hreads, hhistory⟩ := sound.update_renames laws hcandidate
    have hrecord : isApplicationRecord nameCheckpointRecord := ⟨_, rfl⟩
    rw [hworkspace]
    refine ⟨?_, readsAlike_insert laws hrecord hreads, hhistory⟩
    rw [hrest]
  | update record => exact sound.update_renames laws h
  | checkpoint bytes =>
    simp only [nameCall, bind_eq_ok, pure_eq_ok] at h
    obtain ⟨prepared, hprepared, rfl⟩ := h
    obtain ⟨state, previous, missing, total, candidate, _, _, _, _, _, ⟨a, b, c, hcopy⟩,
      hworkspace⟩ := prepareWorkspaceNameCheckpoint_eq_ok hprepared
    rw [sound.provisionalCopy] at hcopy
    obtain rfl := Except.ok.inj hcopy
    rw [hworkspace]
    exact ⟨rfl, readsAlike_recordNameCheckpoint laws _, .inl rfl⟩

theorem startedHistory_traces (laws : mls.Lawful) (sound : mls.Sound workspace)
    {history : MembershipHistory}
    (htraces : ∀ history ∈ workspace.joinHistory, mls.Traces workspace history)
    (h : mls.startedHistory workspace = .ok history) : mls.Traces workspace history := by
  rw [startedHistory] at h
  cases hsaved : workspace.joinHistory with
  | some saved =>
    rw [hsaved] at h
    obtain rfl := pure_eq_ok.mp h
    exact htraces saved hsaved
  | none =>
    rw [hsaved] at h
    simp only [bind_eq_ok, joinProofOf_eq_ok laws sound] at h
    obtain ⟨_, ⟨bytes, hbytes, hsize, hvalid, rfl⟩, hstart⟩ := h
    rw [historyFromInline_start hsize] at hstart
    obtain rfl := Except.ok.inj hstart
    obtain ⟨info, hcheckpoint⟩ := exportOwnState_eq_ok laws sound hbytes
    refine ⟨mls.publicGroup workspace.group, ?_, .nil _⟩
    exact (hcheckpoint.fromCheckpointWithin_iff sound).mpr
      ⟨le_trans hsize (Nat.sub_le _ _), hvalid, rfl⟩

theorem Consistent.renames (laws : mls.Lawful) (h : mls.Consistent workspace)
    (hrenames : mls.Renames workspace after) : mls.Consistent after := by
  have hsound := hrenames.sound h.sound
  obtain ⟨provider, joinHistory, rfl⟩ :
      ∃ provider joinHistory, after = { workspace with provider, joinHistory } :=
    ⟨_, _, hrenames.rest⟩
  refine ⟨hsound, fun history hsaved => ?_, h.admissions⟩
  rcases hrenames.history with hsame | ⟨started, hstarted, hnew⟩
  · exact h.history history (hsame ▸ hsaved)
  · obtain rfl := Option.some.inj (hnew.symm.trans hsaved)
    exact startedHistory_traces laws h.sound h.history hstarted

theorem prepareAdmissionUpdate_joinHistory {authorizations : List AdmissionAuthorization}
    {commit : Bytes} (h : mls.prepareAdmissionUpdate workspace authorizations commit = .ok after) :
    after.joinHistory ≠ none := by
  simp only [prepareAdmissionUpdate, bind_eq_ok, pure_eq_ok] at h
  obtain ⟨_, _, _, _, _, _, _, _, _, _, _, _, _, _, _, _, _, _, _, _, _, _, rfl⟩ := h
  exact Option.some_ne_none _

theorem sameRecords_steps (h : SameRecords provider provider') :
    provider'.filter isNameStep = provider.filter isNameStep := by
  ext1 name
  rw [find?_filter, find?_filter]
  split
  · rename_i hstep
    apply h
    rw [isNameStep, List.isPrefixOf_iff_prefix] at hstep
    exact List.IsPrefix.trans ⟨utf8 "workspace-name/step/v1/", rfl⟩ hstep
  · rfl

theorem nameCount_congr (h : SameRecords provider provider') :
    nameCount provider' = nameCount provider := by
  rw [nameCount, nameCount, nameState, nameState, nameMissingHistory, nameMissingHistory,
    h nameRecord ⟨_, rfl⟩, h nameMissingRecord ⟨_, rfl⟩, sameRecords_steps h]

theorem nameCount_sent {value : Bytes} :
    nameCount (provider.insert counterRecord value) = nameCount provider := by
  have hstep : isNameStep counterRecord = false := by decide
  rw [nameCount, nameCount, nameState, nameState, nameMissingHistory, nameMissingHistory,
    find?_insert, if_neg (by decide), find?_insert, if_neg (by decide), filter_insert,
    if_neg (by simp [hstep])]

theorem apart_of_history {history : MembershipHistory}
    (hrecords : SameRecords workspace.provider after.provider)
    (hsaved : after.joinHistory = some history) :
    nameCount after.provider = nameCount workspace.provider ∧
      (mls.Alone workspace → mls.Alone after) := by
  refine ⟨nameCount_congr hrecords, fun _ hnone => ?_⟩
  exact absurd (hsaved.symm.trans hnone) (Option.some_ne_none _)

/-- Such a step leaves the name alone, and of the changes of the membership only a single
admission leaves a workspace without a history. -/
theorem Advances.apart (laws : mls.Lawful) (sound : mls.Sound workspace)
    {event : WorkspaceEvent} (h : mls.Advances workspace event after) :
    nameCount after.provider = nameCount workspace.provider ∧
      (mls.Alone workspace → mls.Alone after) := by
  cases h with
  | admitted _ hprepared =>
    obtain ⟨added, staged, hadmitted⟩ := prepareAdmissionBatch_eq_ok laws sound hprepared
    have hmoves := hadmitted.moves laws sound
    refine ⟨nameCount_congr hmoves.records, fun halone hnone => ?_⟩
    rw [hadmitted.extensions_eq laws sound, hadmitted.rest]
    rcases hmoves.history with ⟨hbefore, _⟩ | ⟨history, _, hsome⟩
    · exact halone hbefore
    · rw [hnone] at hsome
      cases hsome
  | received hreceived =>
    obtain ⟨hmoves, _⟩ := prepareAdmissionUpdate_eq_ok laws sound hreceived
    exact ⟨nameCount_congr hmoves.records,
      fun _ hnone => absurd hnone (prepareAdmissionUpdate_joinHistory hreceived)⟩
  | managed hprepared =>
    obtain ⟨_, removals, hmanaged⟩ := prepareManagement_eq_ok laws sound hprepared
    obtain ⟨history, hsaved, _⟩ := hmanaged.history
    exact apart_of_history (hmanaged.moves laws sound).records hsaved
  | invited hinvited =>
    simp only [prepareInvitationMode, bind_eq_ok, orFail_eq_ok, pure_eq_ok,
      Prod.mk.injEq] at hinvited
    obtain ⟨_, _, _, _, _, _, prepared, hprepared, _, _, _, _, _, _, retained, hretained, rfl, _⟩ :=
      hinvited
    obtain ⟨_, removals, hmanaged⟩ := prepareManagement_eq_ok laws sound hprepared
    obtain ⟨history, hsaved, _⟩ := hmanaged.history
    obtain ⟨kept, rfl⟩ := retainInvitationCheckpoint_eq_ok hretained
    exact apart_of_history (hmanaged.moves laws sound).records hsaved
  | updated hupdated =>
    obtain ⟨hmoves, _, ⟨history, hsaved⟩, _⟩ :=
      prepareManagementUpdate_eq_active laws sound hupdated
    exact apart_of_history hmoves.records hsaved
  | retained hupdated hretained =>
    obtain ⟨hmoves, _, ⟨history, hsaved⟩, _⟩ :=
      prepareManagementUpdate_eq_active laws sound hupdated
    obtain ⟨kept, rfl⟩ := retainInvitationCheckpoint_eq_ok hretained
    exact apart_of_history hmoves.records hsaved
  | sent hsent =>
    obtain ⟨_, _, _, _, _, _, _, _, _, _, _, _, _, _, _, rfl⟩ := protectObject_eq_ok hsent
    exact ⟨nameCount_sent, fun halone => halone⟩

/-- A step of a workspace's life: a change of the membership or an object sent, or a call about
the name. -/
inductive Lives (mls : Mls Group Signer Staged) :
    Workspace Group Signer → WorkspaceEvent ⊕ NameCall → Workspace Group Signer → Prop where
  | moved {workspace after : Workspace Group Signer} {event : WorkspaceEvent}
      (h : mls.Advances workspace event after) : Lives mls workspace (.inl event) after
  | named {workspace after : Workspace Group Signer} {call : NameCall}
      (h : mls.NameStep workspace call after) (hhash : mls.Hashes workspace call) :
      Lives mls workspace (.inr call) after

/-- What a workspace is throughout its life. -/
structure Settled (mls : Mls Group Signer Staged) (workspace : Workspace Group Signer) :
    Prop where
  consistent : mls.Consistent workspace
  alone : mls.Alone workspace
  counted : ∃ count, nameCount workspace.provider = .ok count

theorem Settled.lives (laws : mls.Lawful) (h : mls.Settled workspace)
    {label : WorkspaceEvent ⊕ NameCall} (hlives : mls.Lives workspace label after) :
    mls.Settled after := by
  obtain ⟨count, hcount⟩ := h.counted
  cases hlives with
  | moved hadvances =>
    obtain ⟨hname, halone⟩ := hadvances.apart laws h.consistent.sound
    exact ⟨h.consistent.advances laws hadvances, halone h.alone, count, hname.trans hcount⟩
  | named hstep hhash =>
    obtain ⟨count', hcount', _⟩ := nameCount_step hcount hstep hhash
    rw [NameStep] at hstep
    split at hstep
    · rename_i accepted hcall
      subst hstep
      have hrenames := h.consistent.sound.call_renames laws hcall
      exact ⟨h.consistent.renames laws hrenames, hrenames.alone h.alone, count', hcount'⟩
    · subst hstep
      exact h

theorem authority_created {key : Bytes} {extensions : List Extension} {admins : List Bytes}
    (h : authority (⟨authorityKind, 1 :: 1 :: key⟩ :: extensions) = .ok admins) :
    admins = [key] := by
  simp only [authority, unknown, List.find?_cons_of_pos, decide_true, Option.map_some, orFail_some,
    ok_bind, if_true, bind_eq_ok, failIf_eq_ok, pure_eq_ok, not_not] at h
  obtain ⟨_, _, _, hlength, _, _, rfl⟩ := h
  have htake : key.take 32 = key := List.take_of_length_le (by
    rw [hlength]
    decide)
  exact congrArg (fun first => [first]) htake

theorem nameCount_empty (h : SameRecords OrderedMap.empty provider) :
    nameCount provider = .ok ⟨NameState.unnamed, 0, 0⟩ := by
  rw [nameCount_congr h]
  rfl

/-- A workspace begins with the name it joined with, and with no record of its chain. -/
theorem Started.nameCount (laws : mls.Lawful) (h : mls.Started workspace) :
    ∃ baseline, Security.nameCount workspace.provider = .ok ⟨baseline, 0, 0⟩ := by
  cases h with
  | created h =>
    obtain ⟨_, _, _, _, rfl, _, hempty, _⟩ := create_eq_ok laws h
    exact ⟨_, nameCount_empty hempty⟩
  | joined hfirst hpending hproof h =>
    obtain ⟨hname, _, provider, hempty, hprovider⟩ :=
      join_storage laws hfirst hpending hproof h
    obtain ⟨_, hretained, hmissing⟩ := nameCount_eq_ok.mp (nameCount_empty hempty)
    have hstate := NameState.decode_encode hname
    refine ⟨_, nameCount_eq_ok.mpr ⟨Eq.trans ?_ hstate, ?_, ?_⟩⟩
    · rw [hprovider, nameState, find?_insert_self]
    · rw [hprovider, filter_insert, if_neg (by simp [not_step_nameRecord])]
      exact hretained
    · rw [hprovider, nameMissingHistory, find_insert_nameRecord (by decide)]
      exact hmissing

theorem Started.alone (laws : mls.Lawful) (h : mls.Started workspace) : mls.Alone workspace := by
  cases h with
  | created h =>
    obtain ⟨_, _, owner, _, rfl, _, _, hfounded⟩ := create_eq_ok laws h
    intro _ admins hadmins
    change authority (mls.publicGroup owner.group).extensions = _ at hadmins
    rw [hfounded.extensions] at hadmins
    exact authority_created hadmins
  | joined hfirst hpending hproof h =>
    intro hnone
    exact absurd hnone (join_storage laws hfirst hpending hproof h).2.1

theorem Started.settled (laws : mls.Lawful) (h : mls.Started workspace) :
    mls.Settled workspace := by
  obtain ⟨baseline, hcount⟩ := h.nameCount laws
  exact ⟨h.consistent laws, h.alone laws, _, hcount⟩

/-- A workspace at some moment of its life. -/
def Reachable (mls : Mls Group Signer Staged) (workspace : Workspace Group Signer) : Prop :=
  ∃ start trace, mls.Started start ∧ Run mls.Lives start trace workspace

theorem Reachable.settled (laws : mls.Lawful) (h : mls.Reachable workspace) :
    mls.Settled workspace := by
  obtain ⟨start, trace, hstart, hrun⟩ := h
  exact (hrun.invariant (P := mls.Settled) (fun _ _ _ h hlives => h.lives laws hlives)
    (hstart.settled laws)).1

theorem Reachable.sound (laws : mls.Lawful) (h : mls.Reachable workspace) : mls.Sound workspace :=
  (h.settled laws).consistent.sound

end Mls

end Arachne.Security
