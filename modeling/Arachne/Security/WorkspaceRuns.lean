import Mathlib.Algebra.Order.BigOperators.Group.List
import Arachne.Security.Continuity
import Arachne.Security.Object

/-! Steps of a workspace: created or joined, then moved on by its owner's commits and by those
it receives, with objects sent in between. `Consistent` is what they keep: a history that leads to
its group, and admissions of epochs that it has come through. -/

namespace Arachne.Security

open Fallible ByteCodec Transition PublicMls

inductive WorkspaceEvent where
  | admitted (random : Bytes) (now : U64) (arrivals : List Arrival)
  | received (authorizations : List AdmissionAuthorization) (commit : Bytes)
  | managed (random : Bytes) (now : U64) (action : ManagementAction)
  | invited (random : Bytes) (now expiresAt : U64) (personal automatic requestAccess : Bool)
  | updated (now : U64) (action : ManagementAction) (commit : Bytes)
      (attached : Option (PublicGrant × Bytes))
  | sent (context payload : Bytes)

/-- The arrival's request was read from its bytes, under a grant whose signatures hold. -/
def PublicMls.Genuine (mls : PublicMls) (arrival : Arrival) : Prop :=
  ∃ now request, mls.decodeRequest now arrival.bytes true = .ok request ∧
    arrival.request = { request with endpoint := arrival.remoteEndpoint }

namespace Mls

variable {Group Signer Staged : Type}

/-- One step of a workspace that stays one, calls about its name apart. A received update may
carry the checkpoint of the invitation it registers. -/
inductive Advances (mls : Mls Group Signer Staged) :
    Workspace Group Signer → WorkspaceEvent → Workspace Group Signer → Prop where
  | admitted {workspace : Workspace Group Signer} {random : Bytes} {now : U64}
      {arrivals : List Arrival} {prepared : PreparedAdmissionBatch Group Signer}
      (hgenuine : ∀ arrival ∈ arrivals, mls.Genuine arrival)
      (h : mls.prepareAdmissionBatch workspace random now arrivals = .ok prepared) :
      Advances mls workspace (.admitted random now arrivals) prepared.workspace
  | received {workspace after : Workspace Group Signer}
      {authorizations : List AdmissionAuthorization} {commit : Bytes}
      (h : mls.prepareAdmissionUpdate workspace authorizations commit = .ok after) :
      Advances mls workspace (.received authorizations commit) after
  | managed {workspace : Workspace Group Signer} {random : Bytes} {now : U64}
      {action : ManagementAction} {prepared : PreparedManagement Group Signer}
      (h : mls.prepareManagement workspace random now action = .ok prepared) :
      Advances mls workspace (.managed random now action) prepared.workspace
  | invited {workspace : Workspace Group Signer} {random : Bytes} {now expiresAt : U64}
      {personal automatic requestAccess : Bool} {prepared : PreparedManagement Group Signer}
      {invitation : Invitation} {checkpoint : Bytes}
      (h : mls.prepareInvitationMode workspace random now expiresAt personal automatic
        requestAccess = .ok (prepared, invitation, checkpoint)) :
      Advances mls workspace (.invited random now expiresAt personal automatic requestAccess)
        prepared.workspace
  | updated {workspace after : Workspace Group Signer} {now : U64} {action : ManagementAction}
      {commit : Bytes}
      (h : mls.prepareManagementUpdate workspace now action commit = .ok (.active after)) :
      Advances mls workspace (.updated now action commit none) after
  | retained {workspace between after : Workspace Group Signer} {now : U64}
      {action : ManagementAction} {commit checkpoint : Bytes} {grant : PublicGrant}
      (h : mls.prepareManagementUpdate workspace now action commit = .ok (.active between))
      (hretained : mls.retainInvitationCheckpoint between now action grant checkpoint =
        .ok after) :
      Advances mls workspace (.updated now action commit (some (grant, checkpoint))) after
  | sent {workspace after : Workspace Group Signer} {Key : Type} {sframe : SFrame Group Key}
      {context payload object : Bytes}
      (h : mls.protectObject sframe workspace context payload = .ok (object, after)) :
      Advances mls workspace (.sent context payload) after

/-- The proof that a pending join has followed from its invitation's checkpoint. -/
def Proves (mls : Mls Group Signer Staged) (pending : PendingJoin Signer) (proof : JoinProof) :
    Prop :=
  ∃ checkpoint first, ∃ steps : List Step,
    mls.joinProofFrom pending.workspace pending.checkpointDigest checkpoint = .ok first ∧
      steps.foldlM mls.extendProof first = .ok proof

/-- The two ways a workspace begins. -/
inductive Started (mls : Mls Group Signer Staged) : Workspace Group Signer → Prop where
  | created {random : Randomness} {endpoint : Block 32} {displayName : String}
      {workspace : Workspace Group Signer}
      (h : mls.create random endpoint displayName = .ok workspace) : Started mls workspace
  | joined {random : Randomness} {id digest endpoint : Block 32} {displayName : String}
      {first pending : PendingJoin Signer} {proof : JoinProof} {welcome : Bytes}
      {workspace : Workspace Group Signer}
      (hfirst : mls.newPendingJoin random id digest endpoint displayName = .ok first)
      (hpending : pending = { first with
        request := pending.request, checkpoint := pending.checkpoint,
        invitation := pending.invitation })
      (hproof : mls.Proves pending proof)
      (h : mls.prepareWorkspace pending proof welcome = .ok workspace) : Started mls workspace

variable {mls : Mls Group Signer Staged} {workspace before after : Workspace Group Signer}

/-- The history starts at a checkpoint that passes, and its commits lead to the group. -/
def Traces (mls : Mls Group Signer Staged) (workspace : Workspace Group Signer)
    (history : MembershipHistory) : Prop :=
  ∃ start, mls.historyVerifier history workspace.id = .ok start ∧
    mls.Follows start history.steps (mls.publicGroup workspace.group)

structure Consistent (mls : Mls Group Signer Staged) (workspace : Workspace Group Signer) :
    Prop where
  sound : mls.Sound workspace
  history : ∀ history ∈ workspace.joinHistory, mls.Traces workspace history
  admissions : ∀ entry ∈ workspace.admissions,
    entry.reply.epoch.val ≤ (mls.epoch workspace).val

variable {step : Step} {history : MembershipHistory} {provider : Provider}
  {random commit checkpoint welcome : Bytes} {now : U64} {action : ManagementAction}
  {signer : Signer} {id endpoint digest : Block 32} {displayName : String} {proof : JoinProof}
  {first pending : PendingJoin Signer}

theorem appended_traces (laws : mls.Lawful) (sound : mls.Sound before)
    (htraces : ∀ history ∈ before.joinHistory, mls.Traces before history)
    (hmoves : mls.Moves before after step)
    (h : mls.appendHistory before step.1 step.2 = .ok history) : mls.Traces after history := by
  obtain ⟨sender, staged, hprocess, hafter⟩ := hmoves.processed
  have hid : after.id = before.id := hmoves.scope.1
  have hstep : mls.Follows (mls.publicGroup before.group) [step] (mls.publicGroup after.group) := by
    rw [hafter]
    exact .cons hprocess (.nil _)
  obtain ⟨base, rfl, hbase | ⟨_, hsteps, hexport, hsize, hvalid⟩⟩ :=
    (appendHistory_eq_ok laws sound).mp h
  · obtain ⟨start, hstart, hfollows⟩ := htraces base hbase
    exact ⟨start, hid ▸ hstart, hfollows.append hstep⟩
  · obtain ⟨info, hcheckpoint⟩ := exportOwnState_eq_ok laws sound hexport
    refine ⟨mls.publicGroup before.group, ?_, ?_⟩
    · rw [hid]
      exact (hcheckpoint.fromCheckpointWithin_iff sound).mpr
        ⟨le_trans hsize (Nat.sub_le _ _), hvalid, rfl⟩
    · rw [hsteps]
      exact hstep

theorem Moves.traces (laws : mls.Lawful) (sound : mls.Sound before)
    (htraces : ∀ history ∈ before.joinHistory, mls.Traces before history)
    (h : mls.Moves before after step) :
    ∀ history ∈ after.joinHistory, mls.Traces after history := by
  intro history hhistory
  rcases h.history with ⟨_, hnone⟩ | ⟨appended, happended, hsaved⟩
  · rw [hnone] at hhistory
    cases hhistory
  · obtain rfl := Option.some.inj (hsaved.symm.trans hhistory)
    exact appended_traces laws sound htraces h happended

theorem Moves.epoch_lt (laws : mls.Lawful) (sound : mls.Sound before)
    (h : mls.Moves before after step) : (mls.epoch before).val < (mls.epoch after).val := by
  rw [h.epoch laws sound]
  exact Nat.lt_succ_self _

theorem Consistent.moves (laws : mls.Lawful) (h : mls.Consistent before)
    (hmoves : mls.Moves before after step)
    (hadmissions : ∀ entry ∈ after.admissions,
      entry ∈ before.admissions ∨ entry.reply.epoch = mls.epoch after) :
    mls.Consistent after where
  sound := hmoves.sound
  history := hmoves.traces laws h.sound h.history
  admissions entry hentry := by
    rcases hadmissions entry hentry with hold | hnew
    · exact (h.admissions entry hold).trans (hmoves.epoch_lt laws h.sound).le
    · exact (congrArg Fin.val hnew).le

/-- The group and the signer are read from the storage as before. -/
def ReadsAlike (mls : Mls Group Signer Staged) (provider provider' : Provider) : Prop :=
  mls.load provider' = mls.load provider ∧ mls.readSigner provider' = mls.readSigner provider

theorem Ready.of_readsAlike {owner : Owner Group} (h : mls.Ready owner signer)
    (hreads : mls.ReadsAlike owner.provider provider) :
    mls.Ready ⟨provider, owner.group⟩ signer :=
  ⟨(congrFun hreads.1 _).trans h.saved, (congrFun hreads.2 _).trans h.stored, h.active, h.settled,
    h.own, h.wellFormed⟩

theorem Sound.of_readsAlike (sound : mls.Sound workspace)
    (hreads : mls.ReadsAlike workspace.provider provider) :
    mls.Sound { workspace with provider } :=
  ⟨sound.ready.of_readsAlike hreads, sound.groupId, sound.ciphersuite, sound.credential⟩

theorem Consistent.of_readsAlike (h : mls.Consistent workspace)
    (hreads : mls.ReadsAlike workspace.provider provider) :
    mls.Consistent { workspace with provider } :=
  ⟨h.sound.of_readsAlike hreads, h.history, h.admissions⟩

theorem Consistent.admitted (laws : mls.Lawful) (h : mls.Consistent before)
    {arrivals : List Arrival} {prepared : PreparedAdmissionBatch Group Signer}
    (hprepared : mls.prepareAdmissionBatch before random now arrivals = .ok prepared) :
    mls.Consistent prepared.workspace := by
  obtain ⟨added, staged, hadmitted⟩ := prepareAdmissionBatch_eq_ok laws h.sound hprepared
  have hadmissions : prepared.workspace.admissions = before.admissions ++ _ :=
    congrArg Workspace.admissions hadmitted.rest
  refine h.moves laws (hadmitted.moves laws h.sound) fun entry hentry => ?_
  rw [hadmissions] at hentry
  refine (List.mem_append.mp hentry).imp_right fun hnew => ?_
  obtain ⟨⟨arrival, reply⟩, hpair, rfl⟩ := List.mem_map.mp hnew
  have hreply := (List.of_mem_zip hpair).2
  rw [hadmitted.replies] at hreply
  obtain ⟨_, _, rfl⟩ := List.mem_map.mp hreply
  rfl

theorem Consistent.received (laws : mls.Lawful) (h : mls.Consistent before)
    {authorizations : List AdmissionAuthorization}
    (hreceived : mls.prepareAdmissionUpdate before authorizations commit = .ok after) :
    mls.Consistent after := by
  obtain ⟨hmoves, _, hadmissions, _⟩ := prepareAdmissionUpdate_eq_ok laws h.sound hreceived
  exact h.moves laws hmoves fun entry hentry => .inl (hadmissions ▸ hentry)

theorem Consistent.updated (laws : mls.Lawful) (h : mls.Consistent before)
    (hupdated : mls.prepareManagementUpdate before now action commit = .ok (.active after)) :
    mls.Consistent after := by
  obtain ⟨hmoves, _, _, hadmissions, _⟩ :=
    prepareManagementUpdate_eq_active laws h.sound hupdated
  exact h.moves laws hmoves fun entry hentry => .inl (hadmissions ▸ hentry)

theorem Consistent.managed (laws : mls.Lawful) (h : mls.Consistent before)
    {prepared : PreparedManagement Group Signer}
    (hprepared : mls.prepareManagement before random now action = .ok prepared) :
    mls.Consistent prepared.workspace := by
  obtain ⟨_, removals, hmanaged⟩ := prepareManagement_eq_ok laws h.sound hprepared
  have hadmissions : prepared.workspace.admissions = before.admissions := by rw [hmanaged.rest]
  exact h.moves laws (hmanaged.moves laws h.sound) fun entry hentry => .inl (hadmissions ▸ hentry)

/-- Retaining a checkpoint changes nothing but the retained checkpoints. -/
theorem retainInvitationCheckpoint_eq_ok {grant : PublicGrant}
    (h : mls.retainInvitationCheckpoint workspace now action grant checkpoint = .ok after) :
    ∃ kept, after = { workspace with invitationCheckpoints := kept } := by
  simp only [retainInvitationCheckpoint, bind_eq_ok, orFail_eq_ok] at h
  obtain ⟨pruned, hpruned, _, _, _, _, _, _, _, _, _, _, _, _, h⟩ := h
  obtain ⟨kept, _, rfl⟩ := pruneInvitationCheckpoints_eq_ok hpruned
  split at h
  · obtain rfl := pure_eq_ok.mp h
    exact ⟨kept, rfl⟩
  · simp only [bind_eq_ok, pure_eq_ok] at h
    obtain ⟨_, _, rfl⟩ := h
    exact ⟨_, rfl⟩

theorem Consistent.retain (h : mls.Consistent workspace) {grant : PublicGrant}
    (hretain : mls.retainInvitationCheckpoint workspace now action grant checkpoint = .ok after) :
    mls.Consistent after := by
  obtain ⟨kept, rfl⟩ := retainInvitationCheckpoint_eq_ok hretain
  have sound := h.sound
  exact ⟨⟨sound.ready, sound.groupId, sound.ciphersuite, sound.credential⟩, h.history,
    h.admissions⟩

theorem Consistent.advances (laws : mls.Lawful) (h : mls.Consistent before)
    {event : WorkspaceEvent} (hadvances : mls.Advances before event after) :
    mls.Consistent after := by
  cases hadvances with
  | admitted _ hprepared => exact h.admitted laws hprepared
  | received hreceived => exact h.received laws hreceived
  | managed hprepared => exact h.managed laws hprepared
  | invited hinvited =>
    simp only [prepareInvitationMode, bind_eq_ok, orFail_eq_ok, failIf_eq_ok, pure_eq_ok,
      Prod.mk.injEq] at hinvited
    obtain ⟨_, _, _, _, _, _, prepared, hprepared, _, _, _, _, _, _, retained, hretained, rfl, _⟩ :=
      hinvited
    exact (h.managed laws hprepared).retain hretained
  | updated hupdated => exact h.updated laws hupdated
  | retained hupdated hretained => exact (h.updated laws hupdated).retain hretained
  | sent hsent =>
    obtain ⟨_, _, _, _, _, _, _, _, _, _, _, _, _, _, _, rfl⟩ := protectObject_eq_ok hsent
    exact h.of_readsAlike (laws.records ⟨_, rfl⟩)

theorem newStoredSigner_eq_ok (laws : mls.Lawful)
    (h : mls.newStoredSigner random = .ok (signer, provider)) :
    mls.readSigner provider (mls.signerPublic signer) = some signer ∧
      SameRecords OrderedMap.empty provider := by
  simp only [newStoredSigner, bind_eq_ok, orFail_eq_ok, pure_eq_ok, Prod.mk.injEq] at h
  obtain ⟨_, _, _, hstored, rfl, rfl⟩ := h
  exact laws.storeSigner hstored

/-- A created workspace has a group of which its creator is the only member and the authority, and
a storage without records. -/
theorem create_eq_ok (laws : mls.Lawful) {random : Randomness}
    (h : mls.create random endpoint displayName = .ok workspace) :
    ∃ id signer owner member, workspace =
        ⟨owner.provider, signer, owner.group, id, endpoint, some member, [], none, []⟩ ∧
      mls.Ready owner signer ∧ SameRecords OrderedMap.empty owner.provider ∧
      mls.Founded owner id.1
        ⟨0, .basic (credentialIdentity endpoint (some member)), mls.signerPublic signer⟩
        [⟨authorityKind, 1 :: 1 :: mls.signerPublic signer⟩, requiredCapabilities] := by
  simp only [create, bind_eq_ok, failIf_eq_ok, orFail_eq_ok, pure_eq_ok] at h
  obtain ⟨_, _, _, _, member, _, id, _, ⟨signer, provider⟩, hsigner, owner, howner, rfl⟩ := h
  obtain ⟨hstored, hempty⟩ := newStoredSigner_eq_ok laws hsigner
  obtain ⟨hready, hrecords, hfounded⟩ := laws.newGroup hstored howner
  exact ⟨id, signer, owner, member, rfl, hready,
    fun name hname => (hrecords name hname).trans (hempty name hname), hfounded⟩

theorem create_consistent (laws : mls.Lawful) {random : Randomness}
    (h : mls.create random endpoint displayName = .ok workspace) : mls.Consistent workspace := by
  obtain ⟨_, signer, owner, member, rfl, hready, _, hfounded⟩ := create_eq_ok laws h
  have hown : (⟨0, .basic (credentialIdentity endpoint (some member)), mls.signerPublic signer⟩ :
      Member) ∈ (mls.publicGroup owner.group).members := by simp [hfounded.members]
  exact ⟨⟨hready, hfounded.groupId, hfounded.ciphersuite, _, hown, hfounded.ownLeafIndex.symm, rfl⟩,
    by simp, by simp⟩

theorem extendMany_nameCheckpoint {first : JoinProof} {steps : List Step}
    (h : steps.foldlM mls.extendProof first = .ok proof) :
    proof.nameCheckpoint = first.nameCheckpoint := by
  induction steps generalizing first with
  | nil =>
    obtain rfl := pure_eq_ok.mp h
    rfl
  | cons step steps ih =>
    simp only [List.foldlM_cons, bind_eq_ok] at h
    obtain ⟨next, hnext, hrest⟩ := h
    simp only [extendProof, bind_eq_ok, pure_eq_ok] at hnext
    obtain ⟨_, _, _, _, rfl⟩ := hnext
    have hname := ih hrest
    exact hname

theorem joinProofFrom_name_valid (h : mls.joinProofFrom id digest checkpoint = .ok proof) :
    proof.nameCheckpoint.Valid := by
  simp only [joinProofFrom, bind_eq_ok, orFail_eq_ok] at h
  obtain ⟨_, _, _, _, message, _, h⟩ := h
  cases message with
  | groupInfo info =>
    simp only [bind_eq_ok, pure_eq_ok] at h
    obtain ⟨name, hname, rfl⟩ := h
    rw [GroupInfo.nameCheckpoint] at hname
    split at hname
    · exact NameState.valid_of_decode hname
    · obtain rfl := pure_eq_ok.mp hname
      exact .unnamed
  | protocol message => cases h
  | welcome content => cases h
  | other => cases h

theorem find_insert_nameRecord {name value : Bytes} (h : name ≠ nameRecord) :
    (provider.insert nameRecord value).find? name = provider.find? name := by
  rw [OrderedMap.find?_insert, if_neg h.symm]

section Join

variable (laws : mls.Lawful) {random : Randomness}
  (hfirst : mls.newPendingJoin random id digest endpoint displayName = .ok first)
  (hpending : pending = { first with
    request := pending.request, checkpoint := pending.checkpoint,
    invitation := pending.invitation })
  (hproof : mls.Proves pending proof)
  (h : mls.prepareWorkspace pending proof welcome = .ok workspace)
include laws hfirst hpending hproof h

/-- What a joiner's storage holds of its own: the name that its proof carries. -/
theorem join_storage :
    proof.nameCheckpoint.Valid ∧ workspace.joinHistory ≠ none ∧
      ∃ provider, SameRecords OrderedMap.empty provider ∧
        workspace.provider = provider.insert nameRecord proof.nameCheckpoint.encode := by
  simp only [newPendingJoin, bind_eq_ok, failIf_eq_ok, orFail_eq_ok, pure_eq_ok] at hfirst
  obtain ⟨_, _, _, _, _, _, ⟨signer, provider⟩, hsigner, ⟨package, provider'⟩, hpackage, rfl⟩ :=
    hfirst
  obtain ⟨hstored, hempty⟩ := newStoredSigner_eq_ok laws hsigner
  obtain ⟨_, _, hstored', hrecords⟩ := laws.newKeyPackage hstored hpackage
  obtain ⟨checkpoint, start, steps, hstart, hextend⟩ := hproof
  rw [hpending] at h
  simp only [prepareWorkspace, bind_eq_ok, failIf_eq_ok, orFail_eq_ok, pure_eq_ok, not_or,
    not_not] at h
  obtain ⟨_, _, _, _, content, _, _, hstaged, owner, rfl, _, _, own, hown, _, ⟨hkey, _⟩, _, _,
    history, _, _, _, rfl⟩ := h
  obtain ⟨_, hkept⟩ := laws.stageWelcome hstored' hstaged (mem_of_find hown)
    (find_index hown) hkey
  refine ⟨?_, Option.some_ne_none _, owner.provider, ?_, rfl⟩
  · rw [extendMany_nameCheckpoint hextend]
    exact joinProofFrom_name_valid hstart
  · intro name hrecord
    exact ((hkept name hrecord).trans (hrecords name hrecord)).trans (hempty name hrecord)

theorem join_consistent : mls.Consistent workspace := by
  simp only [newPendingJoin, bind_eq_ok, failIf_eq_ok, orFail_eq_ok, pure_eq_ok] at hfirst
  obtain ⟨_, _, memberId, _, member, hmember, ⟨signer, provider⟩, hsigner, ⟨package, provider'⟩,
    hpackage, rfl⟩ := hfirst
  obtain ⟨hleaf, _, hstored', _⟩ :=
    laws.newKeyPackage (newStoredSigner_eq_ok laws hsigner).1 hpackage
  obtain ⟨checkpoint, start, steps, hstart, hextend⟩ := hproof
  have hcarries := (joinProofFrom_carries hstart).extendMany hextend
  rw [List.nil_append] at hcarries
  rw [hpending] at h hcarries
  simp only [prepareWorkspace, bind_eq_ok, failIf_eq_ok, orFail_eq_ok, pure_eq_ok, not_or,
    not_not] at h
  obtain ⟨_, _, _, _, content, _, _, hstaged, owner, rfl, _, ⟨hid, hsuite⟩, own, hown, _,
    ⟨hkey, hcredential⟩, signer', hsigner', history, hhistory, _, hverifier, rfl⟩ := h
  have hindex := find_index hown
  have hmem := mem_of_find hown
  obtain ⟨hready, _⟩ := laws.stageWelcome hstored' hstaged hmem hindex hkey
  obtain rfl : signer' = signer := Option.some.inj (hsigner'.symm.trans hready.stored)
  obtain rfl := ok_unique hcarries.historyFromInline hhistory
  refine ⟨⟨hready.of_readsAlike (laws.records ⟨_, rfl⟩), hid, hsuite, own, hmem, hindex, ?_⟩, ?_,
    by simp⟩
  · rw [hcredential, hleaf]
  · rintro _ ⟨⟩
    obtain ⟨group, hgroup, hreplay⟩ := hcarries.start
    rw [← hcarries.digest] at hgroup
    exact ⟨group, hgroup, hverifier ▸ Follows.of_replay hreplay⟩

end Join

theorem Started.consistent (laws : mls.Lawful) (h : mls.Started workspace) :
    mls.Consistent workspace := by
  cases h with
  | created h => exact create_consistent laws h
  | joined hfirst hpending hproof h => exact join_consistent laws hfirst hpending hproof h

end Mls

end Arachne.Security
