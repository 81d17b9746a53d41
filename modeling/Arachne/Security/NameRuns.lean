import Arachne.Security.WorkspaceName
import Arachne.Security.WorkspaceRuns

/-! Runs of a workspace's name: what an accepted change leaves in the storage, and how the
revision, the retained records and the count of missing ones move together. -/

namespace Arachne.Security

open Fallible ByteCodec Transition OrderedMap

/-- A record of the name chain in the storage. -/
def isNameStep (name : Bytes) : Bool := nameStep.isPrefixOf name

/-- What a workspace holds of its name's chain. -/
structure NameCount where
  state : NameState
  retained : Nat
  missing : U64
  deriving DecidableEq

def nameCount (provider : Provider) : Outcome NameCount := do
  let state ← nameState provider
  let missing ← nameMissingHistory provider
  pure ⟨state, (provider.filter isNameStep).size, missing⟩

/-- The revision is made up of the baseline, the retained records and the missing ones. -/
def NameCount.Balanced (baseline : U64) (count : NameCount) : Prop :=
  count.state.revision.val = baseline.val + count.retained + count.missing.val

theorem nameCount_eq_ok {provider : Provider} {count : NameCount} :
    nameCount provider = .ok count ↔ nameState provider = .ok count.state ∧
      count.retained = (provider.filter isNameStep).size ∧
      nameMissingHistory provider = .ok count.missing := by
  obtain ⟨state, retained, missing⟩ := count
  simp only [nameCount, bind_eq_ok, pure_eq_ok, NameCount.mk.injEq]
  constructor
  · rintro ⟨_, hstate, _, hmissing, rfl, rfl, rfl⟩
    exact ⟨hstate, rfl, hmissing⟩
  · rintro ⟨hstate, rfl, hmissing⟩
    exact ⟨_, hstate, _, hmissing, rfl, rfl, rfl⟩

section Storage

variable {provider : Provider} {previous next state : NameState} {record checkpoint : Bytes}
  {missing : U64}

theorem nameStepRecord_inj {head head' : Block 32}
    (h : nameStepRecord head = nameStepRecord head') : head = head' :=
  Subtype.ext (List.append_cancel_left h)

theorem isNameStep_nameStepRecord (head : Block 32) : isNameStep (nameStepRecord head) = true := by
  rw [isNameStep, List.isPrefixOf_iff_prefix]
  exact List.prefix_append _ _

theorem nameStepRecord_ne (head : Block 32) {name : Bytes} (h : isNameStep name = false) :
    nameStepRecord head ≠ name := by
  rintro rfl
  rw [isNameStep_nameStepRecord] at h
  cases h

theorem not_step_nameRecord : isNameStep nameRecord = false := by decide

theorem not_step_nameCheckpointRecord : isNameStep nameCheckpointRecord = false := by
  decide

theorem not_step_nameMissingRecord : isNameStep nameMissingRecord = false := by decide

theorem nameState_recordName (hnext : next.Valid) :
    nameState (recordName provider previous next record) = .ok next := by
  rw [nameState, recordName, find?_erase, if_neg (by decide),
    find?_insert, if_neg (nameStepRecord_ne _ not_step_nameRecord),
    find?_insert_self]
  exact NameState.decode_encode hnext

theorem missing_recordName :
    nameMissingHistory (recordName provider previous next record) =
      nameMissingHistory provider := by
  rw [nameMissingHistory, recordName, find?_erase, if_neg (by decide),
    find?_insert, if_neg (nameStepRecord_ne _ not_step_nameMissingRecord),
    find?_insert, if_neg (by decide)]
  rfl

theorem next_recordName (head : Block 32) :
    nextWorkspaceName (recordName provider previous next record) head =
      if previous.head = head then some record else nextWorkspaceName provider head := by
  rw [nextWorkspaceName, recordName, find?_erase,
    if_neg (nameStepRecord_ne _ not_step_nameCheckpointRecord).symm, find?_insert]
  by_cases hhead : previous.head = head
  · rw [if_pos hhead, if_pos (congrArg _ hhead)]
  · rw [if_neg hhead, if_neg (fun heq => hhead (nameStepRecord_inj heq)), find?_insert,
      if_neg (nameStepRecord_ne _ not_step_nameRecord).symm]
    rfl

theorem retained_recordName :
    ((recordName provider previous next record).filter isNameStep).size +
        (if (nextWorkspaceName provider previous.head).isSome then 1 else 0) =
      (provider.filter isNameStep).size + 1 := by
  have hsize := size_insert (provider.filter isNameStep)
    (nameStepRecord previous.head) record
  rw [find?_filter, if_pos (isNameStep_nameStepRecord _)] at hsize
  rw [recordName, filter_erase_of_not not_step_nameCheckpointRecord,
    filter_insert, if_pos (isNameStep_nameStepRecord _), filter_insert,
    if_neg (by simp [not_step_nameRecord])]
  exact hsize

theorem nameState_recordNameCheckpoint (hstate : state.Valid) :
    nameState (recordNameCheckpoint provider state checkpoint missing) = .ok state := by
  rw [nameState, recordNameCheckpoint, find?_insert, if_neg (by decide),
    find?_insert, if_neg (by decide), find?_insert_self]
  exact NameState.decode_encode hstate

theorem missing_recordNameCheckpoint :
    nameMissingHistory (recordNameCheckpoint provider state checkpoint missing) = .ok missing := by
  rw [nameMissingHistory, recordNameCheckpoint, find?_insert_self]
  dsimp only
  rw [failIf_of_not (by simp), ok_bind, u64OfBytes_beBytes]
  rfl

theorem filter_recordNameCheckpoint :
    (recordNameCheckpoint provider state checkpoint missing).filter isNameStep =
      provider.filter isNameStep := by
  rw [recordNameCheckpoint, filter_insert, if_neg (by simp [not_step_nameMissingRecord]),
    filter_insert, if_neg (by simp [not_step_nameCheckpointRecord]),
    filter_insert, if_neg (by simp [not_step_nameRecord])]

theorem next_congr {provider' : Provider}
    (h : provider'.filter isNameStep = provider.filter isNameStep) (head : Block 32) :
    nextWorkspaceName provider' head = nextWorkspaceName provider head := by
  have hfind := congrArg (fun m => m.find? (nameStepRecord head)) h
  simp only [find?_filter, if_pos (isNameStep_nameStepRecord head)] at hfind
  exact hfind

theorem next_eq_none (h : provider.filter isNameStep = OrderedMap.empty) (head : Block 32) :
    nextWorkspaceName provider head = none := by
  have hfind := congrArg (fun m => m.find? (nameStepRecord head)) h
  simp only [find?_filter, if_pos (isNameStep_nameStepRecord head),
    OrderedMap.find?_empty] at hfind
  exact hfind

theorem nameState_insert_checkpoint :
    nameState (provider.insert nameCheckpointRecord checkpoint) = nameState provider := by
  rw [nameState, find?_insert, if_neg (by decide)]
  rfl

theorem nameCount_insert_checkpoint :
    nameCount (provider.insert nameCheckpointRecord checkpoint) = nameCount provider := by
  have hmissing : nameMissingHistory (provider.insert nameCheckpointRecord checkpoint) =
      nameMissingHistory provider := by
    rw [nameMissingHistory, find?_insert, if_neg (by decide)]
    rfl
  rw [nameCount, nameCount, nameState_insert_checkpoint, hmissing, filter_insert,
    if_neg (by simp [not_step_nameCheckpointRecord])]

theorem next_insert_checkpoint (head : Block 32) :
    nextWorkspaceName (provider.insert nameCheckpointRecord checkpoint) head =
      nextWorkspaceName provider head := by
  apply next_congr
  rw [filter_insert, if_neg (by simp [not_step_nameCheckpointRecord])]

end Storage

namespace Mls

variable {Group Signer Staged : Type} {mls : Mls Group Signer Staged}
  {workspace before after : Workspace Group Signer} {record : Bytes} {previous next : NameState}

/-- The statement and the name that a record or a checkpoint spells out. -/
def Spells (magic : Bytes) (message : String) (id : Block 32) (bytes : Bytes)
    (statement : NameStatement) (name : String) : Prop :=
  ∃ rest, NameStatement.parse magic id message bytes = .ok (statement, rest) ∧
    fromUtf8 (unsigned rest) = some name

theorem Spells.unique {magic bytes : Bytes} {message : String} {id id' : Block 32}
    {statement statement' : NameStatement} {name name' : String}
    (h : Spells magic message id bytes statement name)
    (h' : Spells magic message id' bytes statement' name') :
    statement = statement' ∧ name = name' := by
  obtain ⟨rest, hparse, hname⟩ := h
  obtain ⟨rest', hparse', hname'⟩ := h'
  simp only [NameStatement.parse, bind_eq_ok, failIf_eq_ok, pure_eq_ok,
    Prod.mk.injEq] at hparse hparse'
  obtain ⟨_, _, _, hread, _, _, rfl, rfl⟩ := hparse
  obtain ⟨_, _, _, hread', _, _, rfl, rfl⟩ := hparse'
  obtain rfl := ok_unique hread hread'
  exact ⟨rfl, Option.some.inj (hname.symm.trans hname')⟩

/-- The error of a record that is not one. -/
def notRecord : String := "invalid workspace name record"

/-- The error of a checkpoint that is not one. -/
def notCheckpoint : String := "invalid workspace name checkpoint"

/-- A record that takes a workspace from one name to the next. -/
structure NameChange (mls : Mls Group Signer Staged) (workspace : Workspace Group Signer)
    (record : Bytes) (previous next : NameState) (statement : NameStatement) (name : String) :
    Prop where
  spells : Spells nameMagic notRecord workspace.id record statement name
  current : nameState workspace.provider = .ok previous
  revision : checkedSucc previous.revision = some statement.revision
  head : statement.head = previous.head
  author : ∃ roster, (mls.publicGroup workspace.group).memberRoster = .ok roster ∧
    isAdministrator roster statement.author = true
  valid : validateWorkspaceName name = .ok name
  changed : previous.name ≠ some name
  authority : ∃ verifier, mls.nameAuthorityAt workspace statement.epoch = .ok verifier ∧
    mls.checkNameAuthor verifier statement record = .ok ()
  next : next = ⟨statement.revision, mls.sha256 record, some name⟩

theorem nameChange_eq_ok : mls.nameChange workspace record = .ok (previous, next) ↔
    ∃ statement name, mls.NameChange workspace record previous next statement name := by
  simp only [nameChange, bind_eq_ok, failIf_eq_ok, pure_eq_ok, orFail_eq_ok, not_or, not_not,
    Bool.not_eq_true', Bool.not_eq_false, Prod.mk.injEq]
  constructor
  · rintro ⟨⟨statement, rest⟩, hparse, _, hprevious, _, ⟨hrevision, hhead⟩, roster, hroster, _,
      hauthor, name, hname, _, hvalid, _, ⟨rfl, hchanged⟩, verifier, hverifier, _, hcheck, rfl, rfl⟩
    exact ⟨statement, _, ⟨rest, hparse, hname⟩, hprevious, hrevision, hhead, ⟨roster, hroster,
      hauthor⟩, hvalid, hchanged, ⟨verifier, hverifier, hcheck⟩, rfl⟩
  · rintro ⟨statement, name, ⟨rest, hparse, hname⟩, hprevious, hrevision, hhead,
      ⟨roster, hroster, hauthor⟩, hvalid, hchanged, ⟨verifier, hverifier, hcheck⟩, rfl⟩
    exact ⟨⟨statement, rest⟩, hparse, _, hprevious, (), ⟨hrevision, hhead⟩, roster, hroster, (),
      hauthor, name, hname, name, hvalid, (), ⟨rfl, hchanged⟩, verifier, hverifier, (), hcheck, rfl,
      rfl⟩

variable {statement : NameStatement} {name : String} {bytes : Bytes}

theorem NameChange.revision_val (h : mls.NameChange workspace record previous next statement name) :
    next.revision.val = previous.revision.val + 1 := by
  rw [h.next]
  exact checkedSucc_val h.revision

theorem NameChange.next_valid (h : mls.NameChange workspace record previous next statement name)
    (hhash : mls.sha256 record ≠ zeroBlock 32) : next.Valid := by
  have hrevision := checkedSucc_val h.revision
  rw [h.next]
  refine .named ?_ hhash h.valid
  intro hzero
  rw [hzero] at hrevision
  exact absurd hrevision (by simp)

theorem provisionalCopy_eq_ok {candidate : Workspace Group Signer} {a b c : String}
    (h : mls.provisionalCopy workspace a b c = .ok candidate) :
    ∃ group signer, candidate = { workspace with group, signer } := by
  simp only [provisionalCopy, bind_eq_ok, pure_eq_ok] at h
  obtain ⟨_, _, group, _, signer, _, rfl⟩ := h
  exact ⟨group, signer, rfl⟩

theorem prepareWorkspaceNameUpdate_eq_ok
    (h : mls.prepareWorkspaceNameUpdate workspace record = .ok after) :
    ∃ previous next, mls.nameChange workspace record = .ok (previous, next) ∧
      after.provider = recordName workspace.provider previous next record := by
  simp only [prepareWorkspaceNameUpdate, bind_eq_ok, pure_eq_ok] at h
  obtain ⟨⟨previous, next⟩, hchange, candidate, hcandidate, history, _, rfl⟩ := h
  obtain ⟨group, signer, rfl⟩ := provisionalCopy_eq_ok hcandidate
  exact ⟨previous, next, hchange, rfl⟩

theorem prepareWorkspaceName_eq_ok {prepared : PreparedWorkspaceName Group Signer}
    (h : mls.prepareWorkspaceName workspace name = .ok prepared) :
    (∃ (statement : NameStatement) (rest : Bytes) (profile : MemberProfile),
      prepared.record = nameMagic ++ statement.encode ++ rest ∧
      workspace.member = some profile ∧ statement.author = profile.id ∧
      statement.epoch = mls.epoch workspace) ∧
    ∃ candidate checkpoint,
      mls.prepareWorkspaceNameUpdate workspace prepared.record = .ok candidate ∧
      prepared.workspace = { candidate with
        provider := candidate.provider.insert nameCheckpointRecord checkpoint } := by
  simp only [prepareWorkspaceName, statementOf, bind_eq_ok, orFail_eq_ok, pure_eq_ok] at h
  obtain ⟨_, _, _, _, _, _, _, _, profile, hprofile, _, ⟨_, _, _, _, rfl⟩, _, _, candidate,
    hcandidate, checkpoint, _, rfl⟩ := h
  exact ⟨⟨_, _, profile, List.append_assoc _ _ _, hprofile, rfl, rfl⟩, candidate, checkpoint,
    hcandidate, rfl⟩

theorem verifyWorkspaceNameCheckpoint_eq_ok {state : NameState}
    (h : mls.verifyWorkspaceNameCheckpoint workspace bytes = .ok state) :
    state.Valid ∧ ∃ statement name,
      Spells nameCheckpointMagic notCheckpoint workspace.id bytes statement name ∧
        state = ⟨statement.revision, statement.head, some name⟩ := by
  simp only [verifyWorkspaceNameCheckpoint, bind_eq_ok, failIf_eq_ok, orFail_eq_ok, pure_eq_ok,
    not_or, not_not] at h
  obtain ⟨⟨statement, rest⟩, hparse, name, hname, _, ⟨hrevision, hhead⟩, _, hvalid, _, ⟨rfl, _⟩, _,
    _, _, _, _, _, _, _, _, _, _, _, _, _, rfl⟩ := h
  exact ⟨.named hrevision hhead hvalid, statement, _, ⟨rest, hparse, hname⟩, rfl⟩

theorem prepareWorkspaceNameCheckpoint_eq_ok
    {prepared : PreparedWorkspaceNameCheckpoint Group Signer}
    (h : mls.prepareWorkspaceNameCheckpoint workspace bytes = .ok prepared) :
    ∃ state previous missing total candidate,
      mls.verifyWorkspaceNameCheckpoint workspace bytes = .ok state ∧
      nameState workspace.provider = .ok previous ∧
      previous.revision.val < state.revision.val ∧
      nameMissingHistory workspace.provider = .ok missing ∧
      total.val = missing.val + (state.revision.val - previous.revision.val) ∧
      (∃ a b c, mls.provisionalCopy workspace a b c = .ok candidate) ∧
      prepared.workspace = { candidate with
        provider := recordNameCheckpoint workspace.provider state bytes total } := by
  simp only [prepareWorkspaceNameCheckpoint, bind_eq_ok, failIf_eq_ok, orFail_eq_ok, pure_eq_ok,
    not_le] at h
  obtain ⟨state, hstate, previous, hprevious, _, hlt, missing, hmissing, total, htotal, candidate,
    hcandidate, rfl⟩ := h
  refine ⟨state, previous, missing, total, candidate, hstate, hprevious, hlt, hmissing, ?_,
    ⟨_, _, _, hcandidate⟩, ?_⟩
  · rw [checkedAdd_val htotal, Fin.sub_val_of_le (Fin.le_def.mpr hlt.le)]
  · obtain ⟨group, signer, rfl⟩ := provisionalCopy_eq_ok hcandidate
    rfl

end Mls

/-- The calls that change a workspace's name. -/
inductive NameCall where
  | prepare (name : String)
  | update (record : Bytes)
  | checkpoint (bytes : Bytes)

namespace Mls

variable {Group Signer Staged : Type} (mls : Mls Group Signer Staged)

def nameCall (workspace : Workspace Group Signer) : NameCall → Outcome (Workspace Group Signer)
  | .prepare name => do pure (← mls.prepareWorkspaceName workspace name).workspace
  | .update record => mls.prepareWorkspaceNameUpdate workspace record
  | .checkpoint bytes => do pure (← mls.prepareWorkspaceNameCheckpoint workspace bytes).workspace

/-- The record that a call adds to the chain, when it is accepted. -/
def addedRecord (workspace : Workspace Group Signer) : NameCall → Option Bytes
  | .prepare name => (mls.prepareWorkspaceName workspace name).toOption.map (·.record)
  | .update record => some record
  | .checkpoint _ => none

/-- The call, adopted when it is accepted and dropped when it fails. -/
def NameStep (before : Workspace Group Signer) (call : NameCall)
    (after : Workspace Group Signer) : Prop :=
  match mls.nameCall before call with
  | .ok accepted => after = accepted
  | .error _ => after = before

/-- The record that a call adds does not hash to the head that stands for no name. -/
def Hashes (workspace : Workspace Group Signer) (call : NameCall) : Prop :=
  ∀ record, mls.addedRecord workspace call = some record → mls.sha256 record ≠ zeroBlock 32

/-- The call is accepted and adds a record after a head that already has one after it. -/
def Overwrites (workspace : Workspace Group Signer) (call : NameCall) : Prop :=
  (mls.nameCall workspace call).isOk = true ∧ ∃ record previous next,
    mls.addedRecord workspace call = some record ∧
      mls.nameChange workspace record = .ok (previous, next) ∧
      (nextWorkspaceName workspace.provider previous.head).isSome = true

variable {mls} {workspace before after : Workspace Group Signer} {call : NameCall}
  {count : NameCount}

/-- What an accepted call does: it adds a record to the chain, or it jumps. -/
theorem nameCall_cases (h : mls.nameCall before call = .ok after) :
    (∃ record previous next, mls.addedRecord before call = some record ∧
      mls.nameChange before record = .ok (previous, next) ∧
      nameCount after.provider = nameCount (recordName before.provider previous next record) ∧
      ∀ head, nextWorkspaceName after.provider head =
        nextWorkspaceName (recordName before.provider previous next record) head) ∨
    (mls.addedRecord before call = none ∧
      ∃ bytes prepared, mls.prepareWorkspaceNameCheckpoint before bytes = .ok prepared ∧
        after = prepared.workspace) := by
  cases call with
  | prepare name =>
    simp only [nameCall, bind_eq_ok, pure_eq_ok] at h
    obtain ⟨prepared, hprepared, rfl⟩ := h
    obtain ⟨_, candidate, checkpoint, hcandidate, hworkspace⟩ :=
      prepareWorkspaceName_eq_ok hprepared
    obtain ⟨previous, next, hchange, hprovider⟩ := prepareWorkspaceNameUpdate_eq_ok hcandidate
    refine .inl ⟨prepared.record, previous, next, ?_, hchange, ?_, fun head => ?_⟩
    · rw [addedRecord, hprepared]
      rfl
    · rw [hworkspace, nameCount_insert_checkpoint, hprovider]
    · rw [hworkspace, next_insert_checkpoint, hprovider]
  | update record =>
    obtain ⟨previous, next, hchange, hprovider⟩ := prepareWorkspaceNameUpdate_eq_ok h
    refine .inl ⟨record, previous, next, rfl, hchange, ?_, fun head => ?_⟩
    · rw [hprovider]
    · rw [hprovider]
  | checkpoint bytes =>
    simp only [nameCall, bind_eq_ok, pure_eq_ok] at h
    obtain ⟨prepared, hprepared, rfl⟩ := h
    exact .inr ⟨rfl, bytes, prepared, hprepared, rfl⟩

theorem nameCount_record {record : Bytes} {previous next : NameState}
    (hcount : nameCount before.provider = .ok count)
    (hchange : mls.nameChange before record = .ok (previous, next))
    (hhash : mls.sha256 record ≠ zeroBlock 32) :
    count.state = previous ∧ next.revision.val = previous.revision.val + 1 ∧
      ∃ retained, nameCount (recordName before.provider previous next record) =
          .ok ⟨next, retained, count.missing⟩ ∧
        retained + (if (nextWorkspaceName before.provider previous.head).isSome then 1 else 0) =
          count.retained + 1 := by
  obtain ⟨hstate, hretained, hmissing⟩ := nameCount_eq_ok.mp hcount
  obtain ⟨statement, name, hchange⟩ := nameChange_eq_ok.mp hchange
  refine ⟨ok_unique hstate hchange.current, hchange.revision_val, _,
    nameCount_eq_ok.mpr ⟨?_, rfl, ?_⟩, ?_⟩
  · exact nameState_recordName (hchange.next_valid hhash)
  · rw [missing_recordName]
    exact hmissing
  · rw [hretained]
    exact retained_recordName

theorem nameCount_jump {bytes : Bytes} {prepared : PreparedWorkspaceNameCheckpoint Group Signer}
    (hcount : nameCount before.provider = .ok count)
    (h : mls.prepareWorkspaceNameCheckpoint before bytes = .ok prepared) :
    ∃ state total, nameCount prepared.workspace.provider = .ok ⟨state, count.retained, total⟩ ∧
      count.state.revision.val < state.revision.val ∧
      total.val = count.missing.val + (state.revision.val - count.state.revision.val) := by
  obtain ⟨hstate, hretained, hmissing⟩ := nameCount_eq_ok.mp hcount
  obtain ⟨state, previous, missing, total, candidate, hverified, hprevious, hlt, hmissing',
    htotal, _, hworkspace⟩ := prepareWorkspaceNameCheckpoint_eq_ok h
  obtain rfl := ok_unique hstate hprevious
  obtain rfl := ok_unique hmissing hmissing'
  refine ⟨state, total, nameCount_eq_ok.mpr ?_, hlt, htotal⟩
  rw [hworkspace]
  refine ⟨?_, ?_, missing_recordNameCheckpoint⟩
  · exact nameState_recordNameCheckpoint (verifyWorkspaceNameCheckpoint_eq_ok hverified).1
  · rw [filter_recordNameCheckpoint]
    exact hretained

/-- The name can be read, and a call leaves it so. -/
theorem nameCount_step (hcount : nameCount before.provider = .ok count)
    (hstep : mls.NameStep before call after) (hhash : mls.Hashes before call) :
    ∃ count', nameCount after.provider = .ok count' ∧
      count.state.revision.val ≤ count'.state.revision.val ∧
      ((mls.nameCall before call).isOk = true →
        count.state.revision.val < count'.state.revision.val) ∧
      ∀ baseline, count.Balanced baseline →
        (count'.Balanced baseline ↔ ¬ mls.Overwrites before call) := by
  rw [NameStep] at hstep
  cases hcall : mls.nameCall before call with
  | error message =>
    rw [hcall] at hstep
    obtain rfl : after = before := hstep
    refine ⟨count, hcount, le_rfl, fun h => (nomatch h), fun baseline hbalanced => ?_⟩
    simp [hbalanced, Overwrites, hcall, Except.isOk, Except.toBool]
  | ok accepted =>
    rw [hcall] at hstep
    obtain rfl : after = accepted := hstep
    rcases nameCall_cases hcall with ⟨record, previous, next, hadded, hchange, hafter, _⟩ |
      ⟨hadded, bytes, prepared, hprepared, rfl⟩
    · obtain ⟨rfl, hrevision, retained, hcount', hretained⟩ :=
        nameCount_record hcount hchange (hhash record hadded)
      have hlt : count.state.revision.val < next.revision.val := by omega
      refine ⟨_, hafter.trans hcount', hlt.le, fun _ => hlt, fun baseline hbalanced => ?_⟩
      have hoverwrites : mls.Overwrites before call ↔
          (nextWorkspaceName before.provider count.state.head).isSome = true := by
        constructor
        · rintro ⟨_, record', previous', next', hadded', hchange', hsome⟩
          obtain rfl := Option.some.inj (hadded.symm.trans hadded')
          obtain ⟨rfl, rfl⟩ := Prod.mk.inj (ok_unique hchange hchange')
          exact hsome
        · intro hsome
          exact ⟨by rw [hcall]; rfl, record, _, next, hadded, hchange, hsome⟩
      rw [hoverwrites]
      simp only [NameCount.Balanced] at hbalanced ⊢
      split at hretained
      · rename_i hsome
        simp only [hsome, not_true_eq_false, iff_false]
        omega
      · rename_i hsome
        rw [iff_true_right hsome]
        omega
    · obtain ⟨state, total, hcount', hlt, htotal⟩ := nameCount_jump hcount hprepared
      refine ⟨_, hcount', hlt.le, fun _ => hlt, fun baseline hbalanced => ?_⟩
      have hnot : ¬ mls.Overwrites before call := by
        rintro ⟨_, record, _, _, hadded', _⟩
        rw [hadded] at hadded'
        cases hadded'
      simp only [hnot, not_false_eq_true, iff_true]
      simp only [NameCount.Balanced] at hbalanced ⊢
      omega

end Mls

end Arachne.Security
