import Arachne.Security.ManagementAgreement
import Arachne.Security.NameLives

/-! The members of one workspace in one epoch, and the name that honest administrators give it:
the head of a chain determines the name, the chain and the revision, so a member that is behind
on another's chain catches up with it record by record. -/

namespace Arachne.Security

open Fallible ByteCodec Transition Mls

variable {Group Signer Staged : Type} {group : PublicGroup} {previous : NameState} {name : String}
  {texts : Set Bytes} {records records' : List Bytes} {chain : List NameState} {provider : Provider}

theorem map_boundId {members : List Member} {bindings : List Binding}
    (h : rosterBindings members = .ok bindings) :
    (members.map fun member => (binding member.credential).toOption.map Prod.fst) =
      bindings.map fun bound => some bound.1 := by
  have hall := mapM_eq_ok.mp h
  clear h
  induction hall with
  | nil => rfl
  | cons hbinding _ ih =>
    rw [List.map_cons, List.map_cons, hbinding, ih]
    rfl

variable {id : Block 32}

theorem ValidCheckpoint.eq_of_binding (h : ValidCheckpoint group) {member member' : Member}
    (hmember : member ∈ group.members) (hmember' : member' ∈ group.members)
    {endpoint endpoint' : Block 32} (hbinding : binding member.credential = .ok (id, endpoint))
    (hbinding' : binding member'.credential = .ok (id, endpoint')) : member = member' := by
  obtain ⟨bindings, hbindings, hdistinct, _⟩ := checkRoster_iff_distinctRoster.mp h.roster
  have hnodup : (group.members.map fun member =>
      (binding member.credential).toOption.map Prod.fst).Nodup := by
    rw [map_boundId hbindings]
    have hsome : (bindings.map fun bound => some bound.1) =
        (bindings.map Prod.fst).map some := by simp
    rw [hsome]
    exact hdistinct.map (Option.some_injective _)
  refine List.inj_on_of_nodup_map hnodup hmember hmember' ?_
  rw [hbinding, hbinding']
  rfl

theorem NameStatement.parse_encode {magic rest rest' : Bytes} {message : String}
    {statement statement' : NameStatement} (hmagic : magic.length = 5)
    (h : parse magic id message (magic ++ statement.encode ++ rest) = .ok (statement', rest')) :
    statement' = statement ∧ rest' = rest := by
  simp only [parse, bind_eq_ok, failIf_eq_ok, pure_eq_ok, Prod.mk.injEq] at h
  obtain ⟨_, _, _, hread, _, _, rfl, rfl⟩ := h
  rw [List.append_assoc, List.drop_left' hmagic, reads message statement rest] at hread
  obtain rfl := Except.ok.inj hread
  exact ⟨rfl, rfl⟩

theorem unsigned_append {bytes signature : Bytes} (h : signature.length = 64) :
    unsigned (bytes ++ signature) = bytes := by
  rw [unsigned, List.length_append, h, Nat.add_sub_cancel, List.take_left]

namespace Mls

variable {mls : Mls Group Signer Staged}

/-- A record of the current epoch that leads from one name to the next, whoever checks it. -/
structure CurrentChange (mls : Mls Group Signer Staged) (group : PublicGroup) (id : Block 32)
    (record : Bytes) (previous next : NameState) (statement : NameStatement) (name : String) :
    Prop where
  spells : Spells nameMagic notRecord id record statement name
  epoch : statement.epoch = group.context.epoch
  revision : checkedSucc previous.revision = some statement.revision
  head : statement.head = previous.head
  author : ∃ roster, group.memberRoster = .ok roster ∧
    isAdministrator roster statement.author = true
  valid : validateWorkspaceName name = .ok name
  changed : previous.name ≠ some name
  checked : mls.checkNameAuthor group statement record = .ok ()
  next : next = ⟨statement.revision, mls.sha256 record, some name⟩

variable {workspace other after : Workspace Group Signer} {record : Bytes} {next : NameState}
  {statement : NameStatement}

theorem CurrentChange.revision_val {id : Block 32}
    (h : mls.CurrentChange group id record previous next statement name) :
    next.revision.val = previous.revision.val + 1 := by
  rw [h.next]
  exact checkedSucc_val h.revision

theorem CurrentChange.nameChange
    (h : mls.CurrentChange (mls.publicGroup workspace.group) workspace.id record previous next
      statement name)
    (hcurrent : nameState workspace.provider = .ok previous)
    (hverifier : mls.verifierOf workspace = .ok (mls.publicGroup workspace.group)) :
    mls.nameChange workspace record = .ok (previous, next) := by
  refine nameChange_eq_ok.mpr ⟨statement, name, h.spells, hcurrent, h.revision, h.head, h.author,
    h.valid, h.changed, ⟨_, ?_, h.checked⟩, h.next⟩
  have hepoch : statement.epoch = mls.epoch workspace := h.epoch
  rw [nameAuthorityAt, if_pos hepoch]
  exact hverifier

theorem NameChange.toCurrent (laws : mls.Lawful) (sound : mls.Sound workspace)
    (h : mls.NameChange workspace record previous next statement name)
    (hepoch : statement.epoch = mls.epoch workspace) :
    mls.CurrentChange (mls.publicGroup workspace.group) workspace.id record previous next
      statement name ∧ mls.verifierOf workspace = .ok (mls.publicGroup workspace.group) := by
  obtain ⟨verifier, hverifier, hcheck⟩ := h.authority
  rw [nameAuthorityAt, if_pos hepoch] at hverifier
  obtain ⟨_, _, rfl⟩ := (verifierOf_eq_ok laws sound).mp hverifier
  exact ⟨⟨h.spells, hepoch, h.revision, h.head, h.author, h.valid, h.changed, hcheck, h.next⟩,
    hverifier⟩

theorem NameLaws.verifierOf (names : mls.NameLaws) (laws : mls.Lawful)
    (sound : mls.Sound workspace) (sound' : mls.Sound other)
    (hgroup : mls.publicGroup workspace.group = mls.publicGroup other.group)
    (h : mls.verifierOf workspace = .ok group) :
    mls.verifierOf other = .ok (mls.publicGroup other.group) := by
  obtain ⟨⟨bytes, hbytes, hsize⟩, hvalid, rfl⟩ := (verifierOf_eq_ok laws sound).mp h
  simp only [exportOwnState, bind_eq_ok, orFail_eq_ok] at hbytes
  obtain ⟨info, hinfo, hencoded⟩ := hbytes
  obtain ⟨info', bytes', hinfo', hencoded', hlength⟩ :=
    names.exported sound.ready sound'.ready hgroup hinfo hencoded
  refine (verifierOf_eq_ok laws sound').mpr ⟨⟨bytes', ?_, hlength ▸ hsize⟩, hgroup ▸ hvalid, rfl⟩
  simp only [exportOwnState, bind_eq_ok, orFail_eq_ok]
  exact ⟨info', hinfo', hencoded'⟩

/-- The name that a record gives. -/
def Names (mls : Mls Group Signer Staged) (record : Bytes) (state : NameState) : Prop :=
  ∃ id statement name, Spells nameMagic notRecord id record statement name ∧
    state = ⟨statement.revision, mls.sha256 record, some name⟩

/-- No name yet, or the name that one of the records gives. -/
def Recorded (mls : Mls Group Signer Staged) (texts : Set Bytes) (state : NameState) : Prop :=
  state = NameState.unnamed ∨ ∃ record ∈ texts, mls.Names record state

/-- The records of `texts` hash to heads of their own, none of them the head of no name. -/
structure HeadsApart (mls : Mls Group Signer Staged) (texts : Set Bytes) : Prop where
  injective : Set.InjOn mls.sha256 texts
  nonzero : ∀ record ∈ texts, mls.sha256 record ≠ zeroBlock 32

theorem Recorded.eq_of_head (hheads : mls.HeadsApart texts) {state state' : NameState}
    (h : mls.Recorded texts state) (h' : mls.Recorded texts state')
    (hhead : state.head = state'.head) : state = state' := by
  rcases h with rfl | ⟨record, hrecord, id, statement, name, hspells, rfl⟩
  · rcases h' with rfl | ⟨record', hrecord', _, _, _, _, rfl⟩
    · rfl
    · exact absurd hhead.symm (hheads.nonzero record' hrecord')
  · rcases h' with rfl | ⟨record', hrecord', id', statement', name', hspells', rfl⟩
    · exact absurd hhead (hheads.nonzero record hrecord)
    · obtain rfl := hheads.injective hrecord hrecord' hhead
      obtain ⟨rfl, rfl⟩ := hspells.unique hspells'
      rfl

theorem CurrentChange.recorded {id : Block 32} (hrecord : record ∈ texts)
    (h : mls.CurrentChange group id record previous next statement name) :
    mls.Recorded texts next :=
  .inr ⟨record, hrecord, id, statement, name, h.spells, h.next⟩

end Mls

/-- The name a workspace has; where it cannot be read, none. -/
def Workspace.currentName {Group Signer : Type} (workspace : Workspace Group Signer) :
    NameState :=
  (nameState workspace.provider).toOption.getD NameState.unnamed

namespace Mls

variable {mls : Mls Group Signer Staged} {id : Block 32} {workspace after : Workspace Group Signer}

/-- Every name of the chain but the last is led to, from the one before, by a record that is
retained after it. -/
def Linked (mls : Mls Group Signer Staged) (group : PublicGroup) (id : Block 32)
    (records : List Bytes) (provider : Provider) : List NameState → Prop
  | newer :: older :: rest =>
      (∃ record ∈ records, nextWorkspaceName provider older.head = some record ∧
        ∃ statement name, mls.CurrentChange group id record older newer statement name) ∧
      Linked mls group id records provider (older :: rest)
  | _ => True

theorem Linked.link_of_append {newer older : NameState} {rest front : List NameState}
    (h : mls.Linked group id records provider (front ++ newer :: older :: rest)) :
    ∃ record ∈ records, nextWorkspaceName provider older.head = some record ∧
      ∃ statement name, mls.CurrentChange group id record older newer statement name := by
  induction front with
  | nil => exact h.1
  | cons first front ih =>
    apply ih
    cases front with
    | nil => exact h.2
    | cons second front => exact h.2

theorem Linked.imp {provider' : Provider} (hrecords : ∀ record ∈ records, record ∈ records')
    (hnext : ∀ state ∈ chain.tail, ∀ record, nextWorkspaceName provider state.head = some record →
      nextWorkspaceName provider' state.head = some record)
    (h : mls.Linked group id records provider chain) :
    mls.Linked group id records' provider' chain := by
  induction chain with
  | nil => trivial
  | cons newer chain ih =>
    cases chain with
    | nil => trivial
    | cons older rest =>
      obtain ⟨⟨record, hrecord, hfound, hchange⟩, hrest⟩ := h
      refine ⟨⟨record, hrecords record hrecord, hnext older (by simp) record hfound, hchange⟩, ?_⟩
      apply ih _ hrest
      intro state hstate
      exact hnext state (List.mem_cons_of_mem _ hstate)

/-- Where a member stands with the name: what it holds agrees with what honest administrators
have recorded. -/
structure NameStanding (mls : Mls Group Signer Staged) (texts : Set Bytes) (group : PublicGroup)
    (id : Block 32) (records : List Bytes) (workspace : Workspace Group Signer)
    (chain : List NameState) : Prop where
  sound : mls.Sound workspace
  sameGroup : mls.publicGroup workspace.group = group
  sameId : workspace.id = id
  alone : mls.Alone workspace
  newest : ∃ rest, chain = workspace.currentName :: rest
  current : nameState workspace.provider = .ok workspace.currentName
  recorded : ∀ state ∈ chain, mls.Recorded texts state
  kept : ∀ head record, nextWorkspaceName workspace.provider head = some record →
    ∃ before, mls.Recorded texts before ∧ before.head = head ∧
      before.revision.val < workspace.currentName.revision.val
  linked : mls.Linked group id records workspace.provider chain

theorem NameStanding.mono (hrecords : ∀ record ∈ records, record ∈ records')
    (h : mls.NameStanding texts group id records workspace chain) :
    mls.NameStanding texts group id records' workspace chain :=
  { h with linked := h.linked.imp hrecords fun _ _ _ hfound => hfound }

theorem NameStanding.recorded_current
    (h : mls.NameStanding texts group id records workspace chain) :
    mls.Recorded texts workspace.currentName := by
  obtain ⟨rest, hchain⟩ := h.newest
  exact h.recorded _ (hchain ▸ List.mem_cons_self)

theorem NameStanding.next_current (hheads : mls.HeadsApart texts)
    (h : mls.NameStanding texts group id records workspace chain) :
    nextWorkspaceName workspace.provider workspace.currentName.head = none := by
  cases hnext : nextWorkspaceName workspace.provider workspace.currentName.head with
  | none => rfl
  | some record =>
    obtain ⟨before, hbefore, hhead, hlt⟩ := h.kept _ _ hnext
    rw [hbefore.eq_of_head hheads h.recorded_current hhead] at hlt
    exact absurd hlt (lt_irrefl _)

theorem currentName_of_ok {state : NameState} (h : nameState workspace.provider = .ok state) :
    workspace.currentName = state := by
  rw [Workspace.currentName, h]
  rfl

/-- A member takes over a record. -/
theorem NameStanding.extend (hheads : mls.HeadsApart texts) {record : Bytes} {next : NameState}
    {statement : NameStatement} (h : mls.NameStanding texts group id records workspace chain)
    (hrecord : record ∈ records) (htext : record ∈ texts)
    (hcurrent : nameState workspace.provider = .ok previous)
    (hchange : mls.CurrentChange group id record previous next statement name)
    (hrenames : mls.Renames workspace after) (hstate : nameState after.provider = .ok next)
    (hnext : ∀ head, nextWorkspaceName after.provider head =
      if previous.head = head then some record else nextWorkspaceName workspace.provider head) :
    mls.NameStanding texts group id records after (after.currentName :: chain) := by
  obtain rfl := currentName_of_ok hcurrent
  have hname : after.currentName = next := currentName_of_ok hstate
  have hlt : workspace.currentName.revision.val < after.currentName.revision.val := by
    rw [hname, hchange.revision_val]
    exact Nat.lt_succ_self _
  have hfresh := h.next_current hheads
  obtain ⟨rest, hchain⟩ := h.newest
  refine ⟨hrenames.sound h.sound, ?_, ?_, hrenames.alone h.alone, ⟨_, rfl⟩, hname ▸ hstate, ?_, ?_,
    ?_⟩
  · rw [hrenames.rest]
    exact h.sameGroup
  · rw [hrenames.rest]
    exact h.sameId
  · rw [List.forall_mem_cons, hname]
    exact ⟨hchange.recorded htext, h.recorded⟩
  · intro head found hfound
    rw [hnext] at hfound
    split at hfound
    · rename_i hhead
      exact ⟨_, h.recorded_current, hhead, hlt⟩
    · obtain ⟨before, hbefore, hhead, hbelow⟩ := h.kept _ _ hfound
      exact ⟨before, hbefore, hhead, hbelow.trans hlt⟩
  · subst hchain
    refine ⟨⟨record, hrecord, ?_, statement, name, hname ▸ hchange⟩, ?_⟩
    · rw [hnext, if_pos rfl]
    · refine h.linked.imp (fun _ hmem => hmem) ?_
      intro state _ found hfound
      rw [hnext, if_neg]
      · exact hfound
      · intro hhead
        rw [← hhead, hfresh] at hfound
        cases hfound

theorem NameStanding.jump {state : NameState}
    (h : mls.NameStanding texts group id records workspace chain)
    (hrecorded : mls.Recorded texts state) (hrenames : mls.Renames workspace after)
    (hstate : nameState after.provider = .ok state)
    (hlt : workspace.currentName.revision.val < state.revision.val)
    (hnext : ∀ head, nextWorkspaceName after.provider head =
      nextWorkspaceName workspace.provider head) :
    mls.NameStanding texts group id records after [after.currentName] := by
  have hname : after.currentName = state := currentName_of_ok hstate
  refine ⟨hrenames.sound h.sound, ?_, ?_, hrenames.alone h.alone, ⟨_, rfl⟩, hname ▸ hstate, ?_, ?_,
    trivial⟩
  · rw [hrenames.rest]
    exact h.sameGroup
  · rw [hrenames.rest]
    exact h.sameId
  · intro found hfound
    rw [List.mem_singleton.mp hfound, hname]
    exact hrecorded
  · intro head found hfound
    rw [hnext] at hfound
    obtain ⟨before, hbefore, hhead, hbelow⟩ := h.kept _ _ hfound
    exact ⟨before, hbefore, hhead, hbelow.trans (hname ▸ hlt)⟩

/-- The member made the record, in the current epoch, and has gone on from there. -/
def Made (mls : Mls Group Signer Staged) (group : PublicGroup) (id : Block 32) (record : Bytes)
    (workspace : Workspace Group Signer) : Prop :=
  ∃ previous next statement name profile,
    mls.CurrentChange group id record previous next statement name ∧
    workspace.member = some profile ∧ statement.author = profile.id ∧
    next.revision.val ≤ workspace.currentName.revision.val ∧ mls.verifierOf workspace = .ok group

variable {record : Bytes}

theorem Made.renames (h : mls.Made group id record workspace)
    (hrenames : mls.Renames workspace after)
    (hle : workspace.currentName.revision.val ≤ after.currentName.revision.val) :
    mls.Made group id record after := by
  obtain ⟨previous, next, statement, name, profile, hchange, hmember, hauthor, hrevision,
    hverifier⟩ := h
  refine ⟨previous, next, statement, name, profile, hchange, ?_, hauthor, hrevision.trans hle, ?_⟩
  · rw [hrenames.rest]
    exact hmember
  · rw [hrenames.rest]
    exact hverifier

/-- Where only one administrator is left, that member has made every record. -/
theorem Made.eq_alone (laws : mls.Lawful) {maker : Workspace Group Signer}
    (hmade : mls.Made group id record maker) (hmaker : mls.Sound maker)
    (hmakerGroup : mls.publicGroup maker.group = group) (sound : mls.Sound workspace)
    (hgroup : mls.publicGroup workspace.group = group)
    (halone : ∀ admins, authority group.extensions = .ok admins →
      admins = [mls.signerPublic workspace.signer]) :
    mls.ownLeafIndex maker.group = mls.ownLeafIndex workspace.group := by
  obtain ⟨_, _, statement, _, profile, hchange, hprofile, hauthor, _, hverifier⟩ := hmade
  obtain ⟨_, hvalid, _⟩ := (verifierOf_eq_ok laws hmaker).mp hverifier
  rw [hmakerGroup] at hvalid
  have hchecked := hchange.checked
  simp only [PublicMls.checkNameAuthor, bind_eq_ok, failIf_eq_ok, orFail_eq_ok, not_or,
    not_not] at hchecked
  obtain ⟨_, _, _, _, admins, hadmins, author, hfound, _, ⟨hadmin, _⟩, _⟩ := hchecked
  rw [halone admins hadmins, List.mem_singleton] at hadmin
  obtain ⟨own, hown, hindex, hcredential⟩ := hmaker.credential
  obtain ⟨leaf, hleaf, hleafIndex, hleafKey⟩ := sound.ready.own
  rw [hmakerGroup] at hown
  change leaf ∈ (mls.publicGroup workspace.group).members at hleaf
  rw [hgroup] at hleaf
  have hauthorMem : author ∈ group.members := List.mem_of_find?_eq_some hfound
  obtain ⟨endpoint, hbound⟩ := bindsId_iff.mp (List.find?_some hfound)
  obtain ⟨bound, hownBound⟩ := hvalid.exists_binding hown
  have hidentity := hownBound
  rw [hcredential] at hidentity
  obtain ⟨profile', hprofile', rfl⟩ := binding_credentialIdentity hidentity
  obtain rfl := Option.some.inj (hprofile.symm.trans hprofile')
  rw [hauthor] at hbound
  obtain rfl := hvalid.eq_of_binding hauthorMem hown hbound hownBound
  have hwell : group.WellFormed := hgroup ▸ sound.ready.wellFormed
  obtain rfl := List.inj_on_of_nodup_map hwell.signatureKeys hown hleaf (hadmin.trans hleafKey.symm)
  exact hindex.symm.trans hleafIndex

end Mls

/-- The members of a workspace, the records and checkpoints that they have signed, and the
names that each has had since its last jump, the newest first. -/
structure NameSystem (Index Group Signer : Type) where
  members : Index → Workspace Group Signer
  records : List Bytes
  checkpoints : List Bytes
  chains : Index → List NameState

inductive NameAct (Index : Type) where
  | call (i : Index) (call : NameCall)
  | sign (i : Index)

namespace NameSystem

variable {Index : Type} [DecidableEq Index]

def adopt (system : NameSystem Index Group Signer) (i : Index)
    (workspace : Workspace Group Signer) (chain : List NameState) :
    NameSystem Index Group Signer :=
  { system with
    members := Function.update system.members i workspace
    chains := Function.update system.chains i chain }

/-- A step with honest administrators: a record or a checkpoint is accepted only if one of them
has made it. No step changes the membership. -/
inductive HonestStep (mls : Mls Group Signer Staged) :
    NameSystem Index Group Signer → NameAct Index → NameSystem Index Group Signer → Prop where
  | prepared {system : NameSystem Index Group Signer} {i : Index} {name : String}
      {prepared : PreparedWorkspaceName Group Signer}
      (h : mls.prepareWorkspaceName (system.members i) name = .ok prepared) :
      HonestStep mls system (.call i (.prepare name))
        { system.adopt i prepared.workspace
            (prepared.workspace.currentName :: system.chains i) with
          records := prepared.record :: system.records }
  | updated {system : NameSystem Index Group Signer} {i : Index} {record : Bytes}
      {after : Workspace Group Signer} (hmade : record ∈ system.records)
      (h : mls.prepareWorkspaceNameUpdate (system.members i) record = .ok after) :
      HonestStep mls system (.call i (.update record))
        (system.adopt i after (after.currentName :: system.chains i))
  | jumped {system : NameSystem Index Group Signer} {i : Index} {bytes : Bytes}
      {prepared : PreparedWorkspaceNameCheckpoint Group Signer}
      (hsigned : bytes ∈ system.checkpoints)
      (h : mls.prepareWorkspaceNameCheckpoint (system.members i) bytes = .ok prepared) :
      HonestStep mls system (.call i (.checkpoint bytes))
        (system.adopt i prepared.workspace [prepared.workspace.currentName])
  | rejected {system : NameSystem Index Group Signer} {i : Index} {call : NameCall}
      {message : String} (h : mls.nameCall (system.members i) call = .error message) :
      HonestStep mls system (.call i call) system
  | signed {system : NameSystem Index Group Signer} {i : Index} {bytes : Bytes}
      (h : mls.signWorkspaceNameCheckpoint (system.members i) = .ok bytes) :
      HonestStep mls system (.sign i) { system with checkpoints := bytes :: system.checkpoints }

/-- The members are in one epoch of one workspace, with leaves of their own, each stands with
the name as honest administrators have left it, and what they have signed is recorded. -/
structure Honest (mls : Mls Group Signer Staged) (texts : Set Bytes) (group : PublicGroup)
    (id : Block 32) (system : NameSystem Index Group Signer) : Prop where
  standing : ∀ i, mls.NameStanding texts group id system.records (system.members i)
    (system.chains i)
  leaves : Function.Injective fun i => mls.ownLeafIndex (system.members i).group
  made : ∀ record ∈ system.records, record ∈ texts ∧
    ∃ i, mls.Made group id record (system.members i)
  signed : ∀ bytes ∈ system.checkpoints, ∀ id statement name,
    Spells nameCheckpointMagic notCheckpoint id bytes statement name →
      mls.Recorded texts ⟨statement.revision, statement.head, some name⟩

variable {mls : Mls Group Signer Staged} {id : Block 32}
  {system system' : NameSystem Index Group Signer} {act : NameAct Index}

section

variable (h : system.Honest mls texts group id)

include h

/-- A member goes on to another name, which it may have recorded itself; the others stay as
they are. -/
theorem Honest.adopt {i : Index} {after : Workspace Group Signer}
    (hrecords : ∀ record ∈ system.records, record ∈ records)
    (hnew : ∀ record ∈ records, record ∈ system.records ∨
      record ∈ texts ∧ mls.Made group id record after)
    (hrenames : mls.Renames (system.members i) after)
    (hle : (system.members i).currentName.revision.val ≤ after.currentName.revision.val)
    (hstanding : mls.NameStanding texts group id records after chain) :
    ({ system.adopt i after chain with records } :
      NameSystem Index Group Signer).Honest mls texts group id where
  standing j := by
    by_cases hj : j = i
    · subst hj
      simpa [NameSystem.adopt] using hstanding
    · simpa [NameSystem.adopt, hj] using (h.standing j).mono hrecords
  leaves := by
    have hleaf : ∀ j, mls.ownLeafIndex ((system.adopt i after chain).members j).group =
        mls.ownLeafIndex (system.members j).group := by
      intro j
      by_cases hj : j = i
      · subst hj
        simp only [NameSystem.adopt, Function.update_self]
        rw [hrenames.rest]
      · simp [NameSystem.adopt, hj]
    intro j k hjk
    apply h.leaves
    simpa only [hleaf] using hjk
  made record hrecord := by
    rcases hnew record hrecord with hold | ⟨htext, hmade⟩
    · obtain ⟨htext, j, hmade⟩ := h.made record hold
      refine ⟨htext, j, ?_⟩
      by_cases hj : j = i
      · subst hj
        simpa [NameSystem.adopt] using hmade.renames hrenames hle
      · simpa [NameSystem.adopt, hj] using hmade
    · refine ⟨htext, i, ?_⟩
      simpa [NameSystem.adopt] using hmade
  signed := h.signed

omit [DecidableEq Index] in
/-- A record of the current epoch, accepted by a member that stands with the name. -/
theorem Honest.accepted (laws : mls.Lawful) (hheads : mls.HeadsApart texts)
    {i : Index} {record : Bytes} (htext : record ∈ texts) {candidate : Workspace Group Signer}
    (hupdate : mls.prepareWorkspaceNameUpdate (system.members i) record = .ok candidate)
    (hepoch : ∀ statement name,
      Spells nameMagic notRecord (system.members i).id record statement name →
        statement.epoch = group.context.epoch) :
    ∃ previous next statement name,
      nameState (system.members i).provider = .ok previous ∧
      mls.CurrentChange group id record previous next statement name ∧
      mls.verifierOf (system.members i) = .ok group ∧
      ∀ {after : Workspace Group Signer}, (after = candidate ∨ ∃ checkpoint, after =
          { candidate with
            provider := candidate.provider.insert nameCheckpointRecord checkpoint }) →
        mls.Renames (system.members i) after ∧ nameState after.provider = .ok next ∧
        (∀ records, (∀ known ∈ system.records, known ∈ records) → record ∈ records →
          mls.NameStanding texts group id records after
            (after.currentName :: system.chains i)) := by
  have hstanding := h.standing i
  obtain ⟨previous, next, history, hchange, hhistory, rfl⟩ :=
    hstanding.sound.nameUpdate_iff.mp hupdate
  obtain ⟨statement, name, hchange⟩ := nameChange_eq_ok.mp hchange
  have hnow : statement.epoch = mls.epoch (system.members i) := by
    rw [hepoch statement name hchange.spells, Mls.epoch, hstanding.sameGroup]
  obtain ⟨hcurrent, hverifier⟩ := hchange.toCurrent laws hstanding.sound hnow
  rw [hstanding.sameGroup] at hcurrent hverifier
  rw [hstanding.sameId] at hcurrent
  refine ⟨previous, next, statement, name, hchange.current, hcurrent, hverifier, ?_⟩
  intro after hafter
  have hvalid := hchange.next_valid (hheads.nonzero record htext)
  have hreads : mls.ReadsAlike (system.members i).provider
      (recordName (system.members i).provider previous next record) :=
    readsAlike_recordName laws _
  have hshape : ∃ provider, mls.ReadsAlike (system.members i).provider provider ∧
      nameState provider = .ok next ∧
      (∀ head, nextWorkspaceName provider head = if previous.head = head then some record
        else nextWorkspaceName (system.members i).provider head) ∧
      after = { system.members i with provider, joinHistory := some history } := by
    rcases hafter with rfl | ⟨checkpoint, rfl⟩
    · exact ⟨_, hreads, nameState_recordName hvalid, next_recordName, rfl⟩
    · have hrecord : isApplicationRecord nameCheckpointRecord := ⟨_, rfl⟩
      refine ⟨_, readsAlike_insert laws hrecord hreads, ?_, ?_, rfl⟩
      · rw [nameState_insert_checkpoint]
        exact nameState_recordName hvalid
      · intro head
        rw [next_insert_checkpoint]
        exact next_recordName head
  obtain ⟨provider, halike, hstate, hnext, rfl⟩ := hshape
  have hrenames : mls.Renames (system.members i)
      { system.members i with provider, joinHistory := some history } :=
    ⟨rfl, halike, .inr ⟨history, hhistory, rfl⟩⟩
  refine ⟨hrenames, hstate, fun records hrecords hmade => ?_⟩
  exact (hstanding.mono hrecords).extend hheads hmade htext hchange.current hcurrent hrenames
    hstate hnext

theorem Honest.prepared (laws : mls.Lawful) (hheads : mls.HeadsApart texts)
    {i : Index} {prepared : PreparedWorkspaceName Group Signer}
    (hprepared : mls.prepareWorkspaceName (system.members i) name = .ok prepared)
    (htext : prepared.record ∈ texts) :
    ({ system.adopt i prepared.workspace (prepared.workspace.currentName :: system.chains i) with
        records := prepared.record :: system.records } :
      NameSystem Index Group Signer).Honest mls texts group id := by
  obtain ⟨⟨statement, rest, profile, hrecord, hprofile, hauthor, hepoch⟩, candidate, checkpoint,
    hupdate, hworkspace⟩ := prepareWorkspaceName_eq_ok hprepared
  have hspells : ∀ statement' name', Spells nameMagic notRecord (system.members i).id
      prepared.record statement' name' → statement' = statement := by
    rintro statement' name' ⟨rest', hparse, _⟩
    rw [hrecord] at hparse
    exact (NameStatement.parse_encode rfl hparse).1
  obtain ⟨previous, next, statement', name', hprevious, hchange, hverifier, hafter⟩ :=
    h.accepted laws hheads htext hupdate (by
      intro statement' name' hspelled
      rw [hspells statement' name' hspelled, hepoch, Mls.epoch, (h.standing i).sameGroup])
  obtain ⟨hrenames, hstate, hstanding⟩ := hafter (.inr ⟨checkpoint, hworkspace⟩)
  have hle : (system.members i).currentName.revision.val ≤
      prepared.workspace.currentName.revision.val := by
    rw [currentName_of_ok hprevious, currentName_of_ok hstate, hchange.revision_val]
    exact Nat.le_succ _
  have hmade : mls.Made group id prepared.record prepared.workspace := by
    refine ⟨previous, next, statement', name', profile, hchange, ?_, ?_, ?_, ?_⟩
    · rw [hrenames.rest]
      exact hprofile
    · have hid := (h.standing i).sameId
      rw [hspells statement' name' (hid ▸ hchange.spells)]
      exact hauthor
    · rw [currentName_of_ok hstate]
    · rw [hrenames.rest]
      exact hverifier
  refine h.adopt (fun known hknown => List.mem_cons_of_mem _ hknown) ?_ hrenames hle
    (hstanding _ (fun known hknown => List.mem_cons_of_mem _ hknown) List.mem_cons_self)
  intro record hmem
  rcases List.mem_cons.mp hmem with rfl | hold
  · exact .inr ⟨htext, hmade⟩
  · exact .inl hold

theorem Honest.updated (laws : mls.Lawful) (hheads : mls.HeadsApart texts)
    {i : Index} {record : Bytes} {after : Workspace Group Signer} (hmade : record ∈ system.records)
    (hupdate : mls.prepareWorkspaceNameUpdate (system.members i) record = .ok after) :
    (system.adopt i after (after.currentName :: system.chains i)).Honest mls texts group id := by
  obtain ⟨htext, j, _, _, statement, name, _, hmadeChange, _⟩ := h.made record hmade
  obtain ⟨previous, next, statement', name', hprevious, hchange, _, hafter⟩ :=
    h.accepted laws hheads htext hupdate (by
      intro statement' name' hspelled
      rw [(hspelled.unique hmadeChange.spells).1]
      exact hmadeChange.epoch)
  obtain ⟨hrenames, hstate, hstanding⟩ := hafter (.inl rfl)
  refine h.adopt (fun _ hknown => hknown) (fun _ hknown => .inl hknown) hrenames ?_
    (hstanding _ (fun _ hknown => hknown) hmade)
  rw [currentName_of_ok hprevious, currentName_of_ok hstate, hchange.revision_val]
  exact Nat.le_succ _

theorem Honest.jumped (laws : mls.Lawful) {i : Index} {bytes : Bytes}
    {prepared : PreparedWorkspaceNameCheckpoint Group Signer} (hsigned : bytes ∈ system.checkpoints)
    (hjump : mls.prepareWorkspaceNameCheckpoint (system.members i) bytes = .ok prepared) :
    (system.adopt i prepared.workspace [prepared.workspace.currentName]).Honest
      mls texts group id := by
  have hstanding := h.standing i
  obtain ⟨state, previous, missing, total, candidate, hverified, hprevious, hlt, _, _,
    ⟨a, b, c, hcopy⟩, hworkspace⟩ := prepareWorkspaceNameCheckpoint_eq_ok hjump
  rw [hstanding.sound.provisionalCopy] at hcopy
  obtain rfl := Except.ok.inj hcopy
  obtain ⟨hvalid, statement, name, hspells, rfl⟩ :=
    verifyWorkspaceNameCheckpoint_eq_ok hverified
  obtain rfl := currentName_of_ok hprevious
  have hrenames : mls.Renames (system.members i) prepared.workspace := by
    rw [hworkspace]
    exact ⟨rfl, readsAlike_recordNameCheckpoint laws _, .inl rfl⟩
  have hstate : nameState prepared.workspace.provider =
      .ok ⟨statement.revision, statement.head, some name⟩ := by
    rw [hworkspace]
    exact nameState_recordNameCheckpoint hvalid
  refine h.adopt (fun _ hknown => hknown) (fun _ hknown => .inl hknown) hrenames ?_ ?_
  · rw [currentName_of_ok hstate]
    exact hlt.le
  · refine hstanding.jump (h.signed bytes hsigned _ statement name hspells) hrenames hstate hlt ?_
    intro head
    rw [hworkspace]
    exact next_congr filter_recordNameCheckpoint head

end

theorem signWorkspaceNameCheckpoint_eq_ok {workspace : Workspace Group Signer} {bytes : Bytes}
    (h : mls.signWorkspaceNameCheckpoint workspace = .ok bytes) :
    ∃ (state : NameState) (statement : NameStatement) (name : String) (signature : Bytes),
      nameState workspace.provider = .ok state ∧ state.name = some name ∧
      statement.revision = state.revision ∧ statement.head = state.head ∧
      mls.sign workspace.signer (nameCheckpointMagic ++ statement.encode ++ utf8 name) =
        some signature ∧
      bytes = nameCheckpointMagic ++ statement.encode ++ (utf8 name ++ signature) := by
  simp only [signWorkspaceNameCheckpoint, statementOf, bind_eq_ok, orFail_eq_ok,
    pure_eq_ok] at h
  obtain ⟨state, hstate, _, _, name, hname, _, _, _, _, _, ⟨_, _, _, _, rfl⟩, signature, hsign,
    rfl⟩ := h
  exact ⟨state, _, name, signature, hstate, hname, rfl, rfl, hsign, List.append_assoc _ _ _⟩

omit [DecidableEq Index] in
theorem Honest.signs (names : mls.NameLaws) (h : system.Honest mls texts group id) {i : Index}
    {bytes : Bytes} (hsign : mls.signWorkspaceNameCheckpoint (system.members i) = .ok bytes) :
    ({ system with checkpoints := bytes :: system.checkpoints } :
      NameSystem Index Group Signer).Honest mls texts group id := by
  refine { h with signed := ?_ }
  intro known hknown id' statement' name' hspells
  rcases List.mem_cons.mp hknown with rfl | hold
  · obtain ⟨state, statement, name, signature, hstate, hname, hrevision, hhead, hsigned, rfl⟩ :=
      signWorkspaceNameCheckpoint_eq_ok hsign
    obtain ⟨rest, hparse, htext⟩ := hspells
    obtain ⟨rfl, rfl⟩ := NameStatement.parse_encode rfl hparse
    rw [unsigned_append (names.signature hsigned), fromUtf8_utf8] at htext
    obtain rfl := Option.some.inj htext
    have hrecorded := (h.standing i).recorded_current
    rw [currentName_of_ok hstate] at hrecorded
    obtain ⟨revision, head, _⟩ := state
    obtain rfl : _ = some name := hname
    rw [hrevision, hhead]
    exact hrecorded
  · exact h.signed known hold id' statement' name' hspells

theorem Honest.step (laws : mls.Lawful) (names : mls.NameLaws) (hheads : mls.HeadsApart texts)
    (h : system.Honest mls texts group id) (hstep : HonestStep mls system act system')
    (htexts : ∀ record ∈ system'.records, record ∈ texts) :
    system'.Honest mls texts group id := by
  cases hstep with
  | prepared hprepared =>
    exact h.prepared laws hheads hprepared (htexts _ List.mem_cons_self)
  | updated hmade hupdate => exact h.updated laws hheads hmade hupdate
  | jumped hsigned hjump => exact h.jumped laws hsigned hjump
  | rejected _ => exact h
  | signed hsign => exact h.signs names hsign

theorem HonestStep.records_subset (hstep : HonestStep mls system act system') :
    ∀ record ∈ system.records, record ∈ system'.records := by
  cases hstep with
  | prepared _ => exact fun record hrecord => List.mem_cons_of_mem _ hrecord
  | updated _ _ => exact fun record hrecord => hrecord
  | jumped _ _ => exact fun record hrecord => hrecord
  | rejected _ => exact fun record hrecord => hrecord
  | signed _ => exact fun record hrecord => hrecord

theorem run_records_subset {trace : List (Taken (NameSystem Index Group Signer) (NameAct Index))}
    (hrun : Run (HonestStep mls) system trace system') :
    (∀ record ∈ system.records, record ∈ system'.records) ∧
      ∀ taken ∈ trace, ∀ record ∈ taken.after.records, record ∈ system'.records := by
  induction hrun with
  | nil => exact ⟨fun record hrecord => hrecord, by simp⟩
  | cons hstep _ ih =>
    refine ⟨fun record hrecord => ih.1 record (hstep.records_subset record hrecord), ?_⟩
    rw [List.forall_mem_cons]
    exact ⟨ih.1, ih.2⟩

theorem Honest.run (laws : mls.Lawful) (names : mls.NameLaws) (hheads : mls.HeadsApart texts)
    {trace : List (Taken (NameSystem Index Group Signer) (NameAct Index))}
    (h : system.Honest mls texts group id) (hrun : Run (HonestStep mls) system trace system')
    (htexts : ∀ record ∈ system'.records, record ∈ texts) :
    system'.Honest mls texts group id ∧ ∀ taken ∈ trace,
      taken.before.Honest mls texts group id ∧ HonestStep mls taken.before taken.label taken.after ∧
        taken.after.Honest mls texts group id := by
  refine hrun.guarded (P := Honest mls texts group id)
    (C := fun taken => ∀ record ∈ taken.after.records, record ∈ texts) ?_ h ?_
  · intro before act after hbefore hstep hrecords
    exact hbefore.step laws names hheads hstep hrecords
  · intro taken htaken record hrecord
    exact htexts record ((run_records_subset hrun).2 taken htaken record hrecord)

/-- What `i` gives a member for the next step of the name. -/
def nextFrom (system : NameSystem Index Group Signer) (i : Index)
    (workspace : Workspace Group Signer) : Outcome (Option Bytes) := do
  let state ← nameState workspace.provider
  pure (nextWorkspaceName (system.members i).provider state.head)

/-- Where a member is on its way along the chain of `i`, so many names from its end. -/
structure Behind (mls : Mls Group Signer Staged) (system : NameSystem Index Group Signer)
    (group : PublicGroup) (id : Block 32) (i j : Index) (distance : Nat)
    (workspace : Workspace Group Signer) : Prop where
  sound : mls.Sound workspace
  sameGroup : mls.publicGroup workspace.group = group
  sameId : workspace.id = id
  started : workspace.joinHistory = none → workspace = system.members j
  onChain : ∃ newer state older, system.chains i = newer ++ state :: older ∧
    newer.length = distance ∧ nameState workspace.provider = .ok state

variable {i j : Index} {distance : Nat} {workspace : Workspace Group Signer}

omit [DecidableEq Index] in
theorem Behind.done (hheads : mls.HeadsApart texts) (h : system.Honest mls texts group id)
    (hbehind : Behind mls system group id i j 0 workspace) :
    nameState workspace.provider = nameState (system.members i).provider ∧
      system.nextFrom i workspace = .ok none := by
  obtain ⟨newer, state, older, hchain, hlength, hstate⟩ := hbehind.onChain
  obtain rfl := List.length_eq_zero_iff.mp hlength
  obtain ⟨rest, hnewest⟩ := (h.standing i).newest
  obtain ⟨rfl, rfl⟩ := List.cons.inj (hnewest.symm.trans hchain)
  refine ⟨hstate.trans (h.standing i).current.symm, ?_⟩
  rw [nextFrom, hstate, ok_bind, (h.standing i).next_current hheads]
  rfl

omit [DecidableEq Index] in
/-- The history is there, or can be started, wherever a record is still to be taken over. -/
theorem Behind.history (laws : mls.Lawful) (h : system.Honest mls texts group id)
    (hbehind : Behind mls system group id i j distance workspace) {record : Bytes}
    {next : NameState} {statement : NameStatement} (hrecord : record ∈ system.records)
    (hchange : mls.CurrentChange group id record previous next statement name)
    (hstate : nameState workspace.provider = .ok previous) :
    ∃ history, mls.startedHistory workspace = .ok history := by
  rw [startedHistory]
  cases hhistory : workspace.joinHistory with
  | some history => exact ⟨history, rfl⟩
  | none =>
    exfalso
    obtain rfl := hbehind.started hhistory
    obtain ⟨_, k, hmade⟩ := h.made record hrecord
    have halone := (h.standing j).alone hhistory
    rw [extensions, (h.standing j).sameGroup] at halone
    have hleaf := hmade.eq_alone laws (h.standing k).sound (h.standing k).sameGroup
      (h.standing j).sound (h.standing j).sameGroup halone
    obtain rfl := h.leaves hleaf
    obtain ⟨_, next', statement', name', _, hchange', _, _, hrevision, _⟩ := hmade
    obtain ⟨rfl, rfl⟩ := hchange.spells.unique hchange'.spells
    rw [currentName_of_ok hstate, hchange'.next] at hrevision
    have hsucc := checkedSucc_val hchange.revision
    dsimp only at hrevision
    omega

omit [DecidableEq Index] in
/-- The next record on the chain is accepted. -/
theorem Behind.round (laws : mls.Lawful) (names : mls.NameLaws) (hheads : mls.HeadsApart texts)
    (h : system.Honest mls texts group id)
    (hbehind : Behind mls system group id i j (distance + 1) workspace) :
    ∃ record after, system.nextFrom i workspace = .ok (some record) ∧
      mls.prepareWorkspaceNameUpdate workspace record = .ok after ∧
      Behind mls system group id i j distance after := by
  obtain ⟨newer, state, older, hchain, hlength, hstate⟩ := hbehind.onChain
  obtain ⟨front, last, rfl⟩ : ∃ front last, newer = front ++ [last] := by
    rcases List.eq_nil_or_concat newer with rfl | ⟨front, last, rfl⟩
    · cases hlength
    · exact ⟨front, last, List.concat_eq_append⟩
  have hlinked := (h.standing i).linked
  rw [hchain, List.append_assoc] at hlinked
  obtain ⟨record, hrecord, hnext, statement, name, hchange⟩ := Linked.link_of_append hlinked
  obtain ⟨htext, k, _, _, _, _, _, _, _, _, _, hverifier⟩ := h.made record hrecord
  have hown := names.verifierOf laws (h.standing k).sound hbehind.sound
    ((h.standing k).sameGroup.trans hbehind.sameGroup.symm) hverifier
  have hcurrent : mls.CurrentChange (mls.publicGroup workspace.group) workspace.id record state
      last statement name := by
    rw [hbehind.sameGroup, hbehind.sameId]
    exact hchange
  have hchanged := hcurrent.nameChange hstate hown
  obtain ⟨history, hhistory⟩ := hbehind.history laws h hrecord hchange hstate
  have hupdate := hbehind.sound.nameUpdate_iff.mpr ⟨state, last, history, hchanged, hhistory, rfl⟩
  have hrenames := hbehind.sound.update_renames laws hupdate
  refine ⟨record, _, ?_, hupdate, hrenames.sound hbehind.sound, hbehind.sameGroup,
    hbehind.sameId, fun hnone => (nomatch hnone), front, last, state :: older, ?_, ?_, ?_⟩
  · rw [nextFrom, hstate, ok_bind, hnext]
    rfl
  · rw [hchain, List.append_assoc]
    rfl
  · simpa using hlength
  · obtain ⟨_, _, hvalid⟩ := nameChange_eq_ok.mp hchanged
    exact nameState_recordName (hvalid.next_valid (hheads.nonzero record htext))

omit [DecidableEq Index] in
/-- A member whose head is on the chain of another catches up with it. -/
theorem Honest.catchUp (laws : mls.Lawful) (names : mls.NameLaws)
    (hheads : mls.HeadsApart texts) (h : system.Honest mls texts group id) (i j : Index)
    (hhead : ∃ state ∈ system.chains i, state.head = (system.members j).currentName.head)
    (rounds : Nat) :
    ∃ after, catchUp (system.nextFrom i) mls.prepareWorkspaceNameUpdate rounds
        (system.members j) = .ok after ∧
      ((system.chains i).length ≤ rounds →
        nameState after.provider = nameState (system.members i).provider ∧
          system.nextFrom i after = .ok none) := by
  obtain ⟨state, hmem, hhead⟩ := hhead
  have hsame : state = (system.members j).currentName :=
    ((h.standing i).recorded state hmem).eq_of_head hheads (h.standing j).recorded_current hhead
  obtain ⟨newer, older, hchain⟩ := List.append_of_mem hmem
  have hstart : Behind mls system group id i j newer.length (system.members j) :=
    ⟨(h.standing j).sound, (h.standing j).sameGroup, (h.standing j).sameId, fun _ => rfl, newer,
      state, older, hchain, rfl, hsame ▸ (h.standing j).current⟩
  obtain ⟨after, hafter, hbehind⟩ := catchUp_ok (P := Behind mls system group id i j)
    (fun _ hdone => (hdone.done hheads h).2)
    (fun _ _ hround => hround.round laws names hheads h) hstart rounds
  refine ⟨after, hafter, fun hrounds => ?_⟩
  have hlength : newer.length ≤ rounds := by
    rw [hchain, List.length_append] at hrounds
    omega
  rw [Nat.sub_eq_zero_of_le hlength] at hbehind
  exact hbehind.done hheads h

/-- Members of one workspace in one epoch, before any of them changes the name: each has lived
its own life so far, and what they hold of the name was recorded by honest administrators. -/
structure Gathered (mls : Mls Group Signer Staged) (texts : Set Bytes)
    (system : NameSystem Index Group Signer) : Prop where
  lived : ∀ i, mls.Reachable (system.members i)
  together : ∀ i j, mls.publicGroup (system.members i).group =
    mls.publicGroup (system.members j).group
  leaves : Function.Injective fun i => mls.ownLeafIndex (system.members i).group
  unsigned : system.records = [] ∧ system.checkpoints = []
  chains : ∀ i, system.chains i = [(system.members i).currentName]
  recorded : ∀ i, mls.Recorded texts (system.members i).currentName
  kept : ∀ i head record, nextWorkspaceName (system.members i).provider head = some record →
    ∃ before, mls.Recorded texts before ∧ before.head = head ∧
      before.revision.val < (system.members i).currentName.revision.val

omit [DecidableEq Index] in
theorem Gathered.honest (laws : mls.Lawful)
    (h : system.Gathered mls texts) (i : Index) :
    system.Honest mls texts (mls.publicGroup (system.members i).group) (system.members i).id where
  standing j := by
    have hsettled := (h.lived j).settled laws
    have sound := hsettled.consistent.sound
    obtain ⟨count, hcount⟩ := hsettled.counted
    have hstate := (nameCount_eq_ok.mp hcount).1
    refine ⟨sound, h.together j i, ?_, hsettled.alone, ⟨[], h.chains j⟩, ?_, ?_, h.kept j, ?_⟩
    · have hother := ((h.lived i).settled laws).consistent.sound.groupId
      rw [h.together i j, sound.groupId] at hother
      exact Subtype.ext hother
    · rw [currentName_of_ok hstate]
      exact hstate
    · intro state hmem
      rw [h.chains j, List.mem_singleton] at hmem
      exact hmem ▸ h.recorded j
    · rw [h.chains j]
      trivial
  leaves := h.leaves
  made record hrecord := by
    rw [h.unsigned.1] at hrecord
    cases hrecord
  signed bytes hbytes := by
    rw [h.unsigned.2] at hbytes
    cases hbytes

omit [DecidableEq Index] in
theorem Honest.not_overwrites (hheads : mls.HeadsApart texts)
    (h : system.Honest mls texts group id) (i : Index) (call : NameCall) :
    ¬ mls.Overwrites (system.members i) call := by
  rintro ⟨_, record, previous, next, _, hchange, hsome⟩
  obtain ⟨statement, name, hchange⟩ := nameChange_eq_ok.mp hchange
  rw [← currentName_of_ok hchange.current, (h.standing i).next_current hheads] at hsome
  cases hsome

end NameSystem

namespace Mls

variable {mls : Mls Group Signer Staged} {start last : Workspace Group Signer}
  {trace : List (Taken (Workspace Group Signer) (WorkspaceEvent ⊕ NameCall))}

/-- The revision is made up of its parts. -/
def Balances (baseline : U64) (workspace : Workspace Group Signer) : Prop :=
  ∃ count, nameCount workspace.provider = .ok count ∧ count.Balanced baseline

variable {before after : Workspace Group Signer} {label : WorkspaceEvent ⊕ NameCall}

theorem balances_step (laws : mls.Lawful) {baseline : U64} (h : mls.Settled before)
    (hbalances : Balances baseline before) (hlives : mls.Lives before label after) :
    Balances baseline after ↔ ∀ call, label = .inr call → ¬ mls.Overwrites before call := by
  obtain ⟨count, hcount, hbalanced⟩ := hbalances
  cases hlives with
  | moved hadvances =>
    have hsame := (hadvances.apart laws h.consistent.sound).1
    constructor
    · intro _ call hlabel
      cases hlabel
    · intro _
      exact ⟨count, hsame.trans hcount, hbalanced⟩
  | @named _ call hstep hhash =>
    obtain ⟨count', hcount', _, _, hiff⟩ := nameCount_step hcount hstep hhash
    constructor
    · rintro ⟨found, hfound, hfoundBalanced⟩ _ ⟨⟩
      obtain rfl := ok_unique hcount' hfound
      exact (hiff baseline hbalanced).mp hfoundBalanced
    · intro hnot
      exact ⟨count', hcount', (hiff baseline hbalanced).mpr (hnot call rfl)⟩

/-- What a step of a life does to the revision, and that the name can be read before it and
after it. -/
theorem name_step (laws : mls.Lawful) (h : mls.Settled before)
    (hlives : mls.Lives before label after) :
    ∃ state state', nameState before.provider = .ok state ∧
      nameState after.provider = .ok state' ∧
      NameState.decode state'.encode = .ok state' ∧
      state.revision.val ≤ state'.revision.val ∧
      ∀ call, label = .inr call →
        ((mls.nameCall before call).isOk = true → state.revision.val < state'.revision.val) ∧
        ∀ message, mls.nameCall before call = .error message → after = before := by
  obtain ⟨count, hcount⟩ := h.counted
  obtain ⟨count', hcount'⟩ := (h.lives laws hlives).counted
  have hstate := (nameCount_eq_ok.mp hcount).1
  have hstate' := (nameCount_eq_ok.mp hcount').1
  have hvalid : count'.state.Valid := by
    rw [nameState] at hstate'
    split at hstate'
    · exact NameState.valid_of_decode hstate'
    · rw [← pure_eq_ok.mp hstate']
      exact .unnamed
  refine ⟨count.state, count'.state, hstate, hstate', NameState.decode_encode hvalid, ?_⟩
  cases hlives with
  | moved hadvances =>
    have hsame := (hadvances.apart laws h.consistent.sound).1
    obtain rfl := ok_unique (hsame.trans hcount) hcount'
    exact ⟨le_rfl, fun call hlabel => by cases hlabel⟩
  | @named _ call hstep hhash =>
    obtain ⟨found, hfound, hle, hlt, _⟩ := nameCount_step hcount hstep hhash
    obtain rfl := ok_unique hcount' hfound
    refine ⟨hle, ?_⟩
    rintro _ ⟨⟩
    refine ⟨hlt, fun message herror => ?_⟩
    rw [NameStep, herror] at hstep
    exact hstep

end Mls

open NameSystem in
/-- The chain of a workspace's name. In every life of a workspace the revision never decreases,
strictly increases with each accepted change, and stands still when a call fails. It is made up
of the join's revision, the retained records and the missing ones for as long as no accepted
record extends a head that has a retained record after it. With honest administrators none does,
and a member whose head is on another's chain since its last jump catches up with it. -/
theorem workspace_name_chain {Group Signer Staged : Type} {mls : Mls Group Signer Staged}
    (laws : mls.Lawful) (names : mls.NameLaws) :
    (∀ start trace last, mls.Started start → Run mls.Lives start trace last →
      (∀ taken ∈ trace, ∃ state state', nameState taken.before.provider = .ok state ∧
        nameState taken.after.provider = .ok state' ∧
        NameState.decode state'.encode = .ok state' ∧
        state.revision.val ≤ state'.revision.val ∧
        ∀ call, taken.label = .inr call →
          ((mls.nameCall taken.before call).isOk = true →
            state.revision.val < state'.revision.val) ∧
          ∀ message, mls.nameCall taken.before call = .error message →
            taken.after = taken.before) ∧
      ∃ baseline, nameState start.provider = .ok baseline ∧
        ((∀ taken ∈ trace, Balances baseline.revision taken.after) ↔
          ∀ taken ∈ trace, ∀ call, taken.label = .inr call →
            ¬ mls.Overwrites taken.before call)) ∧
    ∀ (Index : Type) [DecidableEq Index] (texts : Set Bytes)
      (system last : NameSystem Index Group Signer)
      (trace : List (Taken (NameSystem Index Group Signer) (NameAct Index))),
      mls.HeadsApart texts → system.Gathered mls texts → Run (HonestStep mls) system trace last →
      (∀ record ∈ last.records, record ∈ texts) →
      (∀ taken ∈ trace, ∀ i call, taken.label = .call i call →
        ¬ mls.Overwrites (taken.before.members i) call) ∧
      ∀ i j, (∃ state ∈ last.chains i, state.head = (last.members j).currentName.head) →
        ∀ rounds, ∃ after,
          catchUp (last.nextFrom i) mls.prepareWorkspaceNameUpdate rounds (last.members j) =
            .ok after ∧
          ((last.chains i).length ≤ rounds →
            nameState after.provider = nameState (last.members i).provider ∧
              last.nextFrom i after = .ok none) := by
  constructor
  · intro start trace last hstart hrun
    obtain ⟨_, hsteps⟩ := hrun.invariant (P := mls.Settled)
      (fun _ _ _ h hlives => h.lives laws hlives) (hstart.settled laws)
    obtain ⟨baseline, hcount⟩ := hstart.nameCount laws
    refine ⟨?_, baseline, (nameCount_eq_ok.mp hcount).1, ?_⟩
    · intro taken htaken
      obtain ⟨hbefore, hlives, _⟩ := hsteps taken htaken
      exact name_step laws hbefore hlives
    · exact hrun.forall_after_iff (J := mls.Settled) (P := Balances baseline.revision)
        (C := fun before (label : WorkspaceEvent ⊕ NameCall) =>
          ∀ call, label = .inr call → ¬ mls.Overwrites before call)
        (fun _ _ _ h hlives => h.lives laws hlives)
        (fun _ _ _ h hbalances hlives => balances_step laws h hbalances hlives)
        (hstart.settled laws) ⟨_, hcount, by simp [NameCount.Balanced]⟩
  · intro Index _ texts system last trace hheads hgathered hrun htexts
    refine ⟨?_, ?_⟩
    · intro taken htaken i call _
      obtain ⟨_, hsteps⟩ :=
        (hgathered.honest laws i).run laws names hheads hrun htexts
      exact (hsteps taken htaken).1.not_overwrites hheads i call
    · intro i j hhead rounds
      obtain ⟨hlast, _⟩ := (hgathered.honest laws i).run laws names hheads hrun htexts
      exact hlast.catchUp laws names hheads i j hhead rounds

namespace Sample

/-- A hash that tells name records apart by their revision. -/
def nameDigest (bytes : Bytes) : Block 32 :=
  if nameMagic <+: bytes then block (UInt8.ofNat ((bytes.getD 44 0).toNat % 255 + 1))
  else Script.digest bytes

/-- The pair's script, with that hash. -/
abbrev named : Mls ScriptGroup Bytes ScriptGroup := pair.hashing nameDigest

theorem named_laws : named.NameLaws where
  signature := by
    intro signer message signature h
    obtain rfl := Option.some.inj h
    rfl
  exported := by
    intro owner other signer signer' info bytes _ _ _ hinfo hbytes
    obtain rfl := Option.some.inj hinfo
    have hencode : ∀ i leaf : UInt8,
        named.encodeGroupInfo (pair.info i leaf) = some (pair.infoBytes i leaf) := by
      intro i leaf
      simp [Script.hashing, Script.info]
    rw [hencode] at hbytes
    obtain rfl := Option.some.inj hbytes
    refine ⟨_, _, rfl, hencode _ _, ?_⟩
    rw [length_infoBytes, length_infoBytes]
    rfl

theorem owner_started : named.Started owner := by
  have hcreated : named.create ⟨some (block 1), some workspaceId, (block 1).1, []⟩ (block 11)
      "Alex" = .ok owner := by
    decide
  exact .created hcreated

/-- The administrator calls the workspace by a name. -/
def renamed (workspace : Workspace ScriptGroup Bytes) (name : String) :
    PreparedWorkspaceName ScriptGroup Bytes :=
  (named.prepareWorkspaceName workspace name).toOption.getD ⟨workspace, []⟩

theorem eq_ok_getD {α : Type} {x : Outcome α} (default : α) (h : x.isOk = true) :
    x = .ok (x.toOption.getD default) := by
  cases x with
  | ok a => rfl
  | error message => cases h

theorem nameDigest_ne_zero {bytes : Bytes} (h : nameMagic <+: bytes) :
    nameDigest bytes ≠ zeroBlock 32 := by
  rw [nameDigest, if_pos h]
  intro hzero
  have hbyte := congrArg UInt8.toNat (List.cons.inj (congrArg Subtype.val hzero)).1
  rw [UInt8.toNat_ofNat'] at hbyte
  simp only [UInt8.toNat_zero] at hbyte
  omega

theorem named_hashes (workspace : Workspace ScriptGroup Bytes) (name : String) :
    named.Hashes workspace (.prepare name) := by
  intro record hrecord
  rw [addedRecord, Option.map_eq_some_iff] at hrecord
  obtain ⟨prepared, hprepared, rfl⟩ := hrecord
  have hok : named.prepareWorkspaceName workspace name = .ok prepared := by
    cases hcall : named.prepareWorkspaceName workspace name with
    | ok found =>
      rw [hcall] at hprepared
      rw [Option.some.inj hprepared]
    | error message =>
      rw [hcall] at hprepared
      cases hprepared
  obtain ⟨⟨statement, rest, _, hbytes, _⟩, _⟩ := prepareWorkspaceName_eq_ok hok
  apply nameDigest_ne_zero
  rw [hbytes, List.append_assoc]
  exact List.prefix_append _ _

theorem prepare_renamed {workspace : Workspace ScriptGroup Bytes}
    (h : (named.prepareWorkspaceName workspace name).isOk = true) :
    named.prepareWorkspaceName workspace name = .ok (renamed workspace name) := by
  rw [renamed]
  exact eq_ok_getD _ h

theorem step_prepare {workspace : Workspace ScriptGroup Bytes}
    (h : (named.prepareWorkspaceName workspace name).isOk = true) :
    named.Lives workspace (.inr (.prepare name)) (renamed workspace name).workspace := by
  refine .named ?_ (named_hashes workspace name)
  rw [NameStep, nameCall, prepare_renamed h]
  rfl

/-- A checkpoint with a revision past the accepted one, and the head of the first name. -/
def reused : Bytes :=
  nameCheckpointMagic ++ NameStatement.encode ⟨workspaceId, 3, block 2, block 1, 0, block 1⟩ ++
    utf8 "Storm" ++ List.replicate 64 0

/-- The administrator's own workspace after two names, after the checkpoint, and after one more
name. -/
def twice : Workspace ScriptGroup Bytes :=
  (renamed (renamed owner "Storm").workspace "Valley").workspace

def returned : PreparedWorkspaceNameCheckpoint ScriptGroup Bytes :=
  (named.prepareWorkspaceNameCheckpoint twice reused).toOption.getD ⟨twice, 0⟩

def again : Workspace ScriptGroup Bytes := (renamed returned.workspace "Valley").workspace

end Sample

open Sample

/-- Where a checkpoint leads back to a head that has a record after it, the next record replaces
that one, and the parts are short of the revision. -/
theorem name_revision_unbalanced :
    ∃ trace, named.Started owner ∧
      Run named.Lives owner trace again ∧
      nameCount owner.provider = .ok ⟨NameState.unnamed, 0, 0⟩ ∧
      nameCount again.provider = .ok ⟨⟨4, block 5, some "Valley"⟩, 2, 1⟩ ∧
      ¬ NameCount.Balanced 0 ⟨⟨4, block 5, some "Valley"⟩, 2, 1⟩ := by
  have hstorm : named.Lives owner (.inr (.prepare "Storm"))
      (renamed owner "Storm").workspace :=
    step_prepare (by decide +kernel)
  have hvalley : named.Lives (renamed owner "Storm").workspace
      (.inr (.prepare "Valley")) twice :=
    step_prepare (by decide +kernel)
  have hjump : named.Lives twice (.inr (.checkpoint reused))
      returned.workspace := by
    refine .named ?_ (fun record hrecord => (nomatch hrecord))
    have hok : (named.prepareWorkspaceNameCheckpoint twice reused).isOk =
        true := by
      decide +kernel
    rw [NameStep, nameCall, eq_ok_getD ⟨twice, 0⟩ hok]
    rfl
  have hagain : named.Lives returned.workspace (.inr (.prepare "Valley"))
      again :=
    step_prepare (by decide +kernel)
  exact ⟨_, owner_started, .cons hstorm (.cons hvalley (.cons hjump (.cons hagain (.nil _)))),
    by decide, by decide +kernel, by simp [NameCount.Balanced]⟩

namespace Sample

/-- The administrator and a joiner, neither of whom knows a name. -/
def board : NameSystem Bool ScriptGroup Bytes where
  members joined := if joined then follower pair else leader pair
  records := []
  checkpoints := []
  chains _ := [NameState.unnamed]

def storm : PreparedWorkspaceName ScriptGroup Bytes := renamed (leader pair) "Storm"

/-- The administrator has admitted the joiner, who has verified the admission. -/
theorem board_lived : ∀ joined, named.Reachable (board.members joined) := by
  have hadmitted : named.prepareAdmissionBatch owner [] 0 [arrival 2 2 12, arrival 3 3 13] =
      .ok ⟨leader pair, Script.commit 0, Script.welcome 0,
        (leader pair).admissions.map (·.reply)⟩ := by
    decide
  have hgenuine : ∀ one ∈ [arrival 2 2 12, arrival 3 3 13], named.decodeRequest 0 one.bytes true =
      .ok { one.request with endpoint := zeroBlock 32 } ∧
        one.request = { one.request with endpoint := one.remoteEndpoint } := by
    decide +kernel
  have hfounding : named.joinProofFrom (joiner pair).workspace (joiner pair).checkpointDigest
      (pair.infoBytes 0 0) = .ok (foundingProof pair) := by
    decide
  have hextended : [batchStep].foldlM named.extendProof (foundingProof pair) =
      .ok (admissionProof pair) := by
    decide +kernel
  have hpending : named.newPendingJoin ⟨some (block 2), none, (block 2).1, []⟩ workspaceId
      (Script.digest (pair.infoBytes 0 0)) (block 12) "Blair" = .ok (joiner pair) := by
    decide
  have hjoined : named.prepareWorkspace (joiner pair) (admissionProof pair) (Script.welcome 0) =
      .ok (follower pair) := by
    decide +kernel
  intro joined
  cases joined with
  | false =>
    refine ⟨owner, _, owner_started, .cons (.moved (.admitted (fun one hone => ?_) hadmitted))
      (.nil _)⟩
    obtain ⟨hdecoded, hrequest⟩ := hgenuine one hone
    exact ⟨0, _, hdecoded, hrequest⟩
  | true =>
    exact ⟨follower pair, [], .joined hpending rfl ⟨_, _, _, hfounding, hextended⟩ hjoined,
      .nil _⟩

theorem board_gathered : board.Gathered named {storm.record} where
  lived := board_lived
  together := by decide
  leaves i j h := by
    revert i j
    decide
  unsigned := ⟨rfl, rfl⟩
  chains := by decide
  recorded joined := .inl (by cases joined <;> decide)
  kept joined head record hrecord := by
    have hempty : ∀ joined, (board.members joined).provider.filter isNameStep =
        OrderedMap.empty := by
      decide
    rw [next_eq_none (hempty joined) head] at hrecord
    cases hrecord

/-- The administrator has given the name. -/
def announced : NameSystem Bool ScriptGroup Bytes :=
  { board.adopt false storm.workspace (storm.workspace.currentName :: board.chains false) with
    records := storm.record :: board.records }

theorem announced_run : Run (NameSystem.HonestStep named) board
    [⟨board, .call false (.prepare "Storm"), announced⟩] announced := by
  have hprepared : named.prepareWorkspaceName (board.members false) "Storm" = .ok storm :=
    prepare_renamed (by decide +kernel)
  rw [announced]
  exact .cons (.prepared hprepared) (.nil _)

theorem announced_chain :
    announced.chains false = [storm.workspace.currentName, NameState.unnamed] := by
  simp [announced, NameSystem.adopt, board]

theorem announced_follower : announced.members true = follower pair := by
  simp [announced, NameSystem.adopt, board]

end Sample

/-- The administrator names the workspace in its own life, and the joiner, who is behind by that
record, takes it over. -/
theorem workspace_name_chain_storm :
    (∃ baseline, nameState owner.provider = .ok baseline ∧
      Balances baseline.revision (renamed owner "Storm").workspace) ∧
    ∃ after, catchUp (announced.nextFrom false) named.prepareWorkspaceNameUpdate 2
        (follower pair) = .ok after ∧
      nameState after.provider = .ok ⟨1, block 2, some "Storm"⟩ := by
  obtain ⟨hlife, hsystem⟩ := workspace_name_chain Script.hashing_lawful named_laws
  constructor
  · have hstorm : named.Lives owner (.inr (.prepare "Storm"))
        (renamed owner "Storm").workspace :=
      step_prepare (by decide +kernel)
    generalize (renamed owner "Storm").workspace = after at hstorm ⊢
    obtain ⟨_, baseline, hbaseline, hiff⟩ :=
      hlife _ _ _ owner_started (.cons hstorm (.nil _))
    refine ⟨baseline, hbaseline, hiff.mpr ?_ _ (List.mem_singleton_self _)⟩
    intro taken htaken call _
    obtain rfl := List.mem_singleton.mp htaken
    rintro ⟨_, _, previous, _, _, _, hsome⟩
    have hempty : owner.provider.filter isNameStep = OrderedMap.empty := by
      decide
    rw [next_eq_none hempty] at hsome
    cases hsome
  · have hheads : named.HeadsApart {storm.record} :=
      ⟨Set.injOn_singleton _ _, by
        intro record hrecord
        rw [Set.mem_singleton_iff.mp hrecord]
        decide +kernel⟩
    obtain ⟨_, hcatch⟩ := hsystem Bool _ _ _ _ hheads board_gathered
      announced_run (fun record hrecord => List.mem_singleton.mp hrecord)
    obtain ⟨after, hafter, hdone⟩ := hcatch false true
      ⟨NameState.unnamed, by simp [announced_chain], by
        rw [announced_follower]
        decide⟩ 2
    rw [announced_follower] at hafter
    rw [announced_chain] at hdone
    have hname : nameState (announced.members false).provider =
        .ok ⟨1, block 2, some "Storm"⟩ := by
      decide +kernel
    exact ⟨after, hafter, (hdone le_rfl).1.trans hname⟩

end Arachne.Security
