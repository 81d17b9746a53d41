import Arachne.Security.Verifier

/-! What the verifier has checked when it accepts a transition: one structure for each kind,
and the equivalence of acceptance with it. -/

namespace Arachne.Security

open Fallible ByteCodec

variable {group group' : PublicGroup} {staged : StagedCommit} {admins : List Bytes} {u : Unit}
  {actor : Member} {action : ManagementAction}

namespace PublicMls

variable {mls : PublicMls}

/-- The message in `commit`, processed on `group`, whatever the reason it may fail. -/
def process (mls : PublicMls) (group : PublicGroup) (commit : Bytes) :
    Option ProcessedMessage := do
  let message ← mls.decodeMessage commit
  let message ← message.toProtocol
  mls.processMessage group message

theorem processCommit_eq_ok {commit : Bytes} {a b c : String} {processed : ProcessedMessage} :
    mls.processCommit group commit a b c = .ok processed ↔
      mls.process group commit = some processed := by
  simp [processCommit, process, Option.bind_eq_some_iff]

theorem Lawful.process (laws : mls.Lawful) (hwell : group.WellFormed) {commit : Bytes}
    {committer : Sender} (h : mls.process group commit = some ⟨committer, .stagedCommit staged⟩) :
    group.Stages committer staged := by
  simp only [PublicMls.process, Option.bind_eq_bind, Option.bind_eq_some_iff] at h
  obtain ⟨_, _, message, _, hprocess⟩ := h
  exact (laws.processMessage hwell hprocess).2

/-- One Add that passes: its binding is new to the roster, the controls allow its package, an
administrator signed the grant and the invitation's key the redemption. -/
structure AcceptedAdd (mls : PublicMls) (group : PublicGroup) (admins : List Bytes)
    (authorization : AdmissionAuthorization) (package : KeyPackage)
    (added : Block 32 × Block 32) : Prop where
  binding : binding package.leafNode.credential = .ok added
  fresh : ∀ member ∈ group.members, ∃ existing,
    Security.binding member.credential = .ok existing ∧ existing.1 ≠ added.1 ∧
      existing.2 ≠ added.2
  allowed : mls.checkInvitation group.extensions authorization.invitationKey none package = .ok ()
  granted : ∃ admin ∈ admins, mls.verifySignature
    (grant group.context.groupId authorization.invitationKey) admin
    authorization.grantSignature.1
  redeemed : mls.verifySignature
    (redemption group.context.groupId authorization.invitationKey package)
    authorization.invitationKey.1 authorization.redemptionSignature.1

theorem not_sharesBinding {id endpoint : Block 32} {member : Member} :
    sharesBinding id endpoint member = false ↔ ∃ existing,
      binding member.credential = .ok existing ∧ existing.1 ≠ id ∧ existing.2 ≠ endpoint := by
  unfold sharesBinding
  cases binding member.credential with
  | error message => simp
  | ok existing => simp [Subtype.ext_iff]

theorem checkAdd_eq_ok {bindings : List (Block 32 × Block 32)}
    {authorization : AdmissionAuthorization} {package : KeyPackage} {added : Block 32 × Block 32} :
    mls.checkAdd group admins bindings authorization package = .ok added ↔
      mls.AcceptedAdd group admins authorization package added ∧ added ∉ bindings := by
  simp only [checkAdd, bind_eq_ok, failIf_eq_ok, pure_eq_ok, not_or, Bool.not_eq_true',
    Bool.not_eq_false, List.any_eq_false, Bool.not_eq_true]
  constructor
  · rintro ⟨⟨id, endpoint⟩, hbinding, _, ⟨hnew, hfresh⟩, _, hallowed, _, hgrant, _, hredeem, rfl⟩
    refine ⟨⟨hbinding, ?_, hallowed, ?_, hredeem⟩, hnew⟩
    · intro member hmember
      exact not_sharesBinding.mp (by simpa using hfresh member hmember)
    · simpa using hgrant
  · rintro ⟨haccepted, hnew⟩
    refine ⟨added, haccepted.binding, (), ⟨hnew, ?_⟩, (), haccepted.allowed, (), ?_, (),
      haccepted.redeemed, rfl⟩
    · intro member hmember
      simpa using not_sharesBinding.mpr (haccepted.fresh member hmember)
    · simpa using haccepted.granted

theorem checkAdds_eq_ok {bindings : List (Block 32 × Block 32)}
    {pairs : List (AdmissionAuthorization × KeyPackage)} :
    mls.checkAdds group admins bindings pairs = .ok u ↔ ∃ added,
      List.Forall₂ (fun pair => mls.AcceptedAdd group admins pair.1 pair.2) pairs added ∧
        added.Nodup ∧ ∀ b ∈ added, b ∉ bindings := by
  induction pairs generalizing bindings with
  | nil => simp [checkAdds]
  | cons pair pairs ih =>
    simp only [checkAdds, bind_eq_ok, checkAdd_eq_ok, ih, List.forall₂_cons_left_iff]
    constructor
    · rintro ⟨b, ⟨haccepted, hnew⟩, added, hrest, hnodup, hfresh⟩
      refine ⟨b :: added, ⟨b, added, haccepted, hrest, rfl⟩, ?_, ?_⟩
      · rw [List.nodup_cons]
        exact ⟨fun hb => hfresh b hb (by simp), hnodup⟩
      · rw [List.forall_mem_cons]
        exact ⟨hnew, fun b' hb' hmem => hfresh b' hb' (List.mem_cons_of_mem _ hmem)⟩
    · rintro ⟨_, ⟨b, added, haccepted, hrest, rfl⟩, hnodup, hfresh⟩
      rw [List.nodup_cons] at hnodup
      rw [List.forall_mem_cons] at hfresh
      refine ⟨b, ⟨haccepted, hfresh.1⟩, added, hrest, hnodup.2, ?_⟩
      intro b' hb' hmem
      rcases List.mem_cons.mp hmem with rfl | hmem
      · exact hnodup.1 hb'
      · exact hfresh.2 b' hb' hmem

/-- A batch of Adds that passes. -/
structure AcceptedBatch (mls : PublicMls) (group : PublicGroup)
    (authorizations : List AdmissionAuthorization) (commit : Bytes) (actor : Member)
    (staged : StagedCommit) (admins : List Bytes) (added : List (Block 32 × Block 32)) :
    Prop where
  count : authorizations ≠ [] ∧ authorizations.length ≤ maxAdmissionBatch
  size : commit ≠ [] ∧ commit.length ≤ maxBytes
  committer : group.members.find? (·.index = actor.index) = some actor
  processed : mls.process group commit = some ⟨.member actor.index, .stagedCommit staged⟩
  proposals : staged.proposals.length = authorizations.length
  extensions : staged.context.extensions = group.extensions
  identity : keepsIdentity actor staged
  adds : staged.adds.length = authorizations.length
  authority : authority group.extensions = .ok admins
  authorized : List.Forall₂ (fun pair => mls.AcceptedAdd group admins pair.1 pair.2)
    (authorizations.zip staged.adds) added
  nodup : added.Nodup

theorem find_index {members : List Member} {index : Nat}
    (h : members.find? (·.index = index) = some actor) : actor.index = index := by
  simpa using List.find?_some h

theorem applyAddBatch_eq_ok {authorizations : List AdmissionAuthorization} {commit : Bytes} :
    mls.applyAddBatch group authorizations commit = .ok group' ↔ ∃ actor staged admins added,
      mls.AcceptedBatch group authorizations commit actor staged admins added ∧
        group' = staged.merged := by
  simp only [applyAddBatch, bind_eq_ok, failIf_eq_ok, processCommit_eq_ok, not_or, not_lt]
  constructor
  · rintro ⟨_, hcount, _, hsize, ⟨sender, content⟩, hprocess, h⟩
    cases sender with
    | member index =>
      simp only [bind_eq_ok, orFail_eq_ok] at h
      obtain ⟨actor, hactor, h⟩ := h
      obtain rfl := find_index hactor
      cases content with
      | stagedCommit staged =>
        simp only [bind_eq_ok, failIf_eq_ok, pure_eq_ok, not_or, not_not,
          Bool.not_eq_true', Bool.not_eq_false, checkAdds_eq_ok] at h
        obtain ⟨_, ⟨hproposals, hextensions⟩, _, hidentity, _, hadds, admins, hadmins, _,
          ⟨added, hauthorized, hnodup, _⟩, rfl⟩ := h
        exact ⟨actor, staged, admins, added, ⟨hcount, hsize, hactor, hprocess, hproposals,
          hextensions, hidentity, hadds, hadmins, hauthorized, hnodup⟩, rfl⟩
      | other => simp at h
    | external index => simp at h
    | newMemberProposal => simp at h
    | newMemberCommit => simp at h
  · rintro ⟨actor, staged, admins, added, h, rfl⟩
    refine ⟨(), h.count, (), h.size, _, h.processed, ?_⟩
    simp only [bind_eq_ok, orFail_eq_ok, failIf_eq_ok, pure_eq_ok, not_or, not_not,
      Bool.not_eq_true', Bool.not_eq_false, checkAdds_eq_ok]
    exact ⟨actor, h.committer, (), ⟨h.proposals, h.extensions⟩, (), h.identity, (), h.adds,
      admins, h.authority, (), ⟨added, h.authorized, h.nodup, by simp⟩, trivial⟩

/-- A role change or a removal that passes. -/
structure AcceptedMemberAction (mls : PublicMls) (group : PublicGroup) (actor : Member)
    (before : List Bytes) (staged : StagedCommit) (action : ManagementAction)
    (target : Member) (expected : List Bytes) : Prop where
  found : findTarget action.target group.members none = .ok (some target)
  signed : mls.verifyLeave group.context target.signatureKey action = .ok ()
  oneMember : ∀ key ∈ before, (group.members.filter (·.signatureKey = key)).length = 1
  intended : expectedAdmins group.members actor target before action = .ok expected
  nonempty : expected ≠ []
  policy : ∃ policy, policyBytes group.extensions = .ok policy ∧
    policyBytes staged.context.extensions = .ok policy
  authority : authority staged.context.extensions = .ok expected
  unrelated : unrelated group.extensions = unrelated staged.context.extensions
  identity : keepsIdentity actor staged
  proposals : ∀ queued ∈ staged.proposals, queued.sender = .member actor.index ∧
    queued.inline = true ∧
      (isRemoval action target queued.proposal ∨ isPolicyChange queued.proposal)
  removals : (staged.proposals.filter (isRemoval action target ·.proposal)).length =
    action.removes.toNat
  roles : (staged.proposals.filter (isPolicyChange ·.proposal)).length =
    (Decidable.decide (before ≠ expected)).toNat

theorem checkProposal_eq_ok {sender : Sender} {target : Member} {queued : QueuedProposal} :
    checkProposal sender action target queued = .ok u ↔
      queued.sender = sender ∧ queued.inline = true ∧
        (isRemoval action target queued.proposal ∨ isPolicyChange queued.proposal) := by
  simp only [checkProposal, bind_eq_ok, failIf_eq_ok, not_or, Bool.not_eq_true',
    Bool.not_eq_false, Bool.or_eq_true, Decidable.not_not]
  constructor
  · rintro ⟨_, ⟨hsender, hinline⟩, h⟩
    exact ⟨hsender, hinline, h⟩
  · rintro ⟨hsender, hinline, h⟩
    exact ⟨(), ⟨hsender, hinline⟩, h⟩

theorem verifyMemberAction_eq_ok {before : List Bytes} :
    mls.verifyMemberAction group (.member actor.index) actor before staged action = .ok u ↔
      ∃ target expected,
        mls.AcceptedMemberAction group actor before staged action target expected := by
  simp only [verifyMemberAction, bind_eq_ok, orFail_eq_ok, failIf_eq_ok, forM_eq_ok,
    checkProposal_eq_ok, not_or, not_not, Bool.not_eq_true', Bool.not_eq_false]
  constructor
  · rintro ⟨_, htarget, target, rfl, _, hsigned, _, hone, expected, hexpected, _, hnonempty,
      policy, hbefore, _, hafter, _, rfl, _, hauthority, _, rfl, _, hunrelated, _, hidentity,
      _, hproposals, hremovals, hroles⟩
    refine ⟨target, expected, htarget, hsigned, ?_, hexpected, hnonempty, ⟨policy, hbefore,
      hafter⟩, hauthority, hunrelated, hidentity, hproposals, hremovals, hroles⟩
    simpa using hone
  · rintro ⟨target, expected, h⟩
    obtain ⟨policy, hbefore, hafter⟩ := h.policy
    refine ⟨_, h.found, target, rfl, (), h.signed, (), ?_, expected, h.intended, (),
      h.nonempty, policy, hbefore, policy, hafter, (), rfl, expected, h.authority, (), rfl, (),
      h.unrelated, (), h.identity, (), h.proposals, h.removals, h.roles⟩
    simpa using h.oneMember

/-- An invitation action that passes. -/
structure AcceptedInvitationAction (mls : PublicMls) (group : PublicGroup) (actor : Member)
    (staged : StagedCommit) (action : ManagementAction) : Prop where
  changed : mls.changed group.extensions action = .ok staged.context.extensions
  identity : keepsIdentity actor staged
  proposals : ∃ extensions,
    staged.proposals = [⟨.member actor.index, true, .groupContextExtensions extensions⟩]

theorem verifyInvitationAction_eq_ok :
    mls.verifyInvitationAction group (.member actor.index) actor staged action = .ok u ↔
      mls.AcceptedInvitationAction group actor staged action := by
  simp only [verifyInvitationAction, bind_eq_ok, failIf_eq_ok, not_or, not_not,
    Bool.not_eq_true', Bool.not_eq_false]
  constructor
  · rintro ⟨extensions, hchanged, _, rfl, _, hidentity, hlength, hall⟩
    refine ⟨hchanged, hidentity, ?_⟩
    obtain ⟨⟨sender, inline, proposal⟩, hproposals⟩ := List.length_eq_one_iff.mp hlength
    cases proposal <;> simp_all [isPolicyChange]
  · intro h
    obtain ⟨extensions, hproposals⟩ := h.proposals
    refine ⟨_, h.changed, (), rfl, (), h.identity, ?_⟩
    simp [hproposals, isPolicyChange]

/-- A management commit that passes, by the actor at its leaf. -/
structure AcceptedManagement (mls : PublicMls) (group : PublicGroup)
    (action : ManagementAction) (commit : Bytes) (actor : Member) (before : List Bytes)
    (staged : StagedCommit) : Prop where
  size : commit ≠ [] ∧ commit.length ≤ maxBytes
  committer : group.members.find? (·.index = actor.index) = some actor
  processed : mls.process group commit = some ⟨.member actor.index, .stagedCommit staged⟩
  authority : authority group.extensions = .ok before
  administrator : action.isLeave ∨ actor.signatureKey ∈ before
  verified : if action.changesInvitations then
      mls.AcceptedInvitationAction group actor staged action
    else
      ∃ target expected,
        mls.AcceptedMemberAction group actor before staged action target expected

theorem managementCommit_eq_ok {commit : Bytes} :
    mls.managementCommit group action commit = .ok staged ↔
      ∃ actor before, mls.AcceptedManagement group action commit actor before staged := by
  simp only [managementCommit, bind_eq_ok, failIf_eq_ok, processCommit_eq_ok, not_or, not_lt]
  constructor
  · rintro ⟨_, hsize, ⟨sender, content⟩, hprocess, h⟩
    cases content with
    | stagedCommit staged' =>
      simp only [bind_eq_ok, pure_eq_ok] at h
      obtain ⟨_, h, rfl⟩ := h
      cases sender with
      | member index =>
        simp only [verifyManagement, bind_eq_ok, orFail_eq_ok, failIf_eq_ok] at h
        obtain ⟨actor, hactor, before, hbefore, _, hadmin, h⟩ := h
        obtain rfl := find_index hactor
        refine ⟨actor, before, hsize, hactor, hprocess, hbefore, ?_, ?_⟩
        · by_contra hnot
          simp only [not_or, Bool.not_eq_true] at hnot
          exact hadmin ⟨by simp [hnot.1], hnot.2⟩
        · split at h
          · rename_i hinvitation
            rw [if_pos hinvitation]
            exact verifyInvitationAction_eq_ok.mp h
          · rename_i hinvitation
            rw [if_neg hinvitation]
            exact verifyMemberAction_eq_ok.mp h
      | external index => simp [verifyManagement] at h
      | newMemberProposal => simp [verifyManagement] at h
      | newMemberCommit => simp [verifyManagement] at h
    | other => simp at h
  · rintro ⟨actor, before, h⟩
    refine ⟨(), h.size, _, h.processed, ?_⟩
    simp only [verifyManagement, bind_eq_ok, orFail_eq_ok, failIf_eq_ok, pure_eq_ok]
    refine ⟨(), ⟨actor, h.committer, before, h.authority, (), ?_, ?_⟩, trivial⟩
    · rintro ⟨hleave, hnot⟩
      rcases h.administrator with hadmin | hadmin
      · simp [hadmin] at hleave
      · exact hnot hadmin
    · have hverified := h.verified
      split
      · rename_i hinvitation
        rw [if_pos hinvitation] at hverified
        exact verifyInvitationAction_eq_ok.mpr hverified
      · rename_i hinvitation
        rw [if_neg hinvitation] at hverified
        exact verifyMemberAction_eq_ok.mpr hverified

/-- What an accepted transition is: a batch of Adds, of one or more, or a management commit. -/
theorem applyTransition_cases {commit : Bytes} {authorization : MembershipAuthorization}
    (h : mls.applyTransition group commit authorization = .ok group') :
    ∃ actor staged, group' = staged.merged ∧
      ((∃ authorizations admins added, (authorization = .admissionBatch authorizations ∨
          ∃ single, authorization = .admission single ∧ authorizations = [single]) ∧
        mls.AcceptedBatch group authorizations commit actor staged admins added) ∨
      ∃ action before, authorization = .management action ∧
        mls.AcceptedManagement group action commit actor before staged) := by
  cases authorization with
  | admission single =>
    obtain ⟨actor, staged, admins, added, haccepted, hgroup⟩ := applyAddBatch_eq_ok.mp h
    exact ⟨actor, staged, hgroup, .inl ⟨_, admins, added, .inr ⟨single, rfl, rfl⟩, haccepted⟩⟩
  | admissionBatch authorizations =>
    obtain ⟨actor, staged, admins, added, haccepted, hgroup⟩ := applyAddBatch_eq_ok.mp h
    exact ⟨actor, staged, hgroup, .inl ⟨_, admins, added, .inl rfl, haccepted⟩⟩
  | management action =>
    simp only [applyTransition, applyManagement, bind_eq_ok, pure_eq_ok] at h
    obtain ⟨staged, h, rfl⟩ := h
    obtain ⟨actor, before, haccepted⟩ := managementCommit_eq_ok.mp h
    exact ⟨actor, staged, rfl, .inr ⟨action, before, rfl, haccepted⟩⟩

/-- A checkpoint that passes. -/
structure AcceptedCheckpoint (mls : PublicMls) (workspace digest : Block 32) (bytes : Bytes)
    (limit : Nat) (group : PublicGroup) (info : GroupInfo) (tree : RatchetTree)
    (admins : List Bytes) : Prop where
  size : bytes.length ≤ limit
  digest : mls.sha256 bytes = digest
  decoded : mls.decodeMessage bytes = some (.groupInfo info)
  scope : info.context.groupId = workspace.1 ∧ info.context.ciphersuite = suite
  ratchetTree : info.ratchetTree = some tree
  accepted : mls.fromExternal tree info = some group
  authority : authority group.extensions = .ok admins
  roster : checkRoster group.members [] [] = .ok ()
  administrators : ∀ key ∈ admins, ∃ member ∈ group.members, member.signatureKey = key

theorem fromCheckpointWithin_eq_ok {workspace digest : Block 32} {bytes : Bytes} {limit : Nat} :
    mls.fromCheckpointWithin workspace digest bytes limit = .ok group ↔ ∃ info tree admins,
      mls.AcceptedCheckpoint workspace digest bytes limit group info tree admins := by
  simp only [fromCheckpointWithin, bind_eq_ok, failIf_eq_ok, orFail_eq_ok, not_lt, not_not]
  constructor
  · rintro ⟨_, hsize, _, hdigest, message, hdecoded, h⟩
    cases message with
    | groupInfo info =>
      simp only [bind_eq_ok, failIf_eq_ok, orFail_eq_ok, not_or, not_not, pure_eq_ok,
        Bool.not_eq_true', Bool.not_eq_false] at h
      obtain ⟨_, hscope, tree, htree, group', haccepted, admins, hadmins, _, hroster, _,
        hmembers, rfl⟩ := h
      refine ⟨info, tree, admins, hsize, hdigest, hdecoded, hscope, htree, haccepted, hadmins,
        hroster, ?_⟩
      simpa using hmembers
    | protocol message => simp at h
    | welcome content => simp at h
    | other => simp at h
  · rintro ⟨info, tree, admins, h⟩
    refine ⟨(), h.size, (), h.digest, _, h.decoded, ?_⟩
    simp only [bind_eq_ok, failIf_eq_ok, orFail_eq_ok, not_or, not_not, pure_eq_ok,
      Bool.not_eq_true', Bool.not_eq_false]
    refine ⟨(), h.scope, tree, h.ratchetTree, group, h.accepted, admins, h.authority, (), h.roster,
      (), ?_, rfl⟩
    simpa using h.administrators

end PublicMls

end Arachne.Security
