import Arachne.Security.Membership
import Arachne.Security.RosterRuns

/-! The authority over whole histories: every transition that the verifier accepts is one that
the membership allows its committer to make, and does exactly what its authorization says. -/

namespace Arachne.Security

open Fallible ByteCodec Transition

variable {group : PublicGroup} {admins : List Bytes} {action : ManagementAction}

/-- Each administrator's key is the key of exactly one member. -/
structure Governed (group : PublicGroup) (admins : List Bytes) : Prop where
  readable : authority group.extensions = .ok admins
  nonempty : admins ≠ []
  sorted : admins.Pairwise (· < ·)
  bounded : admins.length ≤ 64
  oneMember : ∀ key ∈ admins, (group.members.filter (·.signatureKey = key)).length = 1

theorem filter_signatureKey_length (hwell : group.WellFormed) {member : Member}
    (hmember : member ∈ group.members) :
    (group.members.filter (·.signatureKey = member.signatureKey)).length = 1 := by
  have hkey : member.signatureKey ∈ group.members.map (·.signatureKey) :=
    List.mem_map_of_mem hmember
  have hcount := List.count_eq_one_of_mem hwell.signatureKeys hkey
  rw [List.count_eq_countP, List.countP_map, List.countP_eq_length_filter] at hcount
  rw [← hcount]
  congr 1
  exact List.filter_congr fun other _ => by rw [Bool.eq_iff_iff]; simp

theorem Governed.of_members (hwell : group.WellFormed)
    (hauthority : authority group.extensions = .ok admins)
    (hmembers : ∀ key ∈ admins, ∃ member ∈ group.members, member.signatureKey = key) :
    Governed group admins := by
  obtain ⟨hne, hmax, hsorted, _⟩ := keys_of_authority hauthority
  refine ⟨hauthority, hne, List.isChain_iff_pairwise.mp hsorted, hmax, ?_⟩
  intro key hkey
  obtain ⟨member, hmember, rfl⟩ := hmembers key hkey
  exact filter_signatureKey_length hwell hmember

theorem Governed.exists_member (h : Governed group admins) {key : Bytes} (hkey : key ∈ admins) :
    ∃ member ∈ group.members, member.signatureKey = key := by
  obtain ⟨member, hmember⟩ := List.length_eq_one_iff.mp (h.oneMember key hkey)
  have hmem : member ∈ group.members.filter (·.signatureKey = key) := by simp [hmember]
  exact ⟨member, by simpa using hmem⟩

theorem membership_eq_ok {membership : Membership} :
    group.membership = .ok membership ↔ ∃ admins controls,
      authority group.extensions = .ok admins ∧
        invitationControls group.extensions = .ok controls ∧
          membership = ⟨group.members, admins.toFinset, controls.1, controls.2,
            unrelated group.extensions⟩ := by
  simp only [PublicGroup.membership, bind_eq_ok, pure_eq_ok]
  constructor
  · rintro ⟨admins, hadmins, controls, hcontrols, rfl⟩
    exact ⟨admins, controls, hadmins, hcontrols, rfl⟩
  · rintro ⟨admins, controls, hadmins, hcontrols, rfl⟩
    exact ⟨admins, hadmins, controls, hcontrols, rfl⟩

/-- Signatures cannot be forged: what verifies was signed with that key, and a processed commit
was signed, in the group's context, with the key at its sender's leaf. -/
structure PublicMls.Unforgeable (mls : PublicMls) (Signed : (key message : Bytes) → Prop)
    (framed : GroupContext → ProtocolMessage → Bytes) : Prop where
  signature {message key signature : Bytes} :
    mls.verifySignature message key signature → Signed key message
  commit {group : PublicGroup} {message : ProtocolMessage} {index : Nat}
      {content : ProcessedContent} :
    mls.processMessage group message = some ⟨.member index, content⟩ →
      ∀ member ∈ group.members, member.index = index →
        Signed member.signatureKey (framed group.context message)

/-- The step was taken by a current member who signed the commit and may make this change. -/
structure Justified (mls : PublicMls) (Signed : (key message : Bytes) → Prop)
    (framed : GroupContext → ProtocolMessage → Bytes) (taken : Taken PublicGroup Step)
    (actor : Member) (before after : Membership) : Prop where
  mem : actor ∈ taken.before.members
  signed : ∃ message, (mls.decodeMessage taken.label.2).bind MlsMessage.toProtocol = some message ∧
    Signed actor.signatureKey (framed taken.before.context message)
  current : taken.before.membership = .ok before
  resulting : taken.after.membership = .ok after
  allowed : Membership.Allowed mls Signed taken.before.context actor before taken.label.1 after

section Step

variable {mls : PublicMls} {Signed : (key message : Bytes) → Prop}
  {framed : GroupContext → ProtocolMessage → Bytes} {commit : Bytes} {actor : Member}
  {staged : StagedCommit}

namespace PublicMls

theorem Unforgeable.process (hsafe : mls.Unforgeable Signed framed) {content : ProcessedContent}
    (hactor : group.members.find? (·.index = actor.index) = some actor)
    (h : mls.process group commit = some ⟨.member actor.index, content⟩) :
    ∃ message, (mls.decodeMessage commit).bind MlsMessage.toProtocol = some message ∧
      Signed actor.signatureKey (framed group.context message) := by
  simp only [PublicMls.process, Option.bind_eq_bind, Option.bind_eq_some_iff] at h
  obtain ⟨message, hdecode, protocol, hprotocol, hprocess⟩ := h
  refine ⟨protocol, ?_, hsafe.commit hprocess actor (mem_of_find hactor) rfl⟩
  rw [hdecode, Option.bind_some, hprotocol]

theorem AcceptedAdd.invited (hsafe : mls.Unforgeable Signed framed)
    {authorization : AdmissionAuthorization} {package : KeyPackage} {added : Binding}
    (h : mls.AcceptedAdd group admins authorization package added)
    {controls : Bool × List InvitationControl}
    (hcontrols : invitationControls group.extensions = .ok controls) :
    Membership.Invited mls Signed group.context ⟨group.members, admins.toFinset, controls.1,
      controls.2, unrelated group.extensions⟩ authorization package := by
  obtain ⟨admin, hadmin, hgranted⟩ := h.granted
  obtain ⟨legacy, listed, hlisted, hadmits⟩ := checkInvitation_eq_ok.mp h.allowed
  obtain rfl := ok_unique hcontrols hlisted
  exact ⟨⟨admin, List.mem_toFinset.mpr hadmin, hsafe.signature hgranted⟩,
    hsafe.signature h.redeemed, hadmits⟩

variable {authorizations : List AdmissionAuthorization} {added : List Binding}

theorem AcceptedBatch.adding (laws : mls.Lawful) (hsafe : mls.Unforgeable Signed framed)
    (hwell : group.WellFormed)
    (h : mls.AcceptedBatch group authorizations commit actor staged admins added) :
    ∃ before, group.membership = .ok before ∧
      staged.merged.membership = .ok (before.adding staged.adds) ∧
        List.Forall₂ (Membership.Invited mls Signed group.context before) authorizations
          staged.adds := by
  obtain ⟨_, controls, _, _, hcontrols⟩ := invitationControls_of_authority h.authority
  refine ⟨_, membership_eq_ok.mpr ⟨admins, controls, h.authority, hcontrols, rfl⟩, ?_, ?_⟩
  · have hextensions : staged.merged.extensions = group.extensions := h.extensions
    refine membership_eq_ok.mpr ⟨admins, controls, ?_, ?_, ?_⟩
    · rw [hextensions, h.authority]
    · rw [hextensions, hcontrols]
    · rw [h.members_eq laws hwell, hextensions]
      rfl
  · refine List.forall₂_iff_zip.mpr ⟨h.adds.symm, fun hpair => ?_⟩
    obtain ⟨_, _, haccepted⟩ := exists_of_mem_left h.authorized hpair
    exact haccepted.invited hsafe hcontrols

theorem AcceptedBatch.governed (laws : mls.Lawful) (hwell : group.WellFormed)
    (hgoverned : Governed group admins)
    (h : mls.AcceptedBatch group authorizations commit actor staged admins added) :
    Governed staged.merged admins := by
  refine .of_members (laws.process hwell h.processed).wellFormed ?_ fun key hkey => ?_
  · rw [← h.authority]
    exact congrArg _ h.extensions
  · obtain ⟨member, hmember, hsignature⟩ := hgoverned.exists_member hkey
    refine ⟨member, ?_, hsignature⟩
    rw [h.members_eq laws hwell]
    exact mem_foldl_place _ hmember

section MemberAction

variable {target : Member} {expected : List Bytes}

/-- Of the roster, a role change keeps everyone and a removal everyone but its target. -/
theorem AcceptedMemberAction.kept_eq
    (h : mls.AcceptedMemberAction group actor admins staged action target expected) :
    group.kept staged =
      if action.removes then group.members.filter (·.index ≠ target.index) else group.members := by
  cases hremoves : action.removes with
  | true =>
    have hcount := h.removals
    rw [hremoves] at hcount
    obtain ⟨queued, hqueued⟩ := List.length_eq_one_iff.mp hcount
    have hmem : queued ∈ staged.proposals.filter (isRemoval action target ·.proposal) := by
      simp [hqueued]
    simp only [List.mem_filter, isRemoval, Bool.and_eq_true, beq_iff_eq] at hmem
    refine List.filter_congr fun member _ => ?_
    rw [decide_eq_decide, not_iff_not]
    constructor
    · rintro ⟨other, hother, hremove⟩
      rcases h.isRemoveOrPolicy other hother with htarget | ⟨_, hpolicy⟩
      · rw [htarget] at hremove
        exact (Proposal.remove.inj hremove).symm
      · simp [hpolicy] at hremove
    · intro hindex
      exact ⟨queued, hmem.1, by rw [hmem.2.2, hindex]⟩
  | false =>
    rw [PublicGroup.kept, if_neg (by simp), List.filter_eq_self]
    intro member _
    rw [decide_eq_true_iff]
    rintro ⟨queued, hqueued, hremove⟩
    obtain ⟨_, _, hkind⟩ := h.proposals queued hqueued
    simp [isRemoval, hremoves, isPolicyChange, hremove] at hkind

variable {key : Bytes}

theorem mem_of_expectedAdmins {members : List Member}
    (h : expectedAdmins members actor target admins action = .ok expected) (hkey : key ∈ expected) :
    key ∈ admins ∧ (action.removes → key ≠ target.signatureKey) ∨
      action.removes = false ∧ key = target.signatureKey := by
  cases action with
  | promote id =>
    simp only [expectedAdmins, bind_eq_ok, pure_eq_ok] at h
    obtain ⟨_, _, _, _, rfl⟩ := h
    rw [List.mem_insertionSort, List.mem_append, List.mem_singleton] at hkey
    exact hkey.imp (fun hadmin => ⟨hadmin, by simp [ManagementAction.removes]⟩)
      fun htarget => ⟨rfl, htarget⟩
  | _ =>
    simp only [expectedAdmins, bind_eq_ok, pure_eq_ok] at h
    obtain ⟨_, _, rfl⟩ := h
    rw [List.mem_filter, decide_eq_true_iff] at hkey
    exact .inl ⟨hkey.1, fun _ => hkey.2⟩

theorem AcceptedMemberAction.exists_member (hwell : group.WellFormed)
    (hgoverned : Governed group admins)
    (h : mls.AcceptedMemberAction group actor admins staged action target expected)
    (hkey : key ∈ expected) : ∃ member ∈ group.kept staged, member.signatureKey = key := by
  obtain ⟨htarget, _, _⟩ := findTarget_none h.found
  rw [h.kept_eq]
  rcases mem_of_expectedAdmins h.intended hkey with ⟨hadmin, hother⟩ | ⟨hremoves, rfl⟩
  · obtain ⟨member, hmember, rfl⟩ := hgoverned.exists_member hadmin
    refine ⟨member, ?_, rfl⟩
    split
    · rename_i hremoves
      rw [List.mem_filter, decide_eq_true_iff]
      refine ⟨hmember, fun hindex => hother hremoves ?_⟩
      rw [List.inj_on_of_nodup_map hwell.indices hmember htarget hindex]
    · exact hmember
  · exact ⟨target, by simpa [hremoves] using htarget, rfl⟩

theorem AcceptedMemberAction.membership
    (h : mls.AcceptedMemberAction group actor admins staged action target expected)
    (hadmins : Security.authority group.extensions = .ok admins)
    (hmembers : staged.merged.members = group.kept staged) :
    ∃ before, group.membership = .ok before ∧ before.admins = admins.toFinset ∧
      before.Identifies action.target target ∧
      staged.merged.membership = .ok { before with
        members := if action.removes then before.members.filter (·.index ≠ target.index)
          else before.members
        admins := expected.toFinset } := by
  obtain ⟨policy, controls, hpolicy, hdecode, hcontrols⟩ := invitationControls_of_authority hadmins
  refine ⟨_, membership_eq_ok.mpr ⟨admins, controls, hadmins, hcontrols, rfl⟩, rfl, ?_, ?_⟩
  · obtain ⟨hmem, hbound, hunique⟩ := findTarget_none h.found
    exact ⟨hmem, hbound, hunique⟩
  · obtain ⟨policy', hbefore, hafter⟩ := h.policy
    obtain rfl := ok_unique hpolicy hbefore
    refine membership_eq_ok.mpr ⟨expected, controls, h.authority, ?_, ?_⟩
    · change invitationControls staged.context.extensions = _
      rw [invitationControls, hafter, ok_bind, hdecode]
    · rw [hmembers, h.kept_eq, h.unrelated]
      rfl

end MemberAction

theorem AcceptedInvitationAction.kept_eq
    (h : mls.AcceptedInvitationAction group actor staged action) :
    group.kept staged = group.members := by
  obtain ⟨extensions, hproposals⟩ := h.proposals
  simp [PublicGroup.kept, hproposals]

theorem toFinset_insertionSort (keys : List Bytes) (key : Bytes) :
    ((keys ++ [key]).insertionSort (· ≤ ·)).toFinset = insert key keys.toFinset := by
  ext
  simp [or_comm]

theorem toFinset_filter_ne (keys : List Bytes) (key : Bytes) :
    (keys.filter (· ≠ key)).toFinset = keys.toFinset.erase key := by
  ext
  simp [and_comm]

theorem verifyLeave_signed (hsafe : mls.Unforgeable Signed framed) {context : GroupContext}
    {target : Member} {id : Block 32} {signature : Block 64}
    (h : mls.verifyLeave context target.signatureKey (.leave id signature) = .ok ()) :
    Membership.LeaveSigned mls Signed context id target := by
  simp only [verifyLeave, bind_eq_ok, failIf_eq_ok, Bool.not_eq_true', Bool.not_eq_false] at h
  obtain ⟨payload, hpayload, hverified⟩ := h
  exact ⟨payload, hpayload, hsafe.signature hverified⟩

theorem AcceptedManagement.allowed (laws : mls.Lawful) (hsafe : mls.Unforgeable Signed framed)
    (hwell : group.WellFormed)
    (h : mls.AcceptedManagement group action commit actor admins staged) :
    ∃ before after, group.membership = .ok before ∧ staged.merged.membership = .ok after ∧
      Membership.Allowed mls Signed group.context actor before (.management action) after := by
  have hmembers := h.members_eq laws hwell
  have hverified := h.verified
  split at hverified
  · rename_i hinvitations
    obtain ⟨admins', old, new, hchanged⟩ := changed_eq_ok hverified.changed
    obtain rfl := ok_unique h.authority hchanged.authority.1
    have hactor : actor.signatureKey ∈ admins := by
      refine h.administrator.resolve_left ?_
      cases action <;> simp_all [ManagementAction.isLeave, ManagementAction.changesInvitations]
    refine ⟨_, _, membership_eq_ok.mpr ⟨admins, old, h.authority, hchanged.current, rfl⟩,
      membership_eq_ok.mpr ⟨admins, new, hchanged.authority.2, hchanged.written, rfl⟩, ?_⟩
    have hunrelated : unrelated staged.merged.extensions = unrelated group.extensions :=
      hchanged.unrelated
    rw [hmembers, hverified.kept_eq, hunrelated]
    exact .invitations (List.mem_toFinset.mpr hactor) hinvitations hchanged.intended
  · rename_i hmember
    obtain ⟨target, expected, haction⟩ := hverified
    obtain ⟨before, hbefore, hadmins, htarget, hafter⟩ := haction.membership h.authority hmembers
    refine ⟨before, _, hbefore, hafter, ?_⟩
    have hactor : action.isLeave = false → actor.signatureKey ∈ before.admins := by
      intro hleave
      rw [hadmins, List.mem_toFinset]
      exact h.administrator.resolve_left (by simp [hleave])
    have hexpected := haction.intended
    have hsigned := haction.signed
    cases action with
    | promote id =>
      simp only [expectedAdmins, bind_eq_ok, failIf_eq_ok, pure_eq_ok] at hexpected
      obtain ⟨_, hrole, _, _, rfl⟩ := hexpected
      rw [← List.mem_toFinset, ← hadmins] at hrole
      rw [toFinset_insertionSort, ← hadmins]
      exact .promote (hactor rfl) htarget hrole
    | demote id =>
      simp only [expectedAdmins, bind_eq_ok, failIf_eq_ok, pure_eq_ok, not_not] at hexpected
      obtain ⟨_, hrole, rfl⟩ := hexpected
      rw [← List.mem_toFinset, ← hadmins] at hrole
      rw [toFinset_filter_ne, ← hadmins]
      exact .demote (hactor rfl) htarget hrole
    | remove id =>
      simp only [expectedAdmins, bind_eq_ok, failIf_eq_ok, pure_eq_ok] at hexpected
      obtain ⟨_, hother, rfl⟩ := hexpected
      rw [toFinset_filter_ne, ← hadmins]
      exact .remove (hactor rfl) htarget hother
    | leave id signature =>
      simp only [expectedAdmins, bind_eq_ok, failIf_eq_ok, pure_eq_ok] at hexpected
      obtain ⟨_, hother, rfl⟩ := hexpected
      rw [toFinset_filter_ne, ← hadmins]
      exact .leave (verifyLeave_signed hsafe hsigned) htarget hother
    | _ => simp [ManagementAction.changesInvitations] at hmember

theorem AcceptedManagement.governed (laws : mls.Lawful) (hwell : group.WellFormed)
    (hgoverned : Governed group admins)
    (h : mls.AcceptedManagement group action commit actor admins staged) :
    ∃ after, Governed staged.merged after := by
  have hafter := (laws.process hwell h.processed).wellFormed
  have hmembers := h.members_eq laws hwell
  have hverified := h.verified
  split at hverified
  · obtain ⟨admins', old, new, hchanged⟩ := changed_eq_ok hverified.changed
    obtain rfl := ok_unique h.authority hchanged.authority.1
    refine ⟨admins, .of_members hafter hchanged.authority.2 fun key hkey => ?_⟩
    rw [hmembers, hverified.kept_eq]
    exact hgoverned.exists_member hkey
  · obtain ⟨target, expected, haction⟩ := hverified
    refine ⟨expected, .of_members hafter haction.authority fun key hkey => ?_⟩
    rw [hmembers]
    exact haction.exists_member hwell hgoverned hkey

/-- One accepted transition: its committer may make the change, and the roles stay governed. -/
theorem applyTransition_justified (laws : mls.Lawful) (hsafe : mls.Unforgeable Signed framed)
    (hwell : group.WellFormed) (hgoverned : ∃ admins, Governed group admins)
    {group' : PublicGroup} {step : Step} (h : mls.Accepts group step group') :
    (∃ admins, Governed group' admins) ∧ ∃ actor before after,
      Justified mls Signed framed ⟨group, step, group'⟩ actor before after := by
  obtain ⟨admins, hgoverned⟩ := hgoverned
  obtain ⟨authorization, commit⟩ := step
  obtain ⟨actor, staged, rfl, ⟨authorizations, admins', added, hkind, haccepted⟩ |
    ⟨action, admins', rfl, haccepted⟩⟩ := applyTransition_cases h
  · obtain rfl := ok_unique hgoverned.readable haccepted.authority
    obtain ⟨before, hbefore, hafter, hinvited⟩ := haccepted.adding laws hsafe hwell
    refine ⟨⟨admins, haccepted.governed laws hwell hgoverned⟩, actor, before, _,
      mem_of_find haccepted.committer,
      hsafe.process haccepted.committer haccepted.processed, hbefore, hafter, ?_⟩
    rcases hkind with rfl | ⟨single, rfl, rfl⟩
    · exact .admissionBatch hinvited
    · obtain ⟨package, _, hpackage, hnil, hpackages⟩ := List.forall₂_cons_left_iff.mp hinvited
      obtain rfl := List.forall₂_nil_left_iff.mp hnil
      rw [hpackages]
      exact .admission hpackage
  · obtain rfl := ok_unique hgoverned.readable haccepted.authority
    obtain ⟨before, after, hbefore, hafter, hallowed⟩ := haccepted.allowed laws hsafe hwell
    exact ⟨haccepted.governed laws hwell hgoverned, actor, before, after,
      mem_of_find haccepted.committer, hsafe.process haccepted.committer haccepted.processed,
      hbefore, hafter, hallowed⟩

end PublicMls

end Step

/-- Over every history from a trusted checkpoint the roles stay governed, and each step is
signed by a current member and changes the roster, the roles and the invitation controls
exactly as its authorization says. Roles and controls change by an administrator's commit or
with the signed leave of their holder; anyone else only adds invited members or carries out a
signed leave. -/
theorem authority_kept {mls : PublicMls} {Signed : (key message : Bytes) → Prop}
    {framed : GroupContext → ProtocolMessage → Bytes} (laws : mls.Lawful)
    (hsafe : mls.Unforgeable Signed framed) {workspace digest : Block 32} {bytes : Bytes}
    {limit : Nat} {start last : PublicGroup} {trace : List (Taken PublicGroup Step)}
    (hstart : mls.fromCheckpointWithin workspace digest bytes limit = .ok start)
    (hrun : Run mls.Accepts start trace last) :
    (∃ admins, Governed start admins) ∧ ∀ taken ∈ trace,
      (∃ admins, Governed taken.after admins) ∧
      ∃ actor before after, Justified mls Signed framed taken actor before after ∧
        ((before.admins ≠ after.admins ∨
            (before.legacy, before.controls) ≠ (after.legacy, after.controls)) →
          actor.signatureKey ∈ before.admins ∨ Membership.CarriesOutLeave mls Signed
            taken.before.context before taken.label.1 after) ∧
        (actor.signatureKey ∉ before.admins →
          Membership.AddsInvited mls Signed taken.before.context before taken.label.1 after ∨
            Membership.CarriesOutLeave mls Signed taken.before.context before taken.label.1
              after) := by
  obtain ⟨info, tree, admins, hcheckpoint⟩ := PublicMls.fromCheckpointWithin_eq_ok.mp hstart
  have hwell := hcheckpoint.wellFormed laws
  have hgoverned : ∃ admins, Governed start admins :=
    ⟨admins, .of_members hwell hcheckpoint.authority hcheckpoint.administrators⟩
  have hinvariant := hrun.invariant
    (P := fun group => group.WellFormed ∧ ∃ admins, Governed group admins)
    (fun _ _ _ ⟨hwell, hgoverned⟩ hstep =>
      ⟨PublicMls.applyTransition_wellFormed laws hwell hstep,
        (PublicMls.applyTransition_justified laws hsafe hwell hgoverned hstep).1⟩)
    ⟨hwell, hgoverned⟩
  refine ⟨hgoverned, fun taken htaken => ?_⟩
  obtain ⟨⟨hwell, hgoverned⟩, hstep, _⟩ := hinvariant.2 taken htaken
  obtain ⟨hafter, actor, before, after, hjustified⟩ :=
    PublicMls.applyTransition_justified laws hsafe hwell hgoverned hstep
  exact ⟨hafter, actor, before, after, hjustified, hjustified.allowed.change_of_authority,
    hjustified.allowed.of_not_admin⟩

open Sample

/-- What was signed, with which key: a grant and its two redemptions, and two commits. -/
def Sample.statements : List (Bytes × Bytes) :=
  [((block 1).1, grant workspaceId.1 (block 7)),
    ((block 7).1, redemption workspaceId.1 (block 7) (package 2 2 12)),
    ((block 7).1, redemption workspaceId.1 (block 7) (package 3 3 13)),
    ((block 1).1, [0]), ((block 1).1, [1])]

/-- The MLS of the two joiners, in which nothing else verifies. -/
def Sample.sealed : PublicMls :=
  { pair.mls.toPublicMls with
    verifySignature := fun message key _ => decide ((key, message) ∈ statements) }

theorem Sample.sealed_unforgeable :
    sealed.Unforgeable (fun key message => (key, message) ∈ statements)
      fun _ message => message.content where
  signature := of_decide_eq_true
  commit {group message index content} h member hmember hindex := by
    simp only [sealed, Script.hashing] at h
    split at h
    · rename_i i hcontent
      obtain ⟨⟨rfl, _⟩, hprocessed⟩ := Option.ite_none_right_eq_some.mp h
      obtain ⟨staged, hstaged, heq⟩ := Option.map_eq_some_iff.mp hprocessed
      cases heq
      rw [hcontent]
      have hlt : i.toNat < 2 := (List.getElem?_eq_some_iff.mp hstaged).1
      have hcases : i = 0 ∨ i = 1 := by
        rw [← UInt8.toNat_inj, ← UInt8.toNat_inj]
        exact (Nat.lt_succ_iff_lt_or_eq.mp hlt).imp_left Nat.lt_one_iff.mp
      have hkeys : ∀ i ∈ [(0 : UInt8), 1], ∀ member ∈ (pair.state i).members, member.index = 0 →
          (member.signatureKey, [i]) ∈ statements := by
        decide +kernel
      exact hkeys i (by simpa using hcases) member hmember hindex
    · cases h

/-- The administrator admits two invited joiners and registers an invitation. -/
theorem authority_kept_registered :
    let trace : List (Taken PublicGroup Step) :=
      [⟨solo, batchStep, pair.state 1⟩,
        ⟨pair.state 1, (.management registration, Script.commit 1), pair.state 2⟩]
    Run sealed.Accepts solo trace (pair.state 2) ∧ ((block 2).1, [1]) ∉ statements ∧
      ∀ taken ∈ trace, (∃ admins, Governed taken.after admins) ∧
        ∃ actor before after, Justified sealed (fun key message => (key, message) ∈ statements)
          (fun _ message => message.content) taken actor before after := by
  intro trace
  have hlaws : pair.mls.toPublicMls.Lawful := Script.lawful.toLawful
  have laws : sealed.Lawful := ⟨hlaws.decodeMessage, hlaws.fromExternal, hlaws.processMessage⟩
  have hstart : sealed.fromCheckpointWithin workspaceId (Script.digest (pair.infoBytes 0 0))
      (pair.infoBytes 0 0) maxBytes = .ok solo := by
    decide
  have hsteps : sealed.applyTransition solo batchStep.2 batchStep.1 = .ok (pair.state 1) ∧
      sealed.applyTransition (pair.state 1) (Script.commit 1) (.management registration) =
        .ok (pair.state 2) := by
    decide +kernel
  have hrun : Run sealed.Accepts solo trace (pair.state 2) :=
    .cons hsteps.1 (.cons hsteps.2 (.nil _))
  refine ⟨hrun, by decide, fun taken htaken => ?_⟩
  obtain ⟨hgoverned, actor, before, after, hjustified, _⟩ :=
    (authority_kept laws sealed_unforgeable hstart hrun).2 taken htaken
  exact ⟨hgoverned, actor, before, after, hjustified⟩

end Arachne.Security
