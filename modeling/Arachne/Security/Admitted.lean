import Arachne.Security.Admission
import Arachne.Security.Roster

/-! What a prepared admission batch is: the checks each arrival has passed and the commit the
owner has made. -/

namespace Arachne.Security

open Fallible ByteCodec

variable {arrivals : List Arrival} {staged : StagedCommit} {u : Unit}

namespace Mls

variable {Group Signer Staged : Type} {mls : Mls Group Signer Staged}
  {workspace : Workspace Group Signer} {now : U64}

/-- The checks one arrival has passed. -/
structure AcceptedArrival (mls : Mls Group Signer Staged) (workspace : Workspace Group Signer)
    (now : U64) (arrival : Arrival) (added : Binding) : Prop where
  endpoint : arrival.request.endpoint = arrival.remoteEndpoint
  digest : arrival.request.digest = mls.sha256 arrival.bytes
  scope : arrival.request.workspace = workspace.id
  allowed : mls.checkInvitation (mls.extensions workspace)
    arrival.request.authorization.invitationKey (some now) arrival.request.package = .ok ()
  issuer : ∃ admins, authority (mls.extensions workspace) = .ok admins ∧
    arrival.request.issuer.1 ∈ admins
  binding : binding arrival.request.package.leafNode.credential = .ok added
  remote : added.2 = arrival.remoteEndpoint
  fresh : ∀ member ∈ mls.members workspace, ∃ existing,
    Security.binding member.credential = .ok existing ∧ existing.1 ≠ added.1 ∧
      existing.2 ≠ added.2

theorem checkNotAdmitted_eq_ok {added : Binding} {members : List Member} :
    checkNotAdmitted added.1 added.2 members = .ok u ↔ ∀ member ∈ members, ∃ existing,
      binding member.credential = .ok existing ∧ existing.1 ≠ added.1 ∧
        existing.2 ≠ added.2 := by
  simp [checkNotAdmitted, forM_eq_ok, not_or]

theorem checkArrivals_eq_ok {bindings : List Binding}
    (h : mls.checkArrivals workspace now bindings arrivals = .ok u) : ∃ added,
      List.Forall₂ (mls.AcceptedArrival workspace now) arrivals added ∧ added.Nodup ∧
        ∀ b ∈ added, b ∉ bindings := by
  induction arrivals generalizing bindings with
  | nil => exact ⟨[], .nil, List.nodup_nil, by simp⟩
  | cons arrival arrivals ih =>
    simp only [checkArrivals, checkValidatedAdmission, bind_eq_ok, failIf_eq_ok, not_or,
      not_not, Bool.not_eq_true', Bool.not_eq_false] at h
    obtain ⟨_, ⟨hendpoint, hdigest⟩, _, ⟨_, hworkspace, _, hallowed, admins, hadmins, _, hissuer,
      added, hbinding, _, hremote, hfresh⟩, added', hbinding', _, hnew, hrest⟩ := h
    obtain rfl := ok_unique hbinding hbinding'
    obtain ⟨rest, haccepted, hnodup, hdisjoint⟩ := ih hrest
    refine ⟨added :: rest, .cons ?_ haccepted, ?_, ?_⟩
    · exact ⟨hendpoint, hdigest, hworkspace, hallowed, ⟨admins, hadmins, by simpa using hissuer⟩,
        hbinding, hremote, checkNotAdmitted_eq_ok.mp hfresh⟩
    · rw [List.nodup_cons]
      exact ⟨fun hmem => hdisjoint added hmem (by simp), hnodup⟩
    · rw [List.forall_mem_cons]
      exact ⟨hnew, fun b hb hmem => hdisjoint b hb (List.mem_cons_of_mem _ hmem)⟩

theorem Keeps.trans {a b c : Owner Group} (hab : mls.Keeps a b) (hbc : mls.Keeps b c) :
    mls.Keeps a c :=
  ⟨hbc.ownLeafIndex.trans hab.ownLeafIndex,
    fun name hname => (hbc.records name hname).trans (hab.records name hname)⟩

theorem Commits.of_keeps {before between after : Owner Group} {commit : Bytes}
    (h : mls.Commits between after commit staged) (hkeeps : mls.Keeps before between)
    (hgroup : mls.publicGroup between.group = mls.publicGroup before.group) :
    mls.Commits before after commit staged := by
  obtain ⟨message, hmessage, hprocess⟩ := h.decoded
  rw [hgroup, hkeeps.ownLeafIndex] at hprocess
  exact ⟨⟨message, hmessage, hprocess⟩, h.merged, hkeeps.trans h.keeps⟩

theorem Commits.process {before after : Owner Group} {commit : Bytes}
    (h : mls.Commits before after commit staged) :
    mls.process (mls.publicGroup before.group) commit =
      some ⟨.member (mls.ownLeafIndex before.group), .stagedCommit staged⟩ := by
  obtain ⟨message, hmessage, hprocess⟩ := h.decoded
  simp [PublicMls.process, hmessage, MlsMessage.toProtocol, hprocess]

/-- A prepared batch: every arrival accepted, one commit that adds their packages, and the
replies and the history that go with it. -/
structure Admitted (mls : Mls Group Signer Staged) (workspace : Workspace Group Signer)
    (now : U64) (arrivals : List Arrival) (prepared : PreparedAdmissionBatch Group Signer)
    (added : List Binding) (staged : StagedCommit) : Prop where
  count : arrivals ≠ [] ∧ arrivals.length ≤ maxAdmissionBatch
  accepted : List.Forall₂ (mls.AcceptedArrival workspace now) arrivals added
  nodup : added.Nodup
  ready : mls.Ready prepared.workspace.owner workspace.signer
  commits : mls.Commits workspace.owner prepared.workspace.owner prepared.commit staged
  path : staged.updatePathLeaf = none
  proposals : staged.proposals = arrivals.map fun arrival =>
    mls.ownProposal workspace.group (.add arrival.request.package)
  welcome : prepared.welcome ≠ [] ∧ prepared.welcome.length ≤ 64 * 1024
  replies : prepared.replies = arrivals.map fun arrival =>
    ⟨mls.epoch prepared.workspace, prepared.commit, prepared.welcome,
      arrival.request.authorization⟩
  history : mls.admissionHistory workspace arrivals.length
    (batchAuthorization (arrivals.map (·.request.authorization))) prepared.commit =
      .ok prepared.workspace.joinHistory
  rest : prepared.workspace = { workspace with
    provider := prepared.workspace.provider, group := prepared.workspace.group,
    joinHistory := prepared.workspace.joinHistory,
    admissions := workspace.admissions ++ (arrivals.zip prepared.replies).map fun pair =>
      ⟨mls.sha256 pair.1.bytes, pair.1.remoteEndpoint, pair.1.request.issuer, pair.2⟩ }

theorem prepareAdmissionBatch_eq_ok (laws : mls.Lawful) (sound : mls.Sound workspace)
    {random : Bytes} {prepared : PreparedAdmissionBatch Group Signer}
    (h : mls.prepareAdmissionBatch workspace random now arrivals = .ok prepared) :
    ∃ added staged, mls.Admitted workspace now arrivals prepared added staged := by
  simp only [prepareAdmissionBatch, bind_eq_ok, failIf_eq_ok, orFail_eq_ok, not_or, not_lt,
    sound.provisionalCopy, pure_eq_ok] at h
  obtain ⟨_, hcount, _, harrivals, copy, hcopy, owner, hconfigured, ⟨commit', welcome', pending⟩,
    hadd, commit, rfl, welcome, rfl, _, hwelcome, after, hmerge, history, hhistory, rfl⟩ := h
  obtain rfl := Except.ok.inj hcopy
  obtain ⟨added, haccepted, hnodup, _⟩ := checkArrivals_eq_ok harrivals
  obtain ⟨hready, hkeeps, hgroup⟩ := laws.setConfiguration sound.ready hconfigured
  obtain ⟨hready', hnonempty, staged, hcommits, hpath, hproposals⟩ :=
    laws.addMembers hready hadd hmerge
  refine ⟨added, staged, hcount, haccepted, hnodup, hready', hcommits.of_keeps hkeeps hgroup,
    hpath, ?_, ⟨hnonempty welcome rfl, hwelcome⟩, rfl, ?_, rfl⟩
  · rw [hproposals, List.map_map]
    refine List.map_congr_left fun arrival _ => ?_
    simp only [ownProposal, Function.comp_apply, hkeeps.ownLeafIndex]
    rfl
  · simpa [List.map_map, Function.comp_def] using hhistory

namespace Admitted

variable {prepared : PreparedAdmissionBatch Group Signer} {added : List Binding}

variable (h : mls.Admitted workspace now arrivals prepared added staged)

include h

theorem adds_eq :
    staged.adds = arrivals.map (·.request.package) := by
  rw [StagedCommit.adds, h.proposals, List.filterMap_map]
  exact congrFun List.filterMap_eq_map arrivals

theorem kept_eq :
    (mls.publicGroup workspace.group).kept staged = (mls.publicGroup workspace.group).members := by
  rw [PublicGroup.kept, List.filter_eq_self]
  intro member _
  simp [h.proposals, ownProposal]

theorem members_eq (laws : mls.Lawful) (sound : mls.Sound workspace) :
    (mls.publicGroup prepared.workspace.group).members =
      (arrivals.map (·.request.package)).foldl
        (fun members package => placeFrom 0 package.leafNode members)
        (mls.publicGroup workspace.group).members := by
  have hwell : (mls.publicGroup workspace.group).WellFormed := sound.ready.wellFormed
  obtain ⟨actor, (hactor : actor ∈ (mls.publicGroup workspace.group).members), hindex, _⟩ :=
    sound.ready.own
  have hstages := laws.process hwell h.commits.process
  have hidentity : keepsIdentity actor staged := by simp [keepsIdentity, h.path]
  calc (mls.publicGroup prepared.workspace.group).members
      = staged.tree.members := by
        rw [show mls.publicGroup prepared.workspace.group = staged.merged from h.commits.merged]
        rfl
    _ = (mls.publicGroup workspace.group).membersAfter (.member actor.index) staged := by
        rw [hindex]
        refine hstages.members fun queued hqueued kind hother => ?_
        rw [h.proposals, List.mem_map] at hqueued
        obtain ⟨arrival, _, rfl⟩ := hqueued
        simp [ownProposal] at hother
    _ = _ := by
        rw [membersAfter_of_keepsIdentity hwell hactor hidentity, h.kept_eq, h.adds_eq]

theorem distinctRoster_iff (laws : mls.Lawful) (sound : mls.Sound workspace)
    (hdistinct : DistinctRoster (mls.publicGroup workspace.group)) :
    DistinctRoster (mls.publicGroup prepared.workspace.group) ↔ Distinct added := by
  refine distinctRoster_place_iff (h.members_eq laws sound) ?_ ?_ hdistinct
  · rw [List.forall₂_map_left_iff]
    exact h.accepted.imp fun _ _ haccepted => haccepted.binding
  · intro bindings hbindings b hb existing hexisting
    obtain ⟨arrival, _, haccepted⟩ := exists_of_mem_right h.accepted hb
    obtain ⟨member, hmember, hexists⟩ := exists_of_mem_right (mapM_eq_ok.mp hbindings) hexisting
    obtain ⟨existing', hbinding, hfresh⟩ := haccepted.fresh member hmember
    obtain rfl := ok_unique hexists hbinding
    exact hfresh

end Admitted

end Mls

end Arachne.Security
