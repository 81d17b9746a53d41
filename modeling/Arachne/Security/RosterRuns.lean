import Arachne.Security.Sample

/-! The roster over whole histories: from a trusted checkpoint, every state reached passes the
roster check of a checkpoint again exactly when no batch adds an id or an endpoint twice. -/

namespace Arachne.Security

open Fallible ByteCodec Transition

/-- One transition of the membership verifier. -/
def PublicMls.Accepts (mls : PublicMls) (group : PublicGroup) (step : Step)
    (group' : PublicGroup) : Prop :=
  mls.applyTransition group step.2 step.1 = .ok group'

namespace PublicMls.AcceptedCheckpoint

variable {mls : PublicMls} {workspace digest : Block 32} {bytes : Bytes} {limit : Nat}
  {group : PublicGroup} {info : GroupInfo} {tree : RatchetTree} {admins : List Bytes}

theorem wellFormed (laws : mls.Lawful)
    (h : mls.AcceptedCheckpoint workspace digest bytes limit group info tree admins) :
    group.WellFormed :=
  (laws.fromExternal h.accepted).2

theorem distinctRoster
    (h : mls.AcceptedCheckpoint workspace digest bytes limit group info tree admins) :
    DistinctRoster group :=
  checkRoster_iff_distinctRoster.mp h.roster

end PublicMls.AcceptedCheckpoint

/-- The bindings of the KeyPackages in a batch of requests. -/
def arrivalBindings (arrivals : List Arrival) : List Binding :=
  arrivals.filterMap fun arrival =>
    (binding arrival.request.package.leafNode.credential).toOption

theorem Mls.Admitted.arrivalBindings_eq {Group Signer Staged : Type}
    {mls : Mls Group Signer Staged} {workspace : Workspace Group Signer} {now : U64}
    {arrivals : List Arrival} {prepared : PreparedAdmissionBatch Group Signer}
    {added : List Binding} {staged : StagedCommit}
    (h : mls.Admitted workspace now arrivals prepared added staged) :
    arrivalBindings arrivals = added := by
  have hforall : List.Forall₂ (fun package b => binding package.leafNode.credential = .ok b)
      (arrivals.map (·.request.package)) added := by
    rw [List.forall₂_map_left_iff]
    exact h.accepted.imp fun _ _ haccepted => haccepted.binding
  have hpackages := PublicMls.filterMap_toOption hforall
  rwa [List.filterMap_map] at hpackages

/-- Rosters stay valid checkpoints exactly when every batch adds pairwise distinct ids and
pairwise distinct endpoints: for the states a verifier reaches, and for the state that a
prepared batch leads to. -/
theorem rosters_valid_iff {Group Signer Staged : Type} {mls : Mls Group Signer Staged}
    (laws : mls.Lawful) :
    (∀ workspace digest bytes limit start trace last,
      mls.fromCheckpointWithin workspace digest bytes limit = .ok start →
      Run mls.Accepts start trace last →
      DistinctRoster start ∧
      ((∀ taken ∈ trace, DistinctRoster taken.after ∧
          checkRoster taken.after.members [] [] = .ok ()) ↔
        ∀ taken ∈ trace, Distinct (mls.addedBindings taken.before taken.label.2))) ∧
    (∀ (workspace : Workspace Group Signer) random now arrivals prepared,
      mls.Sound workspace → DistinctRoster (mls.publicGroup workspace.group) →
      mls.prepareAdmissionBatch workspace random now arrivals = .ok prepared →
      (DistinctRoster (mls.publicGroup prepared.workspace.group) ↔
        Distinct (arrivalBindings arrivals))) := by
  constructor
  · intro workspace digest bytes limit start trace last hstart hrun
    obtain ⟨info, tree, admins, hcheckpoint⟩ := PublicMls.fromCheckpointWithin_eq_ok.mp hstart
    have hwell := hcheckpoint.wellFormed laws.toLawful
    have hdistinct := hcheckpoint.distinctRoster
    have hinvariant : ∀ (group : PublicGroup) step group', group.WellFormed →
        mls.Accepts group step group' → group'.WellFormed :=
      fun _ _ _ hwell hstep => PublicMls.applyTransition_wellFormed laws.toLawful hwell hstep
    have hiff := hrun.forall_after_iff hinvariant
      (fun _ _ _ hwell hdistinct hstep =>
        PublicMls.applyTransition_distinctRoster_iff laws.toLawful hwell hdistinct hstep)
      hwell hdistinct
    refine ⟨hdistinct, Iff.trans ?_ hiff⟩
    simp only [checkRoster_iff_distinctRoster, and_self]
  · intro workspace random now arrivals prepared sound hdistinct hprepared
    obtain ⟨added, staged, hadmitted⟩ := Mls.prepareAdmissionBatch_eq_ok laws sound hprepared
    rw [hadmitted.arrivalBindings_eq]
    exact hadmitted.distinctRoster_iff laws sound hdistinct

open Sample

/-- Two joiners with their own ids and endpoints lead to a roster that passes again, on the
side of a verifier and on the side of the owner who admits them. -/
theorem rosters_valid_iff_pair :
    let step : Step :=
      (.admissionBatch [authorization, authorization], Script.commit 0)
    (∀ taken ∈ [(⟨solo, step, pair.state 1⟩ : Taken PublicGroup Step)],
      DistinctRoster taken.after ∧ checkRoster taken.after.members [] [] = .ok ()) ∧
    ∃ prepared, pair.mls.prepareAdmissionBatch owner [] 0
        [arrival 2 2 12, arrival 3 3 13] = .ok prepared ∧
      DistinctRoster (pair.mls.publicGroup prepared.workspace.group) := by
  have laws : pair.mls.Lawful := Script.lawful
  constructor
  · refine ((rosters_valid_iff laws).1 workspaceId (Script.digest (pair.infoBytes 0 0))
      (pair.infoBytes 0 0) maxBytes solo _ (pair.state 1) (by decide)
      (.cons ?_ (.nil _))).2.mpr ?_
    · change pair.mls.applyTransition _ _ _ = _
      decide
    · rw [List.forall_mem_singleton]
      decide
  · cases hprepared : pair.mls.prepareAdmissionBatch owner [] 0
        [arrival 2 2 12, arrival 3 3 13] with
    | error message =>
      have hok : (pair.mls.prepareAdmissionBatch owner [] 0
        [arrival 2 2 12, arrival 3 3 13]).toBool = true := by decide
      rw [hprepared] at hok
      cases hok
    | ok prepared =>
      refine ⟨prepared, rfl, ((rosters_valid_iff laws).2 _ _ _ _ _ (owner_sound _ _ _) ?_
        hprepared).mpr (by decide)⟩
      exact checkRoster_iff_distinctRoster.mp (by decide)

/-- Two ids on one endpoint: the verifier and the owner accept the batch, and no checkpoint of
the state after it is accepted again. -/
theorem shared_endpoint_refused :
    let mls := sharedEndpoint.mls
    let arrivals := [arrival 2 2 12, arrival 3 3 12]
    mls.fromCheckpointWithin workspaceId (Script.digest (sharedEndpoint.infoBytes 0 0))
        (sharedEndpoint.infoBytes 0 0) maxBytes = .ok solo ∧
      mls.applyTransition solo (Script.commit 0)
        (.admissionBatch (arrivals.map (·.request.authorization))) =
          (.ok (sharedEndpoint.state 1)) ∧
      checkRoster (sharedEndpoint.state 1).members [] [] =
        .error "duplicate member binding" ∧
      (∀ arrival ∈ arrivals, (mls.assessAdmission owner 0 arrival.remoteEndpoint
        arrival.bytes).toOption = some (.ready arrival.request)) ∧
      (mls.prepareAdmissionBatch owner [] 0 arrivals).toOption.map (fun prepared =>
        checkRoster (mls.publicGroup prepared.workspace.group).members [] []) =
          some (.error "duplicate member binding") := by
  decide +kernel

end Arachne.Security
