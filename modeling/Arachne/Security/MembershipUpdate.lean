import Arachne.Security.Invitations

/-! The steps that a workspace retains for those who ask: any of them for a current member, and
its own removal for a former one. -/

namespace Arachne.Security

open ByteCodec Fallible

variable {Group Signer Staged : Type} {endpoint : Block 32}

def RetainedAdmission.next (epoch : U64) (entry : RetainedAdmission) : Bool :=
  checkedSucc epoch = some entry.reply.epoch

/-- The admissions retained for the epoch after this one, as one step. -/
def Workspace.admissionUpdateAfter {Group Signer : Type} (workspace : Workspace Group Signer)
    (epoch : U64) : Option Step :=
  match workspace.admissions.filter (·.next epoch) with
  | [] => none
  | [entry] => some (.admission entry.reply.authorization, entry.reply.commit)
  | first :: rest =>
      some (.admissionBatch ((first :: rest).map (·.reply.authorization)), first.reply.commit)

/-- The checkpoint kept for the invitation that an action creates. -/
def Workspace.retainedInvitationCheckpoint {Group Signer : Type}
    (workspace : Workspace Group Signer)
    (action : ManagementAction) : Option (Block 261 × Bytes) :=
  match action with
  | .createInvitation key _ _ | .createRequestInvitation key _ | .createAutomaticInvitation key _ =>
      (workspace.invitationCheckpoints.find? (·.key = key)).map fun saved =>
        (saved.grant, saved.checkpoint)
  | _ => none

/-- The member that a removal or a leave takes out. -/
def MembershipAuthorization.removed : MembershipAuthorization → Option (Block 32)
  | .management (.remove id) => some id
  | .management (.leave id _) => some id
  | _ => none

theorem MembershipAuthorization.removed_eq_some {authorization : MembershipAuthorization}
    {id : Block 32} (h : authorization.removed = some id) :
    authorization = .management (.remove id) ∨
      ∃ signature, authorization = .management (.leave id signature) := by
  cases authorization with
  | management action =>
    cases action with
    | remove target =>
      cases h
      exact .inl rfl
    | leave target signature =>
      cases h
      exact .inr ⟨signature, rfl⟩
    | _ => cases h
  | _ => cases h

/-- An endpoint that a group lists for a member. -/
def PublicGroup.Binds (group : PublicGroup) (id endpoint : Block 32) : Prop :=
  ∃ member ∈ group.members, binding member.credential = .ok (id, endpoint)

namespace PublicMls

variable (mls : PublicMls)

/-- The loop of `member_for_endpoint`: the first member on the endpoint. -/
def firstOn (endpoint : Block 32) : List Member → Outcome (Option (Block 32))
  | [] => pure none
  | member :: members => do
      let (id, bound) ← binding member.credential
      if bound = endpoint then pure (some id) else firstOn endpoint members

def memberForEndpoint (group : PublicGroup) (endpoint : Block 32) : Outcome (Option (Block 32)) :=
  firstOn endpoint group.members

/-- The loop of `membership_update_for` for a former member: the step at the epoch it asks for, if
it is its own removal. -/
def removalAfter (endpoint : Block 32) (after : U64) :
    PublicGroup → List Step → Outcome (Option Step)
  | _, [] => pure none
  | proof, step :: steps =>
      if proof.context.epoch = after then
        match step.1.removed with
        | some id => do
            let bound ← memberForEndpoint proof endpoint
            pure (if bound = some id then some step else none)
        | none => pure none
      else do
        let proof ← mls.applyTransition proof step.2 step.1
        removalAfter endpoint after proof steps

variable {mls}

theorem binds_of_firstOn {id : Block 32} {members : List Member}
    (h : firstOn endpoint members = .ok (some id)) :
    ∃ member ∈ members, binding member.credential = .ok (id, endpoint) := by
  induction members with
  | nil => cases h
  | cons member members ih =>
    simp only [firstOn, bind_eq_ok] at h
    obtain ⟨⟨first, bound⟩, hbinding, h⟩ := h
    split at h
    · rename_i hbound
      simp only [pure_eq_ok, Option.some.injEq] at h
      dsimp only at hbound h
      exact ⟨member, List.mem_cons_self, by rw [hbinding, h, hbound]⟩
    · exact List.exists_mem_cons_of_exists (ih h)

theorem removalAfter_eq_some {after : U64} {group : PublicGroup} {steps : List Step} {step : Step}
    (h : mls.removalAfter endpoint after group steps = .ok (some step)) :
    ∃ past rest parent id, steps = past ++ step :: rest ∧ mls.replay group past = .ok parent ∧
      parent.context.epoch = after ∧ step.1.removed = some id ∧ parent.Binds id endpoint := by
  induction steps generalizing group with
  | nil => cases h
  | cons first steps ih =>
    rw [removalAfter] at h
    split at h
    · rename_i hepoch
      split at h
      · rename_i id hremoved
        simp only [bind_eq_ok, pure_eq_ok] at h
        obtain ⟨bound, hbound, h⟩ := h
        split at h
        · rename_i hid
          cases h
          subst hid
          exact ⟨[], steps, group, id, rfl, rfl, hepoch, hremoved, binds_of_firstOn hbound⟩
        · cases h
      · cases h
    · rw [bind_eq_ok] at h
      obtain ⟨next, hnext, h⟩ := h
      obtain ⟨past, rest, parent, id, rfl, hreplay, hparent⟩ := ih h
      refine ⟨first :: past, rest, parent, id, rfl, ?_, hparent⟩
      rw [replay, List.foldlM_cons, hnext, ok_bind]
      exact hreplay

end PublicMls

namespace Mls

variable (mls : Mls Group Signer Staged)

/-- The loop over the members that looks for the only one of them to match. -/
def findOnly {α : Type} (value : Block 32 → Block 32 → Member → Option α) (ambiguous : String) :
    Option α → List Member → Outcome (Option α)
  | found, [] => pure found
  | found, member :: members => do
      let (id, endpoint) ← binding member.credential
      match value id endpoint member with
      | none => findOnly value ambiguous found members
      | some a => do
          failIf found.isSome ambiguous
          findOnly value ambiguous (some a) members

def memberIdForEndpoint (workspace : Workspace Group Signer) (peer : Block 32) :
    Outcome (Block 32) := do
  let author ← findOnly (fun id endpoint _ => if endpoint = peer then some id else none)
    "ambiguous recovery endpoint" none (mls.members workspace)
  orFail author "recovery peer is not a current member"

def isMember (workspace : Workspace Group Signer) (endpoint : Block 32) : Bool :=
  (mls.memberIdForEndpoint workspace endpoint).isOk

/-- The step of the history after an epoch, counted from the checkpoint. -/
def historyStep (history : MembershipHistory) (after : U64) : Outcome (Option Step) := do
  let start ← mls.checkpointEpoch history.checkpoint
  pure (if start ≤ after then history.steps[after.val - start.val]? else none)

/-- One retained step for an authenticated endpoint: any one for a current member, and only its
own removal for a former one. -/
def membershipUpdateFor (workspace : Workspace Group Signer) (endpoint : Block 32) (after : U64) :
    Outcome (Option Step) :=
  if mls.isMember workspace endpoint then
    match workspace.joinHistory with
    | some history => do
        match ← mls.historyStep history after with
        | some step => pure (some step)
        | none => pure (workspace.admissionUpdateAfter after)
    | none => pure (workspace.admissionUpdateAfter after)
  else
    match workspace.joinHistory with
    | some history => do
        let proof ← mls.historyVerifier history workspace.id
        mls.removalAfter endpoint after proof history.steps
    | none => pure none

def epochFingerprint (workspace : Workspace Group Signer) : Block 32 :=
  mls.sha256 (utf8 "data-fabric/epoch-fingerprint/v1\x00" ++ workspace.id.1 ++
    beBytes 8 (mls.epoch workspace).val ++ mls.epochAuthenticator workspace.group)

/-- A group that the saved history of a workspace leads through. -/
def OnHistory (workspace : Workspace Group Signer) (past : List Step) (rest : List Step)
    (group : PublicGroup) : Prop :=
  ∃ history start, workspace.joinHistory = some history ∧ history.steps = past ++ rest ∧
    mls.historyVerifier history workspace.id = .ok start ∧ mls.replay start past = .ok group

variable {mls} {workspace : Workspace Group Signer}

theorem findOnly_eq_some {α : Type} {value : Block 32 → Block 32 → Member → Option α}
    {ambiguous : String} {found : Option α} {members : List Member} {a : α}
    (h : findOnly value ambiguous found members = .ok (some a)) :
    found = some a ∨ ∃ member ∈ members, ∃ id endpoint,
      binding member.credential = .ok (id, endpoint) ∧ value id endpoint member = some a := by
  induction members generalizing found with
  | nil =>
    rw [findOnly, pure_eq_ok] at h
    exact .inl h
  | cons member members ih =>
    simp only [findOnly, bind_eq_ok] at h
    obtain ⟨⟨id, endpoint⟩, hbinding, h⟩ := h
    split at h
    · rcases ih h with hfound | ⟨other, hother, hmatch⟩
      · exact .inl hfound
      · exact .inr ⟨other, List.mem_cons_of_mem _ hother, hmatch⟩
    · rename_i b hvalue
      simp only [bind_eq_ok] at h
      obtain ⟨_, _, h⟩ := h
      rcases ih h with hfound | ⟨other, hother, hmatch⟩
      · rw [Option.some.injEq] at hfound
        exact .inr ⟨member, List.mem_cons_self, id, endpoint, hbinding, hfound ▸ hvalue⟩
      · exact .inr ⟨other, List.mem_cons_of_mem _ hother, hmatch⟩

theorem binds_of_memberIdForEndpoint {peer id : Block 32}
    (h : mls.memberIdForEndpoint workspace peer = .ok id) :
    (mls.publicGroup workspace.group).Binds id peer := by
  simp only [memberIdForEndpoint, bind_eq_ok, orFail_eq_ok] at h
  obtain ⟨_, hfound, rfl⟩ := h
  rcases findOnly_eq_some hfound with hnone | ⟨member, hmember, id', endpoint, hbinding, hvalue⟩
  · cases hnone
  · split at hvalue
    · rename_i hpeer
      obtain rfl := Option.some.inj hvalue
      exact ⟨member, hmember, hpeer ▸ hbinding⟩
    · cases hvalue

theorem isMember_eq_false (h : ∀ id, ¬(mls.publicGroup workspace.group).Binds id endpoint) :
    mls.isMember workspace endpoint = false := by
  rw [isMember]
  cases hmember : mls.memberIdForEndpoint workspace endpoint with
  | error message => rfl
  | ok id => exact absurd (binds_of_memberIdForEndpoint hmember) (h id)

theorem membershipUpdateFor_eq_some {after : U64} {step : Step}
    (hmember : mls.isMember workspace endpoint = false)
    (h : mls.membershipUpdateFor workspace endpoint after = .ok (some step)) :
    ∃ past rest parent id, mls.OnHistory workspace past (step :: rest) parent ∧
      parent.context.epoch = after ∧ step.1.removed = some id ∧ parent.Binds id endpoint := by
  rw [membershipUpdateFor, hmember, if_neg Bool.false_ne_true] at h
  split at h
  · rename_i history hhistory
    rw [bind_eq_ok] at h
    obtain ⟨start, hstart, h⟩ := h
    obtain ⟨past, rest, parent, id, hsteps, hreplay, hparent⟩ :=
      PublicMls.removalAfter_eq_some h
    exact ⟨past, rest, parent, id, ⟨history, start, hhistory, hsteps, hstart, hreplay⟩, hparent⟩
  · cases h

end Mls

end Arachne.Security
