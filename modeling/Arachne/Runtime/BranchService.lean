import Arachne.Runtime.MembershipReplies
import Arachne.Security.ManagementAgreement

/-! How a member that is behind is led to the present: what it is served are the steps of the
branch that its group is on. -/

namespace Arachne.Runtime

open Fallible ByteCodec
open Security (Mls MembershipHistory PublicGroup PublicMls Step Workspace)

variable {Group Signer Staged : Type} {mls : Mls Group Signer Staged}
  {workspace : Workspace Group Signer} {history : MembershipHistory} {endpoint : Block 32}
  {wire : MembershipWire} {first next untilEpoch : U64} {steps : List Step} {k count size : Nat}
  {group last : PublicGroup}

/-- Every epoch of a branch has its group on it. -/
theorem follows_split (laws : mls.Lawful) (hwell : group.WellFormed)
    (h : mls.Follows group steps last) (hk : k ≤ steps.length) :
    ∃ between, mls.Follows group (steps.take k) between ∧
      between.context.epoch.val = group.context.epoch.val + k ∧
      mls.Follows between (steps.drop k) last := by
  induction h generalizing k with
  | nil group =>
    obtain rfl := Nat.le_zero.mp hk
    exact ⟨group, .nil _, rfl, .nil _⟩
  | @cons group last step steps sender staged hprocess hrest ih =>
    cases k with
    | zero => exact ⟨group, .nil _, rfl, .cons hprocess hrest⟩
    | succ k =>
      have hstages := laws.process hwell hprocess
      obtain ⟨between, hfirst, hepoch, hlast⟩ := ih hstages.wellFormed (Nat.le_of_succ_le_succ hk)
      refine ⟨between, .cons hprocess hfirst, ?_, hlast⟩
      rw [hepoch, Nat.add_comm k, ← Nat.add_assoc, ← hstages.epoch]
      rfl

/-- The answers to a member are the steps, one for each epoch from the first on. -/
def Serves (mls : Mls Group Signer Staged) (workspace : Workspace Group Signer)
    (endpoint : Block 32) (first : U64) (steps : List Step) : Prop :=
  ∀ epoch : U64, ∀ k ≤ steps.length, epoch.val = first.val + k →
    mls.membershipUpdateFor workspace endpoint epoch = .ok steps[k]?

theorem serves_history (hconsistent : mls.Consistent workspace)
    (hhistory : workspace.joinHistory = some history)
    (hmember : mls.isMember workspace endpoint = true)
    (hfirst : mls.checkpointEpoch history.checkpoint = .ok first)
    (hpresent : (mls.epoch workspace).val = first.val + history.steps.length) :
    Serves mls workspace endpoint first history.steps := by
  intro epoch k hk hepoch
  have hle : first ≤ epoch := Fin.le_def.mpr (by omega)
  rw [Mls.membershipUpdateFor, hmember, if_pos rfl, hhistory]
  dsimp only
  rw [Mls.historyStep, hfirst, ok_bind, if_pos hle, hepoch, Nat.add_sub_cancel_left]
  cases hget : history.steps[k]? with
  | some step => rfl
  | none =>
    have hend : workspace.admissions.filter (·.next epoch) = [] := by
      refine List.filter_eq_nil_iff.mpr fun entry hentry hnext => ?_
      have hsucc := checkedSucc_val (decide_eq_true_iff.mp hnext)
      have hkept := hconsistent.admissions entry hentry
      rw [List.getElem?_eq_none_iff] at hget
      omega
    change Except.ok (Workspace.admissionUpdateAfter _ _) = _
    rw [Workspace.admissionUpdateAfter, hend]

/-- A range carries the steps in their order and without a gap, and some of them unless the first
one is not asked for or does not fit. -/
def CarriesOn (mls : Mls Group Signer Staged) (wire : MembershipWire)
    (workspace : Workspace Group Signer) (endpoint : Block 32) (untilEpoch : U64) (count : Nat)
    (next : U64) (size : Nat) (steps : List Step) : Prop :=
  let encode := fun step => wire.step (stepWithRetainedCheckpoint workspace step)
  ∃ served ≤ count, (rangeSteps mls wire workspace endpoint untilEpoch count next size).map some =
      (steps.take served).map encode ∧
    (0 < count → next < min untilEpoch (mls.epoch workspace) →
      ∀ bytes ∈ steps.head?.bind encode, size + (bytes.length + 8) ≤ maxControlReply → 0 < served)

theorem rangeSteps_of_serves (hserves : Serves mls workspace endpoint first steps)
    (hk : k ≤ steps.length) (hnext : next.val = first.val + k) :
    CarriesOn mls wire workspace endpoint untilEpoch count next size (steps.drop k) := by
  induction count generalizing next size k with
  | zero => exact ⟨0, le_rfl, rfl, by simp⟩
  | succ count ih =>
    rw [CarriesOn, rangeSteps, hserves next k hk hnext, List.head?_drop]
    split
    · rename_i hlt
      cases hget : steps[k]? with
      | none => exact ⟨0, Nat.zero_le _, rfl, by simp⟩
      | some step =>
        dsimp only [Option.bind_some]
        cases hbytes : wire.step (stepWithRetainedCheckpoint workspace step) with
        | none => exact ⟨0, Nat.zero_le _, rfl, by simp⟩
        | some bytes =>
          dsimp only
          split
          · exact ⟨0, Nat.zero_le _, rfl, by simp; omega⟩
          · obtain ⟨hlength, rfl⟩ := List.getElem?_eq_some_iff.mp hget
            have hsucc : (next + 1).val = first.val + (k + 1) := by
              have hbelow : next.val < (mls.epoch workspace).val := (lt_min_iff.mp hlt).2
              have hbound := hbelow.trans_le (Nat.le_of_lt_succ (mls.epoch workspace).isLt)
              rw [Fin.val_add_one_of_lt' (Nat.succ_lt_succ hbound), hnext, Nat.add_assoc]
            obtain ⟨served, hserved, hrest, _⟩ := ih hlength hsucc
            refine ⟨served + 1, Nat.succ_le_succ hserved, ?_, fun _ _ _ _ _ => Nat.succ_pos _⟩
            rw [List.map_cons, hrest, List.drop_eq_getElem_cons hlength, List.take_succ_cons,
              List.map_cons, hbytes]
    · exact ⟨0, Nat.zero_le _, rfl, fun _ h => absurd h ‹_›⟩

/-- A current member that asks for the epoch of any group of the branch is answered with the step
that leads on from there, and with none at the present epoch; so is one that asks for a range. -/
theorem member_led_to_present (laws : mls.Lawful) (hreachable : mls.Reachable workspace)
    (hhistory : workspace.joinHistory = some history)
    (hmember : mls.isMember workspace endpoint = true) :
    ∃ start, mls.historyVerifier history workspace.id = .ok start ∧
      ∀ k ≤ history.steps.length, ∃ group, mls.Follows start (history.steps.take k) group ∧
        group.context.epoch.val = start.context.epoch.val + k ∧
        mls.Follows group (history.steps.drop k) (mls.publicGroup workspace.group) ∧
        mls.membershipUpdateFor workspace endpoint group.context.epoch = .ok history.steps[k]? ∧
        ∀ wire untilEpoch, CarriesOn mls wire workspace endpoint untilEpoch maxRangeSteps
          group.context.epoch 256 (history.steps.drop k) := by
  have hconsistent := (hreachable.settled laws).consistent
  obtain ⟨start, hstart, hfollows⟩ := hconsistent.history history hhistory
  obtain ⟨info, tree, admins, haccepted⟩ := PublicMls.fromCheckpointWithin_eq_ok.mp hstart
  obtain ⟨rfl, hwell⟩ := laws.fromExternal haccepted.accepted
  have hfirst : mls.checkpointEpoch history.checkpoint = .ok info.context.epoch := by
    rw [PublicMls.checkpointEpoch, haccepted.decoded]
    rfl
  have hpresent : (mls.epoch workspace).val = info.context.epoch.val + history.steps.length := by
    obtain ⟨_, _, hepoch, hlast⟩ := follows_split laws hwell hfollows le_rfl
    rw [List.drop_length] at hlast
    cases hlast
    exact hepoch
  have hserves := serves_history hconsistent hhistory hmember hfirst hpresent
  refine ⟨_, hstart, fun k hk => ?_⟩
  obtain ⟨group, hpast, hepoch, hrest⟩ := follows_split laws hwell hfollows hk
  exact ⟨group, hpast, hepoch, hrest, hserves _ k hk hepoch, fun _ _ =>
    rangeSteps_of_serves hserves hk hepoch⟩

open Security.Sample in
/-- The administrator has the batch that admitted the joiner for the epoch before it. -/
theorem member_led_to_present_pair :
    ∃ group, pair.mls.Follows group [batchStep] (pair.state 1) ∧
      pair.mls.membershipUpdateFor (leader pair) (block 12) group.context.epoch =
        .ok (some batchStep) := by
  have hmember : pair.mls.isMember (leader pair) (block 12) = true := by decide +kernel
  obtain ⟨_, _, hbranch⟩ := member_led_to_present Security.Script.lawful
    (leader_reachable pair (by simp)) rfl hmember
  obtain ⟨group, _, _, hrest, hserved, _⟩ := hbranch 0 (Nat.zero_le _)
  exact ⟨group, hrest, hserved⟩

end Arachne.Runtime
