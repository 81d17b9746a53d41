import Arachne.Security.HistoryCodec
import Arachne.Security.Roster

/-! Branches of a group: the groups that a list of commits leads through, whether or not the
verifier accepts them, and the encoded history of a branch that it has accepted. -/

namespace Arachne.Security

open Fallible ByteCodec

namespace PublicMls

variable {mls : PublicMls} {group group' last : PublicGroup} {steps : List Step}

/-- The commits of the steps, processed one after the other, lead from one group to another. -/
inductive Follows (mls : PublicMls) : PublicGroup → List Step → PublicGroup → Prop where
  | nil (group : PublicGroup) : Follows mls group [] group
  | cons {group last : PublicGroup} {step : Step} {steps : List Step} {sender : Sender}
      {staged : StagedCommit}
      (hprocess : mls.process group step.2 = some ⟨sender, .stagedCommit staged⟩)
      (hrest : Follows mls staged.merged steps last) : Follows mls group (step :: steps) last

theorem applyTransition_process {commit : Bytes} {authorization : MembershipAuthorization}
    (h : mls.applyTransition group commit authorization = .ok group') :
    ∃ sender staged, mls.process group commit = some ⟨sender, .stagedCommit staged⟩ ∧
      group' = staged.merged ∧ commit ≠ [] ∧ commit.length ≤ maxBytes ∧
        authorization.Encodable := by
  obtain ⟨actor, staged, rfl, ⟨_, _, _, rfl | ⟨_, rfl, rfl⟩, haccepted⟩ |
    ⟨_, _, rfl, haccepted⟩⟩ := applyTransition_cases h
  · exact ⟨_, staged, haccepted.processed, rfl, haccepted.size.1, haccepted.size.2,
      haccepted.count⟩
  · exact ⟨_, staged, haccepted.processed, rfl, haccepted.size.1, haccepted.size.2, trivial⟩
  · exact ⟨_, staged, haccepted.processed, rfl, haccepted.size.1, haccepted.size.2, trivial⟩

theorem replay_cons_eq_ok {step : Step} :
    mls.replay group (step :: steps) = .ok last ↔ ∃ next,
      mls.applyTransition group step.2 step.1 = .ok next ∧ mls.replay next steps = .ok last := by
  simp [replay]

theorem Follows.of_replay (h : mls.replay group steps = .ok last) :
    mls.Follows group steps last := by
  induction steps generalizing group with
  | nil =>
    obtain rfl := pure_eq_ok.mp h
    exact .nil group
  | cons step steps ih =>
    obtain ⟨next, hnext, hrest⟩ := replay_cons_eq_ok.mp h
    obtain ⟨sender, staged, hprocess, rfl, _⟩ := applyTransition_process hnext
    exact .cons hprocess (ih hrest)

theorem Follows.append {between : PublicGroup} {rest : List Step}
    (hfirst : mls.Follows group steps between) (hrest : mls.Follows between rest last) :
    mls.Follows group (steps ++ rest) last := by
  induction hfirst with
  | nil group => exact hrest
  | cons hprocess _ ih => exact .cons hprocess (ih hrest)

theorem replay_append {rest : List Step} :
    mls.replay group (steps ++ rest) = .ok last ↔ ∃ between,
      mls.replay group steps = .ok between ∧ mls.replay between rest = .ok last := by
  simp [replay, List.foldlM_append]

/-- A proof that tracks the steps from a checkpoint. -/
structure Carries (mls : PublicMls) (workspace : Block 32) (proof : JoinProof)
    (checkpoint : Bytes) (steps : List Step) : Prop where
  start : ∃ group, mls.fromTrustedCheckpoint workspace proof.checkpointDigest checkpoint =
    .ok group ∧ mls.replay group steps = .ok proof.verifier
  inline : checkpoint.length ≤ maxBytes - 41
  count : proof.steps = steps.length
  bounded : steps.length ≤ maxJoinHistorySteps
  encodable : ∀ step ∈ steps, StepEncodable (!steps.all (·.1.isAdmission)) step
  history : proof.history = inlineBytes (!steps.all (·.1.isAdmission)) proof.checkpointDigest
    checkpoint steps
  size : proof.history.length ≤ maxHistoryBytes

variable {workspace : Block 32} {proof proof' : JoinProof} {checkpoint : Bytes} {step : Step}

theorem joinProofFrom_carries {digest : Block 32} {bytes : Bytes}
    (h : mls.joinProofFrom workspace digest bytes = .ok proof) :
    mls.Carries workspace proof bytes [] := by
  simp only [joinProofFrom, bind_eq_ok, failIf_eq_ok, not_lt, orFail_eq_ok] at h
  obtain ⟨_, hsize, verifier, hverifier, message, _, h⟩ := h
  cases message with
  | groupInfo info =>
    simp only [bind_eq_ok, pure_eq_ok] at h
    obtain ⟨name, _, rfl⟩ := h
    have hhistory : inlineBytes false digest bytes [] =
        historyVersion 1 ++ digest.1 ++ beBytes 4 bytes.length ++ bytes := List.append_nil _
    refine ⟨⟨verifier, hverifier, rfl⟩, hsize, rfl, Nat.zero_le _, by simp, hhistory.symm, ?_⟩
    rw [← hhistory, length_inlineBytes]
    simp only [maxBytes, maxHistoryBytes, List.flatMap_nil, List.length_nil] at hsize ⊢
    omega
  | protocol message => simp at h
  | welcome content => simp at h
  | other => simp at h

section

variable (h : mls.Carries workspace proof checkpoint steps)

include h

theorem Carries.checkpoint_lt :
    checkpoint.length < 256 ^ 4 := by
  have hinline := h.inline
  simp only [maxBytes] at hinline
  omega

theorem Carries.digest :
    mls.sha256 checkpoint = proof.checkpointDigest := by
  obtain ⟨group, hgroup, _⟩ := h.start
  obtain ⟨_, _, _, haccepted⟩ := fromCheckpointWithin_eq_ok.mp hgroup
  exact haccepted.digest

theorem Carries.historyFor :
    proof.historyFor step = .ok (inlineBytes (!(steps ++ [step]).all (·.1.isAdmission))
      proof.checkpointDigest checkpoint steps) := by
  have hencodable := h.encodable
  have hsize := h.size
  rw [JoinProof.historyFor, List.all_append, h.history, getD_inlineBytes]
  rw [h.history] at hsize
  cases hall : steps.all (·.1.isAdmission) with
  | false => simp
  | true =>
    rw [hall] at hencodable hsize
    cases hsingle : step.1.isAdmission with
    | true => simp [hsingle]
    | false =>
      simp only [hsingle, Bool.not_true, Bool.not_false, Bool.false_eq_true, if_false, and_self,
        if_true, List.all_cons, List.all_nil, Bool.and_false, Bool.false_and]
      exact upgradeHistory_inlineBytes hencodable h.bounded h.checkpoint_lt hsize

theorem Carries.appendedHistory {history : Bytes}
    (hhistory : proof.appendedHistory step = .ok history) :
    steps.length < maxJoinHistorySteps ∧ history.length ≤ maxHistoryBytes ∧
      history = inlineBytes (!(steps ++ [step]).all (·.1.isAdmission)) proof.checkpointDigest
        checkpoint (steps ++ [step]) := by
  simp only [JoinProof.appendedHistory, h.historyFor, ok_bind, bind_eq_ok, failIf_eq_ok, not_or,
    not_le, not_lt, pure_eq_ok] at hhistory
  obtain ⟨_, ⟨hcount, _⟩, _, hsize, rfl⟩ := hhistory
  rw [h.count] at hcount
  refine ⟨hcount, hsize, ?_⟩
  rw [inlineBytes_append, getD_inlineBytes]
  cases (steps ++ [step]).all (·.1.isAdmission) <;> rfl

theorem Carries.extendProof (hextend : mls.extendProof proof step = .ok proof') :
    mls.Carries workspace proof' checkpoint (steps ++ [step]) := by
  simp only [PublicMls.extendProof, bind_eq_ok, pure_eq_ok] at hextend
  obtain ⟨history, hhistory, verifier, hverifier, rfl⟩ := hextend
  obtain ⟨hcount, hsize, rfl⟩ := h.appendedHistory hhistory
  obtain ⟨group, hgroup, hreplay⟩ := h.start
  obtain ⟨_, _, _, _, hne, hcommit, hencodable⟩ := applyTransition_process hverifier
  refine ⟨⟨group, hgroup, replay_append.mpr ⟨_, hreplay, ?_⟩⟩, h.inline, ?_, ?_, ?_, rfl, hsize⟩
  · exact replay_cons_eq_ok.mpr ⟨verifier, hverifier, rfl⟩
  · simp [h.count]
  · simpa using Nat.succ_le_of_lt hcount
  · have hlength : step.2.length < 256 ^ 4 := lt_of_le_of_lt hcommit (by decide)
    intro step' hmem
    rw [List.all_append]
    rcases List.mem_append.mp hmem with hbefore | hlast
    · obtain ⟨hauthorization, hsingle, hbytes⟩ := h.encodable step' hbefore
      refine ⟨hauthorization, fun htagged => hsingle ?_, hbytes⟩
      simp only [Bool.not_eq_false', Bool.and_eq_true] at htagged ⊢
      exact htagged.1
    · obtain rfl := List.mem_singleton.mp hlast
      refine ⟨hencodable, fun htagged => ?_, hne, hlength⟩
      simp only [Bool.not_eq_false', Bool.and_eq_true, List.all_cons] at htagged
      exact htagged.2.1

theorem Carries.extendMany {rest : List Step}
    (hextend : rest.foldlM mls.extendProof proof = .ok proof') :
    mls.Carries workspace proof' checkpoint (steps ++ rest) := by
  induction rest generalizing proof steps with
  | nil =>
    obtain rfl := pure_eq_ok.mp hextend
    rwa [List.append_nil]
  | cons step rest ih =>
    simp only [List.foldlM_cons, bind_eq_ok] at hextend
    obtain ⟨next, hnext, hrest⟩ := hextend
    have hcarries := ih (h.extendProof hnext) hrest
    rwa [List.append_assoc] at hcarries

theorem Carries.historyFromInline :
    mls.historyFromInline proof.history = .ok ⟨checkpoint, steps⟩ := by
  have hsize := h.size
  rw [h.history] at hsize
  rw [PublicMls.historyFromInline, h.history,
    parseHistory_inlineBytes h.encodable h.bounded h.checkpoint_lt hsize]
  simp [h.digest]

end

end PublicMls

end Arachne.Security
