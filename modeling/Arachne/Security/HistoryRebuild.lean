import Arachne.Security.Sample

/-! A tracked branch from its encoded history, in either version of the format. -/

namespace Arachne.Security

open Fallible ByteCodec

/-- `JoinProof::from_history`. -/
def PublicMls.joinProofFromHistory (mls : PublicMls) (workspace digest : Block 32)
    (encoded : Bytes) : Outcome JoinProof := do
  failIf (maxBytes < encoded.length) "invalid join history"
  let parsed ← parseHistory encoded
  failIf (parsed.digest ≠ digest) "history checkpoint mismatch"
  let proof ← mls.joinProofFrom workspace digest parsed.checkpoint
  parsed.steps.foldlM mls.extendProof
    (if encoded.getD 4 0 = 2 then { proof with history := proof.history.set 4 2 } else proof)

variable {mls : PublicMls} {workspace digest : Block 32} {checkpoint : Bytes}
  {start proof proof' : JoinProof} {done steps : List Step} {step : Step} {tagged : Bool}

theorem JoinProof.appendedHistory_inline
    (hbounds : ¬(maxJoinHistorySteps ≤ proof.steps ∨ step.2 = [] ∨ maxBytes < step.2.length))
    (hsingle : tagged = false → step.1.isAdmission = true)
    (hsize : (inlineBytes tagged digest checkpoint (done ++ [step])).length ≤ maxHistoryBytes) :
    appendedHistory { proof with history := inlineBytes tagged digest checkpoint done } step =
      .ok (inlineBytes tagged digest checkpoint (done ++ [step])) := by
  have hkept : historyFor { proof with history := inlineBytes tagged digest checkpoint done } step =
      .ok (inlineBytes tagged digest checkpoint done) := by
    rw [historyFor, getD_inlineBytes]
    cases tagged with
    | true => rfl
    | false => simp [hsingle]
  have htagged : decide ((2 : UInt8) ≤ if tagged then 2 else 1) = tagged := by
    cases tagged <;> rfl
  rw [appendedHistory, failIf_of_not hbounds, ok_bind, hkept, ok_bind, getD_inlineBytes, htagged,
    ← inlineBytes_append]
  dsimp only
  rw [failIf_of_not (not_lt.mpr hsize)]
  rfl

namespace PublicMls

/-- A proof whose history is written in either version follows the same steps. -/
theorem extendMany_inline
    (hsingle : ∀ step ∈ steps, tagged = false → step.1.isAdmission = true)
    (hsize : (inlineBytes tagged digest checkpoint (done ++ steps)).length ≤ maxHistoryBytes)
    (h : steps.foldlM mls.extendProof proof = .ok proof') :
    steps.foldlM mls.extendProof
        { proof with history := inlineBytes tagged digest checkpoint done } =
      .ok { proof' with history := inlineBytes tagged digest checkpoint (done ++ steps) } := by
  induction steps generalizing proof done with
  | nil =>
    obtain rfl := pure_eq_ok.mp h
    rw [List.append_nil]
    rfl
  | cons step steps ih =>
    rw [List.append_cons] at hsize ⊢
    rw [List.forall_mem_cons] at hsingle
    simp only [List.foldlM_cons, bind_eq_ok, extendProof, JoinProof.appendedHistory, failIf_eq_ok,
      pure_eq_ok] at h
    obtain ⟨_, ⟨_, ⟨_, hbounds, _⟩, verifier, hverifier, rfl⟩, hrest⟩ := h
    have hfits := hsize
    rw [length_inlineBytes, List.flatMap_append, List.length_append, ← Nat.add_assoc,
      ← length_inlineBytes] at hfits
    rw [List.foldlM_cons, extendProof, JoinProof.appendedHistory_inline hbounds hsingle.1
      (Nat.le_of_add_right_le hfits), ok_bind]
    dsimp only
    rw [hverifier, ok_bind]
    exact ih hsingle.2 hsize hrest

/-- The history of a proof reads back as the steps that the proof has accepted, and rebuilds the
proof unless it is too long to be handed in. -/
theorem history_rebuilds (hstart : mls.joinProofFrom workspace digest checkpoint = .ok start)
    (h : steps.foldlM mls.extendProof start = .ok proof) :
    mls.historyFromInline proof.history = .ok ⟨checkpoint, steps⟩ ∧
      mls.joinProofFromHistory workspace digest proof.history =
        if maxBytes < proof.history.length then .error "invalid join history" else .ok proof := by
  obtain rfl : mls.sha256 checkpoint = digest := by
    simp only [joinProofFrom, bind_eq_ok] at hstart
    obtain ⟨_, _, _, htrusted, _⟩ := hstart
    obtain ⟨_, _, _, haccepted⟩ := fromCheckpointWithin_eq_ok.mp htrusted
    exact haccepted.digest
  have hfirst := joinProofFrom_carries hstart
  have hcarries := hfirst.extendMany h
  rw [List.nil_append] at hcarries
  refine ⟨hcarries.historyFromInline, ?_⟩
  have hfounding := hfirst.history
  have hhistory := hcarries.history
  have hsize := hcarries.size
  rw [← hfirst.digest] at hfounding
  rw [← hcarries.digest] at hhistory
  rw [hhistory] at hsize
  have hrebuilt := extendMany_inline (fun step hstep => (hcarries.encodable step hstep).single)
    (by rwa [List.nil_append]) h
  rw [List.nil_append, ← hhistory] at hrebuilt
  rw [joinProofFromHistory]
  by_cases hlong : maxBytes < proof.history.length
  · rw [if_pos hlong, failIf_of hlong]
    rfl
  · rw [if_neg hlong, failIf_of_not hlong, ok_bind, hhistory, parseHistory_inlineBytes
      hcarries.encodable hcarries.bounded hcarries.checkpoint_lt hsize, ok_bind]
    dsimp only
    rw [failIf_of_not (not_not.mpr rfl), ok_bind, hstart, ok_bind, getD_inlineBytes, ← hrebuilt]
    obtain ⟨_, _, _, _, _⟩ := start
    dsimp only at hfounding
    subst hfounding
    cases steps.all (·.1.isAdmission) <;> rfl

end PublicMls

open Sample in
/-- The batch that admits the joiner turns its history into one with tags. -/
theorem history_rebuilds_pair :
    pair.mls.joinProofFromHistory workspaceId (Script.digest (pair.infoBytes 0 0))
      (admissionProof pair).history = .ok (admissionProof pair) := by
  have hstart : pair.mls.joinProofFrom workspaceId (Script.digest (pair.infoBytes 0 0))
      (pair.infoBytes 0 0) = .ok (foundingProof pair) := by decide
  have hextended : [batchStep].foldlM pair.mls.extendProof (foundingProof pair) =
      .ok (admissionProof pair) := by decide +kernel
  obtain ⟨_, hrebuilt⟩ := PublicMls.history_rebuilds hstart hextended
  exact hrebuilt.trans (if_neg (by decide +kernel))

end Arachne.Security
