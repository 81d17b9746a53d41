import Arachne.Security.History

/-! The inline history reads back as the steps it was written for. -/

namespace Arachne.Security

open Fallible ByteCodec

variable {tagged : Bool} {steps : List Step}

theorem reads_authorization (authorization : AdmissionAuthorization) :
    Reads readAuthorization authorization.encode authorization := by
  rw [AdmissionAuthorization.encode, List.append_assoc]
  exact (Reads.takeBlock _).bind ((Reads.takeBlock _).bind ((Reads.takeBlock _).bind_pure
    (Reads.pure _)))

theorem reads_mode (personal : Bool) : Reads readMode (beBytes 1 personal.toNat) personal := by
  refine (Reads.takeNat (by cases personal <;> decide)).bind_pure (.bind_nil (.check ?_) ?_)
  · cases personal <;> decide
  · cases personal <;> exact Reads.pure _

theorem reads_action (action : ManagementAction) :
    Reads (readAction action.tag) action.content action := by
  refine (Reads.takeBlock _).bind ?_
  cases action with
  | promote id => exact Reads.pure _
  | demote id => exact Reads.pure _
  | remove id => exact Reads.pure _
  | leave id signature => exact (Reads.takeBlock _).bind_pure (Reads.pure _)
  | createInvitation id expires personal =>
    exact (Reads.takeU64 _).bind ((reads_mode personal).bind_pure (Reads.pure _))
  | createAutomaticInvitation id expires => exact (Reads.takeU64 _).bind_pure (Reads.pure _)
  | createRequestInvitation id expires => exact (Reads.takeU64 _).bind_pure (Reads.pure _)
  | declineInvitationRequest id package => exact (Reads.takeBlock _).bind_pure (Reads.pure _)
  | disableInvitation id => exact Reads.pure _
  | approveInvitation id package => exact (Reads.takeBlock _).bind_pure (Reads.pure _)

/-- The size of a batch is within what the encoding holds. -/
def MembershipAuthorization.Encodable : MembershipAuthorization → Prop
  | admissionBatch authorizations =>
      authorizations ≠ [] ∧ authorizations.length ≤ maxAdmissionBatch
  | _ => True

theorem reads_batch {authorizations : List AdmissionAuthorization}
    (hne : authorizations ≠ []) (hmax : authorizations.length ≤ maxAdmissionBatch) :
    Reads readBatch (beBytes 2 authorizations.length ++
      authorizations.flatMap AdmissionAuthorization.encode) authorizations := by
  refine (Reads.takeNat (lt_of_le_of_lt hmax (by decide))).bind (.bind_nil (.check ?_) ?_)
  · rw [not_or, not_lt, List.length_eq_zero_iff]
    exact ⟨hne, hmax⟩
  · rw [List.flatMap_def]
    refine Reads.readMany ?_
    rw [List.forall₂_map_left_iff, List.forall₂_same]
    exact fun authorization _ => reads_authorization authorization

theorem reads_tagged {authorization : MembershipAuthorization} (h : authorization.Encodable) :
    ∃ tag content, tag < 256 ^ 1 ∧ authorization.encode = beBytes 1 tag ++ content ∧
      Reads (readTagged tag) content authorization := by
  cases authorization with
  | admission authorization =>
    exact ⟨0, _, by decide, rfl, (reads_authorization authorization).bind_pure (Reads.pure _)⟩
  | admissionBatch authorizations =>
    refine ⟨11, _, by decide, List.append_assoc _ _ _, ?_⟩
    exact (reads_batch h.1 h.2).bind_pure (Reads.pure _)
  | management action =>
    have htag : 1 ≤ action.tag ∧ action.tag ≤ 10 := by cases action <;> simp [ManagementAction.tag]
    refine ⟨action.tag, _, lt_of_le_of_lt htag.2 (by decide), rfl, ?_⟩
    rw [readTagged, if_neg (by omega), if_neg (by omega), if_pos htag.2]
    exact (reads_action action).bind_pure (Reads.pure _)

/-- A step that an inline history can carry; without tags only a single admission. -/
structure StepEncodable (tagged : Bool) (step : Step) : Prop where
  authorization : step.1.Encodable
  single : tagged = false → step.1.isAdmission
  commit : step.2 ≠ [] ∧ step.2.length < 256 ^ 4

theorem reads_step {step : Step} (h : StepEncodable tagged step) :
    Reads (readStep tagged) (writeStep tagged step) step := by
  have hrest : Reads (do
      let length ← takeNat truncated 4
      check (length = 0) "empty membership history commit"
      pure (step.1, ← take truncated length)) (beBytes 4 step.2.length ++ step.2) step := by
    refine (Reads.takeNat h.commit.2).bind (.bind_nil (.check ?_) ?_)
    · exact fun hzero => h.commit.1 (List.length_eq_zero_iff.mp hzero)
    · exact (Reads.take rfl).bind_pure (Reads.pure _)
  rw [writeStep, List.append_assoc]
  cases tagged with
  | true =>
    obtain ⟨tag, content, htag, hencode, hreads⟩ := reads_tagged h.authorization
    have hwrite : writeAuthorization true step.1 = step.1.encode := by
      cases step.1 <;> rfl
    rw [hwrite, hencode, List.append_assoc]
    exact (Reads.takeNat htag).bind (hreads.bind hrest)
  | false =>
    obtain ⟨authorization, commit⟩ := step
    cases authorization with
    | admission authorization =>
      have hsingle : Reads (readTagged 0) authorization.encode (.admission authorization) :=
        (reads_authorization authorization).bind_pure (Reads.pure _)
      exact .bind_nil (.pure 0) (hsingle.bind hrest)
    | admissionBatch authorizations => exact absurd (h.single rfl) Bool.false_ne_true
    | management action => exact absurd (h.single rfl) Bool.false_ne_true

theorem writeStep_ne_nil {step : Step} (h : StepEncodable tagged step) :
    writeStep tagged step ≠ [] := by
  simp [writeStep, h.commit.1]

theorem readSteps_write {fuel : Nat} (h : ∀ step ∈ steps, StepEncodable tagged step)
    (hfuel : steps.length ≤ fuel) :
    readSteps tagged fuel (steps.flatMap (writeStep tagged)) = .ok (steps, []) := by
  induction steps generalizing fuel with
  | nil => cases fuel <;> rfl
  | cons step steps ih =>
    obtain ⟨fuel, rfl⟩ : ∃ n, fuel = n + 1 := ⟨fuel - 1, by simp at hfuel; omega⟩
    rw [List.forall_mem_cons] at h
    have hmore : (writeStep tagged step ++ steps.flatMap (writeStep tagged)).isEmpty = false := by
      simp [writeStep_ne_nil h.1]
    rw [List.flatMap_cons, readSteps, atEnd_bind, hmore]
    rw [if_neg (by decide), (reads_step h.1).bind_apply]
    change (do let r ← readSteps tagged fuel (steps.flatMap (writeStep tagged)); _) = _
    rw [ih h.2 (by simpa using hfuel)]
    rfl

/-- An encoded history with its steps. -/
def inlineBytes (tagged : Bool) (digest : Block 32) (checkpoint : Bytes) (steps : List Step) :
    Bytes :=
  historyVersion (if tagged then 2 else 1) ++ digest.1 ++ beBytes 4 checkpoint.length ++
    checkpoint ++ steps.flatMap (writeStep tagged)

variable {digest : Block 32} {checkpoint : Bytes}

theorem readInline_write (hsteps : ∀ step ∈ steps, StepEncodable tagged step)
    (hcount : steps.length ≤ maxJoinHistorySteps) (hcheckpoint : checkpoint.length < 256 ^ 4) :
    readInline tagged (digest.1 ++ (beBytes 4 checkpoint.length ++
      (checkpoint ++ steps.flatMap (writeStep tagged)))) =
        .ok (⟨digest, checkpoint, steps⟩, []) := by
  rw [readInline, (Reads.takeBlock digest).bind_apply, (Reads.takeNat hcheckpoint).bind_apply,
    (Reads.take rfl).bind_apply]
  change (do let r ← readSteps tagged maxJoinHistorySteps _; _) = _
  rw [readSteps_write hsteps hcount]
  rfl

theorem historyVersion_eq (tagged : Bool) :
    historyVersion (if tagged then 2 else 1) = [68, 70, 74, 72, if tagged then 2 else 1] := by
  cases tagged <;> decide

theorem historyVersion_prefix (tagged : Bool) (rest : Bytes) :
    historyVersion 2 <+: historyVersion (if tagged then 2 else 1) ++ rest ↔ tagged = true := by
  cases tagged with
  | true => simp
  | false =>
    have hfirst : historyVersion 1 = [68, 70, 74, 72, 1] := historyVersion_eq false
    have hsecond : historyVersion 2 = [68, 70, 74, 72, 2] := historyVersion_eq true
    simp [hfirst, hsecond]

theorem parseHistory_inlineBytes (hsteps : ∀ step ∈ steps, StepEncodable tagged step)
    (hcount : steps.length ≤ maxJoinHistorySteps) (hcheckpoint : checkpoint.length < 256 ^ 4)
    (hsize : (inlineBytes tagged digest checkpoint steps).length ≤ maxHistoryBytes) :
    parseHistory (inlineBytes tagged digest checkpoint steps) =
      .ok ⟨digest, checkpoint, steps⟩ := by
  have hbytes : inlineBytes tagged digest checkpoint steps =
      historyVersion (if tagged then 2 else 1) ++ (digest.1 ++ (beBytes 4 checkpoint.length ++
        (checkpoint ++ steps.flatMap (writeStep tagged)))) := by
    simp [inlineBytes]
  have hdrop : (inlineBytes tagged digest checkpoint steps).drop 5 =
      digest.1 ++ (beBytes 4 checkpoint.length ++
        (checkpoint ++ steps.flatMap (writeStep tagged))) := by
    rw [hbytes]
    cases tagged <;> exact List.drop_left' rfl
  have hvalid : ¬ (maxHistoryBytes < (inlineBytes tagged digest checkpoint steps).length ∨
      ¬ (historyVersion 1 <+: inlineBytes tagged digest checkpoint steps ∨
        historyVersion 2 <+: inlineBytes tagged digest checkpoint steps)) := by
    rw [not_or, not_not]
    refine ⟨not_lt.mpr hsize, ?_⟩
    rw [hbytes]
    cases tagged with
    | true => exact .inr (List.prefix_append _ _)
    | false => exact .inl (List.prefix_append _ _)
  have htagged : decide (historyVersion 2 <+: inlineBytes tagged digest checkpoint steps) =
      tagged := by
    rw [hbytes, Bool.eq_iff_iff, decide_eq_true_iff]
    exact historyVersion_prefix tagged _
  rw [parseHistory, failIf_of_not hvalid, ok_bind, htagged, hdrop,
    readInline_write hsteps hcount hcheckpoint]
  rfl

/-! The upgrade of an untagged history. -/

theorem getD_inlineBytes (tagged : Bool) (digest : Block 32) (checkpoint : Bytes)
    (steps : List Step) :
    (inlineBytes tagged digest checkpoint steps).getD 4 0 = if tagged then 2 else 1 := by
  rw [inlineBytes, historyVersion_eq]
  rfl

theorem length_inlineBytes (tagged : Bool) (digest : Block 32) (checkpoint : Bytes)
    (steps : List Step) : (inlineBytes tagged digest checkpoint steps).length =
      41 + checkpoint.length + (steps.flatMap (writeStep tagged)).length := by
  rw [inlineBytes, historyVersion_eq]
  simp only [List.length_append, beBytes_length, digest.2]
  rfl

theorem inlineBytes_append (tagged : Bool) (digest : Block 32) (checkpoint : Bytes)
    (steps : List Step) (step : Step) :
    inlineBytes tagged digest checkpoint (steps ++ [step]) =
      inlineBytes tagged digest checkpoint steps ++ writeStep tagged step := by
  simp [inlineBytes]

theorem upgradeHistory_inlineBytes (hsteps : ∀ step ∈ steps, StepEncodable false step)
    (hcount : steps.length ≤ maxJoinHistorySteps) (hcheckpoint : checkpoint.length < 256 ^ 4)
    (hsize : (inlineBytes false digest checkpoint steps).length ≤ maxHistoryBytes) :
    upgradeHistory (inlineBytes false digest checkpoint steps) =
      .ok (inlineBytes true digest checkpoint steps) := by
  have hlength : beNat (((inlineBytes false digest checkpoint steps).drop 37).take 4) =
      checkpoint.length := by
    have hdrop : (inlineBytes false digest checkpoint steps).drop 37 =
        beBytes 4 checkpoint.length ++ (checkpoint ++ steps.flatMap (writeStep false)) := by
      rw [inlineBytes, List.append_assoc, List.append_assoc]
      exact List.drop_left' (by rw [historyVersion_eq, List.length_append, digest.2]; rfl)
    rw [hdrop, List.take_left' (beBytes_length _ _), beNat_beBytes hcheckpoint]
  have hhead : (inlineBytes false digest checkpoint steps).take (41 + checkpoint.length) =
      historyVersion 1 ++ digest.1 ++ beBytes 4 checkpoint.length ++ checkpoint := by
    rw [inlineBytes]
    refine List.take_left' ?_
    rw [historyVersion_eq, List.length_append, List.length_append, List.length_append, digest.2,
      beBytes_length]
    rfl
  have hset : (historyVersion 1 ++ digest.1 ++ beBytes 4 checkpoint.length ++ checkpoint).set 4 2 =
      historyVersion 2 ++ digest.1 ++ beBytes 4 checkpoint.length ++ checkpoint := by
    have hfirst : historyVersion 1 = [68, 70, 74, 72, 1] := historyVersion_eq false
    have hsecond : historyVersion 2 = [68, 70, 74, 72, 2] := historyVersion_eq true
    rw [hfirst, hsecond]
    rfl
  rw [upgradeHistory, parseHistory_inlineBytes hsteps hcount hcheckpoint hsize, ok_bind, hlength]
  change Except.ok (((inlineBytes false digest checkpoint steps).take
    (41 + checkpoint.length)).set 4 2 ++ steps.flatMap (writeStep true)) = _
  rw [hhead, hset]
  rfl

end Arachne.Security
