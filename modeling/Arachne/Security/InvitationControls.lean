import Arachne.Security.Authority

/-! Management actions and the invitation controls they change. A disabled grant cannot
authorize a later Add; expiry is checked only against a clock that the caller passes in. -/

namespace Arachne.Security

open Fallible ByteCodec

/-- One authenticated membership or invitation-management intent. -/
inductive ManagementAction where
  | promote (id : Block 32)
  | demote (id : Block 32)
  | remove (id : Block 32)
  | leave (id : Block 32) (signature : Block 64)
  | createInvitation (key : Block 32) (expiresAt : U64) (personal : Bool)
  | createAutomaticInvitation (key : Block 32) (expiresAt : U64)
  | createRequestInvitation (key : Block 32) (expiresAt : U64)
  | declineInvitationRequest (key package : Block 32)
  | disableInvitation (key : Block 32)
  | approveInvitation (key package : Block 32)
  deriving DecidableEq

namespace ManagementAction

def target : ManagementAction → Block 32
  | promote id | demote id | remove id | leave id _ | createInvitation id _ _
  | createAutomaticInvitation id _ | createRequestInvitation id _
  | declineInvitationRequest id _ | disableInvitation id | approveInvitation id _ => id

def removes : ManagementAction → Bool
  | remove _ | leave _ _ => true
  | _ => false

def isLeave : ManagementAction → Bool
  | leave _ _ => true
  | _ => false

/-- The actions that `invitation_controls` handles. -/
def changesInvitations : ManagementAction → Bool
  | promote _ | demote _ | remove _ | leave _ _ => false
  | _ => true

end ManagementAction

def invitationDisabled : String :=
  "This invitation has been disabled. Ask an administrator for a new link."

def invitationExpired : String :=
  "This invitation has expired. Ask an administrator for a new link."

def invitationApprovalRequired : String :=
  "This personal invitation needs administrator approval for your join request."

def invitationAutomaticApprovalRequired : String :=
  "This personal invitation is waiting for an administrator to bind its first join request."

def automaticApproval : Block 32 := ⟨List.replicate 32 0xff, by simp⟩

def requestAccess : Block 32 := ⟨List.replicate 32 0xfe, by simp⟩

namespace InvitationControl

def automatic (control : InvitationControl) : Bool :=
  control.personal && control.approvedPackage == automaticApproval

def asksForAccess (control : InvitationControl) : Bool :=
  control.personal && control.approvedPackage == requestAccess

def approved (control : InvitationControl) : Bool :=
  control.personal && control.approvedPackage != zeroBlock 32 && !control.automatic &&
    !control.asksForAccess

def encode (control : InvitationControl) : Bytes :=
  control.key.1 ++ beBytes 8 control.expiresAt.val ++ beBytes 1 control.enabled.toNat ++
    beBytes 1 control.personal.toNat ++ control.approvedPackage.1

end InvitationControl

def encodePolicy (legacy : Bool) (controls : List InvitationControl) : Bytes :=
  UInt8.ofNat legacy.toNat :: beBytes 2 controls.length ++
    controls.flatMap InvitationControl.encode

/-- The controls of a key, if it is listed. -/
def controlOf (controls : List InvitationControl) (key : Block 32) : Option InvitationControl :=
  controls.find? (·.key = key)

/-- The first control of the key, changed; the others as they are. -/
def updateControl (key : Block 32) (change : InvitationControl → InvitationControl) :
    List InvitationControl → List InvitationControl
  | [] => []
  | control :: controls =>
      if control.key = key then change control :: controls
      else control :: updateControl key change controls

namespace PublicMls

variable (mls : PublicMls)

def decisionKey (invitation package : Block 32) : Block 32 :=
  mls.sha256 (utf8 "data-fabric/invitation-request/v1" ++ [0] ++ invitation.1 ++ package.1)

def packageDigest (package : KeyPackage) : Block 32 := mls.sha256 package.encoded

/-- `invitation_controls::check`: whether the controls let `package` join with the invitation
of `key`; `now` is absent when accepted history is replayed. -/
def checkInvitation (extensions : List Extension) (key : Block 32) (now : Option U64)
    (package : KeyPackage) : Outcome Unit := do
  let (legacy, controls) ← invitationControls extensions
  match controlOf controls key with
  | none => if legacy then pure () else .error invitationDisabled
  | some control =>
      if !control.enabled then .error invitationDisabled
      else if control.expiresAt ≠ 0 ∧ now.any (control.expiresAt ≤ ·) then
        .error invitationExpired
      else if control.automatic then .error invitationAutomaticApprovalRequired
      else if control.asksForAccess then
        let digest := mls.packageDigest package
        match controlOf controls (mls.decisionKey control.key digest) with
        | some decision =>
            if !decision.enabled then .error invitationDisabled
            else if decision.personal && decision.approvedPackage == digest then pure ()
            else .error invitationApprovalRequired
        | none => .error invitationApprovalRequired
      else if control.personal && !control.approved then .error invitationApprovalRequired
      else if control.personal && control.approvedPackage != mls.packageDigest package then
        .error invitationApprovalRequired
      else pure ()

def isReserved (package : Block 32) : Bool :=
  package == zeroBlock 32 || package == automaticApproval || package == requestAccess

/-- Record the decision on one join request of a request-access invitation. -/
def decide (controls : List InvitationControl) (parent : InvitationControl)
    (package : Block 32) (approved : Bool) : Outcome (List InvitationControl) := do
  failIf (!parent.enabled || isReserved package) "invalid or disabled invitation request"
  let key := mls.decisionKey parent.key package
  failIf (controls.any (·.key = key)) "join request already decided"
  pure (controls ++ [⟨key, parent.expiresAt, approved, true, package⟩])

def createControl (controls : List InvitationControl) (control : InvitationControl) :
    Outcome (List InvitationControl) := do
  failIf (control.key = zeroBlock 32 ∨ controls.any (·.key = control.key))
    "invitation already registered or invalid"
  pure (controls ++ [control])

/-- The controls after an invitation action. -/
def changeControls (legacy : Bool) (controls : List InvitationControl) :
    ManagementAction → Outcome (Bool × List InvitationControl)
  | .createInvitation key expiresAt personal => do
      pure (legacy, ← createControl controls ⟨key, expiresAt, true, personal, zeroBlock 32⟩)
  | .createAutomaticInvitation key expiresAt => do
      pure (legacy, ← createControl controls ⟨key, expiresAt, true, true, automaticApproval⟩)
  | .createRequestInvitation key expiresAt => do
      pure (legacy, ← createControl controls ⟨key, expiresAt, true, true, requestAccess⟩)
  | .approveInvitation key package => do
      let parent ← orFail (controlOf controls key) "unknown invitation"
      if parent.asksForAccess then
        pure (legacy, ← mls.decide controls parent package true)
      else
        failIf (!parent.personal || !parent.enabled ||
            (parent.approvedPackage != zeroBlock 32 && !parent.automatic) || isReserved package)
          "personal invitation is already approved or disabled"
        pure (legacy, updateControl key ({ · with approvedPackage := package }) controls)
  | .declineInvitationRequest key package => do
      let parent ← orFail (controlOf controls key) "unknown invitation"
      failIf (!parent.asksForAccess) "expected a request-access invitation"
      pure (legacy, ← mls.decide controls parent package false)
  | .disableInvitation key =>
      if key = zeroBlock 32 then do
        failIf (!legacy) "older invitations already disabled"
        pure (false, controls)
      else do
        let control ← orFail (controlOf controls key) "unknown invitation"
        failIf (!control.enabled) "invitation already disabled"
        pure (legacy, updateControl key ({ · with enabled := false }) controls)
  | _ => .error "expected invitation control action"

/-- `invitation_controls::changed`: the group context extensions after an invitation action. -/
def changed (extensions : List Extension) (action : ManagementAction) :
    Outcome (List Extension) := do
  let (legacy, controls) ← invitationControls extensions
  let (legacy, controls) ← mls.changeControls legacy controls action
  let admins ← authority extensions
  let policy := encodePolicy legacy controls
  let _ ← decodePolicy policy
  withAuthority extensions (2 :: UInt8.ofNat admins.length :: admins.flatten ++ policy)
    "invalid invitation policy"

end PublicMls

end Arachne.Security
