import Mathlib.Data.Finset.Basic
import Arachne.Security.Policy
import Arachne.Security.Roster

/-! What a workspace's membership is and who may change it in which way, apart from how
commits, extensions and signatures encode it. -/

namespace Arachne.Security

open Fallible ByteCodec

structure Membership where
  members : List Member
  admins : Finset Bytes
  legacy : Bool
  controls : List InvitationControl
  unrelated : List Extension

/-- The membership that a group's tree and context extensions hold. -/
def PublicGroup.membership (group : PublicGroup) : Outcome Membership := do
  let admins ← authority group.extensions
  let (legacy, controls) ← invitationControls group.extensions
  pure ⟨group.members, admins.toFinset, legacy, controls, unrelated group.extensions⟩

namespace Membership

def adding (membership : Membership) (packages : List KeyPackage) : Membership :=
  { membership with
    members := packages.foldl (fun members package => placeFrom 0 package.leafNode members)
      membership.members }

/-- The membership without one member and its role. -/
def without (membership : Membership) (target : Member) : Membership :=
  { membership with
    members := membership.members.filter (·.index ≠ target.index)
    admins := membership.admins.erase target.signatureKey }

/-- The member with the given id. -/
structure Identifies (membership : Membership) (id : Block 32) (target : Member) : Prop where
  mem : target ∈ membership.members
  bound : ∃ endpoint, binding target.credential = .ok (id, endpoint)
  unique : ∀ member ∈ membership.members, ∀ endpoint,
    binding member.credential = .ok (id, endpoint) → member = target

section Allowed

variable (mls : PublicMls) (Signed : (key message : Bytes) → Prop) (context : GroupContext)

/-- An administrator granted the invitation, its key redeemed it for this package, and the
controls in force adding the package. -/
structure Invited (before : Membership) (authorization : AdmissionAuthorization)
    (package : KeyPackage) : Prop where
  granted : ∃ admin ∈ before.admins,
    Signed admin (grant context.groupId authorization.invitationKey)
  redeemed : Signed authorization.invitationKey.1
    (redemption context.groupId authorization.invitationKey package)
  allowed : mls.Admits before.legacy before.controls authorization.invitationKey package

/-- The member asked to leave, in this very state of the group. -/
def LeaveSigned (id : Block 32) (target : Member) : Prop :=
  ∃ payload, mls.leavePayload context id = .ok payload ∧ Signed target.signatureKey payload

/-- The changes that `actor` may make to a membership, with what each authorization means. -/
inductive Allowed (actor : Member) (before : Membership) :
    MembershipAuthorization → Membership → Prop where
  | admission {authorization : AdmissionAuthorization} {package : KeyPackage}
      (hinvited : Invited mls Signed context before authorization package) :
      Allowed actor before (.admission authorization) (before.adding [package])
  | admissionBatch {authorizations : List AdmissionAuthorization} {packages : List KeyPackage}
      (hinvited : List.Forall₂ (Invited mls Signed context before) authorizations packages) :
      Allowed actor before (.admissionBatch authorizations) (before.adding packages)
  | promote {id : Block 32} {target : Member} (hactor : actor.signatureKey ∈ before.admins)
      (htarget : before.Identifies id target) (hrole : target.signatureKey ∉ before.admins) :
      Allowed actor before (.management (.promote id))
        { before with admins := insert target.signatureKey before.admins }
  | demote {id : Block 32} {target : Member} (hactor : actor.signatureKey ∈ before.admins)
      (htarget : before.Identifies id target) (hrole : target.signatureKey ∈ before.admins) :
      Allowed actor before (.management (.demote id))
        { before with admins := before.admins.erase target.signatureKey }
  | remove {id : Block 32} {target : Member} (hactor : actor.signatureKey ∈ before.admins)
      (htarget : before.Identifies id target) (hother : target.index ≠ actor.index) :
      Allowed actor before (.management (.remove id)) (before.without target)
  | leave {id : Block 32} {signature : Block 64} {target : Member}
      (hsigned : LeaveSigned mls Signed context id target)
      (htarget : before.Identifies id target) (hother : target.index ≠ actor.index) :
      Allowed actor before (.management (.leave id signature)) (before.without target)
  | invitations {action : ManagementAction} {legacy : Bool} {controls : List InvitationControl}
      (hactor : actor.signatureKey ∈ before.admins) (hinvitations : action.changesInvitations)
      (hchange : mls.changeControls before.legacy before.controls action = .ok (legacy, controls)) :
      Allowed actor before (.management action) { before with legacy, controls }

/-- The member who signed it leaves, and only that member and its role go. -/
def CarriesOutLeave (before : Membership) (authorization : MembershipAuthorization)
    (after : Membership) : Prop :=
  ∃ id signature target, authorization = .management (.leave id signature) ∧
    LeaveSigned mls Signed context id target ∧ before.Identifies id target ∧
      after = before.without target

/-- Members are added, each one invited; nothing else changes. -/
def AddsInvited (before : Membership) (authorization : MembershipAuthorization)
    (after : Membership) : Prop :=
  ∃ authorizations packages,
    (authorization = .admissionBatch authorizations ∨
      ∃ single, authorization = .admission single ∧ authorizations = [single]) ∧
    List.Forall₂ (Invited mls Signed context before) authorizations packages ∧
      after = before.adding packages

variable {mls Signed context} {actor : Member} {before after : Membership}
  {authorization : MembershipAuthorization}

theorem Allowed.change_of_authority
    (h : Allowed mls Signed context actor before authorization after)
    (hchange : before.admins ≠ after.admins ∨
      (before.legacy, before.controls) ≠ (after.legacy, after.controls)) :
    actor.signatureKey ∈ before.admins ∨
      CarriesOutLeave mls Signed context before authorization after := by
  cases h with
  | admission _ => exact absurd hchange (by simp [adding])
  | admissionBatch _ => exact absurd hchange (by simp [adding])
  | promote hactor _ _ => exact .inl hactor
  | demote hactor _ _ => exact .inl hactor
  | remove hactor _ _ => exact .inl hactor
  | leave hsigned htarget _ => exact .inr ⟨_, _, _, rfl, hsigned, htarget, rfl⟩
  | invitations hactor _ _ => exact .inl hactor

theorem Allowed.of_not_admin (h : Allowed mls Signed context actor before authorization after)
    (hactor : actor.signatureKey ∉ before.admins) :
    AddsInvited mls Signed context before authorization after ∨
      CarriesOutLeave mls Signed context before authorization after := by
  cases h with
  | admission hinvited =>
    exact .inl ⟨_, _, .inr ⟨_, rfl, rfl⟩, .cons hinvited .nil, rfl⟩
  | admissionBatch hinvited => exact .inl ⟨_, _, .inl rfl, hinvited, rfl⟩
  | promote hadmin _ _ => exact absurd hadmin hactor
  | demote hadmin _ _ => exact absurd hadmin hactor
  | remove hadmin _ _ => exact absurd hadmin hactor
  | leave hsigned htarget _ => exact .inr ⟨_, _, _, rfl, hsigned, htarget, rfl⟩
  | invitations hadmin _ _ => exact absurd hadmin hactor

end Allowed

end Membership

end Arachne.Security
