import Arachne.Security.Continuity
import Arachne.Security.RosterRuns

/-! Invitation controls over whole histories. Whatever is accepted, the controls only tighten:
nothing disabled comes back, and what an invitation is once bound to stays. -/

namespace Arachne.Security

open Fallible ByteCodec Transition PublicMls

variable {legacy : Bool} {control : InvitationControl} {group : PublicGroup}
  {old : Bool × List InvitationControl}

theorem controlOf_key {controls : List InvitationControl} {key : Block 32}
    (h : controlOf controls key = some control) : control.key = key := by
  simpa using List.find?_some h

theorem controlOf_eq_none {controls : List InvitationControl} {key : Block 32} :
    controlOf controls key = none ↔ key ∉ controls.map (·.key) := by
  simp [controlOf]

theorem controlOf_append {controls : List InvitationControl} {key : Block 32} :
    controlOf (controls ++ [control]) key =
      (controlOf controls key).or (if control.key = key then some control else none) := by
  rw [controlOf, List.find?_append, controlOf]
  congr 1
  by_cases h : control.key = key <;> simp [h]

theorem controlOf_updateControl {change : InvitationControl → InvitationControl}
    (hchange : ∀ control, (change control).key = control.key)
    {controls : List InvitationControl} {key other : Block 32} :
    controlOf (updateControl key change controls) other =
      if other = key then (controlOf controls key).map change else controlOf controls other := by
  induction controls with
  | nil => simp [updateControl, controlOf]
  | cons control controls ih =>
    simp only [controlOf] at ih
    by_cases hkey : control.key = key
    · by_cases hother : other = key
      · simp [updateControl, controlOf, hkey, hchange, hother]
      · have hne : key ≠ other := fun h => hother h.symm
        simp [updateControl, controlOf, hkey, hchange, hother, hne]
    · by_cases hother : other = key
      · subst hother
        simpa [updateControl, controlOf, hkey] using ih
      · simp only [updateControl, hkey, if_false, controlOf, List.find?_cons, ih, hother]

/-- Controls that were read stood in the bytes as they are written, under keys of their own. -/
theorem readControls_eq_ok {count : Nat} {before after : List InvitationControl}
    {bytes rest : Bytes} (h : readControls count before bytes = .ok (after, rest))
    (hbefore : (before.map (·.key)).Nodup) :
    ∃ controls, controls.length = count ∧ after = before ++ controls ∧
      bytes = controls.flatMap InvitationControl.encode ++ rest ∧ (after.map (·.key)).Nodup := by
  induction count generalizing before bytes with
  | zero =>
    obtain ⟨rfl, rfl⟩ := Prod.mk.inj (Except.ok.inj h)
    exact ⟨[], rfl, by simp, by simp, hbefore⟩
  | succ count ih =>
    simp only [readControls, reader_bind_eq_ok, takeBlock_eq_ok, takeU64_eq_ok, takeNat_eq_ok,
      check_eq_ok, not_or, not_lt, List.any_eq_true, decide_eq_true_iff, not_exists, not_and] at h
    obtain ⟨key, _, rfl, expiresAt, _, rfl, enabled, _, ⟨_, rfl⟩, personal, _, ⟨_, rfl⟩, package,
      left, rfl, _, _, ⟨⟨henabled, hpersonal, _, hfresh⟩, rfl⟩, h⟩ := h
    have hkeys : ((before ++ [(⟨key, expiresAt, enabled == 1, personal == 1, package⟩ :
        InvitationControl)]).map InvitationControl.key).Nodup := by
      rw [List.map_append, List.nodup_append]
      refine ⟨hbefore, by simp, ?_⟩
      rintro _ hmem _ hnew rfl
      obtain ⟨existing, hexisting, hsame⟩ := List.mem_map.mp hmem
      exact hfresh existing hexisting (hsame.trans (List.mem_singleton.mp hnew))
    obtain ⟨controls, rfl, rfl, rfl, hnodup⟩ := ih h hkeys
    have hbit : ∀ n, n ≤ 1 → (n == 1).toNat = n := by decide
    refine ⟨⟨key, expiresAt, enabled == 1, personal == 1, package⟩ :: controls, rfl,
      by simp, ?_, hnodup⟩
    simp [InvitationControl.encode, hbit enabled henabled, hbit personal hpersonal]

/-- Only one text is read as a given policy: the one written for it. -/
theorem decodePolicy_eq_ok {bytes : Bytes} {policy : Bool × List InvitationControl}
    (h : decodePolicy bytes = .ok policy) :
    bytes = encodePolicy policy.1 policy.2 ∧ (policy.2.map (·.key)).Nodup := by
  unfold decodePolicy at h
  split at h
  · rename_i legacy high low rows
    simp only [bind_eq_ok, failIf_eq_ok, not_or, not_lt, not_not, pure_eq_ok, Prod.exists] at h
    obtain ⟨_, ⟨_, hlegacy⟩, _, hlength, controls, rest, hread, rfl⟩ := h
    obtain ⟨controls', hcount, hcontrols, rfl, hnodup⟩ := readControls_eq_ok hread (by simp)
    rw [List.nil_append] at hcontrols
    subst hcontrols
    refine ⟨?_, hnodup⟩
    have hrest : rest = [] := by
      rw [List.length_append, length_flatMap_encode, hcount] at hlength
      exact List.length_eq_zero_iff.mp (by omega)
    have hbytes : beBytes 2 controls.length = [high, low] := by
      rw [hcount]
      exact beBytes_beNat [high, low]
    have hflag : UInt8.ofNat (legacy == 1).toNat = legacy := by
      have hle := UInt8.le_iff_toNat_le.mp hlegacy
      rcases Nat.le_one_iff_eq_zero_or_eq_one.mp hle with hzero | hone
      · rw [UInt8.toNat_inj.mp (hzero.trans (by rfl : (0 : Nat) = (0 : UInt8).toNat))]
        rfl
      · rw [UInt8.toNat_inj.mp (hone.trans (by rfl : (1 : Nat) = (1 : UInt8).toNat))]
        rfl
    rw [encodePolicy, hbytes, hflag, hrest]
    simp
  · cases h

namespace InvitationControl.Becomes

variable {disabled disabled' : Prop} {first second third : InvitationControl}

theorem refl (control : InvitationControl) : control.Becomes disabled control :=
  ⟨rfl, rfl, rfl, .inl rfl, .inl rfl⟩

section

variable (h : first.Becomes disabled second)

include h

theorem mono (himp : disabled → disabled') :
    first.Becomes disabled' second :=
  { h with enabled := h.enabled.imp_right fun ⟨hd, he⟩ => ⟨himp hd, he⟩ }

theorem package_of_reserved (hreserved : isReserved second.approvedPackage) :
    second.approvedPackage = first.approvedPackage := by
  rcases h.package with heq | ⟨_, hfree⟩
  · exact heq
  · exact absurd hreserved hfree

theorem package_of_bound (hbound : ¬ isReserved first.approvedPackage) :
    second.approvedPackage = first.approvedPackage := by
  rcases h.package with heq | ⟨hwaiting, _⟩
  · exact heq
  · rcases hwaiting with hzero | hautomatic
    · simp [isReserved, hzero] at hbound
    · simp [isReserved, hautomatic] at hbound

theorem trans (h' : second.Becomes disabled third) :
    first.Becomes disabled third where
  key := h'.key.trans h.key
  expiresAt := h'.expiresAt.trans h.expiresAt
  personal := h'.personal.trans h.personal
  enabled := by
    rcases h'.enabled with heq | hdisabled
    · rw [heq]
      exact h.enabled
    · exact .inr hdisabled
  package := by
    rcases h.package with heq | ⟨hwaiting, hfree⟩
    · rw [← heq]
      exact h'.package
    · rw [h'.package_of_bound hfree]
      exact .inr ⟨hwaiting, hfree⟩

theorem asksForAccess :
    second.asksForAccess = first.asksForAccess := by
  rcases h.package with heq | ⟨hwaiting, hfree⟩
  · simp [InvitationControl.asksForAccess, heq, h.personal]
  · have hsecond : second.approvedPackage ≠ requestAccess := by
      intro heq
      simp [isReserved, heq] at hfree
    have hfirst : first.approvedPackage ≠ requestAccess := by
      rcases hwaiting with heq | heq <;> rw [heq] <;> decide
    rw [InvitationControl.asksForAccess, InvitationControl.asksForAccess,
      beq_false_of_ne hsecond, beq_false_of_ne hfirst, Bool.and_false, Bool.and_false]

end

end InvitationControl.Becomes

/-- What later controls keep of earlier ones. `disabled` and `registered` are the keys that were
disabled and registered on the way. -/
structure Tightens (disabled registered : Block 32 → Prop)
    (before after : Bool × List InvitationControl) : Prop where
  legacy : after.1 = true → before.1 = true
  kept : ∀ key control, controlOf before.2 key = some control →
    ∃ control', controlOf after.2 key = some control' ∧ control.Becomes (disabled key) control'
  reserved : ∀ key control, controlOf after.2 key = some control →
    isReserved control.approvedPackage →
      key ∈ before.2.map (·.key) ∨ registered key

namespace Tightens

variable {disabled registered disabled' registered' : Block 32 → Prop}
  {first second third : Bool × List InvitationControl}

theorem refl (policy : Bool × List InvitationControl) :
    Tightens disabled registered policy policy where
  legacy := id
  kept _ control h := ⟨control, h, .refl control⟩
  reserved key control h _ := by
    refine .inl ?_
    by_contra hmem
    rw [controlOf_eq_none.mpr hmem] at h
    cases h

theorem mono (h : Tightens disabled registered first second)
    (hdisabled : ∀ key, disabled key → disabled' key)
    (hregistered : ∀ key, registered key → registered' key) :
    Tightens disabled' registered' first second where
  legacy := h.legacy
  kept key control hcontrol := by
    obtain ⟨control', hcontrol', hbecomes⟩ := h.kept key control hcontrol
    exact ⟨control', hcontrol', hbecomes.mono (hdisabled key)⟩
  reserved key control hcontrol hreserved :=
    (h.reserved key control hcontrol hreserved).imp_right (hregistered key)

theorem trans (h : Tightens disabled registered first second)
    (h' : Tightens disabled registered second third) :
    Tightens disabled registered first third where
  legacy hthird := h.legacy (h'.legacy hthird)
  kept key control hcontrol := by
    obtain ⟨control', hcontrol', hbecomes⟩ := h.kept key control hcontrol
    obtain ⟨control'', hcontrol'', hbecomes'⟩ := h'.kept key control' hcontrol'
    exact ⟨control'', hcontrol'', hbecomes.trans hbecomes'⟩
  reserved key control hcontrol hreserved := by
    rcases h'.reserved key control hcontrol hreserved with hmem | hregistered
    · obtain ⟨middle, hmiddle⟩ := Option.ne_none_iff_exists'.mp
        (fun hnone => controlOf_eq_none.mp hnone hmem)
      obtain ⟨control', hcontrol', hbecomes⟩ := h'.kept key middle hmiddle
      rw [hcontrol] at hcontrol'
      obtain rfl := Option.some.inj hcontrol'
      rw [hbecomes.package_of_reserved hreserved] at hreserved
      exact h.reserved key middle hmiddle hreserved
    · exact .inr hregistered

variable {controls : List InvitationControl}

theorem append (hreserved : isReserved control.approvedPackage → registered control.key) :
    Tightens disabled registered (legacy, controls) (legacy, controls ++ [control]) where
  legacy := id
  kept key existing h := by
    refine ⟨existing, ?_, .refl existing⟩
    rw [controlOf_append, show controlOf controls key = some existing from h, Option.some_or]
  reserved key found h hfound := by
    rw [controlOf_append] at h
    by_cases hmem : key ∈ controls.map (·.key)
    · exact .inl hmem
    · rw [controlOf_eq_none.mpr hmem, Option.none_or] at h
      split at h
      · rename_i hkey
        obtain rfl := Option.some.inj h
        exact .inr (hkey ▸ hreserved hfound)
      · cases h

theorem update {key : Block 32} {change : InvitationControl → InvitationControl}
    (hcontrol : controlOf controls key = some control)
    (hkey : ∀ control, (change control).key = control.key)
    (hchange : control.Becomes (disabled key) (change control)) :
    Tightens disabled registered (legacy, controls)
      (legacy, updateControl key change controls) where
  legacy := id
  kept other existing h := by
    rw [controlOf_updateControl hkey]
    by_cases hother : other = key
    · subst hother
      have hsame : existing = control := Option.some.inj (h.symm.trans hcontrol)
      subst hsame
      exact ⟨_, by rw [if_pos rfl, hcontrol, Option.map_some], hchange⟩
    · exact ⟨existing, by rw [if_neg hother]; exact h, .refl existing⟩
  reserved other found h _ := by
    refine .inl ?_
    by_contra hmem
    rw [← keys_updateControl key change hkey] at hmem
    rw [controlOf_eq_none.mpr hmem] at h
    cases h

end Tightens

namespace PublicMls

variable {mls : PublicMls} {group' : PublicGroup}

theorem changeControls_tightens {controls : List InvitationControl} {action : ManagementAction}
    {new : Bool × List InvitationControl}
    (h : mls.changeControls legacy controls action = .ok new) :
    Tightens (fun key => action = .disableInvitation key) (fun key => action.createdKey = some key)
      (legacy, controls) new := by
  rcases changeControls_cases h with ⟨control, rfl, _, hkind⟩ |
    ⟨_, ⟨key, control, change, hcontrol, hkey, rfl, hbecomes⟩ | rfl⟩
  · refine .append fun hreserved => ?_
    rcases hkind with hcreated | ⟨_, hpackage⟩
    · exact hcreated
    · exact absurd hreserved hpackage
  · exact .update hcontrol hkey hbecomes
  · exact { Tightens.refl (legacy, controls) with legacy := by simp }

/-- The keys an authorization disables and registers. -/
def disables (step : Step) (key : Block 32) : Prop :=
  step.1 = .management (.disableInvitation key)

def registers (step : Step) (key : Block 32) : Prop :=
  ∃ action, step.1 = .management action ∧ action.createdKey = some key

theorem applyTransition_tightens {step : Step} (h : mls.Accepts group step group')
    (hold : invitationControls group.extensions = .ok old) :
    ∃ new, invitationControls group'.extensions = .ok new ∧
      Tightens (disables step) (registers step) old new := by
  obtain ⟨authorization, commit⟩ := step
  obtain ⟨actor, staged, rfl, ⟨_, _, _, _, haccepted⟩ | ⟨action, _, rfl, haccepted⟩⟩ :=
    applyTransition_cases h
  · have hsame : staged.merged.extensions = group.extensions := haccepted.extensions
    exact ⟨old, hsame ▸ hold, .refl old⟩
  · obtain ⟨old', new, hold', hnew, hpolicy⟩ := haccepted.policy
    obtain rfl := ok_unique hold' hold
    refine ⟨new, hnew, ?_⟩
    rcases hpolicy with hchanged | ⟨rfl, _⟩
    · refine (changeControls_tightens hchanged).mono ?_ ?_
      · rintro key rfl
        rfl
      · exact fun key hkey => ⟨action, rfl, hkey⟩
    · exact .refl new

theorem run_tightens {start last : PublicGroup} {trace : List (Taken PublicGroup Step)}
    (hrun : Run mls.Accepts start trace last)
    (hold : invitationControls start.extensions = .ok old) :
    ∃ new, invitationControls last.extensions = .ok new ∧
      Tightens (fun key => ∃ taken ∈ trace, disables taken.label key)
        (fun key => ∃ taken ∈ trace, registers taken.label key) old new := by
  induction hrun generalizing old with
  | nil start => exact ⟨old, hold, .refl old⟩
  | cons hstep _ ih =>
    obtain ⟨middle, hmiddle, hfirst⟩ := applyTransition_tightens hstep hold
    obtain ⟨new, hnew, hrest⟩ := ih hmiddle
    refine ⟨new, hnew, (hfirst.mono ?_ ?_).trans (hrest.mono ?_ ?_)⟩
    · exact fun key hkey => ⟨_, List.mem_cons_self, hkey⟩
    · exact fun key hkey => ⟨_, List.mem_cons_self, hkey⟩
    · exact fun _ => List.exists_mem_cons_of_exists
    · exact fun _ => List.exists_mem_cons_of_exists

/-- The control lets the package of this digest in: it is bound to it, or the request with it
was approved. -/
def Approves (mls : PublicMls) (controls : List InvitationControl) (control : InvitationControl)
    (digest : Block 32) : Prop :=
  if control.asksForAccess then
    ∃ decision, controlOf controls (mls.decisionKey control.key digest) = some decision ∧
      decision.enabled ∧ decision.personal ∧ decision.approvedPackage = digest
  else control.approved ∧ control.approvedPackage = digest

theorem checkInvitation_iff {extensions : List Extension} {policy : Bool × List InvitationControl}
    (hpolicy : invitationControls extensions = .ok policy) {key : Block 32} {now : Option U64}
    {package : KeyPackage} :
    mls.checkInvitation extensions key now package = .ok () ↔
      controlOf policy.2 key = none ∧ policy.1 = true ∨
      ∃ control, controlOf policy.2 key = some control ∧ control.enabled = true ∧
        (control.expiresAt ≠ 0 → ∀ time ∈ now, time < control.expiresAt) ∧
        (control.personal = false ∨
          mls.Approves policy.2 control (mls.packageDigest package)) := by
  obtain ⟨legacy, controls⟩ := policy
  simp only [checkInvitation, hpolicy, ok_bind]
  cases controlOf controls key with
  | none => cases legacy <;> simp
  | some control =>
    have hexpiry : (¬ (control.expiresAt ≠ 0 ∧ now.any (control.expiresAt ≤ ·) = true)) ↔
        (control.expiresAt ≠ 0 → ∀ time ∈ now, time < control.expiresAt) := by
      cases now <;> simp
    simp only [ite_error_eq_ok, hexpiry, Bool.not_eq_true', Bool.not_eq_false, reduceCtorEq,
      false_and, false_or, Option.some.injEq, exists_eq_left']
    refine and_congr_right fun _ => and_congr_right fun _ => ?_
    rw [Approves]
    cases hasks : control.asksForAccess with
    | true =>
      have hpersonal : control.personal = true := (Bool.and_eq_true_iff.mp hasks).1
      have hautomatic : ¬ control.automatic = true := by
        have hpackage := eq_of_beq (Bool.and_eq_true_iff.mp hasks).2
        rw [InvitationControl.automatic, hpackage, hpersonal]
        decide
      simp only [if_true, hpersonal, hautomatic, Bool.true_eq_false, false_or]
      cases controlOf controls (mls.decisionKey control.key (mls.packageDigest package)) with
      | none => simp
      | some decision =>
        simp [ite_error_eq_ok, ite_else_error_eq_ok, Subtype.ext_iff]
    | false =>
      cases hpersonal : control.personal with
      | false => simp [InvitationControl.automatic, hpersonal]
      | true =>
        by_cases hautomatic : control.automatic = true
        · simp [hautomatic, InvitationControl.approved]
        · simp [hautomatic, ite_error_eq_ok, ite_else_error_eq_ok, Subtype.ext_iff]

end PublicMls

/-- The recorded decision on the request with `digest` to the invitation of `parent`. -/
def Decided (mls : PublicMls) (controls : List InvitationControl) (parent digest : Block 32)
    (decision : InvitationControl) : Prop :=
  controlOf controls (mls.decisionKey parent digest) = some decision ∧
    decision.personal = true ∧ decision.approvedPackage = digest ∧ ¬ isReserved digest

/-- What holds of the invitation policies `old` and `new` at the ends of a history. -/
structure InvitationsKept (mls : PublicMls) (start last : PublicGroup)
    (trace : List (Taken PublicGroup Step)) (old new : Bool × List InvitationControl) :
    Prop where
  distinct : (new.2.map (·.key)).Nodup
  decoded : decodePolicy (encodePolicy new.1 new.2) = .ok new
  legacy : old.1 = false → new.1 = false
  disabled : ∀ key control, controlOf old.2 key = some control → control.enabled = false →
    ∃ control', controlOf new.2 key = some control' ∧ control'.enabled = false
  /-- A personal invitation without requests lets in one package at most. -/
  single : ∀ key control, controlOf old.2 key = some control → control.personal = true →
    control.asksForAccess = false → ∀ now now' package package',
      mls.checkInvitation start.extensions key now package = .ok () →
        mls.checkInvitation last.extensions key now' package' = .ok () →
          mls.packageDigest package = mls.packageDigest package'
  /-- Declined requests stay declined; approved ones stay approved unless the key of the
  decision itself is disabled. -/
  decided : ∀ parent digest decision, Decided mls old.2 parent digest decision →
    ∃ decision', Decided mls new.2 parent digest decision' ∧
      (decision'.enabled = decision.enabled ∨ decision'.enabled = false ∧
        ∃ taken ∈ trace, disables taken.label (mls.decisionKey parent digest))
  /-- A sentinel passes for a package only where an invitation stands under the key of the
  decision on it. -/
  sentinel : ∀ key control, controlOf new.2 key = some control → control.personal = true →
    ∀ now package, isReserved (mls.packageDigest package) →
      mls.checkInvitation last.extensions key now package = .ok () →
        control.asksForAccess = true ∧
          (mls.decisionKey key (mls.packageDigest package) ∈ old.2.map (·.key) ∨
            ∃ taken ∈ trace, registers taken.label
              (mls.decisionKey key (mls.packageDigest package)))
  admitted : ∀ key now package, mls.checkInvitation last.extensions key now package = .ok () ↔
    controlOf new.2 key = none ∧ new.1 = true ∨
    ∃ control, controlOf new.2 key = some control ∧ control.enabled = true ∧
      (control.expiresAt ≠ 0 → ∀ time ∈ now, time < control.expiresAt) ∧
      (control.personal = false ∨ mls.Approves new.2 control (mls.packageDigest package))

theorem InvitationControl.not_reserved_of_approved (control : InvitationControl)
    (h : control.approved = true) : ¬ isReserved control.approvedPackage := by
  simp only [approved, Bool.and_eq_true, bne_iff_ne, Bool.not_eq_true', automatic, asksForAccess,
    Bool.and_eq_false_iff] at h
  obtain ⟨⟨⟨hpersonal, hzero⟩, hautomatic⟩, hrequest⟩ := h
  rw [isReserved, beq_false_of_ne hzero,
    hautomatic.resolve_left (by simp [hpersonal]), hrequest.resolve_left (by simp [hpersonal])]
  decide

theorem Tightens.bound_package {disabled registered : Block 32 → Prop}
    {new : Bool × List InvitationControl} (h : Tightens disabled registered old new)
    {key : Block 32} {control' : InvitationControl}
    (hcontrol : controlOf old.2 key = some control)
    (hcontrol' : controlOf new.2 key = some control') (hbound : control.approved = true) :
    control'.approvedPackage = control.approvedPackage := by
  obtain ⟨later, hlater, hbecomes⟩ := h.kept key control hcontrol
  rw [hcontrol'] at hlater
  obtain rfl := Option.some.inj hlater
  exact hbecomes.package_of_bound (control.not_reserved_of_approved hbound)

/-- Over every history of accepted transitions the invitation controls only tighten. Any two
states of a history are the ends of one. -/
theorem invitations_kept {mls : PublicMls} {start last : PublicGroup}
    {trace : List (Taken PublicGroup Step)} (hrun : Run mls.Accepts start trace last)
    {old : Bool × List InvitationControl}
    (hold : invitationControls start.extensions = .ok old) :
    ∃ new, invitationControls last.extensions = .ok new ∧
      InvitationsKept mls start last trace old new := by
  obtain ⟨new, hnew, htightens⟩ := run_tightens hrun hold
  have hread := hnew
  simp only [invitationControls, bind_eq_ok] at hread
  obtain ⟨bytes, _, hdecoded⟩ := hread
  obtain ⟨rfl, hdistinct⟩ := decodePolicy_eq_ok hdecoded
  refine ⟨new, hnew, hdistinct, hdecoded, ?_, ?_, ?_, ?_, ?_, fun key now package =>
    checkInvitation_iff hnew⟩
  · intro hlegacy
    by_contra hset
    rw [htightens.legacy (by simpa using hset)] at hlegacy
    cases hlegacy
  · intro key control hcontrol hdisabled
    obtain ⟨control', hcontrol', hbecomes⟩ := htightens.kept key control hcontrol
    refine ⟨control', hcontrol', ?_⟩
    rcases hbecomes.enabled with heq | ⟨_, hoff⟩
    · exact heq.trans hdisabled
    · exact hoff
  · intro key control hcontrol hpersonal hasks now now' package package' hbefore hafter
    rw [checkInvitation_iff hold] at hbefore
    rw [checkInvitation_iff hnew] at hafter
    obtain ⟨control', hcontrol', hbecomes⟩ := htightens.kept key control hcontrol
    rw [hcontrol] at hbefore
    rw [hcontrol'] at hafter
    simp only [reduceCtorEq, false_and, Option.some.injEq, exists_eq_left', false_or,
      hpersonal, hbecomes.personal, Bool.true_eq_false, Approves, hbecomes.asksForAccess,
      hasks, Bool.false_eq_true, if_false] at hbefore hafter
    obtain ⟨_, _, hbound, hpackage⟩ := hbefore
    obtain ⟨_, _, _, hpackage'⟩ := hafter
    rw [← hpackage, ← hpackage', htightens.bound_package hcontrol hcontrol' hbound]
  · rintro parent digest decision ⟨hdecision, hpersonal, hpackage, hfree⟩
    obtain ⟨decision', hdecision', hbecomes⟩ := htightens.kept _ decision hdecision
    have hkept := hbecomes.package_of_bound (hpackage ▸ hfree)
    refine ⟨decision', ⟨hdecision', hbecomes.personal.trans hpersonal, hkept.trans hpackage,
      hfree⟩, ?_⟩
    rcases hbecomes.enabled with heq | ⟨hdisabled, hoff⟩
    · exact .inl heq
    · exact .inr ⟨hoff, hdisabled⟩
  · intro key control hcontrol hpersonal now package hreserved hcheck
    rw [checkInvitation_iff hnew, hcontrol] at hcheck
    simp only [reduceCtorEq, false_and, Option.some.injEq, exists_eq_left', false_or, hpersonal,
      Bool.true_eq_false, Approves] at hcheck
    obtain ⟨_, _, happroves⟩ := hcheck
    split at happroves
    · rename_i hasks
      obtain ⟨decision, hdecision, _, _, hpackage⟩ := happroves
      rw [controlOf_key hcontrol] at hdecision
      exact ⟨hasks, htightens.reserved _ decision hdecision (hpackage ▸ hreserved)⟩
    · obtain ⟨happroved, hpackage⟩ := happroves
      exact absurd (hpackage ▸ hreserved) (control.not_reserved_of_approved happroved)

namespace Sample

def ruled (controls : List InvitationControl) : List Extension :=
  [⟨authorityKind, 2 :: 1 :: (block 1).1 ++ encodePolicy true controls⟩, requiredCapabilities]

/-- The commit that puts these controls in force. -/
def ruling (epoch : U64) (controls : List InvitationControl) : StagedCommit :=
  ⟨[Script.ownProposal (.groupContextExtensions (ruled controls))], none,
    { solo.context with epoch, extensions := ruled controls }, solo.tree, [2]⟩

/-- The administrator's group in some epoch, under whatever controls. -/
structure Solo (group : PublicGroup) (epoch : Nat) : Prop where
  ciphersuite : group.context.ciphersuite = suite
  groupId : group.context.groupId = workspaceId.1
  epoch : group.context.epoch.val = epoch
  members : group.members = solo.members

theorem stages_ruling {epoch : U64} {n : Nat} (h : Solo group n) (hepoch : epoch.val = n + 1)
    (controls : List InvitationControl) : group.Stages (.member 0) (ruling epoch controls) := by
  refine ⟨h.ciphersuite.symm, h.groupId.symm, by rw [h.epoch]; exact hepoch, rfl, fun _ => ?_,
    solo_wellFormed.1, solo_wellFormed.2⟩
  have hmap : ∀ members : List Member, members.map (refresh (.member 0) none) = members :=
    fun members => List.map_id _
  have hkept : group.kept (ruling epoch controls) = group.members := by
    rw [PublicGroup.kept, List.filter_eq_self]
    simp [ruling, Script.ownProposal]
  rw [PublicGroup.membersAfter, hkept, h.members]
  exact (hmap _).symm

def rulings (policies : List (List InvitationControl)) : List StagedCommit :=
  policies.mapIdx fun i controls => ruling (Fin.ofNat _ (i + 1)) controls

theorem solo_rulings {policies : List (List InvitationControl)} (hshort : policies.length < 255)
    {i : Nat} (hi : i ≤ policies.length) :
    Solo ((solo :: (rulings policies).map StagedCommit.merged).getD i solo) i := by
  cases i with
  | zero => exact ⟨rfl, rfl, rfl, rfl⟩
  | succ i =>
    have hget : (solo :: (rulings policies).map StagedCommit.merged).getD (i + 1) solo =
        (ruling (Fin.ofNat _ (i + 1)) (policies[i])).merged := by
      simp [rulings, List.getElem?_eq_getElem hi]
    rw [hget]
    refine ⟨rfl, rfl, ?_, rfl⟩
    exact Nat.mod_eq_of_lt (lt_of_le_of_lt hi (lt_trans hshort (by decide)))

/-- The administrator alone, who changes the invitation controls again and again. -/
def ruledScript (policies : List (List InvitationControl)) (packages : List KeyPackage)
    (hshort : policies.length < 255) : Script where
  start := solo
  commits := rulings policies
  packages := packages
  padding := []
  short := by simpa [rulings] using hshort
  wellFormed := solo_wellFormed
  stages i staged h := by
    rw [rulings, List.getElem?_mapIdx, Option.map_eq_some_iff] at h
    obtain ⟨controls, hcontrols, rfl⟩ := h
    have hbound : i < policies.length := (List.getElem?_eq_some_iff.mp hcontrols).1
    refine stages_ruling (solo_rulings hshort hbound.le) ?_ controls
    exact Nat.mod_eq_of_lt (lt_of_le_of_lt hbound (lt_trans hshort (by decide)))
  kept i staged h member hmember := by
    rw [rulings, List.getElem?_mapIdx, Option.map_eq_some_iff] at h
    obtain ⟨controls, hcontrols, rfl⟩ := h
    have hbound : i < policies.length := (List.getElem?_eq_some_iff.mp hcontrols).1
    rwa [(solo_rulings hshort hbound.le).members] at hmember

def requestControl : InvitationControl := ⟨block 7, 0, true, true, requestAccess⟩

/-- The decision on the request of the first joiner, whose package has the digest `block 3`. -/
def decisionControl (enabled : Bool) : InvitationControl := ⟨block 4, 0, enabled, true, block 3⟩

/-- A personal invitation under the key of the decision on a package whose digest is zero. -/
def sentinelControl : InvitationControl := ⟨block 1, 0, true, true, zeroBlock 32⟩

def withdrawing : Script :=
  ruledScript [[requestControl], [requestControl, decisionControl true],
    [requestControl, decisionControl false],
    [requestControl, decisionControl false, sentinelControl]] [package 2 2 12] (by decide)

def withdrawal : List (Taken PublicGroup Step) :=
  [⟨withdrawing.state 0, (.management (.createRequestInvitation (block 7) 0), Script.commit 0),
      withdrawing.state 1⟩,
    ⟨withdrawing.state 1, (.management (.approveInvitation (block 7) (block 3)), Script.commit 1),
      withdrawing.state 2⟩,
    ⟨withdrawing.state 2, (.management (.disableInvitation (block 4)), Script.commit 2),
      withdrawing.state 3⟩,
    ⟨withdrawing.state 3, (.management (.createInvitation (block 1) 0 true), Script.commit 3),
      withdrawing.state 4⟩]

theorem withdrawing_run :
    Run withdrawing.mls.Accepts (withdrawing.state 0) withdrawal (withdrawing.state 4) := by
  refine .cons ?_ (.cons ?_ (.cons ?_ (.cons ?_ (.nil _))))
  all_goals
    change withdrawing.mls.applyTransition _ _ _ = _
    decide +kernel

end Sample

/-- An approved request is withdrawn by disabling the key of the decision. A package whose digest is
a sentinel is let in once a personal invitation stands under the key of the decision on it. -/
theorem approval_withdrawn :
    ∃ (mls : PublicMls) (start approved last : PublicGroup)
      (before after : List (Taken PublicGroup Step)) (key : Block 32)
      (package unlikely : KeyPackage),
      Run mls.Accepts start before approved ∧ Run mls.Accepts approved after last ∧
        mls.checkInvitation approved.extensions key none package = .ok () ∧
        mls.checkInvitation last.extensions key none package = .error invitationDisabled ∧
        isReserved (mls.packageDigest unlikely) = true ∧
        mls.checkInvitation last.extensions key none unlikely = .ok () := by
  obtain _ | ⟨hcreate, _ | ⟨happrove, hrest⟩⟩ := Sample.withdrawing_run
  refine ⟨Sample.withdrawing.mls.toPublicMls, _, _, _, _, _, Sample.block 7,
    Sample.package 2 2 12, Sample.package 255 5 15, .cons hcreate (.cons happrove (.nil _)), hrest,
    ?_, ?_, ?_, ?_⟩
  all_goals decide +kernel

/-- The controls after the withdrawal are kept in all these ways. -/
theorem invitations_kept_withdrawing :
    ∃ new, invitationControls (Sample.withdrawing.state 4).extensions = .ok new ∧
      InvitationsKept Sample.withdrawing.mls.toPublicMls (Sample.withdrawing.state 0)
        (Sample.withdrawing.state 4) Sample.withdrawal (true, []) new :=
  invitations_kept Sample.withdrawing_run (by decide)

end Arachne.Security
