import Arachne.Security.Management

/-! Reading the authority extension: what an accepted encoding holds, and that the extension an
invitation action writes reads back as the administrators and the controls it was written for. -/

namespace Arachne.Security

open Fallible ByteCodec

theorem length_chunks (width count : Nat) (bytes : Bytes) :
    (chunks width count bytes).length = count := by
  induction count generalizing bytes with
  | zero => rfl
  | succ count ih => simp [chunks, ih]

theorem chunks_flatten {width : Nat} {parts : List Bytes} (h : ∀ part ∈ parts, part.length = width)
    (rest : Bytes) : chunks width parts.length (parts.flatten ++ rest) = parts := by
  induction parts with
  | nil => rfl
  | cons part parts ih =>
    rw [List.forall_mem_cons] at h
    rw [List.length_cons, List.flatten_cons, List.append_assoc, chunks, ← h.1,
      List.take_left, List.drop_left, h.1, ih h.2]

theorem length_of_mem_chunks {width count : Nat} {bytes part : Bytes}
    (hsize : count * width ≤ bytes.length) (h : part ∈ chunks width count bytes) :
    part.length = width := by
  induction count generalizing bytes with
  | zero => simp [chunks] at h
  | succ count ih =>
    rw [Nat.succ_mul] at hsize
    rcases List.mem_cons.mp h with rfl | h
    · rw [List.length_take]
      omega
    · refine ih ?_ h
      rw [List.length_drop]
      omega

/-- The content of an authority extension that is accepted. -/
structure AuthorityBytes (bytes : Bytes) (version count : UInt8) (rest : Bytes)
    (keys : List Bytes) : Prop where
  split : bytes = version :: count :: rest
  known : version = 1 ∨ version = 2
  bounded : 0 < count.toNat ∧ count.toNat ≤ 64
  enough : count.toNat * 32 ≤ rest.length
  policy : if version = 1 then rest.length = count.toNat * 32
    else ∃ controls, decodePolicy (rest.drop (count.toNat * 32)) = .ok controls
  chunked : keys = chunks 32 count.toNat rest
  sorted : keys.IsChain (· < ·)

theorem authority_eq_ok {extensions : List Extension} {keys : List Bytes} :
    authority extensions = .ok keys ↔ ∃ bytes version count rest,
      unknown extensions authorityKind = some bytes ∧
        AuthorityBytes bytes version count rest keys := by
  simp only [authority, bind_eq_ok, orFail_eq_ok]
  constructor
  · rintro ⟨bytes, hbytes, h⟩
    rcases bytes with _ | ⟨version, _ | ⟨count, rest⟩⟩
    · cases h
    · cases h
    · simp only [bind_eq_ok, failIf_eq_ok, not_or, not_lt] at h
      obtain ⟨_, ⟨hversion, hcount, hmax, hsize⟩, h⟩ := h
      refine ⟨_, version, count, rest, hbytes, ?_⟩
      have hbounded : 0 < count.toNat ∧ count.toNat ≤ 64 :=
        ⟨Nat.pos_of_ne_zero fun hzero => hcount (UInt8.toNat_inj.mp hzero),
          UInt8.le_iff_toNat_le.mp hmax⟩
      by_cases hone : version = 1
      · simp only [if_pos hone, bind_eq_ok, failIf_eq_ok, not_not] at h
        obtain ⟨_, hlength, _, hsorted, h⟩ := h
        obtain rfl := pure_eq_ok.mp h
        exact ⟨rfl, .inl hone, hbounded, hsize, by rwa [if_pos hone], rfl, hsorted⟩
      · simp only [if_neg hone, bind_eq_ok, failIf_eq_ok, not_not] at h
        obtain ⟨controls, hcontrols, _, hsorted, h⟩ := h
        obtain rfl := pure_eq_ok.mp h
        refine ⟨rfl, ?_, hbounded, hsize, by rw [if_neg hone]; exact ⟨controls, hcontrols⟩,
          rfl, hsorted⟩
        by_contra hknown
        exact hversion ⟨hone, fun htwo => hknown (.inr htwo)⟩
  · rintro ⟨bytes, version, count, rest, hbytes, h⟩
    refine ⟨bytes, hbytes, ?_⟩
    obtain ⟨rfl, hknown, ⟨hpos, hmax⟩, hsize, hpolicy, rfl, hsorted⟩ := h
    have hcount : count ≠ 0 := by
      rintro rfl
      simp at hpos
    have hvalid : ¬(¬(version = 1 ∨ version = 2) ∨ count = 0 ∨ 64 < count ∨
        rest.length < count.toNat * 32) := by
      rintro (hunknown | hzero | hmore | hless)
      · exact hunknown hknown
      · exact hcount hzero
      · exact absurd (UInt8.lt_iff_toNat_lt.mp hmore) (not_lt.mpr hmax)
      · exact absurd hless (not_lt.mpr hsize)
    simp only [failIf_of_not hvalid, ok_bind]
    by_cases hone : version = 1
    · rw [if_pos hone] at hpolicy
      simp [hone, hpolicy, hsorted]
    · rw [if_neg hone] at hpolicy
      obtain ⟨controls, hcontrols⟩ := hpolicy
      simp [hone, hcontrols, hsorted]

namespace AuthorityBytes

variable {bytes rest : Bytes} {version count : UInt8} {keys : List Bytes}

theorem length_keys (h : AuthorityBytes bytes version count rest keys) :
    keys.length = count.toNat := by
  rw [h.chunked, length_chunks]

/-- The controls after the keys; version 1 has none and lets every invitation pass. -/
def policyPart (version count : UInt8) (rest : Bytes) : Bytes :=
  if version = 1 then [1, 0, 0] else rest.drop (count.toNat * 32)

theorem policyBytes_eq {extensions : List Extension}
    (hbytes : unknown extensions authorityKind = some bytes)
    (h : AuthorityBytes bytes version count rest keys) :
    policyBytes extensions = .ok (policyPart version count rest) := by
  have hkeys : authority extensions = .ok keys :=
    authority_eq_ok.mpr ⟨bytes, version, count, rest, hbytes, h⟩
  rw [policyBytes, hkeys, ok_bind, hbytes, orFail_some, ok_bind, h.length_keys, h.split,
    Nat.add_comm]
  rfl

theorem decodes (h : AuthorityBytes bytes version count rest keys) :
    ∃ controls, decodePolicy (policyPart version count rest) = .ok controls := by
  have hpolicy := h.policy
  rw [policyPart]
  split at hpolicy
  · rename_i hone
    rw [if_pos hone]
    exact ⟨(true, []), by decide⟩
  · rename_i hone
    rwa [if_neg hone]

end AuthorityBytes

variable {extensions after : List Extension} {keys : List Bytes} {controls : List InvitationControl}
  {bytes : Bytes} {message : String}

theorem invitationControls_of_authority (h : authority extensions = .ok keys) :
    ∃ policy controls, policyBytes extensions = .ok policy ∧
      decodePolicy policy = .ok controls ∧ invitationControls extensions = .ok controls := by
  obtain ⟨bytes, version, count, rest, hbytes, hauthority⟩ := authority_eq_ok.mp h
  obtain ⟨controls, hcontrols⟩ := hauthority.decodes
  refine ⟨_, controls, hauthority.policyBytes_eq hbytes, hcontrols, ?_⟩
  rw [invitationControls, hauthority.policyBytes_eq hbytes, ok_bind, hcontrols]

theorem keys_of_authority (h : authority extensions = .ok keys) :
    keys ≠ [] ∧ keys.length ≤ 64 ∧ keys.IsChain (· < ·) ∧ ∀ key ∈ keys, key.length = 32 := by
  obtain ⟨bytes, version, count, rest, hbytes, hauthority⟩ := authority_eq_ok.mp h
  have hlength := hauthority.length_keys
  refine ⟨?_, hlength ▸ hauthority.bounded.2, hauthority.sorted, ?_⟩
  · rintro rfl
    exact absurd hlength.symm hauthority.bounded.1.ne'
  · intro key hkey
    rw [hauthority.chunked] at hkey
    exact length_of_mem_chunks hauthority.enough hkey

/-! The authority extension that an invitation action writes. -/

theorem InvitationControl.length_encode (control : InvitationControl) :
    control.encode.length = 74 := by
  simp [encode, control.key.2, control.approvedPackage.2]

theorem length_flatMap_encode (controls : List InvitationControl) :
    (controls.flatMap InvitationControl.encode).length = controls.length * 74 := by
  induction controls with
  | nil => rfl
  | cons control controls ih =>
    rw [List.flatMap_cons, List.length_append, control.length_encode, ih, List.length_cons]
    ring

theorem readControls_encode {before after : List InvitationControl} {rest left : Bytes}
    (h : readControls controls.length before (controls.flatMap InvitationControl.encode ++ rest) =
      .ok (after, left)) :
    after = before ++ controls ∧ left = rest := by
  induction controls generalizing before with
  | nil =>
    obtain ⟨rfl, rfl⟩ := Prod.mk.inj (Except.ok.inj h)
    simp
  | cons control controls ih =>
    obtain ⟨key, expiresAt, enabled, personal, package⟩ := control
    have hflag : ∀ flag : Bool, flag.toNat < 256 ^ 1 := by decide
    simp only [List.length_cons, readControls, List.flatMap_cons, InvitationControl.encode,
      List.append_assoc] at h
    rw [(Reads.takeBlock key).bind_apply, (Reads.takeU64 expiresAt).bind_apply,
      (Reads.takeNat (hflag enabled)).bind_apply, (Reads.takeNat (hflag personal)).bind_apply,
      (Reads.takeBlock package).bind_apply, reader_bind_eq_ok] at h
    obtain ⟨_, _, hcheck, h⟩ := h
    obtain ⟨_, rfl⟩ := check_eq_ok.mp hcheck
    have hbit : ∀ flag : Bool, (flag.toNat == 1) = flag := by decide
    rw [hbit, hbit] at h
    obtain ⟨hafter, hleft⟩ := ih h
    exact ⟨by rw [hafter, List.append_assoc, List.singleton_append], hleft⟩

theorem decodePolicy_encodePolicy {legacy : Bool} {read : Bool × List InvitationControl}
    (h : decodePolicy (encodePolicy legacy controls) = .ok read) : read = (legacy, controls) := by
  have hbytes : encodePolicy legacy controls = UInt8.ofNat legacy.toNat ::
      UInt8.ofNat (controls.length / 256 ^ 1) :: UInt8.ofNat (controls.length / 256 ^ 0) ::
        controls.flatMap InvitationControl.encode := rfl
  rw [hbytes] at h
  simp only [decodePolicy, bind_eq_ok, failIf_eq_ok, not_not, length_flatMap_encode] at h
  obtain ⟨_, _, _, hcount, ⟨controls', left⟩, hread, h⟩ := h
  rw [← Nat.eq_of_mul_eq_mul_right (by decide) hcount] at hread
  rw [← List.append_nil (controls.flatMap _)] at hread
  obtain ⟨rfl, _⟩ := readControls_encode hread
  obtain rfl := pure_eq_ok.mp h
  cases legacy <;> rfl

theorem unknown_withAuthority {old : Bytes} (hold : unknown extensions authorityKind = some old)
    (h : withAuthority extensions bytes message = .ok after) :
    unknown after authorityKind = some bytes := by
  simp only [withAuthority, bind_eq_ok, pure_eq_ok] at h
  obtain ⟨_, _, rfl⟩ := h
  clear * - hold
  induction extensions with
  | nil => simp [unknown] at hold
  | cons extension extensions ih =>
    by_cases hkind : extension.kind = authorityKind
    · simp [unknown, hkind]
    · simp only [unknown, List.map_cons, List.find?_cons, hkind, decide_false, if_false]
        at hold ih ⊢
      exact ih hold

theorem unrelated_withAuthority (h : withAuthority extensions bytes message = .ok after) :
    unrelated after = unrelated extensions := by
  simp only [withAuthority, bind_eq_ok, pure_eq_ok] at h
  obtain ⟨_, hnodup, rfl⟩ := h
  clear hnodup
  induction extensions with
  | nil => rfl
  | cons extension extensions ih =>
    by_cases hkind : extension.kind = authorityKind
    · simpa [unrelated, hkind] using ih
    · simpa [unrelated, hkind] using ih

/-- The administrators and the controls in a newly written authority extension. -/
theorem authority_written {admins : List Bytes} {policy : Bytes}
    {controls : Bool × List InvitationControl} (hpolicy : decodePolicy policy = .ok controls)
    (hadmins : admins ≠ [] ∧ admins.length ≤ 64 ∧ admins.IsChain (· < ·) ∧
      ∀ key ∈ admins, key.length = 32)
    (hbytes : unknown extensions authorityKind =
      some (2 :: UInt8.ofNat admins.length :: admins.flatten ++ policy)) :
    authority extensions = .ok admins ∧ policyBytes extensions = .ok policy := by
  obtain ⟨hne, hmax, hsorted, hkeys⟩ := hadmins
  have hcount : (UInt8.ofNat admins.length).toNat = admins.length :=
    UInt8.toNat_ofNat_of_lt (lt_of_le_of_lt hmax (by decide))
  have hflatten : admins.flatten.length = admins.length * 32 := by
    rw [List.length_flatten, List.map_congr_left hkeys]
    simp
  have hwritten : AuthorityBytes (2 :: UInt8.ofNat admins.length :: admins.flatten ++ policy) 2
      (UInt8.ofNat admins.length) (admins.flatten ++ policy) admins := by
    refine ⟨rfl, .inr rfl, ?_, ?_, ?_, ?_, hsorted⟩
    · rw [hcount]
      exact ⟨List.length_pos_iff.mpr hne, hmax⟩
    · rw [hcount, List.length_append, hflatten]
      exact Nat.le_add_right _ _
    · rw [if_neg (by decide), hcount, ← hflatten, List.drop_left]
      exact ⟨controls, hpolicy⟩
    · rw [hcount, chunks_flatten hkeys]
  refine ⟨authority_eq_ok.mpr ⟨_, _, _, _, hbytes, hwritten⟩, ?_⟩
  rw [hwritten.policyBytes_eq hbytes, AuthorityBytes.policyPart, if_neg (by decide), hcount,
    ← hflatten, List.drop_left]

namespace PublicMls

variable {mls : PublicMls}

/-- The invitation of `key` admits `package`: the key is not listed and unlisted ones pass, or
it is listed, enabled, and not waiting for an approval that `package` does not have. -/
def Admits (mls : PublicMls) (legacy : Bool) (controls : List InvitationControl)
    (key : Block 32) (package : KeyPackage) : Prop :=
  match controlOf controls key with
  | none => legacy
  | some control => control.enabled ∧ ¬ control.automatic ∧
      if control.asksForAccess then
        ∃ decision, controlOf controls (mls.decisionKey control.key (mls.packageDigest package)) =
          some decision ∧ decision.enabled ∧ decision.personal ∧
            decision.approvedPackage = mls.packageDigest package
      else control.personal → control.approved ∧
        control.approvedPackage = mls.packageDigest package

theorem checkInvitation_eq_ok {extensions : List Extension} {key : Block 32}
    {package : KeyPackage} {u : Unit} :
    mls.checkInvitation extensions key none package = .ok u ↔ ∃ legacy controls,
      invitationControls extensions = .ok (legacy, controls) ∧
        mls.Admits legacy controls key package := by
  simp only [checkInvitation, bind_eq_ok, Prod.exists, Admits]
  refine exists_congr fun legacy => exists_congr fun controls => and_congr_right fun _ => ?_
  cases controlOf controls key with
  | none => cases legacy <;> simp
  | some control =>
    have hexpiry : ¬ (control.expiresAt ≠ 0 ∧
        (none : Option U64).any (control.expiresAt ≤ ·)) := by simp
    simp only [hexpiry, if_false, ite_error_eq_ok, Bool.not_eq_true', Bool.not_eq_false]
    refine and_congr_right fun _ => and_congr_right fun _ => ?_
    cases control.asksForAccess with
    | true =>
      simp only [if_true]
      cases controlOf controls (mls.decisionKey control.key (mls.packageDigest package)) with
      | none => simp
      | some decision =>
        simp [ite_error_eq_ok, ite_else_error_eq_ok, Subtype.ext_iff]
    | false =>
      cases control.personal <;> simp [ite_error_eq_ok, ite_else_error_eq_ok, Subtype.ext_iff]

/-- An invitation action keeps the administrators and everything outside the authority, and
the controls read afterwards are exactly the changed ones. -/
structure ChangedPolicy (mls : PublicMls) (extensions : List Extension)
    (action : ManagementAction) (after : List Extension) (admins : List Bytes)
    (old new : Bool × List InvitationControl) : Prop where
  authority : authority extensions = .ok admins ∧ authority after = .ok admins
  current : invitationControls extensions = .ok old
  intended : mls.changeControls old.1 old.2 action = .ok new
  written : invitationControls after = .ok new
  unrelated : unrelated after = unrelated extensions

theorem changed_eq_ok {extensions after : List Extension} {action : ManagementAction}
    (h : mls.changed extensions action = .ok after) :
    ∃ admins old new, mls.ChangedPolicy extensions action after admins old new := by
  simp only [changed, bind_eq_ok] at h
  obtain ⟨⟨legacy, controls⟩, hold, ⟨legacy', controls'⟩, hintended, admins, hadmins, read, hread,
    hafter⟩ := h
  obtain rfl := decodePolicy_encodePolicy hread
  obtain ⟨bytes, _, _, _, hbytes, _⟩ := authority_eq_ok.mp hadmins
  obtain ⟨hauthority, hpolicy⟩ := authority_written hread (keys_of_authority hadmins)
    (unknown_withAuthority hbytes hafter)
  refine ⟨admins, _, _, ⟨hadmins, hauthority⟩, hold, hintended, ?_,
    unrelated_withAuthority hafter⟩
  rw [invitationControls, hpolicy, ok_bind, hread]

end PublicMls

end Arachne.Security
