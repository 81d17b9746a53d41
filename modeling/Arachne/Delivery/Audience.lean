import Arachne.Security.Sample
import Arachne.Delivery.CurrentView

/-! Which authenticated contexts fit the bound that objects have on them. -/

namespace Arachne.Security

open ByteCodec Fallible

variable {Group Signer Staged Key : Type}

/-- The documented sizes: an SFrame of a payload has its header and a tag of 16 bytes around
it, the header has one byte and up to eight each for the key id and the counter, and a
signature has 64 bytes. -/
structure SFrame.Sized (sframe : SFrame Group Key) (mls : Mls Group Signer Staged)
    (headerLength : (keyId : Nat) → (counter : U64) → Nat) : Prop where
  header : ∀ keyId counter, 1 ≤ headerLength keyId counter ∧ headerLength keyId counter ≤ 17
  encrypt : ∀ {id secret key counter payload context frame},
    sframe.encryptionKey id secret = some key →
      sframe.encrypt key counter payload context = some frame →
        frame.length = headerLength id counter + payload.length + 16
  sign : ∀ {signer message signature}, mls.sign signer message = some signature →
    signature.length = signatureLength

namespace Mls

variable {mls : Mls Group Signer Staged} {sframe : SFrame Group Key}
  {headerLength : Nat → U64 → Nat} {workspace reader after : Workspace Group Signer}
  {context payload object : Bytes}

/-- Whether an operation on objects stopped at one of its size checks. -/
def ProtectRefuses (mls : Mls Group Signer Staged) (sframe : SFrame Group Key)
    (workspace : Workspace Group Signer) (context payload : Bytes) : Prop :=
  mls.protectObject sframe workspace context payload =
      .error "object exceeds bounds or lacks member identity" ∨
    mls.protectObject sframe workspace context payload = .error "object exceeds bounds"

def UnprotectRefuses (mls : Mls Group Signer Staged) (sframe : SFrame Group Key)
    (workspace : Workspace Group Signer) (context object : Bytes) : Prop :=
  mls.unprotectObject sframe workspace context object = .error "invalid object envelope"

theorem length_objectBody (id : Block 32) (epoch : U64) (leaf : Nat) (frame : Bytes) :
    (objectBody id epoch leaf frame).length = objectHeader + frame.length := by
  have hmagic : objectMagic.length = 5 := by decide
  simp only [objectBody, List.length_append, hmagic, id.2, beBytes_length, objectHeader]

theorem objectCounter_eq_error {message : String}
    (h : mls.objectCounter workspace = .error message) :
    message = "invalid object counter state" := by
  unfold objectCounter at h
  split at h
  · simp at h
  · simp only [bind_eq_error, failIf_eq_error, failIf_eq_ok, pure_ne_error, and_false,
      exists_false, or_false] at h
    rcases h with ⟨_, rfl⟩ | ⟨_, _, _, rfl⟩
    · rfl
    · rfl

theorem protectRefuses_iff (sized : sframe.Sized mls headerLength)
    (hmember : workspace.member ≠ none) (hpayload : payload.length ≤ maxApplicationPayload) :
    mls.ProtectRefuses sframe workspace context payload ↔
      maxApplicationContext < context.length := by
  constructor
  · intro h
    by_contra hcontext
    have hbounds : ¬ (workspace.member = none ∨ maxApplicationContext < context.length ∨
        maxApplicationPayload < payload.length) := by
      simp [hmember, hcontext, hpayload]
    simp only [ProtectRefuses, protectObject, failIf_of_not hbounds, ok_bind, bind_eq_error,
      orFail_eq_error, failIf_eq_error, orFail_eq_ok, pure_ne_error, and_false, exists_false,
      or_false, false_or, String.reduceEq] at h
    rcases h with h | h | ⟨_, _, counter, _, secret, _, key, hkey, frame, hframe, signature,
      hsignature, hlarge, _⟩
    · exact absurd (objectCounter_eq_error h) (by decide)
    · exact absurd (objectCounter_eq_error h) (by decide)
    · have hheader := sized.header (keyId (mls.epoch workspace) (mls.ownLeafIndex workspace.group))
        counter
      rw [List.length_append, length_objectBody, sized.encrypt hkey hframe,
        sized.sign hsignature] at hlarge
      simp only [maxApplicationCiphertext, maxApplicationPayload, objectHeader, signatureLength]
        at hlarge hpayload
      omega
  · intro hcontext
    refine .inl ?_
    rw [protectObject, failIf_of (.inr (.inl hcontext)), error_bind]

/-- What a successful protection has put together. -/
theorem binding_ne_error (credential : Credential) :
    binding credential ≠ .error "invalid object envelope" := by
  unfold binding
  split
  · simp only [ne_eq, bind_eq_error, orFail_eq_error, String.reduceEq, and_false, false_or,
      not_exists, not_and]
    intro bytes _
    split
    · simp only [bind_eq_error, failIf_eq_error, String.reduceEq, and_false, pure_ne_error,
        exists_false, or_self, not_false_iff]
    · simp
  · simp

theorem unprotectObject_refuses_iff :
    mls.unprotectObject sframe workspace context object = .error "invalid object envelope" ↔
      maxApplicationContext < context.length ∨
      object.length < objectHeader + 2 + 16 + signatureLength ∨
      maxApplicationCiphertext < object.length ∨ object.take 5 ≠ objectMagic ∨
      (object.drop 5).take 32 ≠ workspace.id.1 := by
  simp only [unprotectObject, bind_eq_error, failIf_eq_error, orFail_eq_error, binding_ne_error,
    pure_ne_error, String.reduceEq, and_false, exists_false, or_false, and_true]

/-- A reader of the same workspace finds the object of a protection too short exactly when
header and payload together have less than two bytes. -/
theorem unprotectRefuses_iff (sized : sframe.Sized mls headerLength)
    (hid : reader.id = workspace.id)
    (h : mls.protectObject sframe workspace context payload = .ok (object, after)) :
    mls.UnprotectRefuses sframe reader context object ↔
      ∃ last counter, mls.objectCounter workspace = .ok last ∧ checkedSucc last = some counter ∧
        headerLength (keyId (mls.epoch workspace) (mls.ownLeafIndex workspace.group)) counter +
          payload.length < 2 := by
  obtain ⟨hcontext, hlarge, last, counter, secret, key, frame, signature, hlast, hcounter, _, hkey,
    hframe, hsignature, rfl, rfl⟩ := protectObject_eq_ok h
  have hmagic : objectMagic.length = 5 := by decide
  have htake : (objectBody workspace.id (mls.epoch workspace) (mls.ownLeafIndex workspace.group)
      frame ++ signature).take 5 = objectMagic := by
    simp only [objectBody, List.append_assoc]
    rw [← hmagic, List.take_left]
  have hscope : ((objectBody workspace.id (mls.epoch workspace)
      (mls.ownLeafIndex workspace.group) frame ++ signature).drop 5).take 32 = reader.id.1 := by
    simp only [objectBody, List.append_assoc]
    rw [← hmagic, List.drop_left, hid]
    exact List.take_left' workspace.id.2
  have hlength : (objectBody workspace.id (mls.epoch workspace)
      (mls.ownLeafIndex workspace.group) frame ++ signature).length = objectHeader +
        (headerLength (keyId (mls.epoch workspace) (mls.ownLeafIndex workspace.group)) counter +
          payload.length + 16) + signatureLength := by
    rw [List.length_append, length_objectBody, sized.encrypt hkey hframe, sized.sign hsignature]
  have hcounters : (∃ last counter, mls.objectCounter workspace = .ok last ∧
      checkedSucc last = some counter ∧ headerLength (keyId (mls.epoch workspace)
        (mls.ownLeafIndex workspace.group)) counter + payload.length < 2) ↔
      headerLength (keyId (mls.epoch workspace) (mls.ownLeafIndex workspace.group)) counter +
        payload.length < 2 := by
    simp [hlast, hcounter]
  rw [hcounters, UnprotectRefuses, unprotectObject_refuses_iff]
  simp only [hlength, htake, hscope, ne_eq, not_true, or_false, not_lt.mpr hcontext, false_or]
  rw [hlength] at hlarge
  have hheader := sized.header (keyId (mls.epoch workspace) (mls.ownLeafIndex workspace.group))
    counter
  simp only [maxApplicationCiphertext, objectHeader, signatureLength] at hlarge ⊢
  omega

end Mls

end Arachne.Security

namespace Arachne.Delivery

open ByteCodec Fallible Routing Security

/-- The audience of a publication that its context has room for. -/
def FitsContext (context : PublicationContext) (recipients : List (Block 32)) : Prop :=
  119 + context.topic.val.length + (if context.sequence.isSome then 8 else 0) +
    32 * recipients.length ≤ maxApplicationContext

/-- Header and payload of the next object have two bytes at least; with a payload they do. -/
def Framed {Group Signer Staged : Type} (mls : Mls Group Signer Staged)
    (headerLength : Nat → U64 → Nat) (workspace : Workspace Group Signer) (payload : Bytes) :
    Prop :=
  ∀ last counter, mls.objectCounter workspace = .ok last → checkedSucc last = some counter →
    2 ≤ headerLength (keyId (mls.epoch workspace) (mls.ownLeafIndex workspace.group)) counter +
      payload.length

section Served

variable {Group Signer Staged Key : Type} {mls : Mls Group Signer Staged}
  {sframe : SFrame Group Key} {headerLength : Nat → U64 → Nat}
  {workspace reader after : Workspace Group Signer} {bytes payload object : Bytes}

theorem not_unprotectRefuses_iff (sized : sframe.Sized mls headerLength)
    (hid : reader.id = workspace.id)
    (h : mls.protectObject sframe workspace bytes payload = .ok (object, after)) :
    ¬ mls.UnprotectRefuses sframe reader bytes object ↔
      Framed mls headerLength workspace payload := by
  rw [Mls.unprotectRefuses_iff sized hid h]
  simp only [not_exists, not_and, not_lt, Framed]

end Served

/-- An object for an audience of the API is refused for its size exactly when the audience does
not fit the context, or when an empty payload follows a header of one byte. Group and current
publications have contexts that always fit. -/
theorem audience_served_iff {Group Signer Staged Key : Type} {mls : Mls Group Signer Staged}
    {sframe : SFrame Group Key} {headerLength : Nat → U64 → Nat}
    (sized : sframe.Sized mls headerLength) {workspace : Workspace Group Signer}
    (hmember : workspace.member ≠ none) (context : PublicationContext) {payload : Bytes}
    (hpayload : payload.length ≤ maxApplicationPayload) :
    (∀ recipients, CanonicalScope recipients →
      ∃ bytes, context.directAuthenticatedBytes recipients = .ok bytes ∧
        (¬ mls.ProtectRefuses sframe workspace bytes payload ↔ FitsContext context recipients) ∧
        (¬ FitsContext context recipients →
          ∀ reader object, mls.UnprotectRefuses sframe reader bytes object) ∧
        ∀ reader object after, reader.id = workspace.id →
          mls.protectObject sframe workspace bytes payload = .ok (object, after) →
            (¬ mls.UnprotectRefuses sframe reader bytes object ↔
              Framed mls headerLength workspace payload)) ∧
    ∀ bytes, bytes = context.authenticatedBytes ∨
        (∃ metadata : CurrentMetadata, bytes = metadata.authenticatedContext context) →
      ¬ mls.ProtectRefuses sframe workspace bytes payload ∧
        ∀ reader object after, reader.id = workspace.id →
          mls.protectObject sframe workspace bytes payload = .ok (object, after) →
            (¬ mls.UnprotectRefuses sframe reader bytes object ↔
              Framed mls headerLength workspace payload) := by
  have hplain := context.length_authenticatedBytes_le
  constructor
  · intro recipients hscope
    obtain ⟨bytes, hbytes⟩ : ∃ bytes, context.directAuthenticatedBytes recipients = .ok bytes := by
      simp [PublicationContext.directAuthenticatedBytes, hscope]
    have hfits : FitsContext context recipients ↔ bytes.length ≤ maxApplicationContext := by
      rw [FitsContext, PublicationContext.length_directAuthenticatedBytes hbytes,
        context.length_authenticatedBytes]
      split <;> omega
    refine ⟨bytes, hbytes, ?_, ?_, fun reader object after hid h =>
      not_unprotectRefuses_iff sized hid h⟩
    · rw [Mls.protectRefuses_iff sized hmember hpayload, hfits, not_lt]
    · intro hlarge reader object
      rw [hfits, not_le] at hlarge
      exact Mls.unprotectObject_refuses_iff.mpr (.inl hlarge)
  · intro bytes hbytes
    refine ⟨?_, fun reader object after hid h => not_unprotectRefuses_iff sized hid h⟩
    rw [Mls.protectRefuses_iff sized hmember hpayload, not_lt, maxApplicationContext]
    rcases hbytes with rfl | ⟨metadata, rfl⟩
    · omega
    · have htombstone := Bool.toNat_le metadata.tombstone
      rw [metadata.length_authenticatedContext]
      omega

namespace Sample

open Security.Sample

theorem sized (script : Script) : sframe.Sized script.mls frameHeaderLength where
  header id counter := by
    rw [frameHeaderLength, frameHeader]
    split <;> simp
  encrypt hkey hframe := by
    obtain rfl := Option.some.inj hkey
    obtain rfl := Option.some.inj hframe
    simp [frameHeaderLength, Nat.add_assoc]
  sign h := by
    obtain rfl := Option.some.inj h
    simp [signatureLength]

def topic : Topic := ⟨utf8 "a", by decide⟩

/-- The first publication on a topic. -/
def publication : PublicationContext :=
  ⟨workspaceId, 1, topic, ident 5, some ⟨1, one_ne⟩⟩

/-- An audience of the size that is still accepted. -/
def everyone : List (Block 32) := (List.range 64).map fun i => block (UInt8.ofNat (20 + i))

/-- The object of the creator's first publication, and its owner after it. -/
def firstObject (payload : Bytes) : Bytes :=
  objectBody workspaceId 0 0 (1 :: payload ++ List.replicate 16 0) ++ List.replicate 64 0

def sender : Workspace ScriptGroup Bytes :=
  { owner with provider := owner.provider.insert counterRecord (beBytes 8 0 ++ beBytes 8 1) }

theorem protects_empty : pair.mls.protectObject sframe owner publication.authenticatedBytes [] =
    .ok (firstObject [], sender) := by
  decide +kernel

end Sample

open Sample

/-- Sixty-four recipients are a valid audience whose object is refused for its context, and a
reader refuses the first object without a payload that the creator protects. -/
theorem audience_refused :
    CanonicalScope everyone ∧
      (∃ bytes, publication.directAuthenticatedBytes everyone = .ok bytes ∧
        pair.mls.protectObject sframe owner bytes [1] =
          .error "object exceeds bounds or lacks member identity") ∧
      ∃ object after, pair.mls.protectObject sframe owner
          publication.authenticatedBytes [] = .ok (object, after) ∧
        pair.mls.unprotectObject sframe owner
          publication.authenticatedBytes object = .error "invalid object envelope" := by
  have hbytes : publication.directAuthenticatedBytes everyone =
      .ok (utf8 "data-fabric/direct-publication/v1\x00" ++ publication.authenticatedBytes ++
        [64] ++ everyone.flatMap Subtype.val) := by
    decide +kernel
  exact ⟨by decide, ⟨_, hbytes, by decide +kernel⟩, _, _, protects_empty,
    by decide +kernel⟩

/-- Twenty-eight recipients fit to the byte, and one more does not. -/
theorem audience_served_most :
    ∃ bytes larger, publication.directAuthenticatedBytes (everyone.take 28) = .ok bytes ∧
      ¬ pair.mls.ProtectRefuses sframe owner bytes [1] ∧
      publication.directAuthenticatedBytes (everyone.take 29) = .ok larger ∧
      pair.mls.ProtectRefuses sframe owner larger [1] := by
  have hmember : owner.member ≠ none := by simp [owner]
  have hpayload : ([1] : Bytes).length ≤ maxApplicationPayload := by decide
  have hserved := (audience_served_iff (sized pair) hmember publication hpayload).1
  obtain ⟨bytes, hbytes, hprotect, _⟩ := hserved (everyone.take 28) (by decide)
  obtain ⟨larger, hlarger, hrefused, _⟩ := hserved (everyone.take 29) (by decide)
  refine ⟨bytes, larger, hbytes, hprotect.mpr ?_, hlarger, not_not.mp (hrefused.not.mpr ?_)⟩
  · rw [FitsContext]
    decide
  · rw [FitsContext]
    decide

end Arachne.Delivery
