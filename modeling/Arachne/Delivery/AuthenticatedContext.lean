import Arachne.Delivery.CurrentView
import Arachne.Security.Sample

/-! What an object is protected for: a publication, a publication to some members only, or a
latest-value publication with its metadata. The three families share one byte space. -/

namespace Arachne.Delivery

open ByteCodec Fallible Routing Security

inductive AuthenticatedContext where
  | publication (context : PublicationContext)
  | direct (context : PublicationContext) (recipients : List (Block 32))
  | current (context : PublicationContext) (metadata : CurrentMetadata)
deriving DecidableEq

namespace AuthenticatedContext

def bytes : AuthenticatedContext → Outcome Bytes
  | .publication context => .ok context.authenticatedBytes
  | .direct context recipients => context.directAuthenticatedBytes recipients
  | .current context metadata => .ok (metadata.authenticatedContext context)

/-- The byte after the common beginning of all version tags. -/
def tag : AuthenticatedContext → UInt8
  | .publication _ => 112
  | .direct _ _ => 100
  | .current _ _ => 108

theorem tag_of_bytes {a : AuthenticatedContext} {text : Bytes} (h : a.bytes = .ok text) :
    text[12]? = some a.tag := by
  cases a with
  | publication context =>
    cases h
    rw [PublicationContext.authenticatedBytes]
    simp only [List.append_assoc]
    split <;> rfl
  | direct context recipients =>
    simp only [bytes, PublicationContext.directAuthenticatedBytes, bind_eq_ok, pure_eq_ok] at h
    obtain ⟨_, _, rfl⟩ := h
    simp only [List.append_assoc]
    rfl
  | current context metadata =>
    cases h
    rw [CurrentMetadata.authenticatedContext]
    simp only [List.append_assoc]
    split <;> rfl

end AuthenticatedContext

theorem flatMap_block_inj {n : Nat} (hn : 0 < n) {blocks blocks' : List (Block n)}
    (h : blocks.flatMap Subtype.val = blocks'.flatMap Subtype.val) : blocks = blocks' := by
  have hne : ∀ (block : Block n) (rest : Bytes), block.val ++ rest ≠ [] := by
    intro block rest heq
    have hlength := congrArg List.length heq
    rw [List.length_append, block.property] at hlength
    simp at hlength
    omega
  induction blocks generalizing blocks' with
  | nil =>
    cases blocks' with
    | nil => rfl
    | cons block' blocks' => exact absurd h.symm (hne block' _)
  | cons block blocks ih =>
    cases blocks' with
    | nil => exact absurd h (hne block _)
    | cons block' blocks' =>
      rw [List.flatMap_cons, List.flatMap_cons] at h
      have hread : ∀ block : Block n, Reads (takeBlock "" n) block.val block :=
        fun block => Reads.takeBlock block
      obtain ⟨rfl, hrest⟩ := (hread block).inj (hread block') h
      rw [ih hrest]

theorem directAuthenticatedBytes_inj {c c' : PublicationContext}
    {recipients recipients' : List (Block 32)} {text : Bytes}
    (h : c.directAuthenticatedBytes recipients = .ok text)
    (h' : c'.directAuthenticatedBytes recipients' = .ok text) :
    c = c' ∧ recipients = recipients' := by
  simp only [PublicationContext.directAuthenticatedBytes, bind_eq_ok, pure_eq_ok] at h h'
  obtain ⟨_, _, rfl⟩ := h
  obtain ⟨_, _, heq⟩ := h'
  simp only [List.append_assoc, List.append_cancel_left_eq] at heq
  obtain ⟨rfl, hrest⟩ := PublicationContext.authenticatedBytes_append_inj heq
  refine ⟨rfl, (flatMap_block_inj (by decide) ?_).symm⟩
  exact (List.cons.inj hrest).2

theorem authenticatedContext_inj {c c' : PublicationContext} {metadata metadata' : CurrentMetadata}
    (h : metadata.authenticatedContext c = metadata'.authenticatedContext c') :
    c = c' ∧ metadata = metadata' := by
  have hlength : ∀ tombstone : Bool, (if tombstone = true then
      utf8 "data-fabric/live-current/v2\x00" else utf8 "data-fabric/live-current/v1\x00").length =
        28 := by
    decide
  have hversion : ∀ tombstone tombstone' : Bool, (if tombstone = true then
      utf8 "data-fabric/live-current/v2\x00" else utf8 "data-fabric/live-current/v1\x00") =
      (if tombstone' = true then utf8 "data-fabric/live-current/v2\x00"
        else utf8 "data-fabric/live-current/v1\x00") → tombstone = tombstone' := by
    decide
  have hblock : ∀ block : Block 32, Reads (takeBlock "" 32) block.val block :=
    fun block => Reads.takeBlock block
  have hword : ∀ n : U64, Reads (takeU64 "") (beBytes 8 n.val) n := fun n => Reads.takeU64 n
  obtain ⟨selector, key, expiresAt, tombstone⟩ := metadata
  obtain ⟨selector', key', expiresAt', tombstone'⟩ := metadata'
  simp only [CurrentMetadata.authenticatedContext, List.append_assoc] at h
  obtain ⟨htag, hrest⟩ := List.append_inj h ((hlength tombstone).trans (hlength tombstone').symm)
  obtain rfl := hversion tombstone tombstone' htag
  obtain ⟨rfl, hrest₁⟩ := PublicationContext.authenticatedBytes_append_inj hrest
  obtain ⟨rfl, hrest₂⟩ := (hblock selector).inj (hblock selector') hrest₁
  obtain ⟨rfl, hrest₃⟩ := (hblock key).inj (hblock key') hrest₂
  obtain ⟨rfl, _⟩ := (hword expiresAt).inj (hword expiresAt') hrest₃
  exact ⟨rfl, rfl⟩

theorem AuthenticatedContext.bytes_inj {a b : AuthenticatedContext} {text : Bytes}
    (ha : a.bytes = .ok text) (hb : b.bytes = .ok text) : a = b := by
  have htag : a.tag = b.tag := Option.some.inj ((tag_of_bytes ha).symm.trans (tag_of_bytes hb))
  cases a with
  | publication context =>
    cases b with
    | publication context' =>
      cases ha
      rw [PublicationContext.authenticatedBytes_inj (Except.ok.inj hb)]
    | direct context' recipients' => simp [tag] at htag
    | current context' metadata' => simp [tag] at htag
  | direct context recipients =>
    cases b with
    | publication context' => simp [tag] at htag
    | direct context' recipients' =>
      obtain ⟨rfl, rfl⟩ := directAuthenticatedBytes_inj ha hb
      rfl
    | current context' metadata' => simp [tag] at htag
  | current context metadata =>
    cases b with
    | publication context' => simp [tag] at htag
    | direct context' recipients' => simp [tag] at htag
    | current context' metadata' =>
      cases ha
      obtain ⟨rfl, rfl⟩ := authenticatedContext_inj (Except.ok.inj hb)
      rfl

theorem signedObject_inj {context context' body : Bytes}
    (hbound : context.length ≤ maxApplicationContext)
    (hbound' : context'.length ≤ maxApplicationContext)
    (h : signedObject context body = signedObject context' body) : context = context' := by
  simp only [signedObject, List.append_assoc, List.append_cancel_left_eq] at h
  have hread : ∀ text : Bytes, text.length ≤ maxApplicationContext →
      Reads (takeNat "" 4) (beBytes 4 text.length) text.length :=
    fun text htext => Reads.takeNat (lt_of_le_of_lt htext (by decide))
  obtain ⟨hlength, hrest⟩ := (hread context hbound).inj (hread context' hbound') h
  exact (List.append_inj hrest hlength).1

/-- The signature of an object verifies this text only. -/
def SignsOnly {Group Signer Staged : Type} (mls : Mls Group Signer Staged)
    (object text : Bytes) : Prop :=
  ∀ key other,
    mls.verifySignature other key (object.drop (object.length - signatureLength)) = true →
    other = text

/-- Equal bytes come from equal contexts, and an object that was protected for one context is
accepted for that context only. -/
theorem contexts_unambiguous :
    (∀ (a b : AuthenticatedContext) (text : Bytes),
      a.bytes = .ok text → b.bytes = .ok text → a = b) ∧
    ∀ {Group Signer Staged Key : Type} (mls : Mls Group Signer Staged) (sframe : SFrame Group Key)
      (sender sender' receiver : Workspace Group Signer) (a b : AuthenticatedContext)
      (text other payload object : Bytes) (received : AuthenticatedObject),
      a.bytes = .ok text → b.bytes = .ok other →
      mls.protectObject sframe sender text payload = .ok (object, sender') →
      SignsOnly mls object (signedObject text (object.take (object.length - signatureLength))) →
      mls.unprotectObject sframe receiver other object = .ok received → a = b := by
  refine ⟨fun a b text => AuthenticatedContext.bytes_inj, ?_⟩
  intro Group Signer Staged Key mls sframe sender sender' receiver a b text other payload object
    received ha hb hprotect honly haccept
  simp only [Mls.protectObject, bind_eq_ok, failIf_eq_ok, not_or, not_lt] at hprotect
  obtain ⟨_, ⟨_, htext, _⟩, _⟩ := hprotect
  simp only [Mls.unprotectObject, bind_eq_ok, failIf_eq_ok, not_or, not_lt] at haccept
  obtain ⟨_, ⟨hother, _⟩, _, _, member, _, _, _, _, hverified, _⟩ := haccept
  have hsigned := honly member.signatureKey _ (by simpa using hverified)
  obtain rfl := signedObject_inj hother htext hsigned
  exact AuthenticatedContext.bytes_inj ha hb

section Sample

open Sample

/-- A publication of the administrator. -/
def noticeContext : PublicationContext :=
  ⟨workspaceId, 1, ⟨utf8 "notes", isValid_notes⟩, zeroBlock 16, none⟩

def noticeBody : Bytes :=
  objectBody workspaceId 1 0 (frameHeader 1 1 ++ [7] ++ List.replicate 16 0)

def notice : Bytes := noticeBody ++ List.replicate 64 0

/-- Signatures that verify the text of the notice only. -/
def noticeMls : Mls ScriptGroup Bytes ScriptGroup :=
  { pair.mls with
    verifySignature := fun text _ _ =>
      decide (text = signedObject noticeContext.authenticatedBytes noticeBody) }

theorem notice_protected : ∃ sender', noticeMls.protectObject sframe
    (leader pair) noticeContext.authenticatedBytes [7] = .ok (notice, sender') := by
  have hobject : (noticeMls.protectObject sframe (leader pair)
      noticeContext.authenticatedBytes [7]).toOption.map Prod.fst = some notice := by
    decide +kernel
  cases hprotect : noticeMls.protectObject sframe (leader pair)
      noticeContext.authenticatedBytes [7] with
  | error message =>
    rw [hprotect] at hobject
    cases hobject
  | ok result =>
    rw [hprotect] at hobject
    exact ⟨result.2, congrArg Except.ok (Prod.ext (Option.some.inj hobject) rfl)⟩

/-- The notice is accepted for what it was protected for, and for nothing else. -/
theorem contexts_unambiguous_notice :
    noticeMls.unprotectObject sframe (follower pair)
        noticeContext.authenticatedBytes notice =
      .ok ⟨⟨block 1, block 11, [7]⟩, 1⟩ ∧
    ∀ (b : AuthenticatedContext) (other : Bytes) (received : AuthenticatedObject),
      b.bytes = .ok other →
      noticeMls.unprotectObject sframe (follower pair) other notice =
        .ok received → .publication noticeContext = b := by
  refine ⟨by decide +kernel, ?_⟩
  intro b other received hb haccept
  obtain ⟨sender', hprotect⟩ := notice_protected
  have honly : SignsOnly noticeMls notice (signedObject noticeContext.authenticatedBytes
      (notice.take (notice.length - signatureLength))) := by
    intro key text hverified
    have hbody : notice.take (notice.length - signatureLength) = noticeBody := by decide +kernel
    rw [hbody]
    exact of_decide_eq_true hverified
  exact contexts_unambiguous.2 noticeMls sframe (leader pair) sender'
    (follower pair) (.publication noticeContext) b _ other [7] notice received rfl hb
    hprotect honly haccept

end Sample

end Arachne.Delivery
