import Arachne.Lib.ByteCodec

/-! Topics and the canonical routing metadata of a publication. -/

namespace Arachne.Routing

open ByteCodec Fallible

abbrev WorkspaceId := Block 32

/-- Authenticated endpoint key. -/
abbrev PeerId := Block 32

abbrev NonZeroU64 := { n : U64 // n ≠ 0 }

def NonZeroU64.new (n : U64) : Option NonZeroU64 :=
  if h : n ≠ 0 then some ⟨n, h⟩ else none

theorem NonZeroU64.new_val (n : NonZeroU64) : NonZeroU64.new n.val = some n := by
  simp [NonZeroU64.new, n.property]

/-- `map_or(0, NonZeroU64::get)`. -/
def NonZeroU64.orZero (n : Option NonZeroU64) : U64 := n.elim 0 Subtype.val

theorem NonZeroU64.new_orZero (n : Option NonZeroU64) : NonZeroU64.new (orZero n) = n := by
  cases n with
  | none => rfl
  | some n => exact new_val n

inductive Error where
  | invalidTopic
  | limitExceeded
  | unknownWorkspace
  | wrongPolicyRevision
  | denied
deriving DecidableEq, Repr

def isAsciiAlphanumeric (b : UInt8) : Bool :=
  (48 ≤ b && b ≤ 57) || (65 ≤ b && b ≤ 90) || (97 ≤ b && b ≤ 122)

/-- Exact, case-sensitive topics: nonempty segments of letters, digits and `-_.`. -/
def Topic.isValid (value : Bytes) : Bool :=
  !value.isEmpty && value.length ≤ 128 &&
    (value.splitOn 47).all (fun segment => !segment.isEmpty) &&
    value.all fun b => isAsciiAlphanumeric b || (utf8 "/-_.").contains b

abbrev Topic := { value : Bytes // Topic.isValid value = true }

instance lawfulBEqTopic : LawfulBEq Topic := inferInstance

theorem isValid_notes : Topic.isValid (utf8 "notes") = true := by
  decide

def Topic.new (value : Bytes) : Except Error Topic :=
  if h : Topic.isValid value = true then .ok ⟨value, h⟩ else .error .invalidTopic

theorem Topic.new_val (topic : Topic) : Topic.new topic.val = .ok topic := by
  simp [Topic.new, topic.property]

theorem Topic.val_of_new {value : Bytes} {topic : Topic} (h : Topic.new value = .ok topic) :
    topic.val = value := by
  rw [Topic.new] at h
  split at h
  · rw [← Except.ok.inj h]
  · cases h

theorem Topic.length_le (topic : Topic) : topic.val.length ≤ 128 := by
  have h := topic.property
  simp only [isValid, Bool.and_eq_true, decide_eq_true_eq] at h
  exact h.1.1.2

theorem Topic.isAscii (topic : Topic) : ∀ b ∈ topic.val, b < 128 := by
  intro b hb
  have h := topic.property
  simp only [isValid, Bool.and_eq_true, List.all_eq_true] at h
  have hbyte := h.2 b hb
  have hpunct : utf8 "/-_." = [47, 45, 95, 46] := by rfl
  simp only [isAsciiAlphanumeric, hpunct, Bool.or_eq_true, Bool.and_eq_true, decide_eq_true_eq,
    List.contains_cons, List.contains_nil, beq_iff_eq, Bool.false_eq_true, or_false] at hbyte
  rw [UInt8.lt_iff_toNat_lt]
  change b.toNat < 128
  rcases hbyte with ((⟨_, hle⟩ | ⟨_, hle⟩) | ⟨_, hle⟩) | rfl | rfl | rfl | rfl
  · exact lt_of_le_of_lt (UInt8.le_iff_toNat_le.mp hle) (by decide)
  · exact lt_of_le_of_lt (UInt8.le_iff_toNat_le.mp hle) (by decide)
  · exact lt_of_le_of_lt (UInt8.le_iff_toNat_le.mp hle) (by decide)
  all_goals decide

def writeTopic (topic : Topic) : Bytes := [UInt8.ofNat topic.val.length] ++ topic.val

/-- A length byte and a topic, with the errors of a short input, of bytes that are no text and
of a text that is no topic. -/
def readTopic (truncated badEncoding invalid : String) : Reader Topic := do
  let length ← takeNat truncated 1
  let value ← take truncated length
  check (fromUtf8 value = none) badEncoding
  match Topic.new value with
  | .ok topic => pure topic
  | .error _ => throw invalid

theorem readTopic_eq_ok {truncated badEncoding invalid : String} {bytes rest : Bytes}
    {topic : Topic} :
    readTopic truncated badEncoding invalid bytes = .ok (topic, rest) ↔
      bytes = writeTopic topic ++ rest := by
  have hutf8 : fromUtf8 topic.val ≠ none :=
    Option.isSome_iff_ne_none.mp (fromUtf8_isSome_of_ascii topic.isAscii)
  simp only [readTopic, reader_bind_eq_ok, takeNat_eq_ok, take_eq_ok, check_eq_ok, writeTopic,
    beBytes_one, List.append_assoc]
  constructor
  · rintro ⟨_, _, ⟨_, rfl⟩, value, _, ⟨rfl, rfl⟩, _, _, ⟨_, rfl⟩, h⟩
    cases hnew : Topic.new value with
    | ok known =>
      rw [hnew] at h
      cases h
      rw [Topic.val_of_new hnew]
    | error _ =>
      rw [hnew] at h
      cases h
  · rintro rfl
    refine ⟨_, _, ⟨lt_of_le_of_lt topic.length_le (by decide), rfl⟩, _, _, ⟨rfl, rfl⟩, (), _,
      ⟨hutf8, rfl⟩, ?_⟩
    rw [Topic.new_val]
    rfl

theorem reads_writeTopic (truncated badEncoding invalid : String) (topic : Topic) :
    Reads (readTopic truncated badEncoding invalid) (writeTopic topic) topic :=
  fun _ => readTopic_eq_ok.mpr rfl

/-- Stable across retransmission. `sequence` is the publisher's retention order within the
author's workspace epoch; it is absent from legacy data. -/
structure PublicationContext where
  workspace : WorkspaceId
  revision : U64
  topic : Topic
  id : Block 16
  sequence : Option NonZeroU64
deriving DecidableEq

/-- The versioned authenticated data of a publication. -/
def PublicationContext.authenticatedBytes (c : PublicationContext) : Bytes :=
  (if c.sequence.isSome then utf8 "data-fabric/publication/v2\x00"
    else utf8 "data-fabric/publication/v1\x00") ++
  c.workspace.val ++ beBytes 8 c.revision.val ++ [UInt8.ofNat c.topic.val.length] ++
  c.topic.val ++ c.id.val ++
  (match c.sequence with
    | some sequence => beBytes 8 sequence.val.val
    | none => [])

theorem PublicationContext.le_authenticatedBytes_length (c : PublicationContext) :
    84 + c.topic.val.length ≤ c.authenticatedBytes.length := by
  have hv1 : (utf8 "data-fabric/publication/v1\x00").length = 27 := by decide
  have hv2 : (utf8 "data-fabric/publication/v2\x00").length = 27 := by decide
  have hworkspace := c.workspace.property
  have hid := c.id.property
  unfold authenticatedBytes
  split <;> simp only [List.length_append, beBytes_length, List.length_singleton, hv1, hv2,
    hworkspace, hid] <;> omega

theorem PublicationContext.length_authenticatedBytes (c : PublicationContext) :
    c.authenticatedBytes.length =
      84 + c.topic.val.length + if c.sequence.isSome then 8 else 0 := by
  have hv1 : (utf8 "data-fabric/publication/v1\x00").length = 27 := by decide
  have hv2 : (utf8 "data-fabric/publication/v2\x00").length = 27 := by decide
  have hworkspace := c.workspace.property
  have hid := c.id.property
  unfold authenticatedBytes
  cases c.sequence <;>
    simp only [List.length_append, beBytes_length, List.length_singleton, hv1, hv2, hworkspace,
      hid, Option.isSome_some, Option.isSome_none, if_true, Bool.false_eq_true, if_false,
      List.length_nil] <;> omega

theorem PublicationContext.length_authenticatedBytes_le (c : PublicationContext) :
    c.authenticatedBytes.length ≤ 220 := by
  have htopic := c.topic.length_le
  rw [c.length_authenticatedBytes]
  split <;> omega

/-- The authenticated data of a publication determine it, whatever follows them. -/
theorem PublicationContext.authenticatedBytes_append_inj {c c' : PublicationContext}
    {after after' : Bytes}
    (h : c.authenticatedBytes ++ after = c'.authenticatedBytes ++ after') :
    c = c' ∧ after = after' := by
  have hlength : ∀ sequence : Option NonZeroU64, (if sequence.isSome = true then
      utf8 "data-fabric/publication/v2\x00" else utf8 "data-fabric/publication/v1\x00").length =
        27 := by
    intro sequence
    split <;> decide
  have hblock : ∀ {n : Nat} (block : Block n), Reads (takeBlock "" n) block.val block :=
    fun block => Reads.takeBlock block
  have hword : ∀ n : U64, Reads (takeU64 "") (beBytes 8 n.val) n := fun n => Reads.takeU64 n
  obtain ⟨workspace, revision, topic, id, sequence⟩ := c
  obtain ⟨workspace', revision', topic', id', sequence'⟩ := c'
  simp only [authenticatedBytes, List.append_assoc] at h
  obtain ⟨hversion, hrest⟩ := List.append_inj h ((hlength sequence).trans (hlength sequence').symm)
  obtain ⟨rfl, hrest₁⟩ := (hblock workspace).inj (hblock workspace') hrest
  obtain ⟨rfl, hrest₂⟩ := (hword revision).inj (hword revision') hrest₁
  rw [← List.append_assoc, ← List.append_assoc _ topic'.val] at hrest₂
  obtain ⟨rfl, hrest₃⟩ :=
    (reads_writeTopic "" "" "" topic).inj (reads_writeTopic "" "" "" topic') hrest₂
  obtain ⟨rfl, hrest₄⟩ := (hblock id).inj (hblock id') hrest₃
  have hne : utf8 "data-fabric/publication/v1\x00" ≠ utf8 "data-fabric/publication/v2\x00" := by
    decide
  cases sequence with
  | none =>
    cases sequence' with
    | none => exact ⟨rfl, hrest₄⟩
    | some number' => exact absurd hversion hne
  | some number =>
    cases sequence' with
    | none => exact absurd hversion hne.symm
    | some number' =>
      obtain ⟨hnumber, hafter⟩ := (hword number.val).inj (hword number'.val) hrest₄
      obtain rfl := Subtype.ext hnumber
      exact ⟨rfl, hafter⟩

theorem PublicationContext.authenticatedBytes_inj {c c' : PublicationContext}
    (h : c.authenticatedBytes = c'.authenticatedBytes) : c = c' := by
  have happend : c.authenticatedBytes ++ [] = c'.authenticatedBytes ++ [] := by rw [h]
  exact (authenticatedBytes_append_inj happend).1

/-- A recipient scope in canonical form: one to 64 members in strictly increasing order. -/
def CanonicalScope (recipients : List (Block 32)) : Prop :=
  recipients ≠ [] ∧ recipients.length ≤ 64 ∧ recipients.Pairwise (· < ·)

instance (recipients : List (Block 32)) : Decidable (CanonicalScope recipients) :=
  inferInstanceAs (Decidable (_ ∧ _ ∧ _))

/-- The authenticated data of a publication to these members only. -/
def PublicationContext.directAuthenticatedBytes (c : PublicationContext)
    (recipients : List (Block 32)) : Outcome Bytes := do
  failIf (¬ CanonicalScope recipients) "invalid direct recipient scope"
  pure (utf8 "data-fabric/direct-publication/v1\x00" ++ c.authenticatedBytes ++
    [UInt8.ofNat recipients.length] ++ recipients.flatMap Subtype.val)

theorem PublicationContext.length_directAuthenticatedBytes {c : PublicationContext}
    {recipients : List (Block 32)} {bytes : Bytes}
    (h : c.directAuthenticatedBytes recipients = .ok bytes) :
    bytes.length = 35 + c.authenticatedBytes.length + 32 * recipients.length := by
  simp only [directAuthenticatedBytes, bind_eq_ok, pure_eq_ok] at h
  obtain ⟨_, _, rfl⟩ := h
  have htext : (utf8 "data-fabric/direct-publication/v1\x00").length = 34 := by decide
  simp only [List.length_append, htext, List.length_singleton, length_flatMap_block]
  omega

def packetMagic : Bytes := utf8 "DFAP" ++ [1]

def sequencedPacketMagic : Bytes := utf8 "DFAP" ++ [2]

/-- The packet a publication travels in. The recipient takes the other fields of the context
from the frame around it. -/
def PublicationContext.packet (c : PublicationContext) (ciphertext : Bytes) : Outcome Bytes := do
  failIf (ciphertext = [] ∨
    16 * 1024 - (if c.sequence.isSome then 29 else 21) < ciphertext.length)
    "protected packet exceeds bounds"
  pure ((if c.sequence.isSome then sequencedPacketMagic else packetMagic) ++ c.id.val ++
    (match c.sequence with
      | some sequence => beBytes 8 sequence.val.val
      | none => []) ++ ciphertext)

def PublicationContext.unpack (workspace : WorkspaceId) (revision : U64) (topic : Topic)
    (packet : Bytes) : Outcome (PublicationContext × Bytes) :=
  if h : 22 ≤ packet.length ∧ packet.length ≤ 16 * 1024 then
    let id : Block 16 := ⟨(packet.drop 5).take 16, by
      rw [List.length_take, List.length_drop]
      omega⟩
    if packet.take 5 = packetMagic then
      .ok (⟨workspace, revision, topic, id, none⟩, packet.drop 21)
    else if packet.take 5 = sequencedPacketMagic ∧ 30 ≤ packet.length then do
      let sequence ← orFail (NonZeroU64.new (u64OfBytes ((packet.drop 21).take 8)))
        "zero publisher sequence"
      pure (⟨workspace, revision, topic, id, some sequence⟩, packet.drop 29)
    else .error "invalid protected packet"
  else .error "invalid protected packet"

variable {workspace : WorkspaceId} {revision : U64} {topic : Topic} {packet : Bytes}

theorem PublicationContext.length_of_unpack {unpacked : PublicationContext × Bytes}
    (h : unpack workspace revision topic packet = .ok unpacked) :
    22 ≤ packet.length ∧ packet.length ≤ 16 * 1024 := by
  by_contra hlength
  rw [unpack, dif_neg hlength] at h
  cases h

/-- What `unpack` finds behind the format and the id of a packet. -/
theorem PublicationContext.unpack_append {magic : Bytes} (hmagic : magic.length = 5)
    (id : Block 16) (rest : Bytes) :
    unpack workspace revision topic (magic ++ (id.1 ++ rest)) =
      if 1 ≤ rest.length ∧ 21 + rest.length ≤ 16 * 1024 then
        if magic = packetMagic then .ok (⟨workspace, revision, topic, id, none⟩, rest)
        else if magic = sequencedPacketMagic ∧ 9 ≤ rest.length then do
          let sequence ← orFail
            (NonZeroU64.new (u64OfBytes (rest.take 8))) "zero publisher sequence"
          pure (⟨workspace, revision, topic, id, some sequence⟩, rest.drop 8)
        else .error "invalid protected packet"
      else .error "invalid protected packet" := by
  obtain ⟨id, hid⟩ := id
  have hlength : (magic ++ (id ++ rest)).length = 21 + rest.length := by
    simp only [List.length_append, hmagic, hid]
    omega
  have hdrop : (magic ++ (id ++ rest)).drop 21 = rest := by
    rw [← List.append_assoc]
    exact List.drop_left' (by simp [hmagic, hid])
  have hrest : (magic ++ (id ++ rest)).drop 29 = rest.drop 8 := by
    rw [← congrArg (List.drop 8) hdrop, List.drop_drop]
  have hbound : (22 ≤ 21 + rest.length ∧ 21 + rest.length ≤ 16 * 1024) =
      (1 ≤ rest.length ∧ 21 + rest.length ≤ 16 * 1024) := by
    congr 1
    exact propext (by omega)
  have hroom : (30 ≤ 21 + rest.length) = (9 ≤ rest.length) := propext (by omega)
  simp only [unpack, hlength, hdrop, hrest, hbound, hroom, List.take_left' hmagic,
    List.drop_left' hmagic, List.take_left' hid]
  rfl

/-- A packet is unpacked to the publication that it was made of, and nothing else is. -/
theorem PublicationContext.unpack_iff_packet {context : PublicationContext} {ciphertext : Bytes} :
    unpack workspace revision topic packet = .ok (context, ciphertext) ↔
      (context.workspace = workspace ∧ context.revision = revision ∧ context.topic = topic) ∧
        context.packet ciphertext = .ok packet := by
  have hmagic : packetMagic.length = 5 ∧ sequencedPacketMagic.length = 5 := by decide
  have hne : sequencedPacketMagic ≠ packetMagic := by decide
  obtain ⟨workspace', revision', topic', id', sequence⟩ := context
  constructor
  · intro h
    have hlength := length_of_unpack h
    obtain ⟨magic, id, rest, rfl, hfront⟩ : ∃ (magic : Bytes) (id : Block 16) (rest : Bytes),
        packet = magic ++ (id.1 ++ rest) ∧ magic.length = 5 := by
      refine ⟨packet.take 5, ⟨(packet.drop 5).take 16, ?_⟩, (packet.drop 5).drop 16, ?_, ?_⟩
      · rw [List.length_take, List.length_drop]
        omega
      · rw [List.take_append_drop, List.take_append_drop]
      · exact List.length_take_of_le (by omega)
    rw [unpack_append hfront, ite_else_error_eq_ok] at h
    obtain ⟨⟨hlow, hhigh⟩, h⟩ := h
    split at h
    · rename_i hplain
      cases h
      refine ⟨⟨rfl, rfl, rfl⟩, ?_⟩
      simp only [PublicationContext.packet, bind_eq_ok, failIf_eq_ok, pure_eq_ok, exists_const,
        Option.isSome_none, Bool.false_eq_true, if_false, List.append_nil, List.append_assoc,
        hplain, and_true, not_or, not_lt, ← List.length_pos_iff]
      omega
    · rw [ite_else_error_eq_ok] at h
      simp only [bind_eq_ok, orFail_eq_ok, pure_eq_ok] at h
      obtain ⟨⟨rfl, hroom⟩, number, hnumber, h⟩ := h
      cases h
      have hword : (rest.take 8).length = 8 := List.length_take_of_le (by omega)
      have hvalue : number.val = u64OfBytes (rest.take 8) := by
        rw [NonZeroU64.new] at hnumber
        split at hnumber <;> cases hnumber
        rfl
      refine ⟨⟨rfl, rfl, rfl⟩, ?_⟩
      simp only [PublicationContext.packet, bind_eq_ok, failIf_eq_ok, pure_eq_ok, exists_const,
        Option.isSome_some, if_true, hvalue, beBytes_u64OfBytes hword, List.append_assoc,
        List.take_append_drop, and_true, not_or, not_lt, ← List.length_pos_iff, List.length_drop]
      omega
  · rintro ⟨⟨rfl, rfl, rfl⟩, h⟩
    simp only [PublicationContext.packet, bind_eq_ok, failIf_eq_ok, pure_eq_ok, exists_const,
      not_or, not_lt, List.append_assoc, ← List.length_pos_iff] at h
    obtain ⟨⟨hlow, hhigh⟩, rfl⟩ := h
    cases sequence with
    | none =>
      simp only [Option.isSome_none, Bool.false_eq_true, if_false] at hhigh ⊢
      rw [unpack_append hmagic.1, if_pos (by simp only [List.nil_append]; omega), if_pos rfl]
      rfl
    | some sequence =>
      simp only [Option.isSome_some, if_true] at hhigh ⊢
      rw [unpack_append hmagic.2]
      simp only [hne, if_false, true_and, List.length_append, beBytes_length, u64OfBytes_beBytes,
        NonZeroU64.new_val, List.take_left' (beBytes_length 8 _),
        List.drop_left' (beBytes_length 8 _), orFail_some, ok_bind]
      rw [if_pos (by omega), if_pos (by omega)]
      rfl

theorem PublicationContext.unpack_eq_ok {ciphertext : Bytes} {context : PublicationContext}
    (h : unpack workspace revision topic packet = .ok (context, ciphertext)) :
    context.workspace = workspace ∧ context.revision = revision ∧ context.topic = topic ∧
      packet.length ≤ 16 * 1024 := by
  obtain ⟨⟨hworkspace, hrevision, htopic⟩, _⟩ := unpack_iff_packet.mp h
  exact ⟨hworkspace, hrevision, htopic, (length_of_unpack h).2⟩

end Arachne.Routing
