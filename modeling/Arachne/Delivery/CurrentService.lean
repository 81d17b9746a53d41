import Arachne.Delivery.CurrentSnapshot
import Arachne.Delivery.RangeService

/-! The serving of current views, and what a reader makes of a view that was served: the cut and
the values it was made from. -/

namespace Arachne.Delivery

open ByteCodec Fallible Routing
open Security (Mls SFrame Workspace maxApplicationCiphertext maxApplicationContext
  maxApplicationPayload)

def CurrentView.encoded (view : CurrentView) : Bytes :=
  currentReplyMagic ++ ([0] ++ (beBytes 4 view.manifest.length ++ (view.manifest ++
    ([UInt8.ofNat view.packets.length] ++
      view.packets.flatMap fun packet => beBytes 4 packet.length ++ packet))))

def CurrentView.toWire (view : CurrentView) : Outcome Bytes := do
  failIf (maxCurrentValues < view.packets.length ∨ view.manifest = [] ∨
    maxApplicationCiphertext < view.manifest.length) "current-view reply exceeds bounds"
  failIf (maxReplyBytes < view.encoded.length) "current-view reply exceeds bounds"
  pure view.encoded

def deniedWire : Bytes := currentReplyMagic ++ [1]

section Service

variable {Group Signer Staged : Type} (mls : Mls Group Signer Staged)

def protect (owner : Workspace Group Signer) (query : CurrentViewQuery) (cut : U64)
    (values : List CurrentValue) : Outcome CurrentView := do
  failIf (owner.id ≠ query.workspace ∨ mls.epoch owner ≠ query.epoch ∨
    owner.member.map (·.id) ≠ some query.authority) "current-view authority does not match owner"
  let entries ← entries mls.sha256 query cut values
  let manifest ← mls.signCurrentView owner query.context entries
  pure ⟨manifest, values.map (·.packet)⟩

def IndexedValue.answers (entry : IndexedValue) (query : CurrentViewQuery) : Bool :=
  entry.context.revision = query.policyRevision ∧ entry.context.topic = query.topic ∧
    entry.selector = query.selector

namespace CurrentViewIndex

/-- The values that a query asks for, in the order of their keys. -/
def selected (index : CurrentViewIndex) (query : CurrentViewQuery) : List CurrentValue :=
  (index.values.values.filter (·.answers query)).map (·.value)

def cutOf (index : CurrentViewIndex) (query : CurrentViewQuery) : U64 :=
  (index.cuts.find? (selection query.policyRevision query.topic query.selector)).getD 0

def InScope (index : CurrentViewIndex) (query : CurrentViewQuery) : Prop :=
  query.workspace = index.workspace ∧ query.authority = index.authority ∧ query.epoch = index.epoch

instance (index : CurrentViewIndex) (query : CurrentViewQuery) : Decidable (index.InScope query) :=
  inferInstanceAs (Decidable (_ ∧ _))

def view (index : CurrentViewIndex) (owner : Workspace Group Signer) (query : CurrentViewQuery) :
    Outcome CurrentView := do
  failIf (¬ index.InScope query) "current-view query does not match index"
  protect mls owner query (index.cutOf query) (index.selected query)

/-- Whether a peer may have the view: the scope of the index, current membership and policy. -/
def authorizes (index : CurrentViewIndex) (owner : Workspace Group Signer) (policy : RoutingTable)
    (requester : PeerId) (query : CurrentViewQuery) : Bool :=
  decide (index.InScope query) && (authorizeHistory mls owner policy requester query.authority
    query.policyRevision ⟨[query.topic], List.pairwise_singleton _ _⟩).isOk

/-- A denial reveals neither values nor emptiness. -/
def serve (index : CurrentViewIndex) (owner : Workspace Group Signer) (policy : RoutingTable)
    (requester : PeerId) (query : CurrentViewQuery) : Outcome Bytes :=
  if index.authorizes mls owner policy requester query then do
    let view ← index.view mls owner query
    view.toWire
  else pure deniedWire

end CurrentViewIndex

end Service

section Manifest

variable {sha256 : Bytes → Block 32} {query : CurrentViewQuery}

/-- What the manifest says of a value. -/
def CurrentValue.manifestEntry (sha256 : Bytes → Block 32) (value : CurrentValue) : ManifestEntry :=
  ⟨value.replacementKey, value.expiresAt, value.tombstone, sha256 value.packet⟩

def manifestEntryBytes (tombstones : Bool) : Nat := if tombstones then 97 else 96

variable {tombstones : Bool} {values : List CurrentValue}

theorem readManifestEntry_eq_ok {entry : ManifestEntry} {bytes rest : Bytes}
    (h : entry.tombstone = true → tombstones = true) :
    readManifestEntry tombstones bytes = .ok (entry, rest) ↔ ∃ skipped, skipped.length = 24 ∧
      bytes = entry.replacementKey.1 ++ (skipped ++ (beBytes 8 entry.expiresAt.val ++
        ((if tombstones then [if entry.tombstone then 1 else 0] else []) ++
          (entry.digest.1 ++ rest)))) := by
  obtain ⟨key, expiresAt, tombstone, digest⟩ := entry
  have hfield {bytes rest : Bytes} : readTombstone tombstones bytes = .ok (tombstone, rest) ↔
      bytes = (if tombstones then [if tombstone then 1 else 0] else []) ++ rest := by
    cases tombstones with
    | true => exact CurrentViewIndex.readTombstone_eq_ok
    | false =>
      have hfalse : tombstone = false := by simpa using h
      rw [readTombstone, if_neg Bool.false_ne_true, pure_apply_eq_ok]
      simp [hfalse, eq_comm]
  simp only [readManifestEntry, reader_bind_eq_ok, takeBlock_eq_ok, take_eq_ok, takeU64_eq_ok,
    pure_apply_eq_ok, Prod.mk.injEq, ManifestEntry.mk.injEq, existsAndEq, hfield, and_assoc,
    true_and, and_true]
  exact exists_congr fun _ => and_comm

/-- The value loop writes one entry for each value, and they are read back. -/
theorem encodeEntries_eq_ok {ids : List (Block 16)} {bytes : Bytes}
    (htombstones : ∀ value ∈ values, value.tombstone = true → tombstones = true)
    (h : encodeEntries sha256 query tombstones ids values = .ok bytes) :
    bytes.length = values.length * manifestEntryBytes tombstones ∧
      Reads (readMany (readManifestEntry tombstones) values.length) bytes
        (values.map (CurrentValue.manifestEntry sha256)) := by
  induction values generalizing ids bytes with
  | nil =>
    simp only [encodeEntries, pure_eq_ok] at h
    subst h
    exact ⟨by simp, Reads.pure []⟩
  | cons value values ih =>
    simp only [encodeEntries, bind_eq_ok, orFail_eq_ok, failIf_eq_ok, pure_eq_ok] at h
    obtain ⟨⟨context, ciphertext⟩, _, sequence, _, _, _, rest, hrest, rfl⟩ := h
    rw [List.forall_mem_cons] at htombstones
    obtain ⟨hlength, hreads⟩ := ih htombstones.2 hrest
    have hkey := value.replacementKey.property
    have hid := context.id.property
    have hdigest := (sha256 value.packet).property
    constructor
    · have hflag :
          (if tombstones then [if value.tombstone then (1 : UInt8) else 0] else []).length + 96 =
            manifestEntryBytes tombstones := by
        cases tombstones <;> rfl
      simp only [List.length_append, List.length_cons, beBytes_length, hkey, hid, hdigest,
        hlength, Nat.succ_mul]
      omega
    · have hentry : Reads (readManifestEntry tombstones)
          (value.replacementKey.1 ++ ((context.id.1 ++ beBytes 8 sequence.val.val) ++
            (beBytes 8 value.expiresAt.val ++
              ((if tombstones then [if value.tombstone then 1 else 0] else []) ++
                (sha256 value.packet).1)))) (value.manifestEntry sha256) := fun rest =>
        (readManifestEntry_eq_ok htombstones.1).mpr ⟨context.id.1 ++ beBytes 8 sequence.val.val,
          by rw [List.length_append, beBytes_length, hid], by simp only [List.append_assoc]; rfl⟩
      have hmany : Reads (readMany (readManifestEntry tombstones) (values.length + 1)) _
          (value.manifestEntry sha256 :: values.map (CurrentValue.manifestEntry sha256)) :=
        hentry.bind (hreads.bind_pure (Reads.pure _))
      simp only [List.append_assoc] at hmany ⊢
      exact hmany

theorem manifestMagic_length (tombstones : Bool) : (manifestMagic tombstones).length = 5 := by
  cases tombstones <;> decide

theorem entries_eq_ok {cut : U64} {body : Bytes} (h : entries sha256 query cut values = .ok body) :
    body.length ≤ 15 + 97 * maxCurrentValues ∧
      parseManifest body = .ok (cut, values.map (CurrentValue.manifestEntry sha256)) := by
  simp only [entries, bind_eq_ok, failIf_eq_ok, pure_eq_ok, not_or, not_lt] at h
  obtain ⟨_, ⟨hcount, _⟩, encoded, hencoded, rfl⟩ := h
  obtain ⟨hlength, hreads⟩ := encodeEntries_eq_ok (fun value hvalue htombstone =>
    List.any_eq_true.mpr ⟨value, hvalue, htombstone⟩) hencoded
  generalize values.any (·.tombstone) = tombstones at hlength hreads hencoded ⊢
  have hmagic := manifestMagic_length tombstones
  have hcountLt : values.length < 256 ^ 2 := lt_of_le_of_lt hcount (by decide)
  have hsize : manifestEntryBytes tombstones ≤ 97 := by cases tombstones <;> decide
  have hle : encoded.length ≤ maxCurrentValues * 97 := by
    rw [hlength]
    exact Nat.mul_le_mul hcount hsize
  constructor
  · simp only [List.length_append, beBytes_length, hmagic]
    omega
  · have htake : (manifestMagic tombstones ++ beBytes 8 cut.val ++ beBytes 2 values.length ++
        encoded).take 5 = manifestMagic tombstones := by
      rw [List.append_assoc, List.append_assoc, List.take_left' hmagic]
    have hcut : ((manifestMagic tombstones ++ beBytes 8 cut.val ++ beBytes 2 values.length ++
        encoded).drop 5).take 8 = beBytes 8 cut.val := by
      rw [List.append_assoc, List.append_assoc, List.drop_left' hmagic,
        List.take_left' (beBytes_length 8 cut.val)]
    have hdrop : (manifestMagic tombstones ++ beBytes 8 cut.val).length = 13 := by
      rw [List.length_append, beBytes_length, hmagic]
    have hnumber : ((manifestMagic tombstones ++ beBytes 8 cut.val ++ beBytes 2 values.length ++
        encoded).drop 13).take 2 = beBytes 2 values.length := by
      rw [List.append_assoc (manifestMagic tombstones ++ beBytes 8 cut.val),
        List.drop_left' hdrop, List.take_left' (beBytes_length 2 values.length)]
    have hbody : (manifestMagic tombstones ++ beBytes 8 cut.val ++ beBytes 2 values.length ++
        encoded).drop 15 = encoded := by
      rw [List.drop_left']
      rw [List.length_append, hdrop, beBytes_length]
    have hversion : decide (manifestMagic tombstones = manifestMagic true) = tombstones := by
      cases tombstones <;> decide
    have hread := hreads []
    rw [List.append_nil] at hread
    have hformat : ¬((manifestMagic tombstones ++ beBytes 8 cut.val ++ beBytes 2 values.length ++
        encoded).length < 15 ∨ (manifestMagic tombstones ≠ manifestMagic false ∧
          manifestMagic tombstones ≠ manifestMagic true)) := by
      rw [not_or]
      constructor
      · simp only [List.length_append, beBytes_length, hmagic]
        omega
      · cases tombstones <;> decide
    rw [parseManifest]
    simp only [htake, hcut, hnumber, hbody, hversion, beNat_beBytes hcountLt, u64OfBytes_beBytes]
    rw [failIf_of_not hformat, ok_bind, failIf_of_not, ok_bind, hread]
    · rfl
    · rw [not_or, not_lt, not_not]
      exact ⟨hcount, hlength⟩

theorem mapM_matchPacket (values : List CurrentValue) :
    ((values.map (CurrentValue.manifestEntry sha256)).zip (values.map (·.packet))).mapM
      (fun (entry, packet) => matchPacket sha256 entry packet) = .ok values := by
  rw [mapM_eq_ok]
  induction values with
  | nil => exact .nil
  | cons value values ih =>
    refine .cons ?_ ih
    change matchPacket sha256 (value.manifestEntry sha256) value.packet = .ok value
    rw [matchPacket, CurrentValue.manifestEntry, failIf_of_not (not_not.mpr rfl)]
    rfl

end Manifest

section Reply

variable {packets : List Bytes}

theorem readCurrentPacket_exact : Exact readCurrentPacket
    (fun packet => 22 ≤ packet.length ∧ packet.length ≤ 16 * 1024)
    (fun packet => beBytes 4 packet.length ++ packet) := by
  intro bytes packet rest
  simp only [readCurrentPacket, reader_bind_eq_ok, takeNat_eq_ok, check_eq_ok, take_eq_ok,
    existsAndEq, exists_const, List.append_assoc, and_true]
  constructor
  · rintro ⟨⟨_, rfl⟩, hlength⟩
    exact ⟨by omega, rfl⟩
  · rintro ⟨hlength, rfl⟩
    exact ⟨⟨lt_of_le_of_lt hlength.2 (by decide), rfl⟩, by omega⟩

/-- A served view is read back from its wire form. -/
theorem CurrentView.fromWire_toWire {view : CurrentView} {bytes : Bytes}
    (hpackets : ∀ packet ∈ view.packets, 22 ≤ packet.length ∧ packet.length ≤ 16 * 1024)
    (h : view.toWire = .ok bytes) : CurrentView.fromWire bytes = .ok (some view) := by
  simp only [toWire, bind_eq_ok, failIf_eq_ok, pure_eq_ok, not_or] at h
  obtain ⟨_, ⟨hcount, hnonempty, hmanifest⟩, _, hbound, rfl⟩ := h
  have hmanifestLt : view.manifest.length < 256 ^ 4 :=
    lt_of_le_of_lt (not_lt.mp hmanifest) (by decide)
  have hcountLt : view.packets.length < 256 ^ 1 := lt_of_le_of_lt (not_lt.mp hcount) (by decide)
  have hmagic : currentReplyMagic.length = 5 := by decide
  have hread : readCurrentView view.encoded = .ok (some view, []) := by
    simp only [encoded, readCurrentView, reader_bind_eq_ok, take_eq_ok, check_eq_ok, takeNat_eq_ok,
      atEnd_eq_ok, not_not, existsAndEq, exists_const, true_and, and_true]
    refine ⟨0, _, ⟨hmagic, rfl⟩, by decide, ?_⟩
    rw [if_neg fun h => Nat.zero_ne_one h.1, if_pos rfl]
    simp only [readServedView, reader_bind_eq_ok, take_eq_ok, check_eq_ok, takeNat_eq_ok,
      atEnd_eq_ok, readCurrentPacket_exact.readMany _ _ _ _, pure_apply_eq_ok, existsAndEq,
      exists_const, true_and, and_true]
    refine ⟨view.manifest, view.packets, [], ⟨hmanifestLt, by rw [beBytes_one, List.append_nil]⟩,
      ?_, hcountLt, hcount, hpackets, by decide, rfl⟩
    rw [not_or, List.length_eq_zero_iff]
    exact ⟨hnonempty, hmanifest⟩
  rw [fromWire, failIf_of_not hbound, ok_bind, hread]
  rfl

theorem CurrentView.length_encoded (view : CurrentView) :
    view.encoded.length = 11 + view.manifest.length +
      ((view.packets.map List.length).sum + 4 * view.packets.length) := by
  have hmagic : currentReplyMagic.length = 5 := by decide
  have hpackets : ∀ packets : List Bytes,
      (packets.flatMap fun packet => beBytes 4 packet.length ++ packet).length =
        (packets.map List.length).sum + 4 * packets.length := by
    intro packets
    induction packets with
    | nil => rfl
    | cons packet packets ih =>
      simp only [List.flatMap_cons, List.length_append, ih, beBytes_length, List.map_cons,
        List.sum_cons, List.length_cons]
      omega
  simp only [encoded, List.length_append, hmagic, beBytes_length, hpackets, List.length_singleton]
  omega

theorem boundedPacketBytes_eq_some {total : Nat} :
    boundedPacketBytes packets = some total ↔ packets.length ≤ maxCurrentValues ∧
      (packets.map List.length).sum ≤ maxPacketBytes ∧ (packets.map List.length).sum = total := by
  rw [boundedPacketBytes]
  split
  · rename_i h
    simp [h.1, h.2]
  · rename_i h
    simp only [reduceCtorEq, false_iff]
    rintro ⟨hcount, hbytes, _⟩
    exact h ⟨hcount, hbytes⟩

end Reply

section Genuine

variable {Group Signer Staged Key : Type} {mls : Mls Group Signer Staged}

/-- A reader of the epoch who knows the authority as one member, by the key that `signer` signs
for. -/
structure Trusts (mls : Mls Group Signer Staged) (reader : Workspace Group Signer) (signer : Signer)
    (workspace : WorkspaceId) (authority : Block 32) (epoch : U64) : Prop where
  workspace : reader.id = workspace
  epoch : mls.epoch reader = epoch
  signs : ∃ endpoint key, mls.recoverySigner reader authority = .ok (endpoint, key) ∧
    ∀ text, ∃ signature, mls.sign signer text = some signature ∧ signature.length = 64 ∧
      mls.verifySignature text key signature = true

/-- The statement of a view within the limits: its packets can be read, and its values listed. -/
structure Viewable (mls : Mls Group Signer Staged) (query : CurrentViewQuery) (cut : U64)
    (values : List CurrentValue) : Prop where
  listed : ∃ body, entries mls.sha256 query cut values = .ok body
  bytes : ((values.map (·.packet)).map List.length).sum ≤ maxPacketBytes
  packets : ∀ value ∈ values, 22 ≤ value.packet.length ∧ value.packet.length ≤ 16 * 1024

theorem CurrentViewQuery.length_context_le (query : CurrentViewQuery) :
    query.context.length ≤ maxApplicationContext := by
  have hopening : (utf8 "data-fabric/current-view/v1\x00").length = 28 := by decide
  have htopic := query.topic.length_le
  rw [context, List.length_append, hopening, query.length_fields]
  have hbound : maxApplicationContext = 1024 := rfl
  omega

variable {owner reader : Workspace Group Signer} {body manifest : Bytes} {query : CurrentViewQuery}
  {cut : U64} {values : List CurrentValue}

/-- What an authority signs, a reader who trusts it verifies. -/
theorem signCurrentView_verifies {workspace : WorkspaceId} {authority : Block 32} {epoch : U64}
    {context : Bytes} (htrusts : Trusts mls reader owner.signer workspace authority epoch)
    (hmember : owner.member ≠ none) (hcontext : context.length ≤ maxApplicationContext)
    (hbody : body.length ≤ maxApplicationPayload) :
    ∃ signed, mls.signCurrentView owner context body = .ok signed ∧
      signed.length = body.length + 64 ∧
      mls.verifyCurrentView reader authority context signed = .ok body := by
  obtain ⟨endpoint, key, hsigner, hsigns⟩ := htrusts.signs
  obtain ⟨signature, hsign, hsignature, hgenuine⟩ := hsigns (currentViewStatement context body)
  have hlength : (body ++ signature).length = body.length + 64 := by
    rw [List.length_append, hsignature]
  have htake : (body ++ signature).take ((body ++ signature).length - signatureBytes) = body :=
    List.take_left' (by rw [hlength]; rfl)
  have hdrop : (body ++ signature).drop ((body ++ signature).length - signatureBytes) = signature :=
    List.drop_left' (by rw [hlength]; rfl)
  refine ⟨body ++ signature, ?_, hlength, ?_⟩
  · rw [Mls.signCurrentView, failIf_of_not, ok_bind, hsign]
    · rfl
    · rw [not_or, not_or, not_lt, not_lt]
      exact ⟨hmember, hcontext, hbody⟩
  · have hsize : signatureBytes = 64 := rfl
    rw [Mls.verifyCurrentView, failIf_of_not, ok_bind, hsigner, ok_bind]
    · dsimp only
      rw [htake, hdrop, hgenuine]
      rfl
    · rw [hlength]
      omega

theorem Viewable.length_le (h : Viewable mls query cut values) :
    values.length ≤ maxCurrentValues := by
  obtain ⟨body, hbody⟩ := h.listed
  simp only [entries, bind_eq_ok, failIf_eq_ok, not_or, not_lt] at hbody
  obtain ⟨_, ⟨hcount, _⟩, _⟩ := hbody
  exact hcount

theorem Viewable.toWire (h : Viewable mls query cut values)
    (hbody : body.length ≤ 15 + 97 * maxCurrentValues)
    (hmanifest : manifest.length = body.length + 64) :
    (CurrentView.mk manifest (values.map (·.packet))).toWire =
      .ok (CurrentView.mk manifest (values.map (·.packet))).encoded := by
  have hbytes := h.bytes
  have hcount := h.length_le
  have hcipher : maxApplicationCiphertext = 16384 := rfl
  have hvalues : maxCurrentValues = 64 := rfl
  have hpacketBytes : maxPacketBytes = 114688 := rfl
  have hreply : maxReplyBytes = 131072 := rfl
  rw [CurrentView.toWire, failIf_of_not, ok_bind, failIf_of_not, ok_bind]
  · rfl
  · rw [CurrentView.length_encoded]
    dsimp only
    rw [hmanifest, List.length_map]
    omega
  · dsimp only
    rw [not_or, not_or, List.length_map, ← List.length_eq_zero_iff, hmanifest]
    omega

/-- A signed statement and the packets it lists verify. -/
theorem Viewable.verify (sframe : SFrame Group Key) (h : Viewable mls query cut values)
    (hid : reader.id = query.workspace) (hepoch : mls.epoch reader = query.epoch)
    (hbody : entries mls.sha256 query cut values = .ok body)
    (hmanifest : manifest.length = body.length + 64)
    (hverified : mls.verifyCurrentView reader query.authority query.context manifest = .ok body) :
    CurrentView.verify (securityOwner mls sframe reader) query
      ⟨manifest, values.map (·.packet)⟩ = .ok ⟨cut, values⟩ := by
  obtain ⟨hlength, hparse⟩ := entries_eq_ok hbody
  have hbounded : boundedPacketBytes (values.map (·.packet)) =
      some ((values.map (·.packet)).map List.length).sum :=
    boundedPacketBytes_eq_some.mpr ⟨by rw [List.length_map]; exact h.length_le, h.bytes, rfl⟩
  have hfits : ¬ maxReplyBytes < manifest.length +
      ((values.map (·.packet)).map List.length).sum := by
    have hbytes := h.bytes
    have hvalues : maxCurrentValues = 64 := rfl
    have hpacketBytes : maxPacketBytes = 114688 := rfl
    have hreply : maxReplyBytes = 131072 := rfl
    omega
  have hscope : ¬((securityOwner mls sframe reader).id ≠ query.workspace ∨
      (securityOwner mls sframe reader).epoch ≠ query.epoch) := by
    rw [not_or, not_not, not_not]
    exact ⟨hid, hepoch⟩
  rw [CurrentView.verify, failIf_of_not hscope, ok_bind]
  dsimp only
  rw [hbounded, orFail_some, ok_bind, failIf_of_not hfits, ok_bind]
  change (mls.verifyCurrentView reader query.authority query.context manifest >>= _) = _
  rw [hverified, ok_bind, hparse, ok_bind]
  dsimp only
  rw [failIf_of_not, ok_bind]
  · change (List.mapM (fun (entry, packet) => matchPacket mls.sha256 entry packet)
      ((values.map (CurrentValue.manifestEntry mls.sha256)).zip (values.map (·.packet))) >>= _) = _
    rw [mapM_matchPacket, ok_bind]
    change (entries mls.sha256 query cut values >>= _) = _
    rw [hbody, ok_bind, failIf_of_not (not_not.mpr rfl)]
    rfl
  · rw [List.length_map, List.length_map, not_not]

/-- A view that its authority protects is served, and a reader who trusts the authority gets out
of the reply what was put in. -/
theorem verifyWireReply_protect (sframe : SFrame Group Key)
    (hviewable : Viewable mls query cut values) (hid : owner.id = query.workspace)
    (hepoch : mls.epoch owner = query.epoch)
    (hmember : owner.member.map (·.id) = some query.authority)
    (htrusts : Trusts mls reader owner.signer query.workspace query.authority query.epoch) :
    ∃ view, protect mls owner query cut values = .ok view ∧ view.toWire = .ok view.encoded ∧
      verifyWireReply (securityOwner mls sframe reader) query view.encoded =
        .ok (some ⟨cut, values⟩) := by
  obtain ⟨body, hbody⟩ := hviewable.listed
  obtain ⟨hlength, _⟩ := entries_eq_ok hbody
  have hsome : owner.member ≠ none := by
    intro hnone
    rw [hnone] at hmember
    cases hmember
  obtain ⟨manifest, hsigned, hmanifest, hverified⟩ := signCurrentView_verifies htrusts hsome
    query.length_context_le (le_trans hlength (by decide))
  have hwire := hviewable.toWire hlength hmanifest
  have hverify := hviewable.verify sframe htrusts.workspace htrusts.epoch hbody hmanifest hverified
  have hpackets : ∀ packet ∈ values.map (·.packet),
      22 ≤ packet.length ∧ packet.length ≤ 16 * 1024 := by
    intro packet hpacket
    obtain ⟨value, hvalue, rfl⟩ := List.mem_map.mp hpacket
    exact hviewable.packets value hvalue
  refine ⟨⟨manifest, values.map (·.packet)⟩, ?_, hwire, ?_⟩
  · rw [protect, failIf_of_not, ok_bind, hbody, ok_bind, hsigned]
    · rfl
    · rw [not_or, not_or, not_not, not_not, not_not]
      exact ⟨hid, hepoch, hmember⟩
  · rw [verifyWireReply, CurrentView.fromWire_toWire hpackets hwire, ok_bind]
    change some <$> CurrentView.verify (securityOwner mls sframe reader) query
      ⟨manifest, values.map (·.packet)⟩ = _
    rw [hverify]
    rfl

end Genuine

end Arachne.Delivery
