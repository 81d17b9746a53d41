import Arachne.Delivery.CurrentIndex

/-! A saved index of current values restores to the index it was saved from, and the queries of
current views to themselves. -/

namespace Arachne.Delivery

open ByteCodec Fallible Routing

theorem CurrentViewQuery.length_fields (query : CurrentViewQuery) :
    query.fields.length = 113 + query.topic.val.length := by
  have hworkspace := query.workspace.property
  have hauthority := query.authority.property
  have hselector := query.selector.property
  simp only [fields, writeTopic, List.length_append, beBytes_length, List.length_singleton,
    hworkspace, hauthority, hselector]
  omega

/-- The queries that are accepted are the ones that are written. -/
theorem CurrentViewQuery.fromWire_eq_ok {query : CurrentViewQuery} {bytes : Bytes} :
    CurrentViewQuery.fromWire bytes = .ok query ↔ query.toWire = .ok bytes := by
  have hmagic : currentQueryMagic.length = 5 := by decide
  simp only [fromWire, toWire, bind_eq_ok, failIf_eq_ok, pure_eq_ok, Prod.exists, exists_const]
  obtain ⟨workspace, authority, epoch, policyRevision, topic, selector⟩ := query
  simp only [readCurrentViewQuery, readCurrentTopic, fields, reader_bind_eq_ok, take_eq_ok,
    check_eq_ok, takeBlock_eq_ok, takeU64_eq_ok, readTopic_eq_ok, atEnd_eq_ok, pure_apply_eq_ok,
    Prod.mk.injEq, mk.injEq, not_not, Bool.not_eq_false, List.isEmpty_iff, existsAndEq, true_and,
    and_true, exists_const, List.append_nil, hmagic]
  constructor
  · rintro ⟨hbound, rfl⟩
    exact ⟨hbound, rfl⟩
  · rintro ⟨hbound, rfl⟩
    exact ⟨hbound, rfl⟩

namespace CurrentViewIndex

theorem restoreCuts_reads : ReadsEntries restoreCuts (fun entry => entry.2 ≠ 0) encodeCut where
  done _ _ := rfl
  next count cuts bytes result := by
    simp only [restoreCuts, readCurrentTopic, reader_bind_eq_ok, takeU64_eq_ok, readTopic_eq_ok,
      takeBlock_eq_ok, check_eq_ok, not_or, any_getLast_le, encodeCut, List.append_assoc,
      existsAndEq, true_and, and_true, exists_const, Prod.exists]
    constructor
    · rintro ⟨revision, topic, selector, cut, rest, rfl, ⟨hcut, hkeys, _⟩, hrest⟩
      exact ⟨_, cut, rest, hcut, hkeys, rfl, hrest⟩
    · rintro ⟨key, cut, rest, hcut, hkeys, rfl, hrest⟩
      exact ⟨_, _, _, cut, rest, rfl, ⟨hcut, hkeys, not_not.mpr (find_eq_none_of_lt hkeys)⟩, hrest⟩

/-- An entry of the index as `validate` accepts it. -/
def EntryValid (workspace : WorkspaceId) (entry : ValueKey × IndexedValue) : Prop :=
  ∃ ciphertext, PublicationContext.unpack workspace (keyParts entry.1).1 (keyParts entry.1).2.1
      entry.2.value.packet = .ok (entry.2.context, ciphertext) ∧
    entry.2.selector = (keyParts entry.1).2.2.1 ∧
    entry.2.value.replacementKey = (keyParts entry.1).2.2.2

variable {index : CurrentViewIndex} {entries : List (ValueKey × IndexedValue)}

theorem entryValid_of_validateValues {ids : List (Block 16)}
    (h : index.validateValues ids entries = .ok ()) :
    ∀ entry ∈ entries, EntryValid index.workspace entry := by
  induction entries generalizing ids with
  | nil => simp
  | cons entry entries ih =>
    simp only [validateValues, bind_eq_ok, failIf_eq_ok, not_or, not_not] at h
    obtain ⟨⟨context, ciphertext⟩, hunpack, _, ⟨rfl, _, hrevision, hselector, hkey, _⟩, h⟩ := h
    rw [List.forall_mem_cons]
    refine ⟨⟨ciphertext, ?_, hselector, hkey⟩, ih h⟩
    rwa [hrevision] at hunpack

theorem readTombstone_eq_ok {flag : Bool} {bytes rest : Bytes} :
    readTombstone true bytes = .ok (flag, rest) ↔ bytes = [if flag then 1 else 0] ++ rest := by
  simp only [readTombstone, if_true, reader_bind_eq_ok, takeNat_eq_ok, lift_eq_ok, existsAndEq,
    and_true]
  constructor
  · rintro ⟨n, ⟨_, rfl⟩, hflag⟩
    rcases n with _ | _ | n <;> cases hflag <;> rfl
  · rintro rfl
    cases flag
    · exact ⟨0, ⟨by decide, rfl⟩, rfl⟩
    · exact ⟨1, ⟨by decide, rfl⟩, rfl⟩

theorem restoreValues_reads (workspace : WorkspaceId) :
    ReadsEntries (restoreValues workspace true) (EntryValid workspace) encodeValue where
  done _ _ := rfl
  next count values bytes result := by
    simp only [restoreValues, readCurrentTopic, reader_bind_eq_ok, takeU64_eq_ok, readTopic_eq_ok,
      takeBlock_eq_ok, takeNat_eq_ok, take_eq_ok, readTombstone_eq_ok, lift_eq_ok, check_eq_ok,
      not_or, any_getLast_le, encodeValue, List.append_assoc, existsAndEq, true_and, and_true,
      exists_const, Prod.exists]
    constructor
    · rintro ⟨revision, topic, selector, replacementKey, expiresAt, tombstone, packet, rest, rfl, _,
        context, ciphertext, hunpack, ⟨hkeys, _⟩, h⟩
      exact ⟨valueKey revision topic selector replacementKey,
        ⟨context, selector, ⟨replacementKey, expiresAt, tombstone, packet⟩⟩, rest,
        ⟨ciphertext, hunpack, rfl, rfl⟩, hkeys, rfl, h⟩
    · rintro ⟨key, ⟨context, _, _, expiresAt, tombstone, packet⟩, rest,
        ⟨ciphertext, hunpack, hselector, hreplacement⟩, hkeys, rfl, h⟩
      dsimp only at hselector hreplacement
      subst hselector hreplacement
      have hlength : packet.length < 256 ^ 4 :=
        lt_of_le_of_lt (PublicationContext.unpack_eq_ok hunpack).2.2.2 (by decide)
      exact ⟨_, _, _, _, expiresAt, tombstone, packet, rest, rfl, hlength, context, ciphertext,
        hunpack, ⟨hkeys, not_not.mpr (find_eq_none_of_lt hkeys)⟩, h⟩

/-- An index restores to itself from what it saves. -/
theorem restore_snapshot {bytes : Bytes} (h : index.snapshot = .ok bytes) :
    restore index.workspace index.authority index.epoch bytes = .ok index := by
  simp only [snapshot, bind_eq_ok, failIf_eq_ok, pure_eq_ok] at h
  obtain ⟨_, hvalidate, _, hbound, rfl⟩ := h
  have hchecks := hvalidate
  simp only [validate, bind_eq_ok, failIf_eq_ok, not_or] at hchecks
  obtain ⟨_, ⟨hcutCount, hvalueCount, hnonzero, _⟩, hvalues⟩ := hchecks
  have hmagic : tombstoneIndexMagic.length = 5 := by decide
  have hbody : restoreBody index.workspace index.authority index.epoch
      (tombstoneIndexMagic ++ (index.workspace.1 ++ (index.authority.1 ++
        (beBytes 8 index.epoch.val ++ ([UInt8.ofNat index.cuts.size] ++
          (index.cuts.entries.flatMap encodeCut ++ ([UInt8.ofNat index.values.size] ++
            index.values.entries.flatMap encodeValue))))))) = .ok (index, []) := by
    simp only [restoreBody, reader_bind_eq_ok, take_eq_ok, check_eq_ok, takeBlock_eq_ok,
      takeU64_eq_ok, takeNat_eq_ok, restoreCuts_reads.exact _ _ _ _, atEnd_eq_ok, pure_apply_eq_ok,
      Prod.mk.injEq, not_not, existsAndEq, true_and, and_true, exists_const]
    have hread := (restoreValues_reads index.workspace).exact index.values.size
      (index.values.entries.flatMap encodeValue) index.values []
    rw [List.append_nil] at hread
    refine ⟨tombstoneIndexMagic, index.cuts, index.values.size, _,
      ⟨hmagic, by rw [beBytes_one, beBytes_one]⟩, fun h => h.2 rfl,
      lt_of_le_of_lt (not_lt.mp hcutCount) (by decide), hcutCount, ?_,
      lt_of_le_of_lt (not_lt.mp hvalueCount) (by decide), hvalueCount, index.values, ?_, by decide,
      rfl⟩
    · exact fun entry hentry hzero => hnonzero (hzero ▸ List.mem_map_of_mem hentry)
    · rw [decide_eq_true rfl]
      exact hread.mpr ⟨⟨rfl, entryValid_of_validateValues hvalues⟩, rfl⟩
  rw [restore, failIf_of_not hbound, ok_bind, hbody, ok_bind]
  dsimp only
  rw [hvalidate, ok_bind]
  rfl

end CurrentViewIndex

end Arachne.Delivery
