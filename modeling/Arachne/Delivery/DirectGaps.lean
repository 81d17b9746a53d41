import Arachne.Delivery.DirectDelivery

/-! Gaps of direct streams. The gap that is reported is the first sequence that a stream misses,
giving it up moves the stream on, and giving up one gap after the other ends, as long as no
stream has reached the last sequence there is. -/

namespace Arachne.Delivery

open ByteCodec Fallible Routing SortedWindow Transition Keyed
open ObjectInbox

namespace DirectStream

/-- Everything up to here is settled. -/
def base (stream : DirectStream) : U64 := max stream.floor stream.recoveryFloor

/-- A sequence that the stream knows of and has no record for. -/
def Missing (stream : DirectStream) (q : U64) : Prop :=
  stream.base < q ∧ q ≤ stream.effectiveHead ∧ ∀ record ∈ stream.records, record.sequence ≠ q

/-- The last sequence is still to come. -/
def Open (stream : DirectStream) : Prop := stream.effectiveHead ≠ Fin.last _

variable {stream next : DirectStream} {records : List DirectRecord} {expected missing q : U64}
  {found : Option DirectRecord}

theorem WellKept.base_le (h : stream.WellKept) : stream.base ≤ stream.effectiveHead := by
  rw [h.effectiveHead_eq]
  exact max_le h.floor_le h.recoveryFloor_le

/-- Where the walk stops there is no record. -/
theorem gap_notMem (hincreasing : records.Pairwise fun a b => a.sequence < b.sequence)
    (h : findGap expected records = .ok (missing, found)) :
    ∀ record ∈ records, record.sequence ≠ missing := by
  induction records generalizing expected with
  | nil => simp
  | cons first records ih =>
    have hrest := List.pairwise_cons.mp hincreasing
    have hle := (findGap_eq_ok h).1
    rw [findGap] at h
    split at h
    · rename_i hlt
      simp only [pure_eq_ok, Prod.mk.injEq] at h
      rw [← h.1, List.forall_mem_cons]
      refine ⟨hlt.ne', ?_⟩
      intro record hrecord
      exact (hlt.trans (hrest.1 record hrecord)).ne'
    · rename_i hfirst
      rw [List.forall_mem_cons]
      split at h
      · rename_i heq
        simp only [bind_eq_ok, orFail_eq_ok] at h
        obtain ⟨after, hafter, h⟩ := h
        have hnext := (findGap_eq_ok h).1
        refine ⟨?_, ih hrest.2 h⟩
        intro hsame
        have hsucc := checkedSucc_val hafter
        rw [Fin.le_def, hsucc, ← hsame, heq] at hnext
        omega
      · rename_i hne
        have hbelow : first.sequence < missing :=
          (lt_of_le_of_ne (not_lt.mp hfirst) hne).trans_le hle
        exact ⟨hbelow.ne, ih hrest.2 h⟩

section Open

variable (hkept : stream.WellKept) (hopen : stream.Open)
include hkept hopen

theorem base_lt_last : stream.base.val < 2 ^ 64 - 1 := by
  have hle := Fin.le_def.mp hkept.base_le
  have hne : stream.effectiveHead.val ≠ 2 ^ 64 - 1 := by
    intro heq
    exact hopen (Fin.ext heq)
  have hlt := stream.effectiveHead.isLt
  omega

theorem firstExpected_val : stream.firstExpected.val = stream.base.val + 1 := by
  have hlt := base_lt_last hkept hopen
  have hsum := saturatingAdd_val (max stream.floor stream.recoveryFloor) 1
  rw [firstExpected, hsum]
  simp only [base] at hlt ⊢
  omega

theorem exists_findGap : ∃ missing found,
    findGap stream.firstExpected stream.records = .ok (missing, found) ∧ stream.base < missing := by
  have hlast : ∀ record ∈ stream.records, record.sequence ≠ Fin.last _ := by
    intro record hrecord heq
    have hle := hkept.head record hrecord
    rw [← hkept.effectiveHead_eq, heq] at hle
    exact hopen (Fin.last_le_iff.mp hle)
  obtain ⟨missing, found, hgap, _⟩ := exists_gap_le (Fin.le_last stream.firstExpected) hlast
  refine ⟨missing, found, hgap, ?_⟩
  have hexpected := Fin.le_def.mp (findGap_eq_ok hgap).1
  rw [firstExpected_val hkept hopen] at hexpected
  rw [Fin.lt_def]
  omega

/-- The walk finds the first missing sequence, if there is one. -/
theorem missing_of_findGap
    (hgap : findGap stream.firstExpected stream.records = .ok (missing, found)) :
    (missing ≤ found.elim stream.effectiveHead (·.sequence) ↔ ∃ q, stream.Missing q) ∧
      (missing ≤ found.elim stream.effectiveHead (·.sequence) →
        IsLeast {q | stream.Missing q} missing) := by
  have hnone := gap_notMem hkept.increasing hgap
  have hbase : stream.base < missing := by
    have hexpected := Fin.le_def.mp (findGap_eq_ok hgap).1
    rw [firstExpected_val hkept hopen] at hexpected
    rw [Fin.lt_def]
    omega
  have hlower : ∀ q, stream.Missing q → missing ≤ q := by
    intro q hq
    by_contra hlt
    have hexpected : stream.firstExpected ≤ q := by
      rw [Fin.le_def, firstExpected_val hkept hopen]
      exact hq.1
    obtain ⟨record, hrecord, hsequence⟩ := mem_of_lt_gap hgap hexpected (not_le.mp hlt)
    exact hq.2.2 record hrecord hsequence
  have hhead : missing ≤ found.elim stream.effectiveHead (·.sequence) →
      missing ≤ stream.effectiveHead := by
    intro hle
    cases hfound : found with
    | none => rwa [hfound] at hle
    | some record =>
      obtain ⟨hrecord, hlt⟩ := (findGap_eq_ok hgap).2 record hfound
      rw [hkept.effectiveHead_eq]
      exact hlt.le.trans (hkept.head record hrecord)
  refine ⟨⟨?_, ?_⟩, ?_⟩
  · intro hle
    exact ⟨missing, hbase, hhead hle, hnone⟩
  · rintro ⟨q, hq⟩
    cases hfound : found with
    | none => exact (hlower q hq).trans hq.2.1
    | some record => exact ((findGap_eq_ok hgap).2 record hfound).2.le
  · intro hle
    exact ⟨⟨hbase, hhead hle, hnone⟩, hlower⟩

end Open

/-- What an inbox calls the topic of a stream is a topic. -/
def Topical (stream : DirectStream) : Prop := ∃ topic : Topic, stream.topic = topic.val

theorem push_topic (stream : DirectStream) (record : DirectRecord) :
    (stream.push record).topic = stream.topic :=
  congrArg (fun key => key.2.2.1) (push_key stream record)

theorem dropFirst_topic (stream : DirectStream) : stream.dropFirst.topic = stream.topic :=
  congrArg (fun key => key.2.2.1) (dropFirst_key stream)

end DirectStream

open DirectStream (Open Topical findGap_eq_ok missing_of_findGap)

/-- The query for a gap that was reported. -/
def DirectGap.query (gap : DirectGap) (owner : SecurityOwner) : DirectRangeQuery :=
  ⟨owner.id, gap.author, owner.epoch, gap.revision, gap.topic, gap.recipients, gap.after,
    gap.through⟩

section Streams

variable {stream next : DirectStream} {owner : SecurityOwner} {gap later : DirectGap}

theorem gapOf_cases (hkept : stream.WellKept) (hopen : stream.Open) (htopic : stream.Topical) :
    (∃ gap, gapOf stream = .ok (some gap) ∧ ∃ q, stream.Missing q) ∨
      (gapOf stream = .ok none ∧ ∀ q, ¬ stream.Missing q) := by
  obtain ⟨missing, found, hgap, _⟩ := DirectStream.exists_findGap hkept hopen
  obtain ⟨hiff, _⟩ := missing_of_findGap hkept hopen hgap
  obtain ⟨topic, htopic⟩ := htopic
  by_cases hle : missing ≤ found.elim stream.effectiveHead (·.sequence)
  · refine .inl ⟨_, gapOf_eq_some.mpr ⟨missing, found, topic, hgap, hle, ?_, rfl⟩, hiff.mp hle⟩
    rw [htopic, Topic.new_val]
  · refine .inr ⟨?_, fun q hq => hle (hiff.mpr ⟨q, hq⟩)⟩
    rw [gapOf, hgap, ok_bind]
    exact if_neg hle

theorem open_of_gapOf (h : gapOf stream = .ok none) : stream.Open := by
  rw [gapOf, bind_eq_ok] at h
  obtain ⟨⟨missing, found⟩, hgap, h⟩ := h
  dsimp only at h
  split at h
  · split at h
    · simp at h
    · cases h
  · rename_i hbeyond
    intro hlast
    apply hbeyond
    cases hfound : found with
    | none =>
      rw [Option.elim_none, hlast]
      exact Fin.le_last _
    | some record => exact ((findGap_eq_ok hgap).2 record hfound).2.le

/-- A reported gap starts right before the first missing sequence and is one request long. -/
structure Reports (stream : DirectStream) (gap : DirectGap) : Prop where
  scope : gap.scope = stream.key
  first : ∃ q, IsLeast {q | stream.Missing q} q ∧ q.val = gap.after.val + 1
  after_lt : gap.after < gap.through
  through_le : gap.through.val ≤ gap.after.val + maxRecoveryPackets

theorem reports_of_gapOf (hkept : stream.WellKept) (hopen : stream.Open)
    (h : gapOf stream = .ok (some gap)) : Reports stream gap := by
  obtain ⟨missing, found, topic, hgap, hle, htopic, rfl⟩ := gapOf_eq_some.mp h
  have hleast := (missing_of_findGap hkept hopen hgap).2 hle
  have hpos : stream.base.val < missing.val := hleast.1.1
  have hsum := saturatingAdd_val (predU64 missing) maxRecoveryPackets
  have hpackets : maxRecoveryPackets = 32 := rfl
  have hpred : (predU64 missing).val = missing.val - 1 := rfl
  have hlt := missing.isLt
  have hle' := Fin.le_def.mp hle
  refine ⟨?_, ⟨missing, hleast, ?_⟩, ?_, ?_⟩
  · rw [DirectGap.scope, DirectStream.key, Topic.val_of_new htopic]
  · rw [hpred]
    omega
  · show (predU64 missing).val < (min _ _ : U64).val
    rw [Fin.coe_min]
    omega
  · show (min _ _ : U64).val ≤ (predU64 missing).val + maxRecoveryPackets
    rw [Fin.coe_min]
    omega

theorem missing_le_base {query : DirectRangeQuery} {skipped : Nat}
    (h : skipGap stream query = .ok (next, skipped)) :
    ∃ missing found, DirectStream.findGap stream.firstExpected stream.records =
        .ok (missing, found) ∧ query.after = predU64 missing ∧ missing ≤ next.base := by
  obtain ⟨missing, found, hgap, hafter, hmissing, _, rfl⟩ := skipGap_eq_ok h
  refine ⟨missing, found, hgap, hafter, le_trans ?_ (le_max_right _ _)⟩
  show missing ≤ if _ then predU64 query.through else query.through
  split
  · rename_i hpresent
    obtain ⟨record, hfound, hsequence⟩ := Option.map_eq_some_iff.mp hpresent
    have hlt := Fin.lt_def.mp ((findGap_eq_ok hgap).2 record hfound).2
    rw [hsequence] at hlt
    rw [Fin.le_def]
    show missing.val ≤ query.through.val - 1
    omega
  · exact hmissing

theorem exists_skipGap (h : gapOf stream = .ok (some gap)) :
    ∃ next skipped, skipGap stream (gap.query owner) = .ok (next, skipped) := by
  obtain ⟨missing, found, topic, hgap, hle, htopic, rfl⟩ := gapOf_eq_some.mp h
  rw [skipGap, hgap, ok_bind]
  dsimp only
  rw [failIf_of_not (not_lt.mpr hle), ok_bind, failIf_of_not, ok_bind]
  · exact ⟨_, _, rfl⟩
  · rintro (hafter | hthrough)
    · exact hafter rfl
    · exact hthrough rfl

variable {query : DirectRangeQuery} {skipped : Nat} (hkept : stream.WellKept)
  (hskip : skipGap stream query = .ok (next, skipped))
include hkept hskip

theorem effectiveHead_skipGap : next.effectiveHead = stream.effectiveHead := by
  rw [(hkept.skipGap hskip).effectiveHead_eq, hkept.effectiveHead_eq]
  obtain ⟨_, _, _, _, _, _, rfl⟩ := skipGap_eq_ok hskip
  rfl

theorem skipGap_moves (hopen : stream.Open) : stream.base < next.base ∧
    ∀ later, gapOf next = .ok (some later) → query.after < later.after := by
  obtain ⟨missing, found, hgap, hafter, hbase⟩ := missing_le_base hskip
  have habove : stream.base < missing := by
    have hexpected := Fin.le_def.mp (findGap_eq_ok hgap).1
    rw [DirectStream.firstExpected_val hkept hopen] at hexpected
    rw [Fin.lt_def]
    omega
  refine ⟨habove.trans_le hbase, ?_⟩
  intro later hlater
  have hnext : next.Open := by
    rw [Open, effectiveHead_skipGap hkept hskip]
    exact hopen
  obtain ⟨q, hleast, hq⟩ := (reports_of_gapOf (hkept.skipGap hskip) hnext hlater).first
  have hlt := Fin.lt_def.mp (hbase.trans_lt hleast.1.1)
  have hpos := Fin.lt_def.mp habove
  rw [hafter, Fin.lt_def]
  show missing.val - 1 < later.after.val
  omega

end Streams

section Reporting

variable {member : Block 32} {streams : List DirectStream}

theorem firstGap_eq_none (h : firstGap member streams = .ok none) :
    ∀ stream ∈ streams, member ∈ stream.recipients → gapOf stream = .ok none := by
  induction streams with
  | nil => simp
  | cons stream streams ih =>
    rw [firstGap] at h
    rw [List.forall_mem_cons]
    split at h
    · rw [bind_eq_ok] at h
      obtain ⟨found, hfound, h⟩ := h
      cases found with
      | some gap => cases h
      | none => exact ⟨fun _ => hfound, ih h⟩
    · rename_i hother
      exact ⟨fun hlocal => absurd hlocal hother, ih h⟩

/-- The stream loop stops at the first stream that misses a sequence. -/
theorem firstGap_cases (hkept : ∀ stream ∈ streams, stream.WellKept ∧ stream.Topical)
    (hopen : ∀ stream ∈ streams, member ∈ stream.recipients → stream.Open) :
    (firstGap member streams = .ok none ∧
        ∀ stream ∈ streams, member ∈ stream.recipients → ∀ q, ¬ stream.Missing q) ∨
      ∃ gap before stream after, firstGap member streams = .ok (some gap) ∧
        streams = before ++ stream :: after ∧ member ∈ stream.recipients ∧
        gapOf stream = .ok (some gap) ∧ (∃ q, stream.Missing q) ∧
        ∀ earlier ∈ before, member ∈ earlier.recipients → ∀ q, ¬ earlier.Missing q := by
  induction streams with
  | nil => exact .inl ⟨rfl, by simp⟩
  | cons stream streams ih =>
    rw [List.forall_mem_cons] at hkept hopen
    have hhead : (firstGap member (stream :: streams) = firstGap member streams ∧
          (member ∈ stream.recipients → ∀ q, ¬ stream.Missing q)) ∨
        ∃ gap, member ∈ stream.recipients ∧ gapOf stream = .ok (some gap) ∧
          ∃ q, stream.Missing q := by
      rw [firstGap]
      split
      · rename_i hlocal
        rcases gapOf_cases hkept.1.1 (hopen.1 hlocal) hkept.1.2 with ⟨gap, hgap, hmissing⟩ |
          ⟨hgap, hnone⟩
        · exact .inr ⟨gap, hlocal, hgap, hmissing⟩
        · rw [hgap]
          exact .inl ⟨rfl, fun _ => hnone⟩
      · rename_i hother
        exact .inl ⟨rfl, fun hlocal => absurd hlocal hother⟩
    rcases hhead with ⟨hequal, hnone⟩ | ⟨gap, hlocal, hgap, hmissing⟩
    · rw [hequal]
      rcases ih hkept.2 hopen.2 with ⟨hfirst, hall⟩ | ⟨gap, before, found, after, hfirst, heq,
        hlocal, hgap, hmissing, hearlier⟩
      · exact .inl ⟨hfirst, List.forall_mem_cons.mpr ⟨hnone, hall⟩⟩
      · refine .inr ⟨gap, stream :: before, found, after, hfirst, ?_, hlocal, hgap, hmissing,
          List.forall_mem_cons.mpr ⟨hnone, hearlier⟩⟩
        rw [heq]
        rfl
    · refine .inr ⟨gap, [], stream, streams, ?_, rfl, hlocal, hgap, hmissing, by simp⟩
      rw [firstGap, if_pos hlocal, hgap]
      rfl

end Reporting

section Inbox

/-- What giving up the gap that is reported makes of the inbox. -/
def GivesUp (owner : SecurityOwner) (inbox next : ObjectInbox) : Prop :=
  ∃ gap stream stream' skipped, inbox.nextDirectGap owner = .ok (some gap) ∧
    lookup DirectStream.key gap.scope inbox.direct = some stream ∧
    skipGap stream (gap.query owner) = .ok (stream', skipped) ∧
    next = { inbox with direct := put DirectStream.key stream' inbox.direct }

/-- The gap that is reported is skipped. -/
def Skips (json : Json) (owner : SecurityOwner) (inbox next : ObjectInbox) : Prop :=
  ∃ gap skipped, inbox.nextDirectGap owner = .ok (some gap) ∧
    inbox.skipDirectGap json owner (gap.query owner) = .ok (next, skipped)

/-- What is reported and what is skipped agree with what is missing. -/
structure GapsAgree (json : Json) (owner : SecurityOwner) (member : Block 32)
    (inbox : ObjectInbox) : Prop where
  reported : ∃ reported, inbox.nextDirectGap owner = .ok reported
  some_iff : (∃ gap, inbox.nextDirectGap owner = .ok (some gap)) ↔
    ∃ stream ∈ inbox.direct, member ∈ stream.recipients ∧ ∃ q, stream.Missing q
  first : ∀ gap, inbox.nextDirectGap owner = .ok (some gap) → ∃ before stream after,
    inbox.direct = before ++ stream :: after ∧ member ∈ stream.recipients ∧ Reports stream gap ∧
      ∀ earlier ∈ before, member ∈ earlier.recipients → ∀ q, ¬ earlier.Missing q
  skips : ∀ gap, inbox.nextDirectGap owner = .ok (some gap) → ∃ next skipped,
    inbox.skipDirectGap json owner (gap.query owner) = .ok (next, skipped) ∧
      ∀ stream ∈ next.direct, stream.key = gap.scope →
        ∀ later, gapOf stream = .ok (some later) → gap.after < later.after

/-- Skipping the gaps that are reported goes well all the way, and it ends. -/
def GapsClose (json : Json) (owner : SecurityOwner) (member : Block 32) (inbox : ObjectInbox) :
    Prop :=
  (∀ next, Relation.ReflTransGen (Skips json owner) inbox next →
    GapsAgree json owner member next) ∧ Acc (fun next inbox => Skips json owner inbox next) inbox

/-- The direct streams as every run leaves them. -/
structure GapsKept (owner : SecurityOwner) (inbox : ObjectInbox) : Prop where
  owned : inbox.workspace = owner.id ∧ inbox.epoch = owner.epoch
  streams : DirectStreams DirectStream.WellKept inbox.direct
  topics : ∀ stream ∈ inbox.direct, stream.Topical

/-- The streams to a member are open. -/
def OpenTo (member : Block 32) (inbox : ObjectInbox) : Prop :=
  ∀ stream ∈ inbox.direct, member ∈ stream.recipients → stream.Open

variable {json : Json} {owner : SecurityOwner} {member : Block 32} {inbox next : ObjectInbox}
  {gap : DirectGap}

theorem nextDirectGap_eq (howned : inbox.workspace = owner.id ∧ inbox.epoch = owner.epoch)
    (hmember : owner.member = some member) :
    inbox.nextDirectGap owner = firstGap member inbox.direct := by
  have hvalid : inbox.validateOwner owner = .ok () := validateOwner_eq_ok.mpr howned
  rw [nextDirectGap, hvalid, ok_bind, hmember, orFail_some, ok_bind]

theorem queryKey_query (gap : DirectGap) (owner : SecurityOwner) :
    queryKey (gap.query owner) = gap.scope := rfl

section Step

variable (hkept : GapsKept owner inbox)
include hkept

theorem GapsKept.givesUp (h : GivesUp owner inbox next) : GapsKept owner next := by
  obtain ⟨gap, stream, stream', skipped, _, hlookup, hskip, rfl⟩ := h
  have hmem := (mem_of_lookup hlookup).1
  refine ⟨hkept.owned, hkept.streams.put ((hkept.streams.each stream hmem).skipGap hskip), ?_⟩
  intro known hknown
  rcases mem_put hknown with rfl | hold
  · obtain ⟨_, _, _, _, _, _, rfl⟩ := skipGap_eq_ok hskip
    exact hkept.topics stream hmem
  · exact hkept.topics known hold

theorem openTo_givesUp (h : GivesUp owner inbox next) :
    OpenTo member next ↔ OpenTo member inbox := by
  obtain ⟨gap, stream, stream', skipped, _, hlookup, hskip, rfl⟩ := h
  have hmem := (mem_of_lookup hlookup).1
  have hhead := effectiveHead_skipGap (hkept.streams.each stream hmem) hskip
  have hkey : stream'.key = stream.key := by
    obtain ⟨_, _, _, _, _, _, rfl⟩ := skipGap_eq_ok hskip
    rfl
  have hrecipients : stream'.recipients = stream.recipients :=
    congrArg (fun key => key.2.2.2) hkey
  have hopen : stream'.Open ↔ stream.Open := by
    rw [Open, Open, hhead]
  constructor
  · intro hall known hknown hlocal
    by_cases hsame : known.key = stream'.key
    · have heq : known = stream :=
        List.inj_on_of_nodup_map hkept.streams.keys hknown hmem (hsame.trans hkey)
      subst heq
      exact hopen.mp (hall stream' (new_mem_put _ _) (hrecipients ▸ hlocal))
    · exact hall known (mem_put_of_ne hknown hsame) hlocal
  · intro hall known hknown hlocal
    rcases mem_put hknown with rfl | hold
    · exact hopen.mpr (hall stream hmem (hrecipients ▸ hlocal))
    · exact hall known hold hlocal

theorem skips_iff : Skips json owner inbox next ↔
    GivesUp owner inbox next ∧ ∃ bytes, next.snapshot json = .ok bytes := by
  have hvalid : inbox.validateOwner owner = .ok () := validateOwner_eq_ok.mpr hkept.owned
  constructor
  · rintro ⟨gap, skipped, hgap, hskip⟩
    simp only [skipDirectGap, bind_eq_ok, orFail_eq_ok, checked_eq_ok, pure_eq_ok,
      Prod.mk.injEq] at hskip
    obtain ⟨_, _, stream, hlookup, ⟨stream', _⟩, hstream, _, ⟨rfl, hsaved⟩, rfl, rfl⟩ := hskip
    exact ⟨⟨gap, stream, stream', _, hgap, hlookup, hstream, rfl⟩, hsaved⟩
  · rintro ⟨⟨gap, stream, stream', skipped, hgap, hlookup, hstream, rfl⟩, hsaved⟩
    refine ⟨gap, skipped, hgap, ?_⟩
    have hchecked : checked json { inbox with
        direct := put DirectStream.key stream' inbox.direct } = .ok _ :=
      checked_eq_ok.mpr ⟨rfl, hsaved⟩
    rw [← queryKey_query gap owner, queryKey] at hlookup
    rw [skipDirectGap, hvalid, ok_bind]
    dsimp only
    rw [hlookup, orFail_some, ok_bind, hstream, ok_bind]
    dsimp only
    rw [hchecked]
    rfl

theorem exists_givesUp (hgap : inbox.nextDirectGap owner = .ok (some gap)) :
    ∃ stream ∈ inbox.direct, gapOf stream = .ok (some gap) ∧ Received owner stream.key ∧
      lookup DirectStream.key gap.scope inbox.direct = some stream ∧
      ∃ stream' skipped, skipGap stream (gap.query owner) = .ok (stream', skipped) := by
  obtain ⟨stream, hmem, hstream, hlocal⟩ := nextDirectGap_eq_some hgap
  have hscope : gap.scope = stream.key := by
    obtain ⟨_, _, topic, _, _, htopic, rfl⟩ := gapOf_eq_some.mp hstream
    rw [DirectGap.scope, DirectStream.key, Topic.val_of_new htopic]
  refine ⟨stream, hmem, hstream, hlocal, ?_, exists_skipGap hstream⟩
  rw [hscope]
  exact lookup_of_mem hkept.streams.keys hmem

omit hkept in
theorem givesUp_unique {other : ObjectInbox} (h : GivesUp owner inbox next)
    (hother : GivesUp owner inbox other) : other = next := by
  obtain ⟨gap, stream, stream', skipped, hgap, hlookup, hskip, rfl⟩ := h
  obtain ⟨gap₂, stream₂, stream₂', skipped₂, hgap₂, hlookup₂, hskip₂, rfl⟩ := hother
  cases ok_unique hgap hgap₂
  cases hlookup.symm.trans hlookup₂
  cases ok_unique hskip hskip₂
  rfl

variable (hmember : owner.member = some member)
include hmember

/-- Where the streams to the member are open and the next inbox can be saved, all agrees. -/
theorem gapsAgree (hopen : OpenTo member inbox)
    (hsaves : ∀ next, GivesUp owner inbox next → ∃ bytes, next.snapshot json = .ok bytes) :
    GapsAgree json owner member inbox := by
  have heq := nextDirectGap_eq hkept.owned hmember
  have hcases := firstGap_cases
    (fun stream hstream => ⟨hkept.streams.each stream hstream, hkept.topics stream hstream⟩) hopen
  rw [← heq] at hcases
  have hskips : ∀ gap, inbox.nextDirectGap owner = .ok (some gap) → ∃ next skipped,
      inbox.skipDirectGap json owner (gap.query owner) = .ok (next, skipped) ∧
        ∀ stream ∈ next.direct, stream.key = gap.scope →
          ∀ later, gapOf stream = .ok (some later) → gap.after < later.after := by
    intro gap hgap
    obtain ⟨stream, hmem, hstream, ⟨local_, hlocal, haddressed⟩, hlookup, stream', skipped,
      hskip⟩ :=
      exists_givesUp hkept hgap
    cases hmember.symm.trans hlocal
    have hgives : GivesUp owner inbox _ :=
      ⟨gap, stream, stream', skipped, hgap, hlookup, hskip, rfl⟩
    obtain ⟨gap', skipped', hgap', hskipped⟩ := (skips_iff hkept).mpr ⟨hgives, hsaves _ hgives⟩
    cases ok_unique hgap hgap'
    refine ⟨_, skipped', hskipped, ?_⟩
    intro known hknown hscope
    have hmoved := (skipGap_moves (hkept.streams.each stream hmem) hskip
      (hopen stream hmem haddressed)).2
    have hkey : stream'.key = gap.scope := by
      rw [← (mem_of_lookup hlookup).2]
      obtain ⟨_, _, _, _, _, _, rfl⟩ := skipGap_eq_ok hskip
      rfl
    have hsame : known = stream' :=
      List.inj_on_of_nodup_map (hkept.givesUp hgives).streams.keys hknown (new_mem_put _ _)
        (hscope.trans hkey.symm)
    rw [hsame]
    exact hmoved
  rcases hcases with ⟨hnone, hall⟩ | ⟨gap, before, stream, after, hfirst, hsplit, hlocal, hstream,
    hmissing, hearlier⟩
  · refine ⟨⟨none, hnone⟩, ⟨?_, ?_⟩, ?_, hskips⟩
    · rintro ⟨gap, hgap⟩
      cases ok_unique hnone hgap
    · rintro ⟨stream, hmem, hlocal, q, hq⟩
      exact absurd hq (hall stream hmem hlocal q)
    · intro gap hgap
      cases ok_unique hnone hgap
  · have hmem : stream ∈ inbox.direct := by
      rw [hsplit]
      simp
    refine ⟨⟨some gap, hfirst⟩, ⟨?_, ?_⟩, ?_, hskips⟩
    · intro _
      exact ⟨stream, hmem, hlocal, hmissing⟩
    · intro _
      exact ⟨gap, hfirst⟩
    · intro gap' hgap'
      cases ok_unique hfirst hgap'
      exact ⟨before, stream, after, hsplit, hlocal,
        reports_of_gapOf (hkept.streams.each stream hmem) (hopen stream hmem hlocal) hstream,
        hearlier⟩

theorem openTo_of_none (hgap : inbox.nextDirectGap owner = .ok none) : OpenTo member inbox := by
  rw [nextDirectGap_eq hkept.owned hmember] at hgap
  intro stream hmem hlocal
  exact open_of_gapOf (firstGap_eq_none hgap stream hmem hlocal)

end Step

/-- How far the streams still are from their heads. -/
def distance (inbox : ObjectInbox) : Nat :=
  (inbox.direct.map fun stream => stream.effectiveHead.val - stream.base.val).sum

theorem distance_givesUp (hkept : GapsKept owner inbox) (hmember : owner.member = some member)
    (hopen : OpenTo member inbox) (h : GivesUp owner inbox next) :
    distance next < distance inbox := by
  obtain ⟨gap, stream, stream', skipped, hgap, hlookup, hskip, rfl⟩ := h
  obtain ⟨known, hmem, _, ⟨local_, hlocal, haddressed⟩, hfound, _⟩ := exists_givesUp hkept hgap
  cases hmember.symm.trans hlocal
  cases hlookup.symm.trans hfound
  have hstream := hkept.streams.each stream hmem
  have hmoved := Fin.lt_def.mp (skipGap_moves hstream hskip (hopen stream hmem haddressed)).1
  have hhead := effectiveHead_skipGap hstream hskip
  have hbound := Fin.le_def.mp (hstream.skipGap hskip).base_le
  have hkey : stream'.key = stream.key := by
    obtain ⟨_, _, _, _, _, _, rfl⟩ := skipGap_eq_ok hskip
    rfl
  have hold : lookup DirectStream.key stream'.key inbox.direct = some stream := by
    rw [hkey]
    exact lookup_of_mem hkept.streams.keys hmem
  apply sum_put_lt hold
  rw [hhead] at hbound ⊢
  omega

/-- Every inbox that giving up the reported gaps leads to can be saved. -/
def SavesOn (json : Json) (owner : SecurityOwner) (inbox : ObjectInbox) : Prop :=
  ∀ next, Relation.TransGen (GivesUp owner) inbox next → ∃ bytes, next.snapshot json = .ok bytes

theorem SavesOn.givesUp (h : SavesOn json owner inbox) (hnext : GivesUp owner inbox next) :
    SavesOn json owner next :=
  fun last hlast => h last (Relation.TransGen.head hnext hlast)

theorem gapsClose_of_openTo (hkept : GapsKept owner inbox) (hmember : owner.member = some member)
    (hopen : OpenTo member inbox) (hsaves : SavesOn json owner inbox) :
    GapsClose json owner member inbox := by
  -- The induction is on the distance of the streams from their heads.
  induction hdistance : distance inbox using Nat.strong_induction_on generalizing inbox with
  | _ n ih =>
    have hagree := gapsAgree hkept hmember hopen fun next hnext => hsaves next (.single hnext)
    have hrest : ∀ next, Skips json owner inbox next → GapsClose json owner member next := by
      intro next hskips
      obtain ⟨hgives, _⟩ := (skips_iff hkept).mp hskips
      exact ih (distance next) (hdistance ▸ distance_givesUp hkept hmember hopen hgives)
        (hkept.givesUp hgives) ((openTo_givesUp hkept hgives).mpr hopen) (hsaves.givesUp hgives)
        rfl
    constructor
    · intro last hlast
      rcases Relation.ReflTransGen.cases_head hlast with rfl | ⟨next, hnext, htail⟩
      · exact hagree
      · exact (hrest next hnext).1 last htail
    · exact Acc.intro _ fun next hnext => (hrest next hnext).2

section

variable (h : GapsClose json owner member inbox)

include h

theorem GapsClose.skips (hnext : Skips json owner inbox next) :
    GapsClose json owner member next :=
  ⟨fun last hlast => h.1 last (Relation.ReflTransGen.head hnext hlast), h.2.inv hnext⟩

theorem openTo_of_gapsClose (hkept : GapsKept owner inbox) (hmember : owner.member = some member) :
    OpenTo member inbox := by
  obtain ⟨hagree, hacc⟩ := h
  induction hacc with
  | intro inbox _ ih =>
    obtain ⟨reported, hreported⟩ := (hagree inbox .refl).reported
    cases reported with
    | none => exact openTo_of_none hkept hmember hreported
    | some gap =>
      obtain ⟨next, skipped, hskip, _⟩ := (hagree inbox .refl).skips gap hreported
      have hnext : Skips json owner inbox next := ⟨gap, skipped, hreported, hskip⟩
      obtain ⟨hgives, _⟩ := (skips_iff hkept).mp hnext
      refine (openTo_givesUp hkept hgives).mp (ih next hnext (hkept.givesUp hgives) ?_)
      intro last hlast
      exact hagree last (Relation.ReflTransGen.head hnext hlast)

theorem GapsClose.givesUp (hkept : GapsKept owner inbox) (hgives : GivesUp owner inbox next) :
    Skips json owner inbox next := by
  have hgap := hgives
  obtain ⟨gap, _, _, _, hgap, _⟩ := hgap
  obtain ⟨other, skipped, hskip, _⟩ := (h.1 inbox .refl).skips gap hgap
  have hother : Skips json owner inbox other := ⟨gap, skipped, hgap, hskip⟩
  rw [← givesUp_unique hgives ((skips_iff hkept).mp hother).1]
  exact hother

theorem savesOn_of_gapsClose (hkept : GapsKept owner inbox) : SavesOn json owner inbox := by
  intro last hlast
  induction hlast using Relation.TransGen.head_induction_on with
  | single hgives => exact ((skips_iff hkept).mp (h.givesUp hkept hgives)).2
  | head hgives _ ih => exact ih (h.skips (h.givesUp hkept hgives)) (hkept.givesUp hgives)

end

variable {trace : List (Taken ObjectInbox InboxCall)} {act : InboxAct}

theorem Acts.direct_topical (hact : Acts json owner inbox act next)
    (h : DirectStreams Topical inbox.direct) :
    DirectStreams Topical next.direct := by
  rcases hact.direct_cases with
    ⟨direct, _, _, _, hretained⟩ | ⟨head, stream, _, hstream, _, hnext⟩ |
    ⟨query, stream, stream', skipped, _, hlookup, hgap, hnext⟩ | ⟨_, hnext⟩
  · refine retainDirect_invariant h ?_ ?_ hretained
    · intro sequence stream _ hkey _
      refine ⟨direct.context.topic, ?_⟩
      rw [DirectStream.push_topic]
      exact congrArg (fun key => key.2.2.1) hkey
    · rintro stream ⟨topic, htopic⟩
      exact ⟨topic, (DirectStream.dropFirst_topic stream).trans htopic⟩
  · rw [hnext]
    refine h.put ⟨head.topic, ?_⟩
    exact congrArg (fun key => key.2.2.1) (directStream_eq_ok hstream).1
  · rw [hnext]
    have hold := h.each stream (mem_of_lookup hlookup).1
    obtain ⟨_, _, _, _, _, _, rfl⟩ := skipGap_eq_ok hgap
    exact h.put hold
  · rw [hnext]
    exact h

theorem gapsKept_of_run (hjson : json.Lawful)
    (hrun : Run (InboxStep json owner) (new owner.id owner.epoch) trace inbox) :
    GapsKept owner inbox := by
  have hacts := run_actsOf hjson (new_cacheKept owner owner.id owner.epoch) hrun
  have htopics : DirectStreams Topical inbox.direct :=
    (hacts.invariant (P := fun s => DirectStreams Topical s.direct)
      (fun _ _ _ h hact => hact.direct_topical h) (new_direct _ _)).1
  exact ⟨owned_of_run hjson hrun, direct_wellKept_of_run hjson hrun, htopics.each⟩

/-- In every inbox that a run leads to, the reported gaps are right, can be skipped, and come to
an end, exactly when no stream to the member has reached the last sequence and there is room to
save what skipping leads to. -/
theorem gaps_close_iff (hjson : json.Lawful)
    (hrun : Run (InboxStep json owner) (new owner.id owner.epoch) trace inbox)
    (hmember : owner.member = some member) :
    GapsClose json owner member inbox ↔ OpenTo member inbox ∧ SavesOn json owner inbox := by
  have hkept := gapsKept_of_run hjson hrun
  constructor
  · intro h
    exact ⟨openTo_of_gapsClose h hkept hmember, savesOn_of_gapsClose h hkept⟩
  · rintro ⟨hopen, hsaves⟩
    exact gapsClose_of_openTo hkept hmember hopen hsaves

end Inbox

section Sample

open Security.Sample (block)
open Sample

/-- One of the last 33 direct notes that there are sequences for. -/
def lateNote (n : Nat) : Staging :=
  direct (UInt8.ofNat (n + 1)) (Fin.ofNat _ (2 ^ 64 - 33 + n)) (Fin.ofNat _ n) [7]

/-- All of them are received. The first is acknowledged before the last, for which the window has
no room otherwise. -/
def lateCalls : List InboxCall :=
  (List.range window).map (fun n => .stage (lateNote n)) ++
    [.acknowledge (block 1) Sample.notes 1 (lateNote 0).context.id, .stage (lateNote window)]

def lateTrace : List (Taken ObjectInbox InboxCall) :=
  InboxCall.play measureless receiver emptyInbox lateCalls

def lateJson : Json :=
  Json.among measureless.directLength (lateTrace.map fun taken => taken.after.toSnapshot)

/-- The receiver has everything up to the last sequence, and asking for a gap fails. -/
theorem gaps_close_exhausted :
    lateJson.Lawful ∧
      Run (InboxStep lateJson receiver) emptyInbox lateTrace
        (outcome emptyInbox lateTrace) ∧
      receiver.member = some (block 2) ∧
      (outcome emptyInbox lateTrace).nextDirectGap receiver =
        .error "direct sequence exhausted" := by
  refine ⟨Json.among_lawful _ _, among_plain_run ⟨rfl, rfl, rfl⟩ lateCalls ?_ ?_, rfl, ?_⟩
  · intro call hcall
    rcases List.mem_append.mp hcall with hstage | hlast
    · obtain ⟨n, _, rfl⟩ := List.mem_map.mp hstage
      rfl
    · simp only [List.mem_cons, List.not_mem_nil, or_false] at hlast
      rcases hlast with rfl | rfl <;> rfl
  · rw [lateCalls, List.length_append, List.length_map, List.length_range]
    decide
  · decide +kernel

/-- The first and the third of three notes are received; the second is skipped. -/
def sparseCalls : List InboxCall := [.stage (direct 1 1 0 [7]), .stage (direct 3 3 2 [9])]

def sparseGap : DirectGap := ⟨block 1, 1, Sample.notes, [block 2], 1, 3⟩

def sparseJson : Json :=
  jsonFor receiver emptyInbox (sparseCalls ++ [.skipGap (sparseGap.query receiver)])

def sparseTrace : List (Taken ObjectInbox InboxCall) :=
  InboxCall.play sparseJson receiver emptyInbox sparseCalls

def sparse : ObjectInbox := outcome emptyInbox sparseTrace

def skipped : ObjectInbox :=
  ((sparse.skipDirectGap sparseJson receiver (sparseGap.query receiver)).toOption.map
    Prod.fst).getD sparse

/-- The second note is reported as missing, skipping it goes well, and nothing else is missing. -/
theorem gaps_close_sparse :
    sparse.nextDirectGap receiver = .ok (some sparseGap) ∧
      sparse.skipDirectGap sparseJson receiver (sparseGap.query receiver) = .ok (skipped, 1) ∧
      skipped.nextDirectGap receiver = .ok none ∧
      GapsClose sparseJson receiver (block 2) sparse := by
  have hjson : sparseJson.Lawful := Json.among_lawful _ _
  have hrun : Run (InboxStep sparseJson receiver) emptyInbox sparseTrace sparse := by
    apply InboxCall.play_run
    simp [sparseCalls]
  have hgap : sparse.nextDirectGap receiver = .ok (some sparseGap) := by decide +kernel
  have hskip : sparse.skipDirectGap sparseJson receiver (sparseGap.query receiver) =
      .ok (skipped, 1) := by
    decide +kernel
  have hnone : skipped.nextDirectGap receiver = .ok none := by decide +kernel
  have hheads : ∀ stream ∈ sparse.direct, stream.effectiveHead = 3 := by decide +kernel
  refine ⟨hgap, hskip, hnone, (gaps_close_iff hjson hrun rfl).mpr ⟨?_, ?_⟩⟩
  · intro stream hstream _
    rw [Open, hheads stream hstream]
    decide
  · intro next hnext
    obtain ⟨hgives, hsaved⟩ :=
      (skips_iff (gapsKept_of_run hjson hrun)).mp ⟨sparseGap, 1, hgap, hskip⟩
    obtain ⟨middle, hfirst, hrest⟩ := Relation.TransGen.head'_iff.mp hnext
    rw [givesUp_unique hgives hfirst] at hrest
    rcases Relation.ReflTransGen.cases_head hrest with hsame | ⟨_, hagain, _⟩
    · rw [← hsame]
      exact hsaved
    · obtain ⟨_, _, _, _, hsome, _⟩ := hagain
      cases ok_unique hnone hsome

end Sample

end Arachne.Delivery
