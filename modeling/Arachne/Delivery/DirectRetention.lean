import Arachne.Delivery.Inbox

/-! The retained direct streams: what retaining an object, an announced head and a skipped gap do
to them. -/

namespace Arachne.Delivery

open ByteCodec Fallible Routing SortedWindow Keyed DirectStream

variable {stream : DirectStream} {skipped : Nat} {through : U64}

namespace DirectStream

/-- A direct stream as the inbox keeps it, whatever arrives. -/
structure WellKept (stream : DirectStream) : Prop where
  increasing : stream.records.Pairwise fun a b => a.sequence < b.sequence
  ids : (stream.records.map (·.id)).Nodup
  bounded : stream.records.length ≤ window
  head : ∀ record ∈ stream.records, record.sequence ≤ stream.knownHead
  floor_le : stream.floor ≤ stream.knownHead
  recoveryFloor_le : stream.recoveryFloor ≤ stream.knownHead

/-- No retained record lies at or below the floor. -/
def AboveFloor (stream : DirectStream) : Prop :=
  ∀ record ∈ stream.records, stream.floor < record.sequence

/-- `next` is the stream later on: its floors and its head have not gone back. -/
structure Advances (stream next : DirectStream) : Prop where
  key : next.key = stream.key
  floor : stream.floor ≤ next.floor
  recoveryFloor : stream.recoveryFloor ≤ next.recoveryFloor
  head : stream.effectiveHead ≤ next.effectiveHead

theorem Advances.refl (stream : DirectStream) : stream.Advances stream :=
  ⟨rfl, le_rfl, le_rfl, le_rfl⟩

theorem Advances.trans {a b c : DirectStream} (hab : a.Advances b) (hbc : b.Advances c) :
    a.Advances c :=
  ⟨hbc.key.trans hab.key, hab.floor.trans hbc.floor, hab.recoveryFloor.trans hbc.recoveryFloor,
    hab.head.trans hbc.head⟩

variable {next : DirectStream} {record : DirectRecord}

theorem new_wellKept (key : Key) : (new key).WellKept :=
  ⟨List.Pairwise.nil, List.nodup_nil, Nat.zero_le _, by simp [new], le_rfl, le_rfl⟩

theorem WellKept.effectiveHead_eq (h : stream.WellKept) :
    stream.effectiveHead = stream.knownHead := by
  rw [effectiveHead, max_eq_left_iff]
  cases hlast : stream.records.getLast? with
  | none => exact max_le h.floor_le h.recoveryFloor_le
  | some record => exact h.head record (List.mem_of_getLast? hlast)

theorem push_eq (stream : DirectStream) (record : DirectRecord) :
    let records := sortBy DirectRecord.sequence (stream.records ++ [record])
    let knownHead := max stream.knownHead record.sequence
    (records.length ≤ window ∧ stream.push record = { stream with records, knownHead }) ∨
      ∃ first rest, records = first :: rest ∧ window < records.length ∧ stream.push record =
        { stream with floor := first.sequence, records := rest, knownHead } := by
  intro records knownHead
  by_cases hlength : records.length ≤ window
  · exact .inl ⟨hlength, if_pos hlength⟩
  · cases hrecords : records with
    | nil => simp [hrecords] at hlength
    | cons first rest =>
      refine .inr ⟨first, rest, rfl, ?_, ?_⟩
      · simpa [hrecords] using hlength
      · have hsorted : sortBy DirectRecord.sequence (stream.records ++ [record]) = first :: rest :=
          hrecords
        rw [push, if_neg hlength, hsorted]

theorem push_key (stream : DirectStream) (record : DirectRecord) :
    (stream.push record).key = stream.key := by
  rcases push_eq stream record with ⟨_, heq⟩ | ⟨_, _, _, _, heq⟩ <;> rw [heq] <;> rfl

theorem push_knownHead (stream : DirectStream) (record : DirectRecord) :
    (stream.push record).knownHead = max stream.knownHead record.sequence := by
  rcases push_eq stream record with ⟨_, heq⟩ | ⟨_, _, _, _, heq⟩ <;> rw [heq]

theorem push_recoveryFloor (stream : DirectStream) (record : DirectRecord) :
    (stream.push record).recoveryFloor = stream.recoveryFloor := by
  rcases push_eq stream record with ⟨_, heq⟩ | ⟨_, _, _, _, heq⟩ <;> rw [heq]

theorem mem_push {known : DirectRecord} (h : known ∈ (stream.push record).records) :
    known ∈ stream.records ∨ known = record := by
  have hsorted : known ∈ sortBy DirectRecord.sequence (stream.records ++ [record]) := by
    rcases push_eq stream record with ⟨_, heq⟩ | ⟨_, _, hsorted, _, heq⟩
    · rwa [heq] at h
    · rw [heq] at h
      exact hsorted ▸ List.mem_cons_of_mem _ h
  simpa [mem_sortBy] using hsorted

theorem WellKept.push (hkept : stream.WellKept)
    (hfresh : ∀ known ∈ stream.records, known.sequence ≠ record.sequence)
    (hids : ∀ known ∈ stream.records, known.id ≠ record.id) : (stream.push record).WellKept := by
  have hincreasing := sortBy_push_increasing hkept.increasing hfresh
  have hnodup : ((sortBy DirectRecord.sequence (stream.records ++ [record])).map (·.id)).Nodup := by
    rw [((sortBy_perm _ _).map _).nodup_iff, List.map_append, List.nodup_append]
    refine ⟨hkept.ids, List.nodup_singleton _, ?_⟩
    rintro a ha b hb rfl
    obtain ⟨known, hknown, rfl⟩ := List.mem_map.mp ha
    exact hids known hknown (List.mem_singleton.mp hb)
  have hhead : ∀ known ∈ sortBy DirectRecord.sequence (stream.records ++ [record]),
      known.sequence ≤ max stream.knownHead record.sequence := by
    intro known hknown
    rw [mem_sortBy, List.mem_append, List.mem_singleton] at hknown
    rcases hknown with hold | rfl
    · exact (hkept.head known hold).trans (le_max_left _ _)
    · exact le_max_right _ _
  have hrecovery := hkept.recoveryFloor_le.trans (le_max_left _ record.sequence)
  rcases push_eq stream record with ⟨hroom, heq⟩ | ⟨first, rest, hsorted, _, heq⟩
  · rw [heq]
    exact ⟨hincreasing, hnodup, hroom, hhead, hkept.floor_le.trans (le_max_left _ _), hrecovery⟩
  · have hlength := length_sortBy DirectRecord.sequence (stream.records ++ [record])
    rw [hsorted] at hincreasing hnodup hhead hlength
    rw [heq]
    refine ⟨(List.pairwise_cons.mp hincreasing).2, (List.nodup_cons.mp hnodup).2, ?_,
      fun known hknown => hhead known (List.mem_cons_of_mem _ hknown),
      hhead first List.mem_cons_self, hrecovery⟩
    simp only [List.length_cons, List.length_append, List.length_nil, Nat.add_right_cancel_iff]
      at hlength
    exact hlength.trans_le hkept.bounded

section InOrder

variable (hkept : stream.WellKept) (habove : stream.AboveFloor)
include habove

theorem floor_lt_sorted (hfloor : stream.floor < record.sequence) {known : DirectRecord}
    (hknown : known ∈ sortBy DirectRecord.sequence (stream.records ++ [record])) :
    stream.floor < known.sequence := by
  rw [mem_sortBy, List.mem_append, List.mem_singleton] at hknown
  rcases hknown with hold | rfl
  · exact habove known hold
  · exact hfloor

include hkept

theorem push_aboveFloor (hfloor : stream.floor < record.sequence)
    (hfresh : ∀ known ∈ stream.records, known.sequence ≠ record.sequence) :
    (stream.push record).AboveFloor := by
  rcases push_eq stream record with ⟨_, heq⟩ | ⟨first, rest, hsorted, _, heq⟩
  · rw [heq]
    exact fun known hknown => floor_lt_sorted habove hfloor hknown
  · have hincreasing := sortBy_push_increasing hkept.increasing hfresh
    rw [hsorted] at hincreasing
    rw [heq]
    exact (List.pairwise_cons.mp hincreasing).1

theorem push_advances (hfloor : stream.floor < record.sequence)
    (hfresh : ∀ known ∈ stream.records, known.sequence ≠ record.sequence)
    (hids : ∀ known ∈ stream.records, known.id ≠ record.id) :
    stream.Advances (stream.push record) := by
  refine ⟨push_key stream record, ?_, (push_recoveryFloor stream record).ge, ?_⟩
  · rcases push_eq stream record with ⟨_, heq⟩ | ⟨first, rest, hsorted, _, heq⟩
    · rw [heq]
    · rw [heq]
      exact le_of_lt (floor_lt_sorted habove hfloor (hsorted ▸ List.mem_cons_self))
  · rw [hkept.effectiveHead_eq, (hkept.push hfresh hids).effectiveHead_eq, push_knownHead]
    exact le_max_left _ _

end InOrder

theorem dropFirst_key (stream : DirectStream) : stream.dropFirst.key = stream.key := by
  rw [dropFirst]
  split <;> rfl

theorem WellKept.dropFirst (h : stream.WellKept) : stream.dropFirst.WellKept := by
  rw [DirectStream.dropFirst]
  split
  · exact h
  · rename_i first rest hrecords
    obtain ⟨hincreasing, hids, hbounded, hhead, hfloor, hrecovery⟩ := h
    rw [hrecords] at hincreasing hids hbounded hhead
    exact ⟨(List.pairwise_cons.mp hincreasing).2, (List.nodup_cons.mp hids).2,
      (Nat.le_succ _).trans hbounded,
      fun known hknown => hhead known (List.mem_cons_of_mem _ hknown),
      max_le hfloor (hhead first List.mem_cons_self), hrecovery⟩

theorem AboveFloor.dropFirst (habove : stream.AboveFloor) (hkept : stream.WellKept) :
    stream.dropFirst.AboveFloor := by
  rw [DirectStream.dropFirst]
  split
  · exact habove
  · rename_i first rest hrecords
    have hincreasing := hkept.increasing
    rw [hrecords] at hincreasing
    intro known hknown
    have hmem : known ∈ stream.records := hrecords ▸ List.mem_cons_of_mem _ hknown
    exact max_lt (habove known hmem) (List.rel_of_pairwise_cons hincreasing hknown)

theorem WellKept.advances_dropFirst (h : stream.WellKept) : stream.Advances stream.dropFirst := by
  have hhead : stream.dropFirst.knownHead = stream.knownHead := by
    rw [DirectStream.dropFirst]
    split <;> rfl
  refine ⟨dropFirst_key stream, ?_, ?_, ?_⟩
  · rw [DirectStream.dropFirst]
    split
    · exact le_rfl
    · exact le_max_left _ _
  · rw [DirectStream.dropFirst]
    split <;> rfl
  · rw [h.effectiveHead_eq, h.dropFirst.effectiveHead_eq, hhead]

theorem WellKept.announce (h : stream.WellKept) (hthrough : stream.effectiveHead ≤ through) :
    { stream with knownHead := through : DirectStream }.WellKept := by
  rw [h.effectiveHead_eq] at hthrough
  exact ⟨h.increasing, h.ids, h.bounded,
    fun record hrecord => (h.head record hrecord).trans hthrough, h.floor_le.trans hthrough,
    h.recoveryFloor_le.trans hthrough⟩

theorem WellKept.advances_announce (h : stream.WellKept)
    (hthrough : stream.effectiveHead ≤ through) :
    stream.Advances { stream with knownHead := through } := by
  refine ⟨rfl, le_rfl, le_rfl, ?_⟩
  rw [(h.announce hthrough).effectiveHead_eq]
  exact hthrough

theorem findGap_eq_ok {records : List DirectRecord} {expected missing : U64}
    {found : Option DirectRecord} (h : findGap expected records = .ok (missing, found)) :
    expected ≤ missing ∧
      ∀ record, found = some record → record ∈ records ∧ missing < record.sequence := by
  induction records generalizing expected with
  | nil =>
    simp only [findGap, pure_eq_ok, Prod.mk.injEq] at h
    obtain ⟨rfl, rfl⟩ := h
    exact ⟨le_rfl, by simp⟩
  | cons first records ih =>
    rw [findGap] at h
    split at h
    · rename_i hlt
      simp only [pure_eq_ok, Prod.mk.injEq] at h
      obtain ⟨rfl, rfl⟩ := h
      refine ⟨le_rfl, ?_⟩
      rintro record ⟨⟩
      exact ⟨List.mem_cons_self, hlt⟩
    · split at h
      · simp only [bind_eq_ok, orFail_eq_ok] at h
        obtain ⟨next, hnext, h⟩ := h
        obtain ⟨hle, hfound⟩ := ih h
        have hsucc : expected ≤ next := by
          rw [Fin.le_def, checkedSucc_val hnext]
          exact Nat.le_succ _
        exact ⟨hsucc.trans hle, fun record hrecord =>
          ⟨List.mem_cons_of_mem _ (hfound record hrecord).1, (hfound record hrecord).2⟩⟩
      · obtain ⟨hle, hfound⟩ := ih h
        exact ⟨hle, fun record hrecord =>
          ⟨List.mem_cons_of_mem _ (hfound record hrecord).1, (hfound record hrecord).2⟩⟩

theorem le_firstExpected (stream : DirectStream) :
    max stream.floor stream.recoveryFloor ≤ stream.firstExpected := by
  rw [firstExpected, saturatingAdd]
  split
  · rw [Fin.le_def]
    exact Nat.le_add_right _ _
  · exact Fin.le_last _

end DirectStream

theorem ObjectInbox.skipGap_eq_ok {next : DirectStream} {query : DirectRangeQuery}
    (h : skipGap stream query = .ok (next, skipped)) :
    ∃ missing found, findGap stream.firstExpected stream.records = .ok (missing, found) ∧
      query.after = predU64 missing ∧ missing ≤ query.through ∧
      query.through ≤ found.elim stream.effectiveHead (·.sequence) ∧
      next = { stream with
        recoveryFloor :=
          if found.map (·.sequence) = some query.through then predU64 query.through
          else query.through } := by
  simp only [skipGap, bind_eq_ok, failIf_eq_ok, pure_eq_ok, not_or, not_not, Prod.mk.injEq] at h
  obtain ⟨⟨missing, found⟩, hgap, _, hadvertised, _, ⟨hafter, hthrough⟩, hnext, _⟩ := h
  have hmissing : missing ≤ query.through := by
    rw [hthrough, le_min_iff]
    refine ⟨not_lt.mp hadvertised, ?_⟩
    rw [saturatingAdd]
    split
    · rw [Fin.le_def]
      simp only [predU64, maxRecoveryPackets]
      omega
    · exact Fin.le_last _
  refine ⟨missing, found, hgap, hafter, hmissing, ?_, ?_⟩
  · rw [hthrough]
    exact min_le_left _ _
  · rw [← hnext, ← hthrough]
    simp only [decide_eq_true_eq]

namespace DirectStream

variable {next : DirectStream} {query : DirectRangeQuery}

variable (hkept : stream.WellKept) (h : ObjectInbox.skipGap stream query = .ok (next, skipped))

include hkept h

theorem WellKept.recoveryFloor_skipGap :
    stream.recoveryFloor ≤ next.recoveryFloor ∧ next.recoveryFloor ≤ stream.knownHead := by
  obtain ⟨missing, found, hgap, _, hmissing, hthrough, rfl⟩ := ObjectInbox.skipGap_eq_ok h
  obtain ⟨hexpected, hfound⟩ := findGap_eq_ok hgap
  have hfloor : stream.recoveryFloor ≤ missing :=
    ((le_max_right _ _).trans stream.le_firstExpected).trans hexpected
  have hhead : query.through ≤ stream.knownHead := by
    cases found with
    | none => exact hkept.effectiveHead_eq ▸ hthrough
    | some record => exact hthrough.trans (hkept.head record (hfound record rfl).1)
  split
  · rename_i hpresent
    obtain ⟨record, rfl, hsequence⟩ := Option.map_eq_some_iff.mp hpresent
    have hlt : missing < query.through := hsequence ▸ (hfound record rfl).2
    constructor
    · rw [Fin.le_def] at hfloor ⊢
      rw [Fin.lt_def] at hlt
      simp only [predU64]
      omega
    · exact le_trans (Fin.le_def.mpr (Nat.sub_le _ _)) hhead
  · exact ⟨hfloor.trans hmissing, hhead⟩

theorem WellKept.skipGap : next.WellKept := by
  have hrecovery := (hkept.recoveryFloor_skipGap h).2
  obtain ⟨_, _, _, _, _, _, rfl⟩ := ObjectInbox.skipGap_eq_ok h
  exact { hkept with recoveryFloor_le := hrecovery }

theorem WellKept.advances_skipGap : stream.Advances next := by
  have hrecovery := (hkept.recoveryFloor_skipGap h).1
  have hhead := (hkept.skipGap h).effectiveHead_eq
  obtain ⟨_, _, _, _, _, _, rfl⟩ := ObjectInbox.skipGap_eq_ok h
  refine ⟨rfl, le_rfl, hrecovery, ?_⟩
  rw [hhead, hkept.effectiveHead_eq]

end DirectStream

/-- Streams under different keys, all of which satisfy `P`. -/
structure DirectStreams (P : DirectStream → Prop) (direct : List DirectStream) : Prop where
  keys : (direct.map DirectStream.key).Nodup
  each : ∀ stream ∈ direct, P stream

theorem DirectStreams.put {P : DirectStream → Prop} {direct : List DirectStream}
    {new : DirectStream} (h : DirectStreams P direct) (hnew : P new) :
    DirectStreams P (Keyed.put DirectStream.key new direct) := by
  refine ⟨nodup_put h.keys, fun stream hstream => ?_⟩
  rcases mem_put hstream with rfl | hold
  · exact hnew
  · exact h.each stream hold

/-- Every stream is still there later on. -/
def KeepUp (direct next : List DirectStream) : Prop :=
  ∀ stream ∈ direct, ∃ later ∈ next, stream.Advances later

theorem KeepUp.refl (direct : List DirectStream) : KeepUp direct direct :=
  fun stream hstream => ⟨stream, hstream, .refl stream⟩

theorem KeepUp.trans {a b c : List DirectStream} (hab : KeepUp a b) (hbc : KeepUp b c) :
    KeepUp a c := by
  intro stream hstream
  obtain ⟨between, hbetween, hfirst⟩ := hab stream hstream
  obtain ⟨later, hlater, hsecond⟩ := hbc between hbetween
  exact ⟨later, hlater, hfirst.trans hsecond⟩

theorem KeepUp.put {direct : List DirectStream} {new : DirectStream}
    (hnew : ∀ stream ∈ direct, stream.key = new.key → stream.Advances new) :
    KeepUp direct (Keyed.put DirectStream.key new direct) := by
  intro stream hstream
  by_cases hkey : stream.key = new.key
  · exact ⟨new, new_mem_put new direct, hnew stream hstream hkey⟩
  · exact ⟨stream, mem_put_of_ne hstream hkey, .refl stream⟩

section Retaining

variable {json : Json} {direct next : List DirectStream} {key : DirectStream.Key}

theorem directStream_eq_ok (h : directStream direct key = .ok stream) :
    stream.key = key ∧ (lookup DirectStream.key key direct = some stream ∨
      (stream = DirectStream.new key ∧ lookup DirectStream.key key direct = none ∧
        direct.length ≠ maxDirectStreams)) := by
  rw [directStream] at h
  split at h
  · rename_i found hlookup
    rw [pure_eq_ok] at h
    subst h
    exact ⟨(mem_of_lookup hlookup).2, .inl hlookup⟩
  · rename_i hlookup
    simp only [bind_eq_ok, failIf_eq_ok, pure_eq_ok] at h
    obtain ⟨_, hroom, rfl⟩ := h
    exact ⟨rfl, .inr ⟨rfl, hlookup, hroom⟩⟩

theorem DirectStreams.directStream {P : DirectStream → Prop} (h : DirectStreams P direct)
    (hnew : P (DirectStream.new key)) (hstream : directStream direct key = .ok stream) :
    P stream := by
  obtain ⟨_, hlookup | ⟨rfl, _⟩⟩ := directStream_eq_ok hstream
  · exact h.each stream (mem_of_lookup hlookup).1
  · exact hnew

theorem eq_of_directStream (hkeys : (direct.map DirectStream.key).Nodup)
    (hstream : Arachne.Delivery.directStream direct key = .ok stream) {other : DirectStream}
    (hother : other ∈ direct) (hkey : other.key = key) : other = stream := by
  have hlookup := lookup_of_mem hkeys hother
  rw [hkey] at hlookup
  obtain ⟨_, hfound | ⟨_, hnone, _⟩⟩ := directStream_eq_ok hstream
  · exact Option.some.inj (hlookup.symm.trans hfound)
  · exact nomatch hlookup.symm.trans hnone

theorem mem_of_heaviest (h : heaviest direct = some stream) :
    stream ∈ direct ∧ stream.records ≠ [] := by
  have hmem := List.argmax_mem h
  simpa using hmem

/-- The streams that lose their first record to the byte budget, as they were before it. -/
def evictions (json : Json) : Nat → List DirectStream → List DirectStream
  | 0, _ => []
  | fuel + 1, direct =>
      if (json.directLength direct).any (· ≤ maxDirectRetainedBytes) = true then []
      else
        match heaviest direct with
        | none => []
        | some stream =>
            stream :: evictions json fuel (Keyed.put DirectStream.key stream.dropFirst direct)

theorem trimDirect_invariant {P : List DirectStream → Prop} {C : DirectStream → Prop}
    (hdrop : ∀ direct stream, P direct → C stream → heaviest direct = some stream →
      P (Keyed.put DirectStream.key stream.dropFirst direct))
    {fuel : Nat} (h : trimDirect json fuel direct = .ok next)
    (hC : ∀ stream ∈ evictions json fuel direct, C stream) (hdirect : P direct) : P next := by
  induction fuel generalizing direct with
  | zero =>
    simp only [trimDirect, bind_eq_ok, orFail_eq_ok, failIf_eq_ok, pure_eq_ok] at h
    obtain ⟨_, _, _, _, rfl⟩ := h
    exact hdirect
  | succ fuel ih =>
    simp only [trimDirect, bind_eq_ok, orFail_eq_ok] at h
    obtain ⟨length, hlength, h⟩ := h
    split at h
    · rw [pure_eq_ok] at h
      exact h ▸ hdirect
    · rename_i hover
      simp only [bind_eq_ok, orFail_eq_ok] at h
      obtain ⟨stream, hheaviest, h⟩ := h
      have hany : ¬ (json.directLength direct).any (· ≤ maxDirectRetainedBytes) = true := by
        simpa [hlength] using hover
      rw [evictions, if_neg hany, hheaviest, List.forall_mem_cons] at hC
      exact ih h hC.2 (hdrop direct stream hdirect hC.1 hheaviest)

theorem knownRecord_eq_ok {record : DirectRecord} {known : Bool}
    (h : knownRecord stream record = .ok known) :
    (known = true ∧ record ∈ stream.records) ∨
      (known = false ∧ (∀ other ∈ stream.records, other.sequence ≠ record.sequence) ∧
        ∀ other ∈ stream.records, other.id ≠ record.id) := by
  rw [knownRecord] at h
  split at h
  · rename_i other hfind
    split at h
    · rename_i hsame
      rw [pure_eq_ok] at h
      have hsequence : other.sequence = record.sequence := by simpa using List.find?_some hfind
      have hother : other = record := by
        obtain ⟨hrevision, hid, hobject⟩ := hsame
        cases other
        cases record
        simp_all
      exact .inl ⟨h.symm, hother ▸ List.mem_of_find?_eq_some hfind⟩
    · cases h
  · rename_i hfind
    simp only [bind_eq_ok, failIf_eq_ok, pure_eq_ok, not_exists, not_and] at h
    obtain ⟨_, hids, rfl⟩ := h
    exact .inr ⟨rfl, by simpa [List.find?_eq_none] using hfind, hids⟩

variable {author : Block 32} {context : PublicationContext} {recipients : List (Block 32)}
  {object : Bytes}

/-- The record that retaining an object makes. -/
def directRecord (context : PublicationContext) (sequence : NonZeroU64) (object : Bytes) :
    DirectRecord :=
  ⟨context.revision, context.id, sequence.val, object⟩

/-- The streams between the new record and the byte budget. -/
def pushed (direct : List DirectStream) (stream : DirectStream) (record : DirectRecord) :
    List DirectStream :=
  Keyed.put DirectStream.key (stream.push record) direct

def recordCount (direct : List DirectStream) : Nat := (direct.map (·.records.length)).sum

theorem retainDirect_eq_ok
    (h : retainDirect json direct author context recipients object = .ok next) :
    ∃ sequence stream, context.sequence = some sequence ∧
      directStream direct (directKey author context recipients) = .ok stream ∧
      ((directRecord context sequence object ∈ stream.records ∧ next = direct) ∨
        ((∀ other ∈ stream.records, other.sequence ≠ sequence.val) ∧
          (∀ other ∈ stream.records, other.id ≠ context.id) ∧
          let direct := pushed direct stream (directRecord context sequence object)
          trimDirect json (recordCount direct) direct = .ok next)) := by
  simp only [retainDirect, bind_eq_ok, orFail_eq_ok] at h
  obtain ⟨sequence, hsequence, stream, hstream, known, hknown, h⟩ := h
  refine ⟨sequence, stream, hsequence, hstream, ?_⟩
  rcases knownRecord_eq_ok hknown with ⟨rfl, hmem⟩ | ⟨rfl, hfresh, hids⟩
  · rw [if_pos rfl, pure_eq_ok] at h
    exact .inl ⟨hmem, h.symm⟩
  · exact .inr ⟨hfresh, hids, h⟩

theorem retainDirect_invariant {P : DirectStream → Prop} (h : DirectStreams P direct)
    (hpush : ∀ sequence stream, context.sequence = some sequence →
      stream.key = directKey author context recipients →
      (P stream ∨ stream = DirectStream.new (directKey author context recipients)) →
      P (stream.push (directRecord context sequence object)))
    (hdrop : ∀ stream, P stream → P stream.dropFirst)
    (hretained : retainDirect json direct author context recipients object = .ok next) :
    DirectStreams P next := by
  obtain ⟨sequence, stream, hsequence, hstream, ⟨_, rfl⟩ | ⟨_, _, htrim⟩⟩ :=
    retainDirect_eq_ok hretained
  · exact h
  · obtain ⟨hkey, hfound⟩ := directStream_eq_ok hstream
    have hold : P stream ∨ stream = DirectStream.new (directKey author context recipients) := by
      rcases hfound with hlookup | ⟨hnew, _⟩
      · exact .inl (h.each stream (mem_of_lookup hlookup).1)
      · exact .inr hnew
    refine trimDirect_invariant (C := fun _ => True) ?_ htrim (fun _ _ => trivial)
      (h.put (hpush sequence stream hsequence hkey hold))
    intro between heavy hbetween _ hheaviest
    exact hbetween.put (hdrop heavy (hbetween.each heavy (mem_of_heaviest hheaviest).1))

theorem retainDirect_wellKept (hkept : DirectStreams WellKept direct)
    (h : retainDirect json direct author context recipients object = .ok next) :
    DirectStreams WellKept next := by
  obtain ⟨sequence, stream, _, hstream, ⟨_, rfl⟩ | ⟨hfresh, hids, htrim⟩⟩ := retainDirect_eq_ok h
  · exact hkept
  · have hold := hkept.directStream (new_wellKept _) hstream
    refine trimDirect_invariant (C := fun _ => True) ?_ htrim (fun _ _ => trivial)
      (hkept.put (hold.push hfresh hids))
    intro direct stream hdirect _ hheaviest
    exact hdirect.put (hdirect.each stream (mem_of_heaviest hheaviest).1).dropFirst

/-- A stream whose records all lie above its floor. -/
structure DirectStream.Ordered (stream : DirectStream) : Prop extends stream.WellKept where
  aboveFloor : stream.AboveFloor

/-- An object that comes later than what its stream has already dropped keeps every stream in
order, and none of them goes back. -/
theorem retainDirect_ordered (hordered : DirectStreams Ordered direct)
    (hlate : ∀ sequence stream, context.sequence = some sequence →
      lookup DirectStream.key (directKey author context recipients) direct = some stream →
        stream.floor < sequence.val)
    (h : retainDirect json direct author context recipients object = .ok next) :
    DirectStreams Ordered next ∧ KeepUp direct next := by
  obtain ⟨sequence, stream, hsequence, hstream, ⟨_, rfl⟩ | ⟨hfresh, hids, htrim⟩⟩ :=
    retainDirect_eq_ok h
  · exact ⟨hordered, .refl _⟩
  · have hold : stream.Ordered := hordered.directStream
      ⟨new_wellKept _, by simp [AboveFloor, DirectStream.new]⟩ hstream
    have hfloor : stream.floor < sequence.val := by
      obtain ⟨_, hlookup | ⟨rfl, _⟩⟩ := directStream_eq_ok hstream
      · exact hlate sequence stream hsequence hlookup
      · exact Fin.pos_of_ne_zero sequence.property
    have hkey : (stream.push (directRecord context sequence object)).key =
        directKey author context recipients := by
      rw [push_key]
      exact (directStream_eq_ok hstream).1
    have hadvances : stream.Advances (stream.push (directRecord context sequence object)) :=
      push_advances hold.toWellKept hold.aboveFloor hfloor hfresh hids
    have hpushed : KeepUp direct (pushed direct stream (directRecord context sequence object)) := by
      apply KeepUp.put
      intro other hother heq
      rw [eq_of_directStream hordered.keys hstream hother (heq.trans hkey)]
      exact hadvances
    refine trimDirect_invariant (C := fun _ => True)
      (P := fun next => DirectStreams Ordered next ∧ KeepUp direct next)
      ?_ htrim (fun _ _ => trivial) ⟨hordered.put ⟨hold.push hfresh hids, ?_⟩, hpushed⟩
    · rintro between heavy ⟨hbetween, hkeepUp⟩ _ hheaviest
      have hmem := (mem_of_heaviest hheaviest).1
      have hheavy := hbetween.each heavy hmem
      refine ⟨hbetween.put ⟨hheavy.dropFirst, hheavy.aboveFloor.dropFirst hheavy.toWellKept⟩,
        hkeepUp.trans (KeepUp.put ?_)⟩
      intro other hother heq
      rw [dropFirst_key] at heq
      rw [List.inj_on_of_nodup_map hbetween.keys hother hmem heq]
      exact hheavy.advances_dropFirst
    · exact DirectStream.push_aboveFloor hold.toWellKept hold.aboveFloor hfloor hfresh

end Retaining

end Arachne.Delivery
