import Arachne.Delivery.DirectRuns

/-! Ordered delivery of direct objects. An account of a direct stream says which sequences are
settled: accepted into the inbox, or given up as a gap. Every operation keeps the account as
long as no record is dropped from behind a gap. -/

namespace Arachne.Delivery

open ByteCodec Fallible Routing SortedWindow Transition Keyed InboxCall
open ObjectInbox

variable {missing q : U64} {json : Json} {inbox : ObjectInbox} {first : DirectRecord}
  {deferred : List DeferredDeliveryStream}

namespace DirectStream

variable {records : List DirectRecord} {expected : U64} {found : Option DirectRecord}

/-- What is not missing before the first gap is there. -/
theorem mem_of_lt_gap (h : findGap expected records = .ok (missing, found))
    (hexpected : expected ≤ q) (hmissing : q < missing) :
    ∃ record ∈ records, record.sequence = q := by
  induction records generalizing expected with
  | nil =>
    simp only [findGap, pure_eq_ok, Prod.mk.injEq] at h
    exact absurd (h.1 ▸ hexpected) (not_le_of_gt hmissing)
  | cons first records ih =>
    rw [findGap] at h
    split at h
    · simp only [pure_eq_ok, Prod.mk.injEq] at h
      exact absurd (h.1 ▸ hexpected) (not_le_of_gt hmissing)
    · split at h
      · rename_i hfirst
        simp only [bind_eq_ok, orFail_eq_ok] at h
        obtain ⟨next, hnext, h⟩ := h
        by_cases heq : q = expected
        · exact ⟨first, List.mem_cons_self, hfirst.trans heq.symm⟩
        · have hle : next ≤ q := by
            have hlt := lt_of_le_of_ne hexpected (Ne.symm heq)
            rw [Fin.le_def, checkedSucc_val hnext]
            exact hlt
          exact List.exists_mem_cons_of_exists (ih h hle)
      · exact List.exists_mem_cons_of_exists (ih h hexpected)

theorem exists_gap_le (hexpected : expected ≤ q)
    (hmissing : ∀ record ∈ records, record.sequence ≠ q) :
    ∃ missing found, findGap expected records = .ok (missing, found) ∧ missing ≤ q := by
  induction records generalizing expected with
  | nil => exact ⟨expected, none, rfl, hexpected⟩
  | cons first records ih =>
    rw [List.forall_mem_cons] at hmissing
    rw [findGap]
    split
    · exact ⟨expected, some first, rfl, hexpected⟩
    · split
      · rename_i hfirst
        have hlt : expected < q :=
          lt_of_le_of_ne hexpected fun heq => hmissing.1 (hfirst.trans heq)
        have hsucc : expected.val + 1 < 2 ^ 64 := lt_of_le_of_lt hlt q.isLt
        have hle : (⟨expected.val + 1, hsucc⟩ : U64) ≤ q := hlt
        obtain ⟨missing, found, hgap, hle⟩ := ih hle hmissing.2
        refine ⟨missing, found, ?_, hle⟩
        rw [checkedSucc, dif_pos hsucc]
        exact hgap
      · exact ih hexpected hmissing.2

/-- A record that nothing holds back has no gap before it. -/
theorem mem_of_not_blocks {record : DirectRecord}
    (hincreasing : records.Pairwise fun a b => a.sequence < b.sequence)
    (hrecord : record ∈ records) (hblocks : blocks record.sequence expected records = false)
    (hexpected : expected ≤ q) (hq : q ≤ record.sequence) :
    ∃ known ∈ records, known.sequence = q := by
  induction records generalizing expected with
  | nil => simp at hrecord
  | cons first records ih =>
    obtain ⟨hfirst, hincreasing⟩ := List.pairwise_cons.mp hincreasing
    rw [blocks] at hblocks
    split at hblocks
    · have hbefore : record.sequence < first.sequence := by simpa using hblocks
      rcases List.mem_cons.mp hrecord with rfl | hrest
      · exact absurd hbefore (lt_irrefl _)
      · exact absurd (hfirst record hrest) (not_lt_of_gt hbefore)
    · rename_i hle
      split at hblocks
      · rename_i heq
        by_cases hsame : q = expected
        · exact ⟨first, List.mem_cons_self, heq.trans hsame.symm⟩
        · have hlt : expected < q := lt_of_le_of_ne hexpected (Ne.symm hsame)
          have hrest : record ∈ records := by
            rcases List.mem_cons.mp hrecord with rfl | hrest
            · exact absurd (hlt.trans_le hq) (heq ▸ lt_irrefl _)
            · exact hrest
          have hsucc : expected.val + 1 < 2 ^ 64 := lt_of_le_of_lt hlt q.isLt
          rw [saturatingAdd, dif_pos hsucc] at hblocks
          exact List.exists_mem_cons_of_exists (ih hincreasing hrest hblocks hlt)
      · rename_i hne
        have hlt : first.sequence < expected := lt_of_le_of_ne (not_lt.mp hle) hne
        have hrest : record ∈ records := by
          rcases List.mem_cons.mp hrecord with rfl | hrest
          · exact absurd (hexpected.trans hq) (not_le_of_gt hlt)
          · exact hrest
        exact List.exists_mem_cons_of_exists (ih hincreasing hrest hblocks hexpected)

theorem lt_firstExpected {stream : DirectStream} (h : q < stream.firstExpected) :
    q ≤ max stream.floor stream.recoveryFloor := by
  rw [firstExpected, saturatingAdd] at h
  split at h
  · exact Nat.lt_succ_iff.mp h
  · rename_i hlast
    rw [Fin.le_def]
    omega

theorem firstExpected_ne_zero (stream : DirectStream) : stream.firstExpected ≠ 0 := by
  rw [firstExpected, saturatingAdd]
  split
  · exact fun heq => Nat.succ_ne_zero _ (congrArg Fin.val heq)
  · decide

/-- A stream together with what is known of its sequences: all at or below its floors are
settled, its records are, and an accepted sequence whose record is gone has none before it that
is not. -/
structure Accounted (settled accepted : U64 → Prop) (stream : DirectStream) : Prop where
  floors : ∀ q, q ≠ 0 → q ≤ max stream.floor stream.recoveryFloor → settled q
  records : ∀ record ∈ stream.records, settled record.sequence
  kept : ∀ q, accepted q → (∃ record ∈ stream.records, record.sequence = q) ∨
    ∀ p, p ≠ 0 → p ≤ q → settled p

/-- A stream with no gap before its first record. -/
def Contiguous (stream : DirectStream) : Prop :=
  ∀ record ∈ stream.records.head?,
    record.sequence.val ≤ (max stream.floor stream.recoveryFloor).val + 1

section Account

variable {settled settled' accepted accepted' : U64 → Prop} {stream : DirectStream}
  {record : DirectRecord}

theorem new_accounted (key : Key) (haccepted : ∀ q, ¬accepted q) :
    (new key).Accounted settled accepted where
  floors q hzero hle := absurd (Fin.le_zero_iff.mp (by simpa [new] using hle)) hzero
  records := by simp [new]
  kept q h := absurd h (haccepted q)

section

variable (h : stream.Accounted settled accepted)

include h

theorem Accounted.mono (hsettled : ∀ q, settled q → settled' q)
    (haccepted : ∀ q, accepted' q → accepted q) :
    stream.Accounted settled' accepted' where
  floors q hzero hle := hsettled q (h.floors q hzero hle)
  records record hrecord := hsettled _ (h.records record hrecord)
  kept q hq := (h.kept q (haccepted q hq)).imp_right
    fun hall p hzero hle => hsettled p (hall p hzero hle)

theorem Accounted.upTo_first {rest : List DirectRecord} (hcontiguous : stream.Contiguous)
    (hrecords : stream.records = first :: rest) (hzero : q ≠ 0) (hq : q ≤ first.sequence) :
    settled q := by
  have hfirst := hcontiguous first (by simp [hrecords])
  by_cases hle : q ≤ max stream.floor stream.recoveryFloor
  · exact h.floors q hzero hle
  · have heq : q = first.sequence := by
      apply Fin.ext
      have hlt := not_le.mp hle
      rw [Fin.lt_def] at hlt
      rw [Fin.le_def] at hq
      omega
    rw [heq]
    exact h.records first (by simp [hrecords])

theorem Accounted.drop {rest : List DirectRecord} {floor : U64} (hcontiguous : stream.Contiguous)
    (hrecords : stream.records = first :: rest) (hfloor : floor ≤ max stream.floor first.sequence) :
    { stream with floor, records := rest : DirectStream }.Accounted settled accepted where
  floors q hzero hle := by
    by_cases hq : q ≤ first.sequence
    · exact h.upTo_first hcontiguous hrecords hzero hq
    · apply h.floors q hzero
      rcases le_max_iff.mp hle with hnew | hrecovery
      · exact ((le_max_iff.mp (hnew.trans hfloor)).resolve_right hq).trans (le_max_left _ _)
      · exact hrecovery.trans (le_max_right _ _)
  records record hrecord := h.records record (by simp [hrecords, hrecord])
  kept q hq := by
    rcases h.kept q hq with ⟨record, hrecord, hsequence⟩ | hall
    · rw [hrecords] at hrecord
      rcases List.mem_cons.mp hrecord with rfl | hrest
      · right
        intro p hzero hp
        exact h.upTo_first hcontiguous hrecords hzero (hsequence ▸ hp)
      · exact .inl ⟨record, hrest, hsequence⟩
    · exact .inr hall

theorem Accounted.dropFirst (hcontiguous : stream.Contiguous) :
    stream.dropFirst.Accounted settled accepted := by
  rw [DirectStream.dropFirst]
  split
  · exact h
  · rename_i first rest hrecords
    exact h.drop hcontiguous hrecords le_rfl

end

/-- A stream as a new record makes it before it loses one. -/
def crowded (stream : DirectStream) (record : DirectRecord) : DirectStream :=
  { stream with records := sortBy DirectRecord.sequence (stream.records ++ [record]) }

theorem Accounted.crowded (h : stream.Accounted settled accepted)
    (hrecord : settled record.sequence) :
    (stream.crowded record).Accounted settled
      (fun q => accepted q ∨ q = record.sequence) where
  floors := h.floors
  records known hknown := by
    rw [DirectStream.crowded, mem_sortBy, List.mem_append, List.mem_singleton] at hknown
    rcases hknown with hold | rfl
    · exact h.records known hold
    · exact hrecord
  kept q hq := by
    have hmem : ∀ known, known ∈ (stream.crowded record).records ↔
        known ∈ stream.records ∨ known = record := by
      intro known
      rw [DirectStream.crowded, mem_sortBy, List.mem_append, List.mem_singleton]
    rcases hq with hold | rfl
    · refine (h.kept q hold).imp_left ?_
      rintro ⟨known, hknown, hsequence⟩
      exact ⟨known, (hmem known).mpr (.inl hknown), hsequence⟩
    · exact .inl ⟨record, (hmem record).mpr (.inr rfl), rfl⟩

theorem Accounted.push (h : stream.Accounted settled accepted) (hrecord : settled record.sequence)
    (hcontiguous : window < (stream.crowded record).records.length →
      (stream.crowded record).Contiguous) :
    (stream.push record).Accounted settled (fun q => accepted q ∨ q = record.sequence) := by
  have hcrowded := h.crowded hrecord
  rcases push_eq stream record with ⟨_, heq⟩ | ⟨first, rest, hsorted, hlength, heq⟩
  · rw [heq]
    exact ⟨hcrowded.floors, hcrowded.records, hcrowded.kept⟩
  · have hdropped := hcrowded.drop (hcontiguous hlength) hsorted (le_max_right _ _)
    rw [heq]
    exact ⟨hdropped.floors, hdropped.records, hdropped.kept⟩

theorem Accounted.skipGap {next : DirectStream} {query : DirectRangeQuery} {skipped : Nat}
    (h : stream.Accounted settled accepted)
    (hskip : ObjectInbox.skipGap stream query = .ok (next, skipped))
    (hgiven : ∀ q, query.after < q → q ≤ query.through → settled q) :
    next.Accounted settled accepted := by
  obtain ⟨missing, found, hgap, hafter, _, _, rfl⟩ := ObjectInbox.skipGap_eq_ok hskip
  refine ⟨?_, h.records, h.kept⟩
  intro q hzero hle
  rcases le_max_iff.mp hle with hfloor | hrecovery
  · exact h.floors q hzero (hfloor.trans (le_max_left _ _))
  · by_cases hexpected : q < stream.firstExpected
    · exact h.floors q hzero (lt_firstExpected hexpected)
    · by_cases hmissing : q < missing
      · obtain ⟨record, hrecord, rfl⟩ := mem_of_lt_gap hgap (not_lt.mp hexpected) hmissing
        exact h.records record hrecord
      · apply hgiven q
        · rw [hafter, Fin.lt_def, predU64]
          have hle := Fin.le_def.mp (not_lt.mp hmissing)
          have hne : q.val ≠ 0 := fun heq => hzero (Fin.ext heq)
          dsimp only
          omega
        · refine hrecovery.trans ?_
          dsimp only
          split
          · rw [Fin.le_def, predU64]
            exact Nat.sub_le _ _
          · exact le_rfl

end Account

end DirectStream

open DirectStream

/-- The direct stream of a key; one that is not there is empty. -/
def directAt (direct : List DirectStream) (key : DirectStream.Key) : DirectStream :=
  (lookup DirectStream.key key direct).getD (DirectStream.new key)

/-- The streams that lose their first record while an object is retained, as they were right
before: to the window, and to the byte budget. -/
def losers (json : Json) (direct : List DirectStream) (author : Block 32)
    (context : PublicationContext) (recipients : List (Block 32)) (object : Bytes) :
    List DirectStream :=
  match context.sequence, directStream direct (directKey author context recipients) with
  | some sequence, .ok stream =>
      let record := directRecord context sequence object
      if record ∈ stream.records then []
      else
        (if window < (stream.crowded record).records.length then [stream.crowded record] else []) ++
          evictions json (recordCount (pushed direct stream record)) (pushed direct stream record)
  | _, _ => []

section Lists

variable {direct next : List DirectStream} {stream : DirectStream} {key : DirectStream.Key}

theorem directAt_put (new : DirectStream) :
    directAt (put DirectStream.key new direct) key =
      if key = new.key then new else directAt direct key := by
  rw [directAt, lookup_put]
  split
  · rfl
  · rw [directAt]

theorem directAt_of_mem (hkeys : (direct.map DirectStream.key).Nodup) (hstream : stream ∈ direct) :
    directAt direct stream.key = stream := by
  rw [directAt, lookup_of_mem hkeys hstream, Option.getD_some]

theorem directAt_of_directStream (h : directStream direct key = .ok stream) :
    directAt direct key = stream := by
  obtain ⟨_, hlookup | ⟨rfl, hnone, _⟩⟩ := directStream_eq_ok h
  · rw [directAt, hlookup, Option.getD_some]
  · rw [directAt, hnone, Option.getD_none]

theorem directAt_mem (h : directAt direct key ≠ DirectStream.new key) :
    directAt direct key ∈ direct := by
  rw [directAt] at h ⊢
  cases hlookup : lookup DirectStream.key key direct with
  | none => exact absurd (by rw [hlookup, Option.getD_none]) h
  | some stream => exact (mem_of_lookup hlookup).1

theorem directAt_key (direct : List DirectStream) (key : DirectStream.Key) :
    (directAt direct key).key = key := by
  rw [directAt]
  cases hlookup : lookup DirectStream.key key direct with
  | none => rfl
  | some stream => exact (mem_of_lookup hlookup).2

/-- What the loss of the first record leaves true of a stream stays true of the stream at a key
while the byte budget is met. -/
theorem trimDirect_directAt {P C : DirectStream → Prop} {fuel : Nat}
    (hdrop : ∀ stream, C stream → P stream → P stream.dropFirst)
    (hkept : DirectStreams WellKept direct) (htrim : trimDirect json fuel direct = .ok next)
    (hC : ∀ stream ∈ evictions json fuel direct, C stream) (h : P (directAt direct key)) :
    P (directAt next key) := by
  refine (trimDirect_invariant (C := C)
    (P := fun d => DirectStreams WellKept d ∧ P (directAt d key)) ?_ htrim hC ⟨hkept, h⟩).2
  rintro between heavy ⟨hbetween, hat⟩ hheavy hheaviest
  have hmem := (mem_of_heaviest hheaviest).1
  refine ⟨hbetween.put (hbetween.each heavy hmem).dropFirst, ?_⟩
  rw [directAt_put, dropFirst_key]
  split
  · rename_i hsame
    rw [hsame, directAt_of_mem hbetween.keys hmem] at hat
    exact hdrop heavy hheavy hat
  · exact hat

variable {author : Block 32} {context : PublicationContext} {recipients : List (Block 32)}
  {object : Bytes} {settled accepted : U64 → Prop} {sequence : U64}

/-- Retaining an object settles its sequence, and keeps the account of every stream while only
streams without a gap at their front lose a record. -/
theorem retainDirect_accounted (hkept : DirectStreams WellKept direct)
    (h : (directAt direct key).Accounted settled accepted)
    (hretained : retainDirect json direct author context recipients object = .ok next)
    (hsequence : context.sequence.map Subtype.val = some sequence)
    (hsettled : key = directKey author context recipients → settled sequence)
    (hlosers : ∀ stream ∈ losers json direct author context recipients object,
      stream.Contiguous) :
    (directAt next key).Accounted settled
      (fun q => accepted q ∨ (key = directKey author context recipients ∧ q = sequence)) := by
  obtain ⟨number, stream, hnumber, hstream, hcases⟩ := retainDirect_eq_ok hretained
  rw [hnumber, Option.map_some, Option.some.injEq] at hsequence
  have hat := directAt_of_directStream hstream
  rcases hcases with ⟨hknown, rfl⟩ | ⟨hfresh, hids, htrim⟩
  · refine ⟨h.floors, h.records, ?_⟩
    rintro q (hq | ⟨rfl, rfl⟩)
    · exact h.kept q hq
    · rw [hat]
      exact .inl ⟨_, hknown, hsequence⟩
  · have hnew : directRecord context number object ∉ stream.records :=
      fun hmem => hfresh _ hmem rfl
    rw [losers, hnumber, hstream] at hlosers
    dsimp only at hlosers
    rw [if_neg hnew] at hlosers
    have hkeptStream : stream.WellKept := hkept.directStream (new_wellKept _) hstream
    have hkey : (stream.push (directRecord context number object)).key =
        directKey author context recipients := by
      rw [push_key]
      exact (directStream_eq_ok hstream).1
    have hpushed : (directAt (pushed direct stream (directRecord context number object))
        key).Accounted settled
          (fun q => accepted q ∨ (key = directKey author context recipients ∧ q = sequence)) := by
      rw [pushed, directAt_put, hkey]
      split
      · rename_i hsame
        rw [hsame, hat] at h
        have hown : settled (directRecord context number object).sequence := by
          have hnow := hsettled hsame
          rwa [← hsequence] at hnow
        have hpush := h.push hown fun hlength => hlosers _ (by simp [hlength])
        refine hpush.mono (fun _ => id) ?_
        rintro q (hq | ⟨_, rfl⟩)
        · exact .inl hq
        · exact .inr hsequence.symm
      · rename_i hother
        refine h.mono (fun _ => id) ?_
        rintro q (hq | ⟨hsame, _⟩)
        · exact hq
        · exact absurd hsame hother
    have hwell : DirectStreams WellKept
        (pushed direct stream (directRecord context number object)) :=
      hkept.put (hkeptStream.push hfresh hids)
    exact trimDirect_directAt (C := Contiguous)
      (fun stream hcontiguous haccount => haccount.dropFirst hcontiguous) hwell htrim
      (fun stream hmem => hlosers stream (List.mem_append_right _ hmem)) hpushed

/-- Retaining an object raises the known head of its own stream to its sequence, and of no other
stream. -/
theorem retainDirect_knownHead (hkept : DirectStreams WellKept direct)
    (hretained : retainDirect json direct author context recipients object = .ok next)
    (hsequence : context.sequence.map Subtype.val = some sequence) :
    (directAt next key).knownHead =
      if directKey author context recipients = key then
        max (directAt direct key).knownHead sequence
      else (directAt direct key).knownHead := by
  obtain ⟨number, stream, hnumber, hstream, hcases⟩ := retainDirect_eq_ok hretained
  rw [hnumber, Option.map_some, Option.some_inj] at hsequence
  subst hsequence
  have hkey := (directStream_eq_ok hstream).1
  have hkeptStream : stream.WellKept := hkept.directStream (new_wellKept _) hstream
  rcases hcases with ⟨hknown, rfl⟩ | ⟨hfresh, hids, htrim⟩
  · split
    · rename_i hsame
      rw [← hsame, directAt_of_directStream hstream]
      exact (max_eq_left (hkeptStream.head _ hknown)).symm
    · rfl
  · have hwell : DirectStreams WellKept
        (pushed direct stream (directRecord context number object)) :=
      hkept.put (hkeptStream.push hfresh hids)
    refine trimDirect_directAt (C := fun _ => True) (P := fun stream => stream.knownHead = _)
      (fun stream _ hhead => ?_) hwell htrim (fun _ _ => trivial) ?_
    · rw [dropFirst]
      split <;> exact hhead
    · rw [pushed, directAt_put, push_key, hkey]
      by_cases hsame : directKey author context recipients = key
      · rw [if_pos hsame.symm, if_pos hsame, ← hsame, directAt_of_directStream hstream,
          push_knownHead]
        rfl
      · rw [if_neg (Ne.symm hsame), if_neg hsame]

end Lists

/-- Whether an act accepts the direct object at a sequence of a stream. -/
def InboxAct.accepts (owner : SecurityOwner) (key : DirectStream.Key) (q : U64) : InboxAct → Bool
  | .accept staging => (InboxAct.retained owner (.accept staging)).any fun direct =>
      direct.key = key ∧ direct.sequence = some q
  | _ => false

/-- Whether an act accepts the direct object at a sequence of a stream, or gives the sequence
up. -/
def InboxAct.settles (owner : SecurityOwner) (key : DirectStream.Key) (q : U64) : InboxAct → Bool
  | .skip query => queryKey query = key ∧ query.after < q ∧ q ≤ query.through
  | act => act.accepts owner key q

/-- The streams that lose their first record in an act. -/
def InboxAct.losers (json : Json) (owner : SecurityOwner) (inbox : ObjectInbox) (act : InboxAct) :
    List DirectStream :=
  (act.retained owner).elim [] fun direct =>
    Delivery.losers json inbox.direct direct.author direct.context direct.recipients direct.object

/-- The scope of a direct stream that the local member receives. -/
def Received (owner : SecurityOwner) (key : DirectStream.Key) : Prop :=
  ∃ member, owner.member = some member ∧ member ∈ key.2.2.2

/-- The account of a stream after some acts. -/
structure AccountKept (owner : SecurityOwner) (key : DirectStream.Key) (inbox : ObjectInbox)
    (past : List InboxAct) : Prop where
  wellKept : DirectStreams WellKept inbox.direct
  account : (directAt inbox.direct key).Accounted
    (fun q => ∃ act ∈ past, act.settles owner key q = true)
    (fun q => ∃ act ∈ past, act.accepts owner key q = true)

section Accounts

variable {owner : SecurityOwner} {next : ObjectInbox} {act : InboxAct} {key : DirectStream.Key}

theorem InboxAct.settles_of_accepts (h : act.accepts owner key q = true) :
    act.settles owner key q = true := by
  cases act with
  | skip query => cases h
  | _ => exact h

theorem Acts.accepts_of_retained (hact : Acts json owner inbox act next) {direct : DirectObject}
    {sequence : U64} (hretained : act.retained owner = some direct)
    (hsequence : direct.sequence = some sequence) (hreceived : Received owner direct.key) :
    act.accepts owner direct.key sequence = true := by
  cases hact with
  | accept => simp [InboxAct.accepts, hretained, hsequence]
  | sent hsent =>
    obtain ⟨author, _, _, _, hmember, hsender, _⟩ := stageSentDirect_eq_ok hsent
    obtain ⟨member, hlocal, hmem⟩ := hreceived
    rw [InboxAct.retained, hmember, Option.map_some, Option.some.injEq] at hretained
    cases hmember.symm.trans hlocal
    subst hretained
    exact absurd hmem hsender
  | _ => cases hretained

theorem InboxAct.accepts_eq (h : act.accepts owner key q = true) :
    ∃ direct, act.retained owner = some direct ∧ direct.key = key ∧ direct.sequence = some q := by
  cases act with
  | accept staging => simpa [InboxAct.accepts, Option.any_eq_true] using h
  | _ => cases h

theorem AccountKept.acts {past : List InboxAct} (h : AccountKept owner key inbox past)
    (hreceived : Received owner key) (hact : Acts json owner inbox act next)
    (hlosers : ∀ stream ∈ act.losers json owner inbox, stream.Contiguous) :
    AccountKept owner key next (past ++ [act]) := by
  refine ⟨hact.direct_wellKept h.wellKept, ?_⟩
  have hgrown : (directAt inbox.direct key).Accounted
      (fun q => ∃ act' ∈ past ++ [act], act'.settles owner key q = true)
      (fun q => ∃ act' ∈ past, act'.accepts owner key q = true) := by
    refine h.account.mono ?_ (fun _ => id)
    rintro q ⟨act', hmem, hsettles⟩
    exact ⟨act', List.mem_append_left _ hmem, hsettles⟩
  have hlast : ∀ {q}, (∃ act' ∈ past ++ [act], act'.accepts owner key q = true) →
      (∃ act' ∈ past, act'.accepts owner key q = true) ∨ act.accepts owner key q = true := by
    rintro q ⟨act', hmem, haccepts⟩
    rcases List.mem_append.mp hmem with hold | hnew
    · exact .inl ⟨act', hold, haccepts⟩
    · exact .inr (List.mem_singleton.mp hnew ▸ haccepts)
  have hsame : act.retained owner = none → ∀ q,
      (∃ act' ∈ past ++ [act], act'.accepts owner key q = true) →
      ∃ act' ∈ past, act'.accepts owner key q = true := by
    intro hnone q hq
    rcases hlast hq with hold | hnew
    · exact hold
    · obtain ⟨direct, hretained, _⟩ := InboxAct.accepts_eq hnew
      exact nomatch hnone.symm.trans hretained
  rcases hact.direct_cases with ⟨direct, sequence, hretained, hsequence, hresult⟩ |
    ⟨head, stream, rfl, hstream, hthrough, hnext⟩ |
    ⟨query, stream, stream', skipped, rfl, hlookup, hgap, hnext⟩ | ⟨hnone, hnext⟩
  · rw [InboxAct.losers, hretained, Option.elim_some] at hlosers
    have hsettled : key = direct.key →
        ∃ act' ∈ past ++ [act], act'.settles owner key sequence = true := by
      rintro rfl
      exact ⟨act, List.mem_append_right _ (List.mem_singleton_self act),
        InboxAct.settles_of_accepts (hact.accepts_of_retained hretained hsequence hreceived)⟩
    refine (retainDirect_accounted h.wellKept hgrown hresult hsequence hsettled hlosers).mono
      (fun _ => id) ?_
    intro q hq
    refine (hlast hq).imp_right fun hnew => ?_
    obtain ⟨direct', hretained', hkey, hsequence'⟩ := InboxAct.accepts_eq hnew
    cases hretained.symm.trans hretained'
    exact ⟨hkey.symm, Option.some.inj (hsequence'.symm.trans hsequence)⟩
  · have haccount := hgrown.mono (fun _ => id) (hsame rfl)
    rw [hnext, directAt_put]
    split
    · rename_i hkey
      have hat : directAt inbox.direct key = stream := by
        rw [hkey.trans (directStream_eq_ok hstream).1]
        exact directAt_of_directStream hstream
      rw [hat] at haccount
      exact ⟨haccount.floors, haccount.records, haccount.kept⟩
    · exact haccount
  · have haccount := hgrown.mono (fun _ => id) (hsame rfl)
    have hkept := h.wellKept.each stream (mem_of_lookup hlookup).1
    rw [hnext, directAt_put, (hkept.advances_skipGap hgap).key, (mem_of_lookup hlookup).2]
    split
    · rename_i hkey
      have hat : directAt inbox.direct key = stream := by
        rw [hkey, directAt, hlookup, Option.getD_some]
      rw [hat] at haccount
      refine haccount.skipGap hgap ?_
      intro q hafter hthrough
      refine ⟨.skip query, List.mem_append_right _ (List.mem_singleton_self _), ?_⟩
      simp [InboxAct.settles, hkey, hafter, hthrough]
    · exact haccount
  · rw [hnext]
    exact hgrown.mono (fun _ => id) (hsame hnone)

theorem Acts.knownHead_le (hact : Acts json owner inbox act next)
    (h : DirectStreams WellKept inbox.direct) (key : DirectStream.Key) :
    (directAt inbox.direct key).knownHead ≤ (directAt next.direct key).knownHead := by
  rcases hact.direct_cases with ⟨_, _, _, hsequence, hretained⟩ |
    ⟨head, stream, rfl, hstream, hthrough, hnext⟩ |
    ⟨query, stream, stream', skipped, rfl, hlookup, hgap, hnext⟩ | ⟨_, hnext⟩
  · rw [retainDirect_knownHead h hretained hsequence]
    split
    · exact le_max_left _ _
    · exact le_rfl
  · rw [hnext, directAt_put]
    split
    · rename_i hkey
      rw [hkey.trans (directStream_eq_ok hstream).1, directAt_of_directStream hstream]
      exact (le_max_left _ _).trans hthrough
    · exact le_rfl
  · have hkept := h.each stream (mem_of_lookup hlookup).1
    rw [hnext, directAt_put, (hkept.advances_skipGap hgap).key, (mem_of_lookup hlookup).2]
    split
    · rename_i hkey
      obtain ⟨_, _, _, _, _, _, rfl⟩ := skipGap_eq_ok hgap
      rw [hkey, directAt, hlookup, Option.getD_some]
    · exact le_rfl
  · rw [hnext]

/-- A direct object that `pending_excluding` hands out, and its receipt. -/
theorem pendingExcluding_eq_some {object : PendingObject}
    (h : inbox.pendingExcluding owner deferred = .ok (some object)) :
    ∃ stream ∈ inbox.streams, ∃ receipt ∈ stream.receipts,
      inbox.context stream receipt = .ok object.context ∧
      object.recipients = receipt.recipients ∧ object.message.member = stream.author ∧
      inbox.heldBack stream receipt object.context = false := by
  have hin : ∀ (stream : Stream) (receipts : List Receipt),
      inbox.pendingIn owner deferred stream receipts = .ok (some object) →
      ∃ receipt ∈ receipts, inbox.context stream receipt = .ok object.context ∧
        object.recipients = receipt.recipients ∧ object.message.member = stream.author ∧
        inbox.heldBack stream receipt object.context = false := by
    intro stream receipts hpending
    induction receipts with
    | nil => simp [pendingIn] at hpending
    | cons receipt receipts ih =>
      have hrest := fun h => List.exists_mem_cons_of_exists (a := receipt) (ih h)
      rw [pendingIn] at hpending
      split at hpending
      · exact hrest hpending
      · split at hpending
        · exact hrest hpending
        · simp only [bind_eq_ok] at hpending
          obtain ⟨context, hcontext, hpending⟩ := hpending
          split at hpending
          · exact hrest hpending
          · rename_i hfree
            simp only [map_eq_ok, Option.some.injEq, deliver, bind_eq_ok, failIf_eq_ok,
              pure_eq_ok, not_or, not_not] at hpending
            obtain ⟨_, ⟨_, _, authenticated, _, _, ⟨_, hauthor, _⟩, rfl⟩, rfl⟩ := hpending
            exact ⟨receipt, List.mem_cons_self, hcontext, rfl, hauthor, by simpa using hfree⟩
  have hamong : ∀ streams : List Stream,
      inbox.pendingAmong owner deferred streams = .ok (some object) →
      ∃ stream ∈ streams, inbox.pendingIn owner deferred stream stream.receipts =
        .ok (some object) := by
    intro streams hpending
    induction streams with
    | nil => simp [pendingAmong] at hpending
    | cons stream streams ih =>
      simp only [pendingAmong, bind_eq_ok] at hpending
      obtain ⟨found, hfound, hpending⟩ := hpending
      cases found with
      | some first =>
        cases hpending
        exact ⟨stream, List.mem_cons_self, hfound⟩
      | none => exact List.exists_mem_cons_of_exists (ih hpending)
  simp only [pendingExcluding, bind_eq_ok] at h
  obtain ⟨_, _, _, _, _, _, h⟩ := h
  obtain ⟨stream, hstream, hpending⟩ := hamong inbox.streams h
  obtain ⟨receipt, hreceipt, hfacts⟩ := hin stream stream.receipts hpending
  exact ⟨stream, hstream, receipt, hreceipt, hfacts⟩

end Accounts

/-- The scope of a delivered object. -/
def PendingObject.scope (object : PendingObject) : DirectStream.Key :=
  (object.message.member, object.context.revision, object.context.topic.val, object.recipients)

/-- The scope of a gap. -/
def DirectGap.scope (gap : DirectGap) : DirectStream.Key :=
  (gap.author, gap.revision, gap.topic.val, gap.recipients)

/-- A sequence that a run accepted or gave up. -/
def Settled (json : Json) (owner : SecurityOwner) (trace : List (Taken ObjectInbox InboxCall))
    (key : DirectStream.Key) (q : U64) : Prop :=
  ∃ taken ∈ actsOf json owner trace, taken.label.settles owner key q = true

/-- No stream loses a record that has a gap before it in this act. -/
def KeepsGaps (json : Json) (owner : SecurityOwner) (taken : Taken ObjectInbox InboxAct) : Prop :=
  ∀ stream ∈ taken.label.losers json owner taken.before, stream.Contiguous

section Delivery

variable {owner : SecurityOwner} {workspace : WorkspaceId} {epoch : U64}
  {trace : List (Taken ObjectInbox InboxCall)} {key : DirectStream.Key}

theorem new_accountKept (owner : SecurityOwner) (key : DirectStream.Key) (workspace : WorkspaceId)
    (epoch : U64) : AccountKept owner key (new workspace epoch) [] := by
  refine ⟨new_direct workspace epoch, ?_⟩
  apply new_accounted
  simp

variable {stream : Stream} {receipt : Receipt} {sequence : NonZeroU64} {staging : Staging}
  {object : PendingObject} {gap : DirectGap}

theorem not_blocks_of_not_heldBack {context : PublicationContext} {direct : DirectStream}
    (hfree : inbox.heldBack stream receipt context = false) (hdirect : receipt.recipients ≠ [])
    (hsequence : context.sequence = some sequence) (hmem : direct ∈ inbox.direct)
    (hkey : direct.key = (stream.author, context.revision, context.topic.val, receipt.recipients)) :
    blocks sequence.val direct.firstExpected direct.records = false := by
  simp only [heldBack, hsequence, Option.any_some, decide_eq_false_iff_not, not_and,
    Bool.not_eq_true, List.any_eq_false, decide_eq_true_eq] at hfree
  exact hfree hdirect direct hmem hkey

theorem ObjectInbox.Staging.received {object : Security.AuthenticatedObject}
    (h : staging.authenticate owner = .ok object) (hrecipients : staging.recipients ≠ []) :
    ∃ member, owner.member = some member ∧ member ∈ staging.recipients := by
  simp only [Staging.authenticate, bind_eq_ok] at h
  obtain ⟨aad, haad, _⟩ := h
  cases hcurrent : staging.current with
  | some metadata => simp [hcurrent, receiptAad, if_neg hrecipients] at haad
  | none =>
    simp only [hcurrent, receiptAad, audienceAad, if_neg hrecipients, bind_eq_ok, orFail_eq_ok,
      failIf_eq_ok, not_not] at haad
    obtain ⟨_, _, member, hmember, _, hmem, _⟩ := haad
    exact ⟨member, hmember, hmem⟩

section Run

variable (hjson : json.Lawful)
  (hrun : Run (InboxStep json owner) (new workspace epoch) trace inbox)

include hjson hrun

theorem accountKept_of_run
    (hgaps : ∀ taken ∈ actsOf json owner trace, KeepsGaps json owner taken)
    (hreceived : Received owner key) :
    (directAt inbox.direct key).Accounted (Settled json owner trace key)
      (fun q => ∃ taken ∈ actsOf json owner trace, taken.label.accepts owner key q = true) := by
  have hacts := run_actsOf hjson (new_cacheKept owner workspace epoch) hrun
  have hkept : AccountKept owner key inbox
      ([] ++ (actsOf json owner trace).flatMap fun taken => [taken.label]) :=
    hacts.accumulate (C := KeepsGaps json owner)
      (fun _ _ _ _ h hact hlosers => h.acts hreceived hact hlosers)
      (new_accountKept owner key workspace epoch) hgaps
  refine hkept.account.mono ?_ ?_
  · rintro q ⟨act, hact, hsettles⟩
    obtain ⟨taken, htaken, hlabel⟩ := List.mem_flatMap.mp hact
    rw [List.mem_singleton.mp hlabel] at hsettles
    exact ⟨taken, htaken, hsettles⟩
  · rintro q ⟨taken, htaken, haccepts⟩
    exact ⟨taken.label, List.mem_flatMap.mpr ⟨taken, htaken, List.mem_singleton_self _⟩, haccepts⟩

theorem direct_wellKept_of_run : DirectStreams WellKept inbox.direct :=
  ((run_actsOf hjson (new_cacheKept owner workspace epoch) hrun).invariant
    (P := fun s => DirectStreams WellKept s.direct)
    (fun _ _ _ h hact => hact.direct_wellKept h) (new_direct workspace epoch)).1

/-- A delivered direct object was accepted in its scope. -/
theorem accepts_of_delivered
    (hstream : stream ∈ inbox.streams) (hreceipt : receipt ∈ stream.receipts)
    (hcontext : inbox.context stream receipt = .ok object.context)
    (hrecipients : object.recipients = receipt.recipients)
    (hauthor : object.message.member = stream.author) (hdirect : object.recipients ≠ [])
    (hsequence : object.context.sequence = some sequence) : Received owner object.scope ∧
      ∃ taken ∈ actsOf json owner trace,
        taken.label.accepts owner object.scope sequence.val = true := by
  have hrecorded := recorded_of_run hjson hrun
  rw [← hrecorded.streams.streamAt_of_mem hstream] at hreceipt
  obtain ⟨acceptance', hmem, hkey, hresolves⟩ := hrecorded.origin stream.key receipt hreceipt
  have hidentity := hresolves.identity
  obtain ⟨_, _, hworkspace, hauthenticated⟩ := hrecorded.owned acceptance' hmem
  have htopic : stream.topic = acceptance'.staging.context.topic.val :=
    (congrArg Prod.snd hkey).symm
  rw [context_of_identity hidentity htopic hworkspace] at hcontext
  have hsame : acceptance'.staging.context = object.context := Except.ok.inj hcontext
  have haudience : acceptance'.staging.recipients = object.recipients :=
    (congrArg Receipt.recipients hidentity).symm.trans hrecipients.symm
  have hmember : acceptance'.object.message.member = object.message.member :=
    (congrArg Prod.fst hkey).trans hauthor.symm
  obtain ⟨member, hlocal, hreceived⟩ := Staging.received hauthenticated (haudience ▸ hdirect)
  rw [haudience] at hreceived
  refine ⟨⟨member, hlocal, hreceived⟩, ?_⟩
  obtain ⟨taken, htaken, hlabel⟩ := List.mem_flatMap.mp hmem
  refine ⟨taken, htaken, ?_⟩
  rw [Option.mem_toList] at hlabel
  rw [acceptance_eq_some hlabel]
  simp [InboxAct.accepts, InboxAct.retained, hauthenticated, DirectObject.key,
    DirectObject.sequence, directKey, hsame, haudience, hmember, hsequence, hdirect,
    PendingObject.scope]

/-- Where a direct object is handed out, everything before it in its scope is settled. -/
theorem settled_of_delivered
    (hgaps : ∀ taken ∈ actsOf json owner trace, KeepsGaps json owner taken)
    (hpending : inbox.pendingExcluding owner deferred = .ok (some object))
    (hdirect : object.recipients ≠ []) (hsequence : object.context.sequence = some sequence)
    (hzero : q ≠ 0) (hq : q < sequence.val) : Settled json owner trace object.scope q := by
  obtain ⟨stream, hstream, receipt, hreceipt, hcontext, hrecipients, hauthor, hfree⟩ :=
    pendingExcluding_eq_some hpending
  obtain ⟨hreceived, haccepts⟩ := accepts_of_delivered hjson hrun hstream hreceipt hcontext
    hrecipients hauthor hdirect hsequence
  have haccount := accountKept_of_run hjson hrun hgaps hreceived
  rcases haccount.kept sequence.val haccepts with ⟨record, hrecord, hat⟩ | hall
  · have hkept := direct_wellKept_of_run hjson hrun
    by_cases hexpected : q < (directAt inbox.direct object.scope).firstExpected
    · exact haccount.floors q hzero (lt_firstExpected hexpected)
    · have hmem : directAt inbox.direct object.scope ∈ inbox.direct := by
        apply directAt_mem
        intro heq
        simp [heq, DirectStream.new] at hrecord
      have hblocks : blocks record.sequence
          (directAt inbox.direct object.scope).firstExpected
          (directAt inbox.direct object.scope).records = false := by
        rw [hat]
        exact not_blocks_of_not_heldBack hfree (hrecipients ▸ hdirect) hsequence hmem
          (by rw [directAt_key, PendingObject.scope, hauthor, hrecipients])
      obtain ⟨known, hknown, rfl⟩ := mem_of_not_blocks
        (hkept.each _ hmem).increasing hrecord hblocks (not_lt.mp hexpected) (hat ▸ hq.le)
      exact haccount.records known hknown
  · exact hall q hzero hq.le

end Run

theorem gapOf_eq_some {stream : DirectStream} :
    gapOf stream = .ok (some gap) ↔ ∃ missing found topic,
      findGap stream.firstExpected stream.records = .ok (missing, found) ∧
      missing ≤ found.elim stream.effectiveHead (·.sequence) ∧
      Topic.new stream.topic = .ok topic ∧
      gap = ⟨stream.author, stream.revision, topic, stream.recipients, predU64 missing,
        min (found.elim stream.effectiveHead (·.sequence))
          (saturatingAdd (predU64 missing) maxRecoveryPackets)⟩ := by
  rw [gapOf, bind_eq_ok]
  constructor
  · rintro ⟨⟨missing, found⟩, hgap, h⟩
    dsimp only at h
    split at h
    · rename_i hle
      split at h
      · rename_i topic htopic
        simp only [pure_eq_ok, Option.some.injEq] at h
        exact ⟨missing, found, topic, hgap, hle, htopic, h.symm⟩
      · cases h
    · simp at h
  · rintro ⟨missing, found, topic, hgap, hle, htopic, rfl⟩
    refine ⟨(missing, found), hgap, ?_⟩
    dsimp only
    rw [if_pos hle, htopic]
    rfl

theorem nextDirectGap_eq_some (h : inbox.nextDirectGap owner = .ok (some gap)) :
    ∃ stream ∈ inbox.direct, gapOf stream = .ok (some gap) ∧ Received owner stream.key := by
  simp only [nextDirectGap, bind_eq_ok, orFail_eq_ok] at h
  obtain ⟨_, _, member, hmember, h⟩ := h
  have hfirst : ∀ streams : List DirectStream, firstGap member streams = .ok (some gap) →
      ∃ stream ∈ streams, gapOf stream = .ok (some gap) ∧ member ∈ stream.recipients := by
    intro streams hgap
    induction streams with
    | nil => simp [firstGap] at hgap
    | cons stream streams ih =>
      have hrest := fun h => List.exists_mem_cons_of_exists (a := stream) (ih h)
      rw [firstGap] at hgap
      split at hgap
      · rename_i hlocal
        rw [bind_eq_ok] at hgap
        obtain ⟨found, hfound, hgap⟩ := hgap
        cases found with
        | some first =>
          cases hgap
          exact ⟨stream, List.mem_cons_self, hfound, hlocal⟩
        | none => exact hrest hgap
      · exact hrest hgap
  obtain ⟨stream, hstream, hgap, hlocal⟩ := hfirst inbox.direct h
  exact ⟨stream, hstream, hgap, member, hmember, hlocal⟩

theorem exists_gapOf {stream : DirectStream} {topic : Topic} (hkept : stream.WellKept)
    (htopic : Topic.new stream.topic = .ok topic) (habove : stream.firstExpected ≤ missing)
    (hmissing : ∀ record ∈ stream.records, record.sequence ≠ missing)
    (hhead : missing ≤ stream.knownHead) :
    ∃ gap, gapOf stream = .ok (some gap) ∧ gap.after ≤ predU64 missing := by
  obtain ⟨first, found, hgap, hle⟩ := exists_gap_le habove hmissing
  have hadvertised : first ≤ found.elim stream.effectiveHead (·.sequence) := by
    cases hfound : found with
    | none =>
      rw [Option.elim_none, hkept.effectiveHead_eq]
      exact hle.trans hhead
    | some record => exact ((findGap_eq_ok hgap).2 record hfound).2.le
  refine ⟨_, gapOf_eq_some.mpr ⟨first, found, topic, hgap, hadvertised, htopic, rfl⟩, ?_⟩
  rw [Fin.le_def, predU64, predU64]
  exact Nat.sub_le_sub_right hle 1

/-- A gap that was reported is settled, or the stream still has one at or before it. -/
theorem settled_or_gap {before after : List (Taken ObjectInbox InboxCall)} {middle : ObjectInbox}
    (hjson : json.Lawful)
    (hbefore : Run (InboxStep json owner) (new workspace epoch) before middle)
    (hafter : Run (InboxStep json owner) middle after inbox)
    (hgaps : ∀ taken ∈ actsOf json owner (before ++ after), KeepsGaps json owner taken)
    (hgap : middle.nextDirectGap owner = .ok (some gap)) :
    Settled json owner (before ++ after) gap.scope (saturatingAdd gap.after 1) ∨
      ∃ stream ∈ inbox.direct, stream.key = gap.scope ∧ ∃ later, gapOf stream = .ok (some later) ∧
        later.after ≤ gap.after := by
  obtain ⟨stream, hstream, hfound, hreceived⟩ := nextDirectGap_eq_some hgap
  obtain ⟨missing, found, topic, hfind, hadvertised, htopic, rfl⟩ := gapOf_eq_some.mp hfound
  have hscope : DirectGap.scope ⟨stream.author, stream.revision, topic,
      stream.recipients, predU64 missing, min (found.elim stream.effectiveHead (·.sequence))
        (saturatingAdd (predU64 missing) maxRecoveryPackets)⟩ = stream.key := by
    rw [DirectGap.scope, Topic.val_of_new htopic]
    rfl
  rw [hscope]
  dsimp only
  have hwell := direct_wellKept_of_run hjson hbefore
  have hmiddle := hwell.each stream hstream
  have hhead : missing ≤ stream.knownHead := by
    cases found with
    | none => rwa [Option.elim_none, hmiddle.effectiveHead_eq] at hadvertised
    | some record =>
      exact hadvertised.trans
        (hmiddle.head record ((findGap_eq_ok hfind).2 record rfl).1)
  have hnonzero : missing ≠ 0 := by
    rintro rfl
    exact stream.firstExpected_ne_zero
      (Fin.le_zero_iff.mp (findGap_eq_ok hfind).1)
  rw [saturatingAdd_predU64 hnonzero]
  have hacts := run_actsOf hjson (run_kept hjson hbefore).1 hafter
  have hlater : missing ≤ (directAt inbox.direct stream.key).knownHead := by
    refine hhead.trans (hacts.invariant (P := fun s => DirectStreams WellKept s.direct ∧
      stream.knownHead ≤ (directAt s.direct stream.key).knownHead) ?_ ⟨hwell, ?_⟩).1.2
    · intro s act s' h hact
      exact ⟨hact.direct_wellKept h.1, h.2.trans (hact.knownHead_le h.1 stream.key)⟩
    · rw [directAt_of_mem hwell.keys hstream]
  have hwhole := hbefore.append hafter
  have haccount := accountKept_of_run hjson hwhole hgaps hreceived
  by_cases hsettled : Settled json owner (before ++ after) stream.key missing
  · exact .inl hsettled
  · right
    have hmem : directAt inbox.direct stream.key ∈ inbox.direct := by
      apply directAt_mem
      intro heq
      rw [heq] at hlater
      exact hnonzero (Fin.le_zero_iff.mp hlater)
    have hkey := directAt_key inbox.direct stream.key
    refine ⟨directAt inbox.direct stream.key, hmem, hkey, ?_⟩
    have hsame : (directAt inbox.direct stream.key).topic = stream.topic :=
      congrArg (fun key : DirectStream.Key => key.2.2.1) hkey
    refine exists_gapOf ((direct_wellKept_of_run hjson hwhole).each _ hmem)
      (hsame ▸ htopic) ?_ ?_ hlater
    · by_contra hbelow
      exact hsettled (haccount.floors missing hnonzero
        (lt_firstExpected (not_le.mp hbelow)))
    · rintro record hrecord rfl
      exact hsettled (haccount.records record hrecord)

/-- Ordered delivery of direct objects, in a run in which no record is dropped that has a gap
before it: when an object is handed out, every sequence before it in its scope was accepted or
given up; and a gap that was reported goes away only when it is filled or given up. -/
theorem direct_delivery_ordered (hjson : json.Lawful)
    (hrun : Run (InboxStep json owner) (new workspace epoch) trace inbox)
    (hgaps : ∀ taken ∈ actsOf json owner trace, KeepsGaps json owner taken) :
    (∀ deferred object sequence, inbox.pendingExcluding owner deferred = .ok (some object) →
      object.recipients ≠ [] → object.context.sequence = some sequence →
      ∀ q : U64, 1 ≤ q → q < sequence.val → Settled json owner trace object.scope q) ∧
    ∀ before after middle gap, trace = before ++ after →
      Run (InboxStep json owner) (new workspace epoch) before middle →
      Run (InboxStep json owner) middle after inbox →
      middle.nextDirectGap owner = .ok (some gap) →
      Settled json owner trace gap.scope (saturatingAdd gap.after 1) ∨
        ∃ stream ∈ inbox.direct, stream.key = gap.scope ∧
          ∃ later, gapOf stream = .ok (some later) ∧ later.after ≤ gap.after := by
  constructor
  · intro deferred object sequence hpending hdirect hsequence q hone hq
    exact settled_of_delivered hjson hrun hgaps hpending hdirect hsequence
      (Fin.ne_zero_of_lt (Fin.lt_of_lt_of_le Fin.zero_lt_one hone)) hq
  · rintro before after middle gap rfl hbefore hafter hgap
    exact settled_or_gap hjson hbefore hafter hgaps hgap

theorem InboxAct.sequence_of_accepts (h : InboxAct.accepts owner key q (.accept staging) = true) :
    staging.context.sequence.map Subtype.val = some q := by
  obtain ⟨direct, hretained, _, hsequence⟩ := InboxAct.accepts_eq h
  rw [InboxAct.retained] at hretained
  split at hretained
  · split at hretained
    · cases hretained
      exact hsequence
    · cases hretained
  · cases hretained

theorem mem_actsOf_stages {json' : Json} {start : ObjectInbox} {stagings : List Staging}
    {taken : Taken ObjectInbox InboxAct}
    (h : taken ∈ actsOf json owner (InboxCall.play json' owner start (stagings.map .stage))) :
    ∃ staging ∈ stagings, taken.label = .accept staging := by
  obtain ⟨call, hcall, hact⟩ := List.mem_flatMap.mp h
  obtain ⟨staging, hstaging, hlabel⟩ := List.mem_map.mp (label_of_mem_attempt hcall)
  rw [← hlabel, InboxCall.acts] at hact
  split at hact
  · rw [List.mem_singleton.mp hact]
    exact ⟨staging, hstaging, rfl⟩
  · simp at hact

theorem exists_delivered (outcome : Outcome (Option PendingObject)) {p : PendingObject → Prop}
    [DecidablePred p]
    (h : outcome.toOption.any (fun found => found.any fun object => p object) = true) :
    ∃ object, outcome = .ok (some object) ∧ p object := by
  cases outcome with
  | error message => cases h
  | ok found =>
    have hfound : found.any (fun object => p object) = true := h
    obtain ⟨object, rfl, hobject⟩ := (Option.any_eq_true _ _).mp hfound
    exact ⟨object, rfl, of_decide_eq_true hobject⟩

open Sample

/-- The byte budget drops the record at the sequence 2, and with it the knowledge that 1 is
missing: 2 is handed out although 1 was neither accepted nor given up. -/
theorem direct_delivery_disordered :
    (floodJson 3).Lawful ∧
      Run (InboxStep (floodJson 3) receiver) emptyInbox (floodTrace 3)
        (flooded 3) ∧
      ∃ object sequence, (flooded 3).pendingExcluding receiver [] =
          .ok (some object) ∧ object.recipients ≠ [] ∧
        object.context.sequence = some sequence ∧ sequence.val = 2 ∧
        ¬Settled (floodJson 3) receiver (floodTrace 3) object.scope 1 := by
  refine ⟨floodJson_lawful 3, floodTrace_run 3, ?_⟩
  obtain ⟨object, hpending, hdirect, hsequence⟩ := exists_delivered
    ((flooded 3).pendingExcluding receiver [])
    (p := fun object => object.recipients ≠ [] ∧
      object.context.sequence.map Subtype.val = some 2) (by decide +kernel)
  obtain ⟨sequence, hcontext, htwo⟩ := Option.map_eq_some_iff.mp hsequence
  refine ⟨object, sequence, hpending, hdirect, hcontext, htwo, ?_⟩
  rintro ⟨taken, htaken, hsettles⟩
  obtain ⟨staging, hstaging, hlabel⟩ := mem_actsOf_stages htaken
  rw [hlabel] at hsettles
  have hone := InboxAct.sequence_of_accepts hsettles
  have hlater : ∀ staging ∈ flood.take 3,
      staging.context.sequence.map Subtype.val ≠ some 1 := by
    decide
  exact hlater staging hstaging hone

/-- The third object of a stream is handed out once the two before it were accepted. -/
theorem direct_delivery_ordered_pair :
    ∃ object, (outcome emptyInbox busyTrace).pendingExcluding receiver [] = .ok (some object) ∧
      Settled busyJson receiver busyTrace object.scope 1 ∧
      Settled busyJson receiver busyTrace object.scope 2 := by
  have hgaps : ∀ taken ∈ actsOf busyJson receiver busyTrace,
      KeepsGaps busyJson receiver taken := by
    have hnone : ∀ taken ∈ actsOf busyJson receiver busyTrace,
        taken.label.losers busyJson receiver taken.before = [] := by
      decide +kernel
    intro taken htaken stream hstream
    rw [hnone taken htaken] at hstream
    simp at hstream
  obtain ⟨object, hpending, hdirect, hsequence⟩ := exists_delivered
    ((outcome emptyInbox busyTrace).pendingExcluding receiver [])
    (p := fun object => object.recipients ≠ [] ∧
      object.context.sequence.map Subtype.val = some 3) (by decide +kernel)
  obtain ⟨sequence, hcontext, hthree⟩ := Option.map_eq_some_iff.mp hsequence
  have hsettled := (direct_delivery_ordered busyJson_lawful busyTrace_run hgaps).1 [] object
    sequence hpending hdirect hcontext
  rw [hthree] at hsettled
  exact ⟨object, hpending, hsettled 1 (by decide) (by decide), hsettled 2 (by decide) (by decide)⟩

end Delivery

end Arachne.Delivery
