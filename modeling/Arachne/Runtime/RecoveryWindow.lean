import Arachne.Delivery.InboxRestore
import Arachne.Delivery.RangeRoundTrip
import Arachne.Delivery.ReceiveWindow
import Arachne.Runtime.StageRecovery

/-! Recovery after live reception. Live objects move the receipt windows of their author and do
not move the recovery progress; whether the next range can still be staged is a matter of what
the windows have forgotten and of the room that is left in them. -/

namespace Arachne.Delivery

open ByteCodec Fallible Routing SortedWindow Transition Keyed InboxCall

variable {offered : List Acceptance} {stream : Stream} {offer : VerifiedRange}

namespace ObjectInbox

variable {json : Json} {owner : SecurityOwner} {inbox next : ObjectInbox} {past : List Acceptance}
  {a : Acceptance}

/-- The counters that a list of objects has on a stream. -/
def countersOn (key : Block 32 × Bytes) (offered : List Acceptance) : Finset U64 :=
  ((offered.filter (·.position.1 = key)).map (·.object.counter)).toFinset

/-- The streams that these objects would begin. -/
def newStreams (inbox : ObjectInbox) (offered : List Acceptance) : Finset (Block 32 × Bytes) :=
  (offered.map (·.position.1)).toFinset.filter fun key =>
    lookup Stream.key key inbox.streams = none

/-- Every stream has room for the objects it is offered, and there is room for the new streams. -/
structure Takes (inbox : ObjectInbox) (offered : List Acceptance) : Prop where
  window : ∀ key, (inbox.streamAt key).Admits (countersOn key offered)
  streams : inbox.streams.length + (inbox.newStreams offered).card ≤ maxStreams

/-- The objects of a range as their author published them, and what came from it before: each has
one counter and one id, and counters grow in the order of publication. -/
structure Authored (owner : SecurityOwner) (past offered : List Acceptance) : Prop where
  genuine : ∀ a ∈ offered, a.staging.authenticate owner = .ok a.object ∧
    a.staging.recipients = [] ∧ a.staging.context.workspace = owner.id
  ordered : offered.Pairwise fun a b => a.object.counter < b.object.counter
  same : ∀ a ∈ offered, ∀ b ∈ past ++ offered, b.position = a.position → b.staging = a.staging
  ids : ∀ a ∈ offered, ∀ b ∈ past ++ offered, b.position.1 = a.position.1 →
    b.staging.context.id = a.staging.context.id → b.position = a.position

section Counting

theorem countersOn_cons (key : Block 32 × Bytes) (a : Acceptance) (rest : List Acceptance) :
    countersOn key (a :: rest) =
      if a.position.1 = key then insert a.object.counter (countersOn key rest)
      else countersOn key rest := by
  rw [countersOn, List.filter_cons]
  split
  · rename_i hkey
    rw [if_pos (of_decide_eq_true hkey), List.map_cons, List.toFinset_cons]
    rfl
  · rename_i hkey
    rw [if_neg (fun h => hkey (decide_eq_true h))]
    rfl

theorem mem_countersOn {key : Block 32 × Bytes} {c : U64} :
    c ∈ countersOn key offered ↔ ∃ b ∈ offered, b.position.1 = key ∧ b.object.counter = c := by
  simp [countersOn, and_assoc]

theorem newStreams_cons (a : Acceptance) (rest : List Acceptance) :
    inbox.newStreams (a :: rest) =
      if lookup Stream.key a.position.1 inbox.streams = none then
        insert a.position.1 (inbox.newStreams rest)
      else inbox.newStreams rest := by
  rw [newStreams, List.map_cons, List.toFinset_cons, Finset.filter_insert]
  rfl

theorem takes_nil (h : StreamsKept inbox.streams) (hbound : inbox.streams.length ≤ maxStreams) :
    inbox.Takes [] := by
  refine ⟨fun key => ?_, ?_⟩
  · exact Stream.admits_empty (h.streamAt key)
  · simpa [newStreams] using hbound

end Counting

section Staging

variable (howned : inbox.workspace = owner.id ∧ inbox.epoch = owner.epoch)
  (hauthored : Authored owner past (a :: offered)) (hrecorded : Recorded owner inbox past)

section Lookup

include howned hauthored

theorem stageScoped_eq : inbox.stageScoped json owner a.staging =
    (lookup Stream.key a.position.1 inbox.streams).elim
      (failIf (inbox.streams.length = maxStreams) "inbox stream capacity exhausted" >>= fun _ =>
        inbox.accept json (Stream.new a.position.1) a.object.message.member a.staging
          a.object.counter (owner.sha256 a.staging.object))
      fun stream =>
        inbox.recalled stream a.staging a.object.counter (owner.sha256 a.staging.object) >>=
          fun answer => answer.elim (inbox.accept json stream a.object.message.member a.staging
            a.object.counter (owner.sha256 a.staging.object)) .ok := by
  obtain ⟨hauthentic, _, hworkspace⟩ := hauthored.genuine a List.mem_cons_self
  simp only [Staging.authenticate, bind_eq_ok] at hauthentic
  obtain ⟨aad, haad, hobject⟩ := hauthentic
  have hvalid : inbox.validateOwner owner = .ok () := validateOwner_eq_ok.mpr howned
  rw [stageScoped, hvalid, ok_bind, failIf_of_not (not_not.mpr (hworkspace.trans howned.1.symm)),
    ok_bind, haad, ok_bind, hobject, ok_bind, Acceptance.position, Staging.streamKey]
  dsimp only
  cases lookup Stream.key (a.object.message.member, a.staging.context.topic.val)
    inbox.streams with
  | none => rfl
  | some stream =>
    refine congrArg (Bind.bind _) (funext fun answer => ?_)
    cases answer <;> rfl

theorem stage_below (hbelow : a.object.counter ≤ (inbox.streamAt a.position.1).floor) :
    inbox.stageScoped json owner a.staging = .ok .outsideWindow := by
  cases hlookup : lookup Stream.key a.position.1 inbox.streams with
  | none =>
    obtain ⟨hauthentic, _⟩ := hauthored.genuine a List.mem_cons_self
    simp only [Staging.authenticate, bind_eq_ok] at hauthentic
    obtain ⟨aad, _, hobject⟩ := hauthentic
    rw [streamAt, hlookup, Option.getD_none] at hbelow
    exact absurd (Fin.le_zero_iff.mp hbelow) (owner.counter_ne_zero hobject)
  | some stream =>
    rw [streamAt_of_lookup hlookup] at hbelow
    rw [stageScoped_eq howned hauthored, hlookup, Option.elim_some, recalled_of_le hbelow]
    rfl

end Lookup

include hauthored hrecorded

theorem stage_known (hknown : a.object.counter ∈ (inbox.streamAt a.position.1).counters) :
    inbox.stageScoped json owner a.staging = .ok .duplicate := by
  obtain ⟨receipt, hreceipt, hcounter⟩ := Stream.mem_counters.mp hknown
  obtain ⟨b, hb, hkey, hresolves⟩ := hrecorded.origin _ receipt hreceipt
  have hat : b.position = a.position := by
    refine Prod.ext hkey ?_
    exact (congrArg Receipt.counter hresolves.identity).symm.trans hcounter
  have hsame := hauthored.same a List.mem_cons_self b (List.mem_append_left _ hb) hat
  have hagain := hrecorded.again json hb
  have habove := (hrecorded.streams.streamAt a.position.1).above receipt hreceipt
  rw [hcounter] at habove
  have hnot : ¬ a.position.2 ≤ (inbox.streamAt a.position.1).floor := not_le_of_gt habove
  rw [hat, hsame, if_neg hnot] at hagain
  exact hagain

section Fresh

variable (hfresh : ∀ known ∈ (inbox.streamAt a.position.1).receipts,
  known.counter ≠ a.object.counter)
include hfresh

theorem id_unused : ∀ known ∈ (inbox.streamAt a.position.1).receipts,
    known.id ≠ a.staging.context.id := by
  intro known hknown hid
  obtain ⟨b, hb, hkey, hresolves⟩ := hrecorded.origin _ known hknown
  have hidentity := hresolves.identity
  have hsame : b.staging.context.id = a.staging.context.id :=
    (congrArg Receipt.id hidentity).symm.trans hid
  have hat := hauthored.ids a List.mem_cons_self b (List.mem_append_left _ hb) hkey hsame
  apply hfresh known hknown
  exact (congrArg Receipt.counter hidentity).trans (congrArg Prod.snd hat)

variable (habove : (inbox.streamAt a.position.1).floor < a.object.counter)
include habove

theorem recalled_of_fresh
    (hlookup : lookup Stream.key a.position.1 inbox.streams = some stream)
    (digest : Block 32) : inbox.recalled stream a.staging a.object.counter digest =
      .ok (if stream.receipts.length = window ∧
          stream.receipts.head?.any (fun first => a.object.counter < first.counter) = true then
        some .outsideWindow
      else none) := by
  have hunused := id_unused hauthored hrecorded hfresh
  have hstream := streamAt_of_lookup hlookup
  rw [hstream] at hfresh habove hunused
  have hfind : stream.receipts.find? (·.counter = a.object.counter) = none := by
    simpa [List.find?_eq_none] using hfresh
  rw [recalled, if_neg (not_le_of_gt habove), hfind]
  dsimp only
  rw [failIf_of_not, ok_bind]
  · split <;> rfl
  · rintro ⟨known, hknown, hid⟩
    exact hunused known hknown hid

include howned

theorem stage_lower (hfull : (inbox.streamAt a.position.1).receipts.length = window)
    (hlower : ∀ known ∈ (inbox.streamAt a.position.1).receipts,
      a.object.counter < known.counter) :
    inbox.stageScoped json owner a.staging = .ok .outsideWindow := by
  cases hlookup : lookup Stream.key a.position.1 inbox.streams with
  | none =>
    rw [streamAt, hlookup, Option.getD_none] at hfull
    cases hfull
  | some stream =>
    have hstream := streamAt_of_lookup hlookup
    rw [stageScoped_eq howned hauthored, hlookup, Option.elim_some,
      recalled_of_fresh hauthored hrecorded hfresh habove hlookup, ok_bind]
    rw [hstream] at hfull hlower
    rw [if_pos]
    · rfl
    · refine ⟨hfull, ?_⟩
      cases hreceipts : stream.receipts with
      | nil =>
        rw [hreceipts] at hfull
        cases hfull
      | cons first rest =>
        rw [List.head?_cons, Option.any_some, decide_eq_true_eq]
        exact hlower first (hreceipts ▸ List.mem_cons_self)

/-- Otherwise it is accepted if its stream takes the receipt and the inbox fits. -/
theorem stage_new (json : Json) (hroom : (inbox.streamAt a.position.1).receipts.length = window →
      ∃ known ∈ (inbox.streamAt a.position.1).receipts, known.counter < a.object.counter) :
    inbox.stageScoped json owner a.staging =
      (failIf (lookup Stream.key a.position.1 inbox.streams = none ∧
          inbox.streams.length = maxStreams) "inbox stream capacity exhausted" >>= fun _ =>
        (inbox.streamAt a.position.1).push (a.receipt owner) >>= fun stream =>
        checked json { inbox with streams := put Stream.key stream inbox.streams } >>=
          fun next => .ok (.prepared next)) := by
  have hretained : inbox.retainStaged json a.object.message.member a.staging =
      .ok inbox.direct := by
    have hgroup := (hauthored.genuine a List.mem_cons_self).2.1
    rw [retainStaged, if_neg (by simp [hgroup])]
    rfl
  have haccept : ∀ stream, inbox.accept json stream a.object.message.member a.staging
      a.object.counter (owner.sha256 a.staging.object) =
        (stream.push (a.receipt owner) >>= fun stream =>
          checked json { inbox with streams := put Stream.key stream inbox.streams } >>=
            fun next => .ok (.prepared next)) := by
    intro stream
    rw [accept, hretained]
    rfl
  cases hlookup : lookup Stream.key a.position.1 inbox.streams with
  | none =>
    rw [stageScoped_eq howned hauthored, hlookup, Option.elim_none, haccept, streamAt, hlookup,
      Option.getD_none]
    simp only [true_and]
  | some stream =>
    have hstream := streamAt_of_lookup hlookup
    rw [stageScoped_eq howned hauthored, hlookup, Option.elim_some,
      recalled_of_fresh hauthored hrecorded hfresh habove hlookup, ok_bind, if_neg,
      Option.elim_none, haccept, failIf_of_not (by simp), ok_bind, hstream]
    rintro ⟨hfull, hhead⟩
    rw [hstream] at hroom
    obtain ⟨known, hknown, hlt⟩ := hroom hfull
    have hkept := hrecorded.streams.streamAt a.position.1
    rw [hstream] at hkept
    cases hreceipts : stream.receipts with
    | nil =>
      rw [hreceipts] at hknown
      cases hknown
    | cons first rest =>
      have hincreasing := hkept.increasing
      rw [hreceipts] at hknown hhead hincreasing
      rw [List.head?_cons, Option.any_some, decide_eq_true_eq] at hhead
      exact absurd (hhead.trans_le (head_le_of_increasing hincreasing hknown))
        (not_lt_of_gt hlt)

end Fresh

end Staging

theorem checked_cases (json : Json) (inbox : ObjectInbox) :
    (checked json inbox = .ok inbox ∧ ∃ bytes, inbox.snapshot json = .ok bytes) ∨
      ∃ message, checked json inbox = .error message ∧ inbox.snapshot json = .error message := by
  rw [checked]
  cases inbox.snapshot json with
  | ok bytes => exact .inl ⟨rfl, bytes, rfl⟩
  | error message => exact .inr ⟨message, rfl, rfl⟩

theorem exists_of_checked {message : String} {current : Option CurrentViewIndex}
    (h : checked json inbox = .error message) (hcurrent : inbox.current = current) :
    ∃ other : ObjectInbox, other.current = current ∧ other.snapshot json = .error message := by
  rcases checked_cases json inbox with ⟨hchecked, _⟩ | ⟨_, hchecked, hsnapshot⟩
  · exact nomatch hchecked.symm.trans h
  · cases hchecked.symm.trans h
    exact ⟨inbox, hcurrent, hsnapshot⟩

section Room

variable (hauthored : Authored owner past (a :: offered)) (hrecorded : Recorded owner inbox past)

include hauthored in
theorem Authored.rest : Authored owner past offered where
  genuine b hb := hauthored.genuine b (List.mem_cons_of_mem _ hb)
  ordered := (List.pairwise_cons.mp hauthored.ordered).2
  same b hb c hc := by
    refine hauthored.same b (List.mem_cons_of_mem _ hb) c ?_
    rcases List.mem_append.mp hc with hold | hnew
    · exact List.mem_append_left _ hold
    · exact List.mem_append_right _ (List.mem_cons_of_mem _ hnew)
  ids b hb c hc := by
    refine hauthored.ids b (List.mem_cons_of_mem _ hb) c ?_
    rcases List.mem_append.mp hc with hold | hnew
    · exact List.mem_append_left _ hold
    · exact List.mem_append_right _ (List.mem_cons_of_mem _ hnew)

include hauthored in
theorem Authored.accepted : Authored owner (past ++ [a]) offered := by
  have hrest := hauthored.rest
  refine ⟨hrest.genuine, hrest.ordered, ?_, ?_⟩
  · intro b hb c hc
    rw [List.append_assoc, List.singleton_append] at hc
    exact hauthored.same b (List.mem_cons_of_mem _ hb) c hc
  · intro b hb c hc
    rw [List.append_assoc, List.singleton_append] at hc
    exact hauthored.ids b (List.mem_cons_of_mem _ hb) c hc

include hauthored in
theorem Authored.later : ∀ c ∈ countersOn a.position.1 offered, a.object.counter < c := by
  intro c hc
  obtain ⟨b, hb, _, rfl⟩ := mem_countersOn.mp hc
  exact (List.pairwise_cons.mp hauthored.ordered).1 b hb

theorem countersOn_cons_self :
    countersOn a.position.1 (a :: offered) =
      insert a.object.counter (countersOn a.position.1 offered) := by
  rw [countersOn_cons, if_pos rfl]

theorem not_takes_of_stream (h : ¬ (inbox.streamAt a.position.1).Admits
    (insert a.object.counter (countersOn a.position.1 offered))) :
    ¬ inbox.Takes (a :: offered) := by
  intro htakes
  apply h
  rw [← countersOn_cons_self]
  exact htakes.window a.position.1

theorem not_takes_of_full (hlookup : lookup Stream.key a.position.1 inbox.streams = none)
    (hfull : inbox.streams.length = maxStreams) : ¬ inbox.Takes (a :: offered) := by
  intro htakes
  have hstreams := htakes.streams
  have hpos : 0 < (inbox.newStreams (a :: offered)).card := by
    apply Finset.card_pos.mpr
    rw [newStreams_cons, if_pos hlookup]
    exact ⟨_, Finset.mem_insert_self _ _⟩
  omega

theorem takes_known (hkept : StreamsKept inbox.streams)
    (hknown : a.object.counter ∈ (inbox.streamAt a.position.1).counters) :
    inbox.Takes (a :: offered) ↔ inbox.Takes offered := by
  have hlookup : lookup Stream.key a.position.1 inbox.streams ≠ none := by
    intro hnone
    obtain ⟨receipt, hreceipt, _⟩ := Stream.mem_counters.mp hknown
    rw [streamAt, hnone] at hreceipt
    cases hreceipt
  have hstreams : inbox.newStreams (a :: offered) = inbox.newStreams offered := by
    rw [newStreams_cons, if_neg hlookup]
  have hwindow : ∀ key, (inbox.streamAt key).Admits (countersOn key (a :: offered)) ↔
      (inbox.streamAt key).Admits (countersOn key offered) := by
    intro key
    rw [countersOn_cons]
    split
    · rename_i hkey
      subst hkey
      exact Stream.admits_insert_known (hkept.streamAt _) hknown
    · rfl
  constructor
  · rintro ⟨hadmits, hcount⟩
    exact ⟨fun key => (hwindow key).mp (hadmits key), hstreams ▸ hcount⟩
  · rintro ⟨hadmits, hcount⟩
    exact ⟨fun key => (hwindow key).mpr (hadmits key), hstreams ▸ hcount⟩

variable (haccepts : inbox.Accepts json owner a.staging a.object stream next)
include haccepts

theorem Accepts.lookup (key : Block 32 × Bytes) :
    lookup Stream.key key next.streams =
      if key = a.position.1 then some stream else lookup Stream.key key inbox.streams := by
  have hkey : stream.key = a.position.1 :=
    (Stream.push_key haccepts.pushed).trans (streamAt_key _ _)
  rw [haccepts.result, lookup_put, hkey]

theorem Accepts.count (offered : List Acceptance) :
    next.streams.length + (next.newStreams offered).card =
      inbox.streams.length + (inbox.newStreams (a :: offered)).card := by
  have hkey : stream.key = a.position.1 :=
    (Stream.push_key haccepts.pushed).trans (streamAt_key _ _)
  have hnext : next.newStreams offered = (inbox.newStreams offered).erase a.position.1 := by
    ext key
    rw [newStreams, Finset.mem_filter, haccepts.lookup, Finset.mem_erase, newStreams,
      Finset.mem_filter]
    split
    · rename_i heq
      simp [heq]
    · rename_i hne
      simp [hne]
  rw [hnext, newStreams_cons]
  cases hlookup : Keyed.lookup Stream.key a.position.1 inbox.streams with
  | none =>
    have hlength : next.streams.length = inbox.streams.length + 1 := by
      rw [haccepts.result, put_of_lookup_eq_none (by rw [hkey]; exact hlookup),
        List.length_append, List.length_singleton]
    rw [if_pos rfl, hlength]
    by_cases hmem : a.position.1 ∈ inbox.newStreams offered
    · have hpos := Finset.card_pos.mpr ⟨_, hmem⟩
      rw [Finset.card_erase_of_mem hmem, Finset.insert_eq_of_mem hmem]
      omega
    · rw [Finset.erase_eq_of_notMem hmem, Finset.card_insert_of_notMem hmem]
      omega
  | some known =>
    have hlength : next.streams.length = inbox.streams.length := by
      rw [haccepts.result]
      exact length_put_of_lookup (by rw [hkey]; exact hlookup)
    have hmem : a.position.1 ∉ inbox.newStreams offered := by
      rw [newStreams, Finset.mem_filter, hlookup]
      simp
    rw [if_neg (by simp), hlength, Finset.erase_eq_of_notMem hmem]

include hauthored hrecorded

theorem takes_accepted : inbox.Takes (a :: offered) ↔ next.Takes offered := by
  have hwindow : ∀ key, (inbox.streamAt key).Admits (countersOn key (a :: offered)) ↔
      (next.streamAt key).Admits (countersOn key offered) := by
    intro key
    have hstream : next.streamAt key =
        if key = a.position.1 then stream else inbox.streamAt key := haccepts.streamAt key
    rw [hstream, countersOn_cons]
    by_cases hkey : key = a.position.1
    · subst hkey
      rw [if_pos rfl, if_pos rfl]
      exact (Stream.admits_push rfl haccepts.fresh haccepts.above hauthored.later
        (hrecorded.streams.streamAt _) haccepts.pushed).symm
    · rw [if_neg (Ne.symm hkey), if_neg hkey]
  have hcount := haccepts.count offered
  constructor
  · rintro ⟨hadmits, hstreams⟩
    exact ⟨fun key => (hwindow key).mp (hadmits key), hcount ▸ hstreams⟩
  · rintro ⟨hadmits, hstreams⟩
    exact ⟨fun key => (hwindow key).mpr (hadmits key), hcount ▸ hstreams⟩

end Room

/-- What staging an object of the range comes to: it is outside the window, a duplicate of what
was accepted, accepted, or refused; and what that says of the room for the whole range. -/
theorem stage_cases (howned : inbox.workspace = owner.id ∧ inbox.epoch = owner.epoch)
    (hauthored : Authored owner past (a :: offered)) (hrecorded : Recorded owner inbox past) :
    (inbox.stageScoped json owner a.staging = .ok .outsideWindow ∧
        ¬ inbox.Takes (a :: offered)) ∨
      (inbox.stageScoped json owner a.staging = .ok .duplicate ∧
        (∃ b ∈ past, b.position = a.position) ∧
        (inbox.Takes (a :: offered) ↔ inbox.Takes offered)) ∨
      (∃ next stream, inbox.stageScoped json owner a.staging = .ok (.prepared next) ∧
        inbox.Accepts json owner a.staging a.object stream next ∧
        (inbox.Takes (a :: offered) ↔ next.Takes offered)) ∨
      (∃ message, inbox.stageScoped json owner a.staging = .error message ∧
        (inbox.Takes (a :: offered) → ∃ other : ObjectInbox, other.current = inbox.current ∧
          other.snapshot json = .error message)) := by
  have hkept := hrecorded.streams.streamAt a.position.1
  by_cases hbelow : a.object.counter ≤ (inbox.streamAt a.position.1).floor
  · exact .inl ⟨stage_below howned hauthored hbelow,
      not_takes_of_stream (Stream.not_admits_of_le hbelow)⟩
  by_cases hknown : a.object.counter ∈ (inbox.streamAt a.position.1).counters
  · refine .inr (.inl ⟨stage_known hauthored hrecorded hknown, ?_,
      takes_known hrecorded.streams hknown⟩)
    obtain ⟨receipt, hreceipt, hcounter⟩ := Stream.mem_counters.mp hknown
    obtain ⟨b, hb, hkey, hresolves⟩ := hrecorded.origin _ receipt hreceipt
    refine ⟨b, hb, Prod.ext hkey ?_⟩
    exact (congrArg Receipt.counter hresolves.identity).symm.trans hcounter
  have habove := lt_of_not_ge hbelow
  have hfresh : ∀ known ∈ (inbox.streamAt a.position.1).receipts,
      known.counter ≠ a.object.counter := by
    intro known hmem heq
    exact hknown (Stream.mem_counters.mpr ⟨known, hmem, heq⟩)
  by_cases hroom : (inbox.streamAt a.position.1).receipts.length = window →
      ∃ known ∈ (inbox.streamAt a.position.1).receipts, known.counter < a.object.counter
  · have hstage := stage_new howned hauthored hrecorded hfresh habove json hroom
    by_cases hcapacity : lookup Stream.key a.position.1 inbox.streams = none ∧
        inbox.streams.length = maxStreams
    · rw [failIf_of hcapacity] at hstage
      refine .inr (.inr (.inr ⟨_, hstage, fun htakes => ?_⟩))
      exact absurd htakes (not_takes_of_full hcapacity.1 hcapacity.2)
    · rw [failIf_of_not hcapacity, ok_bind] at hstage
      cases hpush : (inbox.streamAt a.position.1).push (a.receipt owner) with
      | error message =>
        rw [hpush] at hstage
        refine .inr (.inr (.inr ⟨_, hstage, fun htakes => ?_⟩))
        exact absurd htakes
          (not_takes_of_stream (Stream.not_admits_of_push hfresh hkept hpush hroom))
      | ok stream =>
        rw [hpush, ok_bind] at hstage
        cases hchecked : checked json
            { inbox with streams := put Stream.key stream inbox.streams } with
        | error message =>
          rw [hchecked] at hstage
          exact .inr (.inr (.inr ⟨_, hstage, fun _ => exists_of_checked hchecked rfl⟩))
        | ok next =>
          rw [hchecked, ok_bind] at hstage
          obtain ⟨object, stream', haccepts⟩ := stageScoped_eq_prepared hstage
          have hobject : object = a.object := Except.ok.inj
            (haccepts.authenticated.symm.trans (hauthored.genuine a List.mem_cons_self).1)
          subst hobject
          exact .inr (.inr (.inl ⟨next, stream', hstage, haccepts,
            takes_accepted hauthored hrecorded haccepts⟩))
  · obtain ⟨hfull, hlower⟩ := Classical.not_imp.mp hroom
    have hlower : ∀ known ∈ (inbox.streamAt a.position.1).receipts,
        a.object.counter < known.counter := by
      intro known hmem
      refine lt_of_le_of_ne (le_of_not_gt fun hlt => hlower ⟨known, hmem, hlt⟩) ?_
      exact (hfresh known hmem).symm
    exact .inl ⟨stage_lower howned hauthored hrecorded hfresh habove hfull hlower,
      not_takes_of_stream (Stream.not_admits_of_lt hkept hfull hlower)⟩

/-- A packet of a verified offer carries this object of its author. -/
structure Carries (proof : VerifiedRecoveryOffer) (packet : RecoveredPacket) (a : Acceptance) :
    Prop where
  staging : packet.staging = .ok a.staging
  origin : proof.verifyOrigin a.object.message = .ok ()

/-- The outcome is not the error of saving an inbox with this index of current values. -/
def NotForSize {α : Type} (json : Json) (current : Option CurrentViewIndex)
    (outcome : Outcome α) : Prop :=
  ∀ other : ObjectInbox, other.current = current →
    ∀ message, other.snapshot json = .error message → outcome ≠ .error message

section Loop

variable {proof : VerifiedRecoveryOffer} {packet : RecoveredPacket} {packets : List RecoveredPacket}
  {count : Nat}

theorem unprotect_published (hauthentic : a.staging.authenticate owner = .ok a.object)
    (hgroup : a.staging.recipients = []) :
    owner.unprotectObject (publishedContext a.staging) a.staging.object = .ok a.object := by
  simp only [Staging.authenticate, bind_eq_ok, receiptAad, audienceAad, hgroup,
    if_true] at hauthentic
  obtain ⟨aad, haad, hobject⟩ := hauthentic
  suffices haad' : publishedContext a.staging = aad by
    rw [haad', hobject]
  rw [publishedContext]
  cases hcurrent : a.staging.current with
  | none =>
    simp only [hcurrent, bind_eq_ok, pure_eq_ok] at haad
    obtain ⟨_, _, rfl⟩ := haad
    rfl
  | some metadata =>
    simp only [hcurrent, pure_eq_ok] at haad
    exact haad

/-- What is done about a packet once its object is staged. -/
def afterStage (json : Json) (owner : SecurityOwner) (proof : VerifiedRecoveryOffer)
    (packets : List RecoveredPacket) (inbox : ObjectInbox) (count : Nat) :
    InboxStage → Outcome (ObjectInbox × Nat)
  | .prepared next => stageRecovered json owner proof packets (next, count + 1)
  | .duplicate => stageRecovered json owner proof packets (inbox, count)
  | .outsideWindow => .error "recovered object outside receive window"

theorem stageRecovered_cons (hauthored : Authored owner past (a :: offered))
    (hcarries : Carries proof packet a) :
    stageRecovered json owner proof (packet :: packets) (inbox, count) =
      inbox.stageScoped json owner a.staging >>=
        afterStage json owner proof packets inbox count := by
  obtain ⟨hauthentic, hgroup, _⟩ := hauthored.genuine a List.mem_cons_self
  rw [stageRecovered, hcarries.staging, ok_bind, unprotect_published hauthentic hgroup, ok_bind,
    hcarries.origin, ok_bind]
  rfl

/-- What the packet loop leads to: everything that was never accepted is pending. -/
structure Recovers (owner : SecurityOwner) (past offered : List Acceptance)
    (inbox next : ObjectInbox) : Prop where
  scope : next.workspace = inbox.workspace ∧ next.epoch = inbox.epoch
  progress : next.progress = inbox.progress
  current : next.current = inbox.current
  pending : ∀ key, ∀ receipt ∈ (inbox.streamAt key).receipts, receipt.pending ≠ none →
    receipt ∈ (next.streamAt key).receipts
  offered : ∀ a ∈ offered, (∀ b ∈ past, b.position ≠ a.position) →
    a.receipt owner ∈ (next.streamAt a.position.1).receipts

theorem Recovers.refl (inbox : ObjectInbox) : Recovers owner past [] inbox inbox :=
  ⟨⟨rfl, rfl⟩, rfl, rfl, fun _ _ h _ => h, by simp⟩

theorem Recovers.duplicate (h : Recovers owner past offered inbox next)
    (hknown : ∃ b ∈ past, b.position = a.position) :
    Recovers owner past (a :: offered) inbox next := by
  refine ⟨h.scope, h.progress, h.current, h.pending, ?_⟩
  intro c hc hnew
  rcases List.mem_cons.mp hc with rfl | hrest
  · obtain ⟨b, hb, heq⟩ := hknown
    exact absurd heq (hnew b hb)
  · exact h.offered c hrest hnew

theorem Recovers.accepted {between : ObjectInbox} (hauthored : Authored owner past (a :: offered))
    (haccepts : inbox.Accepts json owner a.staging a.object stream between)
    (hstage : inbox.stageScoped json owner a.staging = .ok (.prepared between))
    (h : Recovers owner (past ++ [a]) offered between next) :
    Recovers owner past (a :: offered) inbox next := by
  have hscope : between.workspace = inbox.workspace ∧ between.epoch = inbox.epoch := by
    rw [haccepts.result]
    exact ⟨rfl, rfl⟩
  have hprogress : between.progress = inbox.progress := by
    rw [haccepts.result]
  have hcurrent : between.current = inbox.current := by
    rw [haccepts.result]
  refine ⟨⟨h.scope.1.trans hscope.1, h.scope.2.trans hscope.2⟩, h.progress.trans hprogress,
    h.current.trans hcurrent, ?_, ?_⟩
  · intro key receipt hreceipt hpending
    exact h.pending key receipt ((Acts.accept hstage).pending_kept hreceipt hpending rfl) hpending
  · intro c hc hnew
    rcases List.mem_cons.mp hc with rfl | hrest
    · have hstream : between.streamAt c.position.1 = stream :=
        (haccepts.streamAt c.position.1).trans (if_pos rfl)
      apply h.pending c.position.1 _ _ (by simp [Acceptance.receipt, Staging.receipt])
      rw [hstream]
      exact Stream.mem_push_of_pending haccepts.pushed (.inr rfl)
        (by simp [Acceptance.receipt, Staging.receipt])
    · apply h.offered c hrest
      intro b hb heq
      rcases List.mem_append.mp hb with hold | hself
      · exact hnew b hold heq
      · rw [List.mem_singleton.mp hself] at heq
        have hlt := (List.pairwise_cons.mp hauthored.ordered).1 c hrest
        exact absurd (congrArg Prod.snd heq) (ne_of_lt hlt)

theorem Recorded.accept (hrecorded : Recorded owner inbox past)
    (haccepts : inbox.Accepts json owner a.staging a.object stream next)
    (hstage : inbox.stageScoped json owner a.staging = .ok (.prepared next)) :
    Recorded owner next (past ++ [a]) := by
  have hnext := hrecorded.acts (Acts.accept hstage)
  rw [acceptance, haccepts.authenticated] at hnext
  exact hnext

theorem stageRecovered_spec (hcarries : List.Forall₂ (Carries proof) packets offered)
    (howned : inbox.workspace = owner.id ∧ inbox.epoch = owner.epoch)
    (hauthored : Authored owner past offered) (hrecorded : Recorded owner inbox past)
    (hcounts : CountsKept inbox)
    (hsize : NotForSize json inbox.current
      (stageRecovered json owner proof packets (inbox, count))) :
    (∀ next count', stageRecovered json owner proof packets (inbox, count) = .ok (next, count') →
        Recovers owner past offered inbox next) ∧
      ((∃ next count', stageRecovered json owner proof packets (inbox, count) =
        .ok (next, count')) ↔ inbox.Takes offered) := by
  induction hcarries generalizing inbox past count with
  | nil =>
    refine ⟨?_, ?_⟩
    · intro next count' h
      cases h
      exact .refl inbox
    · exact iff_of_true ⟨inbox, count, rfl⟩ (takes_nil hrecorded.streams hcounts.streams)
  | @cons packet a packets offered hpacket _ ih =>
    have hstep : stageRecovered json owner proof (packet :: packets) (inbox, count) =
        inbox.stageScoped json owner a.staging >>=
          afterStage json owner proof packets inbox count :=
      stageRecovered_cons hauthored hpacket
    rw [hstep] at hsize ⊢
    rcases stage_cases howned hauthored hrecorded with ⟨hstage, hnot⟩ | ⟨hstage, hknown, htakes⟩ |
      ⟨next, stream, hstage, haccepts, htakes⟩ | ⟨message, hstage, hcause⟩
    · rw [hstage, ok_bind]
      refine ⟨?_, iff_of_false ?_ hnot⟩
      · intro next count' h
        cases h
      · rintro ⟨next, count', h⟩
        cases h
    · rw [hstage, ok_bind] at hsize ⊢
      obtain ⟨hresult, hiff⟩ := ih howned hauthored.rest hrecorded hcounts hsize
      exact ⟨fun next count' h => (hresult next count' h).duplicate hknown, hiff.trans htakes.symm⟩
    · rw [hstage, ok_bind] at hsize ⊢
      have howned' : next.workspace = owner.id ∧ next.epoch = owner.epoch := by
        rw [haccepts.result]
        exact howned
      have hcurrent : next.current = inbox.current := by
        rw [haccepts.result]
      rw [← hcurrent] at hsize
      obtain ⟨hresult, hiff⟩ := ih howned' hauthored.accepted
        (hrecorded.accept haccepts hstage) ((Acts.accept hstage).countsKept hcounts) hsize
      exact ⟨fun final count' h => .accepted hauthored haccepts hstage (hresult final count' h),
        hiff.trans htakes.symm⟩
    · rw [hstage] at hsize ⊢
      refine ⟨?_, iff_of_false ?_ ?_⟩
      · intro next count' h
        cases h
      · rintro ⟨next, count', h⟩
        cases h
      · intro htakes
        obtain ⟨other, hcurrent, hother⟩ := hcause htakes
        exact hsize other hcurrent message hother rfl

end Loop

section Coverage

theorem recoveryProgress_eq (sha256 : Bytes → Block 32) (author : Block 32) (topics : TopicSet) :
    inbox.recoveryProgress sha256 author topics =
      (lookup progressKey (toLex (author, selectionDigest sha256 topics)) inbox.progress).elim
        0 (·.through) := by
  have hfind : lookup progressKey (toLex (author, selectionDigest sha256 topics))
      inbox.progress = inbox.progress.find? fun progress =>
        progress.author = author ∧ progress.selection = selectionDigest sha256 topics := by
    rw [lookup]
    congr 1
    funext progress
    rw [progressKey, decide_eq_decide]
    exact toLex.injective.eq_iff.trans Prod.mk_inj
  rw [recoveryProgress, hfind]
  cases inbox.progress.find? _ <;> rfl

variable {query : RangeQuery} {reply : Bytes}

/-- There is room for the progress of this selection. -/
def SelectionRoom (owner : SecurityOwner) (inbox : ObjectInbox) (query : RangeQuery) : Prop :=
  lookup progressKey (progressKey (rangeProgress owner query)) inbox.progress = none →
    inbox.progress.length ≠ maxRecoverySelections

variable (howned : inbox.workspace = owner.id ∧ inbox.epoch = owner.epoch)
  (hverified : verifyReply owner query reply = .ok (.offered offer))
  (hafter : query.after = inbox.recoveryProgress owner.sha256 query.author query.topics)

include hverified in
theorem after_lt_through : query.after < query.through := by
  obtain ⟨request, _, _, hrequest, _⟩ := verifyReply_eq_offered hverified
  simp only [RangeQuery.recoveryRequest, bind_eq_ok, failIf_eq_ok, not_or, not_le] at hrequest
  obtain ⟨_, ⟨hlt, _⟩, _⟩ := hrequest
  exact hlt

include howned hverified hafter in
theorem acceptRecoveryCoverage_of_continues :
    inbox.acceptRecoveryCoverage json owner query reply =
      (failIf (lookup progressKey (progressKey (rangeProgress owner query))
          inbox.progress = none ∧ inbox.progress.length = maxRecoverySelections)
        "recovery selection capacity exhausted" >>= fun _ =>
      checked json { inbox with
        progress := putProgress (rangeProgress owner query) inbox.progress }) := by
  obtain ⟨request, _, _, hrequest, _, _, hoffer, _⟩ := verifyReply_eq_offered hverified
  have hscope := owner.offer_scope hoffer
  rw [RangeQuery.recoveryRequest_eq_ok hrequest] at hscope
  have hlt := after_lt_through hverified
  rw [recoveryProgress_eq] at hafter
  have hvalid : inbox.validateOwner owner = .ok () := validateOwner_eq_ok.mpr howned
  rw [acceptRecoveryCoverage, hvalid, ok_bind, failIf_of_not, ok_bind, hverified, ok_bind]
  · dsimp only
    have hcurrent : query.after = (lookup progressKey
        (progressKey (rangeProgress owner query)) inbox.progress).elim 0 (·.through) := hafter
    rw [rangeProgress] at hcurrent ⊢
    rw [← hcurrent, if_neg (not_le_of_gt hlt), failIf_of_not (by simp), ok_bind]
  · rw [not_or, not_not, not_not, howned.1, howned.2]
    exact hscope

theorem recoveryProgress_putProgress (h : (inbox.progress.map progressKey).Pairwise (· < ·)) :
    recoveryProgress owner.sha256 { inbox with
      progress := putProgress (rangeProgress owner query) inbox.progress }
        query.author query.topics = query.through := by
  rw [recoveryProgress_eq]
  have hlookup : lookup progressKey (progressKey (rangeProgress owner query))
      (putProgress (rangeProgress owner query) inbox.progress) =
        some (rangeProgress owner query) := by
    rw [putProgress]
    cases hknown : lookup progressKey (progressKey (rangeProgress owner query))
        inbox.progress with
    | some known =>
      dsimp only
      rw [lookup_put, if_pos rfl]
    | none =>
      dsimp only
      refine lookup_of_mem ?_ ((mem_sortBy progressKey).mpr (by simp))
      refine List.Nodup.perm ?_ ((sortBy_perm progressKey _).map progressKey).symm
      rw [List.map_append, List.map_singleton, List.nodup_append]
      refine ⟨h.imp (fun hlt => ne_of_lt hlt), List.nodup_singleton _, ?_⟩
      rintro key hkey _ hself rfl
      obtain ⟨progress, hprogress, rfl⟩ := List.mem_map.mp hkey
      exact lookup_eq_none.mp hknown progress hprogress (List.mem_singleton.mp hself)
  exact congrArg (fun found => Option.elim found 0 (·.through)) hlookup

include howned hverified hafter in
theorem acceptRecoveryCoverage_cases :
    (SelectionRoom owner inbox query ∧ ∃ next, next = { inbox with
        progress := putProgress (rangeProgress owner query) inbox.progress } ∧
        ((inbox.acceptRecoveryCoverage json owner query reply = .ok next ∧
            ∃ bytes, next.snapshot json = .ok bytes) ∨
          ∃ message, inbox.acceptRecoveryCoverage json owner query reply = .error message ∧
            next.snapshot json = .error message)) ∨
      (¬ SelectionRoom owner inbox query ∧
        ∃ message, inbox.acceptRecoveryCoverage json owner query reply = .error message) := by
  rw [acceptRecoveryCoverage_of_continues howned hverified hafter]
  by_cases hroom : lookup progressKey (progressKey (rangeProgress owner query))
      inbox.progress = none ∧ inbox.progress.length = maxRecoverySelections
  · rw [failIf_of hroom]
    exact .inr ⟨fun h => h hroom.1 hroom.2, _, rfl⟩
  · rw [failIf_of_not hroom, ok_bind]
    exact .inl ⟨fun hnone hfull => hroom ⟨hnone, hfull⟩, _, rfl, checked_cases json _⟩

end Coverage

section Results

variable {query : RangeQuery} {reply : Bytes} {retainUntil : U64} {session : RecoverySession}

theorem Takes.congr (h : next.streams = inbox.streams) :
    next.Takes offered ↔ inbox.Takes offered := by
  have hat : ∀ key, next.streamAt key = inbox.streamAt key := by
    intro key
    rw [streamAt, h]
    rfl
  constructor
  · rintro ⟨hwindow, hstreams⟩
    refine ⟨fun key => hat key ▸ hwindow key, ?_⟩
    rw [newStreams, ← h]
    exact hstreams
  · rintro ⟨hwindow, hstreams⟩
    refine ⟨fun key => (hat key).symm ▸ hwindow key, ?_⟩
    rw [newStreams, h]
    exact hstreams

/-- An inbox as a run leaves it, with what it accepted. -/
structure Lived (owner : SecurityOwner) (inbox : ObjectInbox) (past : List Acceptance) : Prop where
  owned : inbox.workspace = owner.id ∧ inbox.epoch = owner.epoch
  recorded : Recorded owner inbox past
  counts : CountsKept inbox
  progress : ProgressKept owner inbox

theorem lived_of_run (hjson : json.Lawful) {trace : List (Taken ObjectInbox InboxCall)}
    (hrun : Run (InboxStep json owner) (new owner.id owner.epoch) trace inbox) :
    Lived owner inbox (accepted json owner trace) := by
  have hacts := run_actsOf hjson (new_cacheKept owner owner.id owner.epoch) hrun
  refine ⟨owned_of_run hjson hrun, recorded_of_run hjson hrun, ?_, ?_⟩
  · exact (hacts.invariant (fun _ _ _ h hact => hact.countsKept h) (new_countsKept _ _)).1
  · exact (hacts.invariant (fun _ _ _ h hact => hact.progressKept h) (new_progressKept _ _ _)).1

/-- Holding the range for others changes neither receipts nor progress; only its size can stand
against it. -/
theorem holdRecovered_cases (h : Lived owner inbox past)
    (hverified : verifyReply owner query reply = .ok (.offered offer))
    (hclock : retainUntil = 0 ∨ ∃ now, session.now = some now ∧ now < retainUntil) :
    (∃ held, inbox.holdRecovered json owner ⟨query, reply, true⟩ retainUntil session.now =
        .ok held ∧ Lived owner held past ∧ held.streams = inbox.streams ∧
          held.progress = inbox.progress ∧ held.current = inbox.current) ∨
      ∃ message, inbox.holdRecovered json owner ⟨query, reply, true⟩ retainUntil session.now =
        .error message ∧ ∃ other : ObjectInbox, other.current = inbox.current ∧
          other.snapshot json = .error message := by
  rw [holdRecovered]
  split
  · exact .inl ⟨inbox, rfl, h, rfl, rfl, rfl⟩
  · rename_i hretain
    obtain ⟨now, hnow, hlt⟩ := hclock.resolve_left hretain
    obtain ⟨request, _, _, hrequest, _⟩ := verifyReply_eq_offered hverified
    have hvalid : inbox.validateOwner owner = .ok () := validateOwner_eq_ok.mpr h.owned
    have hwire : ∃ encoded, query.toWire owner.sha256 = .ok encoded := by
      rw [RangeQuery.toWire, hrequest]
      exact ⟨_, rfl⟩
    obtain ⟨encoded, hencoded⟩ := hwire
    rw [hnow, orFail_some, ok_bind]
    dsimp only
    cases hheld : inbox.retainRange json owner query reply retainUntil now with
    | ok held =>
      have hact : Acts json owner inbox .holdRange held := .holdRange hheld
      obtain ⟨_, _, _, _, _, rfl⟩ := retainRange_eq_ok hheld
      have hrecorded := h.recorded.acts hact
      simp only [acceptance, Option.toList_none, List.append_nil] at hrecorded
      exact .inl ⟨_, rfl, ⟨h.owned, hrecorded, hact.countsKept h.counts,
        hact.progressKept h.progress⟩, rfl, rfl, rfl⟩
    | error message =>
      rw [retainRange, hvalid, ok_bind, failIf_of_not (not_le_of_gt hlt), ok_bind, hverified,
        ok_bind] at hheld
      dsimp only at hheld
      rw [hencoded, ok_bind] at hheld
      exact .inr ⟨message, rfl, exists_of_checked hheld rfl⟩

theorem stageRecovery_of_continues (session : RecoverySession) (json : Json) (retainUntil : U64)
    (hverified : verifyReply owner query reply = .ok (.offered offer))
    (hafter : query.after = inbox.recoveryProgress owner.sha256 query.author query.topics)
    (hpolicy : session.policy = .ok ()) (hmember : owner.member.isSome = true) :
    inbox.stageRecovery json session owner ⟨query, reply, true⟩ retainUntil =
      (inbox.holdRecovered json owner ⟨query, reply, true⟩ retainUntil session.now >>= fun held =>
        stageRecovered json owner offer.proof offer.packets (held, 0) >>= fun staged =>
        staged.1.acceptRecoveryCoverage json owner query reply >>= fun next =>
        session.sealState next >>= fun _ => .ok (.candidate next staged.2)) := by
  obtain ⟨member, hmember⟩ := Option.isSome_iff_exists.mp hmember
  have hlt := after_lt_through hverified
  rw [hafter] at hlt
  rw [stageRecovery, hpolicy, ok_bind, hmember, orFail_some, ok_bind]
  dsimp only
  rw [if_neg (fun hcovered => absurd hcovered.2 (not_le_of_gt hlt)),
    failIf_of_not (fun hapart => hapart.2 hafter), ok_bind, hverified, ok_bind]
  simp only [coverRecovered, Bool.true_eq_false, and_false, if_false, if_true]
  rfl

/-- After any run, the automatic range that continues the recovery progress becomes a candidate
that covers it, with everything in it that was never accepted pending, exactly when every stream
has room for its part of the range. -/
theorem recovery_after_reception_iff (hjson : json.Lawful)
    {trace : List (Taken ObjectInbox InboxCall)}
    (hrun : Run (InboxStep json owner) (new owner.id owner.epoch) trace inbox)
    (hafter : query.after = inbox.recoveryProgress owner.sha256 query.author query.topics)
    (hverified : verifyReply owner query reply = .ok (.offered offer))
    (hcarries : List.Forall₂ (Carries offer.proof) offer.packets offered)
    (hauthored : Authored owner (accepted json owner trace) offered)
    (hpolicy : session.policy = .ok ()) (hmember : owner.member.isSome = true)
    (hclock : retainUntil = 0 ∨ ∃ now, session.now = some now ∧ now < retainUntil)
    (hsealed : ∀ next : ObjectInbox, (∃ bytes, next.snapshot json = .ok bytes) →
      session.sealState next = .ok ())
    (hsize : NotForSize json inbox.current
      (inbox.stageRecovery json session owner ⟨query, reply, true⟩ retainUntil)) :
    (∃ next count, inbox.stageRecovery json session owner ⟨query, reply, true⟩ retainUntil =
        .ok (.candidate next count) ∧
      next.recoveryProgress owner.sha256 query.author query.topics = query.through ∧
      ∀ a ∈ offered, (∀ b ∈ accepted json owner trace, b.position ≠ a.position) →
        a.receipt owner ∈ (next.streamAt a.position.1).receipts) ↔
      inbox.Takes offered ∧ SelectionRoom owner inbox query := by
  have hlived := lived_of_run hjson hrun
  rw [stageRecovery_of_continues session json retainUntil hverified hafter hpolicy hmember]
    at hsize ⊢
  rcases holdRecovered_cases hlived hverified hclock with
    ⟨held, hheld, hkept, hstreams, hprogress, hcurrent⟩ | ⟨message, herror, other, hcurrent, hother⟩
  swap
  · rw [herror] at hsize
    exact absurd rfl (hsize other hcurrent message hother)
  rw [hheld, ok_bind] at hsize ⊢
  have hpart : NotForSize json held.current
      (stageRecovered json owner offer.proof offer.packets (held, 0)) := by
    intro other hother message hsnapshot herror
    apply hsize other (hother.trans hcurrent) message hsnapshot
    rw [herror]
    rfl
  obtain ⟨hresult, hiff⟩ := stageRecovered_spec hcarries hkept.owned hauthored hkept.recorded
    hkept.counts hpart
  rw [← Takes.congr hstreams, ← hiff]
  cases hloop : stageRecovered json owner offer.proof offer.packets (held, 0) with
  | error message =>
    refine iff_of_false ?_ ?_
    · rintro ⟨next, count, h, _⟩
      cases h
    · rintro ⟨⟨next, count, h⟩, _⟩
      cases h
  | ok staged =>
    obtain ⟨staged, count⟩ := staged
    rw [hloop, ok_bind] at hsize
    rw [ok_bind]
    have hrecovers := hresult staged count hloop
    have howned : staged.workspace = owner.id ∧ staged.epoch = owner.epoch :=
      ⟨hrecovers.scope.1.trans hkept.owned.1, hrecovers.scope.2.trans hkept.owned.2⟩
    have hsame : staged.progress = inbox.progress := hrecovers.progress.trans hprogress
    have hcontinues : query.after =
        staged.recoveryProgress owner.sha256 query.author query.topics := by
      rw [hafter, recoveryProgress, recoveryProgress, hsame]
    have hroom : SelectionRoom owner staged query ↔ SelectionRoom owner inbox query := by
      rw [SelectionRoom, SelectionRoom, hsame]
    rw [and_iff_right ⟨staged, count, rfl⟩, ← hroom]
    rcases acceptRecoveryCoverage_cases howned hverified hcontinues with
      ⟨hselection, next, hnext, ⟨hcovered, hfits⟩ | ⟨message, herror, hother⟩⟩ |
        ⟨hnone, message, herror⟩
    · refine iff_of_true ⟨next, count, ?_, ?_, ?_⟩ hselection
      · rw [hcovered, ok_bind, hsealed next hfits]
        rfl
      · rw [hnext]
        apply recoveryProgress_putProgress
        rw [hsame]
        exact hlived.progress.order
      · rw [hnext]
        exact hrecovers.offered
    · have hkeeps : next.current = inbox.current := by
        rw [hnext]
        exact hrecovers.current.trans hcurrent
      rw [herror] at hsize
      exact absurd rfl (hsize next hkeeps message hother)
    · refine iff_of_false ?_ hnone
      rintro ⟨next, count, h, _⟩
      rw [herror] at h
      cases h

end Results

theorem snapshot_error {message : String} (hcurrent : inbox.current = none)
    (h : inbox.snapshot json = .error message) :
    message = "inbox encoding failed" ∨ message = "inbox byte capacity exhausted" := by
  rw [snapshot, hcurrent, encodeCurrent] at h
  rcases bind_eq_error.mp h with hencode | ⟨encoded, _, h⟩
  · exact .inl (orFail_eq_error.mp hencode).2.symm
  · rw [show (pure [] : Outcome Bytes) = .ok [] from rfl, ok_bind] at h
    rcases bind_eq_error.mp h with hlong | ⟨_, _, hnever⟩
    · exact .inr (failIf_eq_error.mp hlong).2.symm
    · exact absurd hnever pure_ne_error

end ObjectInbox

namespace Sample

open Security.Sample
open ObjectInbox

/-- The first note of the administrator, published to the group. -/
def firstNote : Staging :=
  ⟨context 1 1, [], none, ((pair.mls.protectObject sframe (author 0)
    (context 1 1).authenticatedBytes [7]).map Prod.fst).toOption.getD []⟩

def firstRecord : RetainedPublication := ⟨1, firstNote.context, firstNote.object⟩

/-- The log of the administrator after the first note, and how it answers the receiver. -/
def firstLog : PublisherLog := notesLog 1 [firstRecord]

def firstReply : Bytes :=
  (serveRange pair.mls firstLog (leader pair) notesPolicy (block 12)
    (notesQuery 0 1)).toOption.getD []

def openSession : RecoverySession := ⟨.ok (), some 1, fun _ => .ok ()⟩

/-- What the reply offers, with the digests left out. -/
def offeredBy : RangeReply → Option (Block 32 × Block 32 × List RecoveredPacket)
  | .offered offer => some (offer.proof.author, offer.proof.endpoint, offer.packets)
  | .rejected _ => none

theorem firstLog_run : PublisherRun workspaceId (block 1) 1 firstLog [firstRecord] := by
  have happend : (PublisherLog.new workspaceId (block 1) 1).append firstNote.context
      firstNote.object = .ok (1, firstLog) := by decide +kernel
  exact Relation.ReflTransGen.single (.append happend)

theorem firstReply_served : serveRange pair.mls firstLog (leader pair) notesPolicy (block 12)
    (notesQuery 0 1) = .ok firstReply := by
  decide +kernel

/-- The receiver is offered the first note, and it is authentic. -/
theorem firstReply_offered : ∃ offer packet a, verifyReply receiver (notesQuery 0 1) firstReply =
      .ok (.offered offer) ∧ offer.packets = [packet] ∧ Carries offer.proof packet a ∧
    a.staging = firstNote ∧ firstNote.authenticate receiver = .ok a.object ∧
    a.position = ((block 1, Sample.notes.val), 1) := by
  have hauthentic : (firstNote.authenticate receiver).map (fun object =>
      (object.message.member, object.message.endpoint, object.counter)) =
        .ok (block 1, block 11, 1) := by decide +kernel
  have hoffered : (verifyReply receiver (notesQuery 0 1) firstReply).map offeredBy =
      .ok (some (block 1, block 11, [⟨firstNote.context, firstNote.object⟩])) := by decide +kernel
  have hstaging : (⟨firstNote.context, firstNote.object⟩ : RecoveredPacket).staging =
      .ok firstNote := by decide +kernel
  obtain ⟨object, hobject, heq⟩ := map_eq_ok.mp hauthentic
  obtain ⟨reply, hreply, hshape⟩ := map_eq_ok.mp hoffered
  cases reply with
  | rejected error => cases hshape
  | offered offer =>
    simp only [offeredBy, Option.some.injEq, Prod.mk.injEq] at heq hshape
    obtain ⟨hmember, hendpoint, hcounter⟩ := heq
    obtain ⟨hauthor, hfrom, hpackets⟩ := hshape
    refine ⟨offer, _, ⟨firstNote, object⟩, hreply, hpackets, ⟨hstaging, ?_⟩, rfl, hobject, ?_⟩
    · rw [VerifiedRecoveryOffer.verifyOrigin, hauthor, hfrom, hmember, hendpoint]
      exact failIf_of_not (by simp)
    · rw [Acceptance.position, Staging.streamKey, hmember, hcounter]
      rfl

/-- A direct note to the receiver, protected after `n` other objects. -/
def directNote (n : Nat) : Staging :=
  direct (UInt8.ofNat (n + 1)) (Fin.ofNat _ n) (Fin.ofNat _ n) [7]

/-- As many direct notes as the window holds, all after the first note. -/
def directNotes : List Staging := (List.range window).map fun n => directNote (n + 1)

def notesStaged : List (Taken ObjectInbox InboxCall) :=
  InboxCall.play measureless receiver emptyInbox (directNotes.map .stage)

def notesJson : Json :=
  Json.among measureless.directLength (notesStaged.map fun taken => taken.after.toSnapshot)

/-- Each direct note is acknowledged. -/
def notesResolved : List (Taken ObjectInbox InboxCall) :=
  InboxCall.play notesJson receiver (outcome emptyInbox notesStaged)
    ((List.range window).map fun n =>
      .acknowledge (block 1) Sample.notes (Fin.ofNat _ (n + 2)) (directNote (n + 1)).context.id)

def notesInbox : ObjectInbox :=
  outcome (outcome emptyInbox notesStaged) notesResolved

theorem notesInbox_run : Run (InboxStep notesJson receiver) emptyInbox
    (notesStaged ++ notesResolved) notesInbox := by
  refine (among_plain_run ⟨rfl, rfl, rfl⟩ (directNotes.map .stage) ?_ ?_).append ?_
  · intro call hcall
    obtain ⟨staging, _, rfl⟩ := List.mem_map.mp hcall
    rfl
  · rw [directNotes, List.length_map, List.length_map, List.length_range]
    decide
  · apply InboxCall.play_run
    simp

theorem notesInbox_full : notesInbox.pendingCount = 0 ∧ notesInbox.progress = [] ∧
    notesInbox.current = none ∧ (notesInbox.streamAt (block 1, Sample.notes.val)).floor = 0 ∧
    (notesInbox.streamAt (block 1, Sample.notes.val)).receipts.length = window ∧
    ∀ known ∈ (notesInbox.streamAt (block 1, Sample.notes.val)).receipts,
      1 < known.counter ∧ known.id ≠ firstNote.context.id := by
  decide +kernel

/-- The first note is new to an inbox that remembers later objects of its stream only. -/
theorem firstNote_authored {json : Json} {trace : List (Taken ObjectInbox InboxCall)}
    {inbox : ObjectInbox} (hjson : json.Lawful)
    (hrun : Run (InboxStep json receiver) emptyInbox trace inbox)
    (hfloor : (inbox.streamAt (block 1, Sample.notes.val)).floor = 0)
    (hlater : ∀ known ∈ (inbox.streamAt (block 1, Sample.notes.val)).receipts,
      1 < known.counter ∧ known.id ≠ firstNote.context.id)
    {a : Acceptance} (hstaging : a.staging = firstNote)
    (hauthentic : firstNote.authenticate receiver = .ok a.object)
    (hposition : a.position = ((block 1, Sample.notes.val), 1)) :
    Authored receiver (accepted json receiver trace) [a] ∧
      ∀ b ∈ accepted json receiver trace, b.position ≠ a.position := by
  have hlived := lived_of_run hjson hrun
  have hkey : a.position.1 = (block 1, Sample.notes.val) := congrArg Prod.fst hposition
  have hpast : ∀ b ∈ accepted json receiver trace,
      b.position.1 = a.position.1 → 1 < b.position.2 ∧
        b.staging.context.id ≠ firstNote.context.id := by
    intro b hb hsame
    have hremembers := hlived.recorded.remembered b hb
    rw [Remembers, hsame, hkey, hfloor] at hremembers
    rcases hremembers with hzero | ⟨receipt, hreceipt, hidentity⟩
    · obtain ⟨_, _, _, hobject⟩ := hlived.recorded.owned b hb
      simp only [Staging.authenticate, bind_eq_ok] at hobject
      obtain ⟨_, _, hobject⟩ := hobject
      exact absurd (Fin.le_zero_iff.mp hzero) (receiver.counter_ne_zero hobject)
    · have hnew := hlater receipt hreceipt
      rw [show receipt.counter = b.position.2 from congrArg Receipt.counter hidentity,
        show receipt.id = b.staging.context.id from congrArg Receipt.id hidentity] at hnew
      exact hnew
  have hfresh : ∀ b ∈ accepted json receiver trace, b.position ≠ a.position := by
    intro b hb heq
    have hlt := (hpast b hb (congrArg Prod.fst heq)).1
    rw [heq, hposition] at hlt
    exact absurd hlt (lt_irrefl _)
  refine ⟨⟨?_, List.pairwise_singleton _ _, ?_, ?_⟩, hfresh⟩
  · intro b hb
    rw [List.mem_singleton.mp hb, hstaging]
    exact ⟨hauthentic, rfl, rfl⟩
  · intro b hb c hc heq
    rw [List.mem_singleton.mp hb] at heq ⊢
    rcases List.mem_append.mp hc with hold | hself
    · exact absurd heq (hfresh c hold)
    · rw [List.mem_singleton.mp hself]
  · intro b hb c hc heq hid
    rw [List.mem_singleton.mp hb] at heq hid ⊢
    rcases List.mem_append.mp hc with hold | hself
    · rw [hstaging] at hid
      exact absurd hid (hpast c hold heq).2
    · rw [List.mem_singleton.mp hself]

/-- The administrator publishes a note to the group, which the receiver misses, and then sends it
as many direct notes on the same topic as the window holds. All are acknowledged. The range with
the missed note continues the recovery progress, and it can never be staged. -/
theorem recovery_after_reception_stalls :
    PublisherRun workspaceId (block 1) 1 firstLog [firstRecord] ∧
    serveRange pair.mls firstLog (leader pair) notesPolicy (block 12) (notesQuery 0 1) =
      .ok firstReply ∧
    notesJson.Lawful ∧
    Run (InboxStep notesJson receiver) emptyInbox (notesStaged ++ notesResolved) notesInbox ∧
    notesInbox.pendingCount = 0 ∧
    (notesQuery 0 1).after =
      notesInbox.recoveryProgress receiver.sha256 (block 1) (notesQuery 0 1).topics ∧
    (∃ offer a, verifyReply receiver (notesQuery 0 1) firstReply = .ok (.offered offer) ∧
      List.Forall₂ (Carries offer.proof) offer.packets [a] ∧
      Authored receiver (accepted notesJson receiver (notesStaged ++ notesResolved)) [a] ∧
      ∀ b ∈ accepted notesJson receiver (notesStaged ++ notesResolved),
        b.position ≠ a.position) ∧
    NotForSize notesJson notesInbox.current
      (notesInbox.stageRecovery notesJson openSession receiver
        ⟨notesQuery 0 1, firstReply, true⟩ 0) ∧
    notesInbox.stageRecovery notesJson openSession receiver ⟨notesQuery 0 1, firstReply, true⟩ 0 =
      .error "recovered object outside receive window" := by
  obtain ⟨hpending, hprogress, hcurrent, hfloor, hfull, hlater⟩ := notesInbox_full
  obtain ⟨offer, packet, a, hverified, hpackets, hcarries, hstaging, hauthentic, hposition⟩ :=
    firstReply_offered
  have hlawful : notesJson.Lawful := Json.among_lawful _ _
  have hlived := lived_of_run hlawful notesInbox_run
  have hcounter : a.object.counter = 1 := congrArg Prod.snd hposition
  have hkey : a.position.1 = (block 1, Sample.notes.val) := congrArg Prod.fst hposition
  have hafter : (notesQuery 0 1).after =
      notesInbox.recoveryProgress receiver.sha256 (block 1) (notesQuery 0 1).topics := by
    rw [recoveryProgress, hprogress]
    rfl
  obtain ⟨hauthored, hfresh⟩ := firstNote_authored hlawful notesInbox_run hfloor hlater hstaging
    hauthentic hposition
  have hstage : notesInbox.stageScoped notesJson receiver a.staging = .ok .outsideWindow := by
    rw [← hkey] at hfloor hfull hlater
    refine stage_lower hlived.owned hauthored hlived.recorded ?_ ?_ hfull ?_
    · intro known hknown heq
      have hlt := (hlater known hknown).1
      rw [heq, hcounter] at hlt
      exact absurd hlt (lt_irrefl _)
    · rw [hfloor, hcounter]
      decide
    · intro known hknown
      rw [hcounter]
      exact (hlater known hknown).1
  have hstuck : notesInbox.stageRecovery notesJson openSession receiver
      ⟨notesQuery 0 1, firstReply, true⟩ 0 =
        .error "recovered object outside receive window" := by
    rw [stageRecovery_of_continues openSession notesJson 0 hverified hafter rfl rfl]
    have hheld : notesInbox.holdRecovered notesJson receiver ⟨notesQuery 0 1, firstReply, true⟩ 0
        openSession.now = .ok notesInbox := rfl
    rw [hheld, ok_bind, hpackets, stageRecovered_cons hauthored hcarries, hstage]
    rfl
  refine ⟨firstLog_run, firstReply_served, hlawful, notesInbox_run, hpending, hafter,
    ⟨offer, a, hverified, hpackets ▸ .cons hcarries .nil, hauthored, hfresh⟩, ?_, hstuck⟩
  rw [hstuck]
  intro other hother message hmessage heq
  cases heq
  rcases snapshot_error (hother.trans hcurrent) hmessage with h | h
  · exact absurd h (by decide)
  · exact absurd h (by decide)

/-- There is room while the streams have places for all that is offered. -/
theorem takes_of_few {inbox : ObjectInbox}
    (hfloor : ∀ a ∈ offered, (inbox.streamAt a.position.1).floor < a.object.counter)
    (hfew : ∀ stream ∈ inbox.streams, stream.receipts.length + offered.length ≤ window)
    (hoffered : offered.length ≤ window)
    (hstreams : inbox.streams.length + offered.length ≤ maxStreams) : inbox.Takes offered := by
  refine ⟨?_, ?_⟩
  · intro key
    have hreceipts : (inbox.streamAt key).receipts.length + offered.length ≤ window := by
      rw [streamAt]
      cases hlookup : lookup Stream.key key inbox.streams with
      | none => exact (Nat.zero_add _).trans_le hoffered
      | some stream => exact hfew stream (mem_of_lookup hlookup).1
    have hkept : (inbox.streamAt key).counters.card ≤ (inbox.streamAt key).receipts.length :=
      (List.toFinset_card_le _).trans (List.length_map _).le
    have hfresh : (countersOn key offered \ (inbox.streamAt key).counters).card ≤
        offered.length := by
      refine (Finset.card_le_card Finset.sdiff_subset).trans ((List.toFinset_card_le _).trans ?_)
      rw [List.length_map]
      exact List.length_filter_le _ _
    refine ⟨?_, ?_⟩
    · intro c hc
      obtain ⟨a, ha, rfl, rfl⟩ := mem_countersOn.mp hc
      exact hfloor a ha
    · intro x _
      have hfilter := Finset.card_filter_le (inbox.streamAt key).counters (x ≤ ·)
      omega
  · have hcard : (inbox.newStreams offered).card ≤ offered.length := by
      refine (Finset.card_filter_le _ _).trans ((List.toFinset_card_le _).trans ?_)
      rw [List.length_map]
    omega

/-- The codec of the snapshots that the recovery after a direct note goes through. -/
def laterJson : Json :=
  jsonFor receiver emptyInbox
    [.stage (directNote 1), .stage firstNote, .coverage (notesQuery 0 1) firstReply]

/-- The receiver gets a direct note that was protected after the first note. -/
def laterTrace : List (Taken ObjectInbox InboxCall) :=
  InboxCall.play laterJson receiver emptyInbox [.stage (directNote 1)]

def laterInbox : ObjectInbox := outcome emptyInbox laterTrace

theorem laterInbox_kept : laterInbox.pendingCount = 1 ∧ laterInbox.progress = [] ∧
    (laterInbox.streamAt (block 1, Sample.notes.val)).floor = 0 ∧
    (∀ stream ∈ laterInbox.streams, stream.receipts.length + 1 ≤ window) ∧
    laterInbox.streams.length + 1 ≤ maxStreams ∧
    ∀ known ∈ (laterInbox.streamAt (block 1, Sample.notes.val)).receipts,
      1 < known.counter ∧ known.id ≠ firstNote.context.id := by
  decide +kernel

/-- With the later note received and pending, the receiver recovers the first one. -/
theorem recovery_after_reception_later : laterInbox.pendingCount = 1 ∧
    Run (InboxStep laterJson receiver) emptyInbox laterTrace laterInbox ∧
    ∃ a : Acceptance, a.staging = firstNote ∧ ∃ next count,
      laterInbox.stageRecovery laterJson openSession receiver
          ⟨notesQuery 0 1, firstReply, true⟩ 0 = .ok (.candidate next count) ∧
        next.recoveryProgress receiver.sha256 (block 1) (notesQuery 0 1).topics = 1 ∧
        ∀ b ∈ [a], (∀ c ∈ accepted laterJson receiver laterTrace, c.position ≠ b.position) →
          b.receipt receiver ∈ (next.streamAt b.position.1).receipts := by
  obtain ⟨offer, packet, a, hverified, hpackets, hcarries, hstaging, hauthentic, hposition⟩ :=
    firstReply_offered
  obtain ⟨hpending, hprogress, hfloor, hfew, hstreams, hlater⟩ := laterInbox_kept
  have hlawful : laterJson.Lawful := Json.among_lawful _ _
  have hrun : Run (InboxStep laterJson receiver) emptyInbox laterTrace laterInbox := by
    apply InboxCall.play_run
    simp
  have hauthored := (firstNote_authored hlawful hrun hfloor hlater hstaging hauthentic
    hposition).1
  have hok : (laterInbox.stageRecovery laterJson openSession receiver
      ⟨notesQuery 0 1, firstReply, true⟩ 0).isOk = true := by
    decide +kernel
  have hafter : (notesQuery 0 1).after =
      laterInbox.recoveryProgress receiver.sha256 (block 1) (notesQuery 0 1).topics := by
    rw [recoveryProgress, hprogress]
    rfl
  have hpolicy : openSession.policy = .ok () := rfl
  have hsealed : ∀ next : ObjectInbox, (∃ bytes, next.snapshot laterJson = .ok bytes) →
      openSession.sealState next = .ok () := fun _ _ => rfl
  refine ⟨hpending, hrun, a, hstaging, (recovery_after_reception_iff hlawful hrun hafter
    hverified (hpackets ▸ .cons hcarries .nil) hauthored hpolicy rfl (.inl rfl) hsealed ?_).mpr
      ⟨takes_of_few ?_ hfew (by decide : 1 ≤ window) hstreams, ?_⟩⟩
  · intro other _ message _ heq
    rw [heq] at hok
    cases hok
  · intro b hb
    have hcounter : a.object.counter = 1 := congrArg Prod.snd hposition
    rw [List.mem_singleton.mp hb, congrArg Prod.fst hposition, hfloor, hcounter]
    decide
  · intro _
    rw [hprogress]
    exact (by decide : 0 ≠ maxRecoverySelections)

end Sample

end Arachne.Delivery
