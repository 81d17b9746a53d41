import Arachne.Security.Sample
import Arachne.Delivery.InboxActs

/-! Concrete inboxes: a member of a workspace of three who receives from the administrator, and
the JSON of the inboxes that a run goes through. -/

namespace Arachne.Delivery

open ByteCodec Fallible Routing Transition InboxCall
open Security (counterRecord Workspace ScriptGroup Mls)

/-- A codec of known snapshots: the encoding of one tells its place in the list. -/
def Json.among (directLength : List DirectStream → Option Nat) (snapshots : List Snapshot) :
    Json where
  encode snapshot :=
    if snapshot ∈ snapshots then some (List.replicate (snapshots.idxOf snapshot) 0) else none
  decode bytes := snapshots[bytes.length]?
  directLength := directLength

theorem Json.among_lawful (directLength : List DirectStream → Option Nat)
    (snapshots : List Snapshot) : (Json.among directLength snapshots).Lawful where
  decode := by
    intro snapshot bytes h
    simp only [among] at h ⊢
    split at h
    · rename_i hmem
      cases h
      have hlt : snapshots.idxOf snapshot < snapshots.length := List.idxOf_lt_length_of_mem hmem
      rw [List.length_replicate, List.getElem?_eq_getElem hlt, List.getElem_idxOf hlt]
    · cases h

section Codecs

variable {json other : Json} {owner : SecurityOwner} {inbox next : ObjectInbox}
  (hlength : other.directLength = json.directLength)
include hlength

theorem trimDirect_congr (fuel : Nat) (direct : List DirectStream) :
    trimDirect other fuel direct = trimDirect json fuel direct := by
  induction fuel generalizing direct with
  | zero => rw [trimDirect, trimDirect, hlength]
  | succ fuel ih =>
    rw [trimDirect, trimDirect, hlength]
    simp only [ih]

theorem retainStaged_congr (author : Block 32) (staging : ObjectInbox.Staging) :
    inbox.retainStaged other author staging = inbox.retainStaged json author staging := by
  simp only [ObjectInbox.retainStaged, retainDirect, trimDirect_congr hlength]

/-- A staging needs no more of a codec than the length of direct streams, and that it can save
the inbox it leads to. -/
theorem stageScoped_congr {staging : ObjectInbox.Staging}
    (h : inbox.stageScoped json owner staging = .ok (.prepared next))
    (hfits : ∃ bytes, next.snapshot other = .ok bytes) :
    inbox.stageScoped other owner staging = .ok (.prepared next) := by
  have haccept : ∀ {stream author counter digest},
      inbox.accept json stream author staging counter digest = .ok (.prepared next) →
      inbox.accept other stream author staging counter digest = .ok (.prepared next) := by
    intro stream author counter digest hstage
    obtain ⟨stream', hpush, hretained, hresult, _⟩ := ObjectInbox.accept_eq_prepared hstage
    have hchecked : ObjectInbox.checked other next = .ok next :=
      ObjectInbox.checked_eq_ok.mpr ⟨rfl, hfits⟩
    rw [← retainStaged_congr hlength] at hretained
    rw [ObjectInbox.accept, hpush, ok_bind, hretained, ok_bind, ← hresult, hchecked, ok_bind]
    rfl
  simp only [ObjectInbox.stageScoped, bind_eq_ok] at h ⊢
  obtain ⟨_, hvalid, _, hworkspace, aad, haad, object, hobject, h⟩ := h
  refine ⟨_, hvalid, _, hworkspace, aad, haad, object, hobject, ?_⟩
  split at h
  · simp only [bind_eq_ok] at h ⊢
    obtain ⟨recalled, hrecall, h⟩ := h
    refine ⟨recalled, hrecall, ?_⟩
    cases recalled with
    | some stage => exact h
    | none => exact haccept h
  · simp only [bind_eq_ok] at h ⊢
    obtain ⟨_, hroom, h⟩ := h
    exact ⟨_, hroom, haccept h⟩

omit hlength

/-- An inbox that keeps no replies and no index. -/
def Uncached (inbox : ObjectInbox) : Prop :=
  inbox.retainedRanges = [] ∧ inbox.retainedCurrentViews = [] ∧ inbox.current = none

theorem Uncached.stageScoped {staging : ObjectInbox.Staging} (h : Uncached inbox)
    (hstage : inbox.stageScoped json owner staging = .ok (.prepared next)) : Uncached next := by
  obtain ⟨object, stream, haccepts⟩ := ObjectInbox.stageScoped_eq_prepared hstage
  rw [haccepts.result]
  exact h

theorem Uncached.snapshot_among {directLength : List DirectStream → Option Nat}
    {snapshots : List Snapshot} (h : Uncached inbox) (hmem : inbox.toSnapshot ∈ snapshots)
    (hcount : snapshots.length ≤ 1024) :
    ∃ bytes, inbox.snapshot (Json.among directLength snapshots) = .ok bytes := by
  obtain ⟨hranges, hviews, hcurrent⟩ := h
  have hlt : snapshots.idxOf inbox.toSnapshot < snapshots.length :=
    List.idxOf_lt_length_of_mem hmem
  simp only [ObjectInbox.snapshot, Json.among, if_pos hmem, orFail_some, ok_bind, hranges, hviews,
    hcurrent, ObjectInbox.encodeCurrent, bind_eq_ok, pure_eq_ok, failIf_eq_ok, exists_eq_left',
    List.flatMap_nil, List.nil_append, exists_and_left]
  simp only [List.length_append, beBytes_length, List.length_replicate, List.length_singleton,
    List.length_nil, show (ObjectInbox.cacheMagic 3).length = 5 by decide, maxWorkspaceAttachment]
  exact ⟨by omega, _, (), rfl⟩

/-- Calls that stage an object or acknowledge one. -/
def InboxCall.plain : InboxCall → Bool
  | .stage _ => true
  | .acknowledge .. => true
  | _ => false

theorem Uncached.plain {call : InboxCall} (h : Uncached inbox) (hplain : call.plain = true)
    (hperformed : call.perform json owner inbox = .ok (some next)) : Uncached next := by
  cases call with
  | stage staging =>
    simp only [perform, bind_eq_ok] at hperformed
    obtain ⟨stage, hstage, heq⟩ := hperformed
    cases stage with
    | duplicate => cases heq
    | outsideWindow => cases heq
    | prepared inbox =>
      cases heq
      exact h.stageScoped hstage
  | acknowledge author topic counter id =>
    simp only [perform, map_eq_ok, Option.some.injEq] at hperformed
    obtain ⟨_, hacknowledge, rfl⟩ := hperformed
    obtain ⟨_, _, rfl⟩ := ObjectInbox.acknowledge_eq_ok hacknowledge
    exact h
  | _ => cases hplain

theorem perform_plain_congr {call : InboxCall} (hlength : other.directLength = json.directLength)
    (hplain : call.plain = true) (hperformed : call.perform json owner inbox = .ok (some next))
    (hfits : ∃ bytes, next.snapshot other = .ok bytes) :
    InboxStep other owner inbox call next := by
  cases call with
  | stage staging =>
    refine ⟨?_, fun _ h => by cases h⟩
    simp only [perform, bind_eq_ok] at hperformed ⊢
    obtain ⟨stage, hstage, hnext⟩ := hperformed
    cases stage with
    | duplicate => cases hnext
    | outsideWindow => cases hnext
    | prepared inbox =>
      cases hnext
      exact ⟨_, stageScoped_congr hlength hstage hfits, rfl⟩
  | acknowledge author topic counter id => exact ⟨hperformed, fun _ h => by cases h⟩
  | _ => cases hplain

theorem play_plain_run (hlength : other.directLength = json.directLength) (start : ObjectInbox)
    (calls : List InboxCall) (hplain : ∀ call ∈ calls, call.plain = true)
    (hfits : ∀ taken ∈ InboxCall.play json owner start calls,
      ∃ bytes, taken.after.snapshot other = .ok bytes) :
    Run (InboxStep other owner) start (InboxCall.play json owner start calls)
      (outcome start (InboxCall.play json owner start calls)) :=
  (run_play json owner start calls).imp fun taken htaken hperformed =>
    perform_plain_congr hlength (hplain _ (label_of_mem_attempt htaken)) hperformed
      (hfits taken htaken)

theorem uncached_play {start : ObjectInbox} (h : Uncached start) {calls : List InboxCall}
    (hplain : ∀ call ∈ calls, call.plain = true) {taken : Taken ObjectInbox InboxCall}
    (htaken : taken ∈ InboxCall.play json owner start calls) : Uncached taken.after := by
  have hsteps := (run_play json owner start calls).guarded (P := Uncached)
    (C := fun taken => taken.label.plain = true)
    (fun _ _ _ hbefore hperformed hplain => hbefore.plain hplain hperformed) h
    fun taken htaken => hplain _ (label_of_mem_attempt htaken)
  exact (hsteps.2 taken htaken).2.2

theorem among_plain_run {start : ObjectInbox} (h : Uncached start) (calls : List InboxCall)
    (hplain : ∀ call ∈ calls, call.plain = true) (hcount : calls.length ≤ 1024) :
    Run (InboxStep (Json.among json.directLength
        ((InboxCall.play json owner start calls).map fun taken => taken.after.toSnapshot)) owner)
      start (InboxCall.play json owner start calls)
      (outcome start (InboxCall.play json owner start calls)) := by
  refine play_plain_run ?_ start calls hplain ?_
  · rfl
  intro taken htaken
  refine (uncached_play h hplain htaken).snapshot_among (List.mem_map_of_mem htaken) ?_
  rw [List.length_map, ← List.length_map (f := Taken.label)]
  exact (map_label_attempt_sublist _ start calls).length_le.trans hcount

end Codecs

namespace Sample

open Security.Sample

section Lengths

/-- How long `serde_json` writes numbers, strings without escapes, and lists. -/
def numberLength : Nat → Nat → Nat
  | 0, _ => 1
  | fuel + 1, n => if n < 10 then 1 else numberLength fuel (n / 10) + 1

def byteLength (byte : UInt8) : Nat := if byte < 10 then 1 else if byte < 100 then 2 else 3

def listLength (items : List Nat) : Nat := items.sum + (items.length - 1) + 2

def bytesLength (bytes : Bytes) : Nat := listLength (bytes.map byteLength)

def wordLength (n : U64) : Nat := numberLength 20 n.val

def recordLength (record : DirectRecord) : Nat :=
  41 + wordLength record.revision + bytesLength record.id.1 + wordLength record.sequence +
    bytesLength record.object

def streamLength (stream : DirectStream) : Nat :=
  100 + bytesLength stream.author.1 + wordLength stream.revision + stream.topic.length +
    listLength (stream.recipients.map fun recipient => bytesLength recipient.1) +
    wordLength stream.floor + wordLength stream.recoveryFloor + wordLength stream.knownHead +
    listLength (stream.records.map recordLength)

def directLength (direct : List DirectStream) : Option Nat :=
  some (listLength (direct.map streamLength))

end Lengths

/-- A codec that remembers nothing, to find out which snapshots a run goes through. -/
def lenient : Json := ⟨fun _ => some [], fun _ => none, directLength⟩

/-- A codec that measures nothing. -/
def measureless : Json := ⟨fun _ => some [], fun _ => none, fun _ => some 0⟩

/-- The codec for a run of calls. -/
def jsonFor (owner : SecurityOwner) (start : ObjectInbox) (calls : List InboxCall) : Json :=
  Json.among directLength
    ((InboxCall.play lenient owner start calls).map fun taken => taken.after.toSnapshot)

/-- The member with id 2, admitted by the administrator. -/
def receiver : SecurityOwner := securityOwner pair.mls sframe (follower pair)

def emptyInbox : ObjectInbox := .new receiver.id receiver.epoch

/-- The administrator, whose last object had the given counter. -/
def author (last : U64) : Workspace ScriptGroup Bytes :=
  if last = 0 then leader pair
  else { leader pair with
    provider := (leader pair).provider.insert counterRecord (beBytes 8 1 ++ beBytes 8 last.val) }

def notes : Topic := ⟨utf8 "notes", isValid_notes⟩

/-- The publication of an id at a sequence. -/
def context (id : UInt8) (sequence : U64) : PublicationContext :=
  ⟨workspaceId, 1, notes, ident id, NonZeroU64.new sequence⟩

/-- A direct object of the administrator, as they protect it for an audience. -/
def directTo (recipients : List (Block 32)) (id : UInt8) (sequence last : U64) (payload : Bytes) :
    ObjectInbox.Staging :=
  let object : Outcome Bytes := do
    let aad ← (context id sequence).directAuthenticatedBytes recipients
    let (object, _) ← pair.mls.protectObject sframe (author last) aad payload
    pure object
  ⟨context id sequence, recipients, none, object.toOption.getD []⟩

/-- A direct object to the receiver. -/
def direct (id : UInt8) (sequence last : U64) (payload : Bytes) : ObjectInbox.Staging :=
  directTo [block 2] id sequence last payload

/-- The publisher log of the receiver before it publishes anything. -/
def silent : PublisherLog := .new receiver.id (block 2) receiver.epoch

def acknowledged : InboxCall := .acknowledge (block 1) notes 1 (ident 1)

/-- Three objects of one stream arrive out of order and one of another audience after them, and
the first is acknowledged. -/
def busyCalls : List InboxCall :=
  [.stage (direct 1 1 0 [7]), .stage (direct 3 3 1 [9]), .stage (direct 2 2 2 [8]),
    .stage (directTo [block 2, block 3] 4 1 3 [6]), acknowledged]

def busyJson : Json := jsonFor receiver emptyInbox busyCalls

/-- These calls, with a restart after them. -/
def busyTrace : List (Taken ObjectInbox InboxCall) :=
  InboxCall.play busyJson receiver emptyInbox (busyCalls ++ [.reload silent])

theorem busyJson_lawful : busyJson.Lawful := Json.among_lawful _ _

theorem busyTrace_run : Run (InboxStep busyJson receiver) emptyInbox busyTrace
    (outcome emptyInbox busyTrace) := by
  apply InboxCall.play_run
  intro log hlog
  have hsilent : log = silent := by simpa [busyCalls, acknowledged] using hlog
  rw [hsilent]
  exact ⟨[], Relation.ReflTransGen.refl⟩

/-- An object whose audience holds its own author is received. -/
def echoCalls : List InboxCall := [.stage (directTo [block 1, block 2] 1 1 0 [7])]

def echoJson : Json := jsonFor receiver emptyInbox echoCalls

def echoTrace : List (Taken ObjectInbox InboxCall) :=
  InboxCall.play echoJson receiver emptyInbox echoCalls

/-- The largest payload there is, with every byte as often as any other. The sample frame leaves
it in the open, so its JSON is as long as a ciphertext's is on average. -/
def large : Bytes := (List.replicate 48 ((List.range 256).map UInt8.ofNat)).flatten

/-- Large objects at the sequences 2, 3 and 4, which together exceed the byte budget, and then
the first object of the stream. -/
def flood : List ObjectInbox.Staging :=
  [direct 2 2 0 large, direct 3 3 1 large, direct 4 4 2 large, direct 1 1 3 [7]]

def floodTrace (count : Nat) : List (Taken ObjectInbox InboxCall) :=
  InboxCall.play lenient receiver emptyInbox ((flood.take count).map .stage)

def flooded (count : Nat) : ObjectInbox := outcome emptyInbox (floodTrace count)

def floodJson (count : Nat) : Json :=
  Json.among directLength ((floodTrace count).map fun taken => taken.after.toSnapshot)

theorem floodJson_lawful (count : Nat) : (floodJson count).Lawful := Json.among_lawful _ _

theorem floodTrace_run (count : Nat) :
    Run (InboxStep (floodJson count) receiver) emptyInbox (floodTrace count) (flooded count) := by
  apply among_plain_run ⟨rfl, rfl, rfl⟩
  · intro call hcall
    obtain ⟨staging, _, rfl⟩ := List.mem_map.mp hcall
    rfl
  · rw [List.length_map]
    exact (List.length_take_le' count flood).trans (by decide)

end Sample

end Arachne.Delivery
