import Mathlib.Data.Nat.ModEq
import Arachne.Delivery.QueryCodecs
import Arachne.Runtime.MembershipReplies

/-! Workspace presence over control. A packet tells the state of its sender's workspace and some
of the direct heads that are meant for the peer; a cursor for each peer takes the packets round
the whole list. -/

namespace Arachne.Runtime

open ByteCodec Fallible Routing Transition
open Delivery (DirectHead Json ObjectInbox securityOwner)
open Security (Mls SFrame Workspace nameState)

def presenceMagic : Bytes := utf8 "DFPR" ++ [1]

def maxHeads : Nat := 8

def invalidPresence : String := "invalid workspace presence"

structure Seen where
  epoch : U64
  fingerprint : Block 32
  nameHead : Block 32
  instanceId : Block 16

structure Presence where
  seen : OrderedMap PeerId Seen
  headCursor : OrderedMap PeerId Nat
  instanceId : Block 16

/-- What presence reads and writes of the session. -/
structure PresenceSession (Group Signer : Type) where
  workspace : Option (Workspace Group Signer)
  inbox : Option ObjectInbox
  nodeId : PeerId
  policy : RoutingTable
  presence : Presence

/-- The positions of the heads that `packet` puts in. -/
def positions (n start : Nat) : List Nat :=
  (List.range (min n maxHeads)).map fun offset => (start + offset) % n

def writeHead (heads : List DirectHead) (position : Nat) : Outcome Bytes := do
  let head ← orFail heads[position]? "index out of bounds"
  let encoded ← head.toWire
  pure (beBytes 2 encoded.length ++ encoded)

def readHead : Reader DirectHead := do
  let length ← takeNat invalidPresence 2
  let encoded ← take invalidPresence length
  lift (DirectHead.fromWire encoded)

def readPresence : Reader (Seen × List DirectHead) := do
  let _ ← take invalidPresence 6
  let instanceId ← takeBlock invalidPresence 16
  let _ ← take invalidPresence 32
  let epoch ← takeU64 invalidPresence
  let fingerprint ← takeBlock invalidPresence 32
  let nameHead ← takeBlock invalidPresence 32
  let count ← takeNat invalidPresence 1
  check (maxHeads < count) invalidPresence
  let heads ← readMany readHead count
  let done ← atEnd
  check (done = false) invalidPresence
  return (⟨epoch, fingerprint, nameHead, instanceId⟩, heads)

section Heads

variable {heads sent : List DirectHead} {places : List Nat} {chunks : List Bytes} {n start i : Nat}

theorem lt_of_mem_positions (h : i ∈ positions n start) : i < n := by
  obtain ⟨offset, hoffset, rfl⟩ := List.mem_map.mp h
  have hn := List.mem_range.mp hoffset
  exact Nat.mod_lt _ (by omega)

theorem positions_nodup (n start : Nat) : (positions n start).Nodup := by
  refine List.Nodup.map_on ?_ List.nodup_range
  intro first hfirst second hsecond heq
  rw [List.mem_range, lt_min_iff] at hfirst hsecond
  have hmod : Nat.ModEq n first second := Nat.ModEq.add_left_cancel' start heq
  exact hmod.eq_of_lt_of_lt hfirst.1 hsecond.1

theorem writeHead_reads {chunk : Bytes} (h : writeHead heads i = .ok chunk) :
    ∃ head, heads[i]? = some head ∧ Reads readHead chunk head := by
  simp only [writeHead, bind_eq_ok, orFail_eq_ok, pure_eq_ok] at h
  obtain ⟨head, hhead, encoded, hencoded, rfl⟩ := h
  have hread := DirectHead.fromWire_eq_ok.mpr hencoded
  have hlength : encoded.length < 256 ^ 2 := by
    rw [DirectHead.fromWire, bind_eq_ok] at hread
    obtain ⟨_, hbound, _⟩ := hread
    exact (not_lt.mp (failIf_eq_ok.mp hbound)).trans_lt (by decide)
  exact ⟨head, hhead, (Reads.takeNat hlength).bind ((Reads.take rfl).bind_pure (.lift hread))⟩

theorem writeHeads_read (h : places.mapM (writeHead heads) = .ok chunks) :
    ∃ sent, sent.map some = places.map (heads[·]?) ∧ List.Forall₂ (Reads readHead) chunks sent := by
  have hchunks := mapM_eq_ok.mp h
  clear h
  induction hchunks with
  | nil => exact ⟨[], rfl, .nil⟩
  | cons hchunk _ ih =>
    obtain ⟨head, hhead, hread⟩ := writeHead_reads hchunk
    obtain ⟨sent, hsent, hreads⟩ := ih
    refine ⟨head :: sent, ?_, .cons hread hreads⟩
    rw [List.map_cons, List.map_cons, hhead, hsent]

theorem writeHeads_isOk (hwire : ∀ head ∈ heads, ∃ encoded, head.toWire = .ok encoded)
    (hplaces : ∀ i ∈ places, i < heads.length) :
    ∃ chunks, places.mapM (writeHead heads) = .ok chunks := by
  induction places with
  | nil => exact ⟨[], rfl⟩
  | cons i places ih =>
    rw [List.forall_mem_cons] at hplaces
    obtain ⟨chunks, hchunks⟩ := ih hplaces.2
    obtain ⟨encoded, hencoded⟩ := hwire _ (List.getElem_mem hplaces.1)
    refine ⟨(beBytes 2 encoded.length ++ encoded) :: chunks, ?_⟩
    rw [List.mapM_cons, writeHead, List.getElem?_eq_getElem hplaces.1, hchunks]
    simp only [orFail, ok_bind, hencoded]
    rfl

theorem readPresence_append {header : Bytes} {instanceId : Block 16}
    {id fingerprint nameHead : Block 32} {epoch : U64} (hheader : header.length = 6)
    (hreads : List.Forall₂ (Reads readHead) chunks sent) (hsent : sent.length ≤ maxHeads) :
    readPresence (header ++ (instanceId.1 ++ (id.1 ++ (beBytes 8 epoch.val ++ (fingerprint.1 ++
      (nameHead.1 ++ ([UInt8.ofNat sent.length] ++ chunks.flatten))))))) =
      .ok ((⟨epoch, fingerprint, nameHead, instanceId⟩, sent), []) := by
  have hheads := Reads.readMany hreads []
  rw [List.append_nil] at hheads
  simp only [readPresence, reader_bind_eq_ok, take_eq_ok, takeBlock_eq_ok, takeU64_eq_ok,
    takeNat_eq_ok, check_eq_ok, atEnd_eq_ok, pure_apply_eq_ok, beBytes_one]
  exact ⟨header, _, ⟨hheader, rfl⟩, _, _, rfl, _, _, ⟨id.2, rfl⟩, _, _, rfl, _, _, rfl, _, _, rfl,
    _, _, ⟨hsent.trans_lt (by decide), rfl⟩, (), _, ⟨not_lt.mpr hsent, rfl⟩, _, _, hheads, _, _,
    ⟨rfl, rfl⟩, (), _, ⟨by decide, rfl⟩, rfl⟩

end Heads

namespace PresenceSession

variable {Group Signer Staged Key : Type} (mls : Mls Group Signer Staged)
  (sframe : SFrame Group Key)
  (session : PresenceSession Group Signer) (owner : Workspace Group Signer) (peer : PeerId)

def subscribed (head : DirectHead) : Bool :=
  (session.policy.subscribed head.workspace head.policyRevision peer head.topic).toOption.getD false

/-- The heads that are for the peer. -/
def headsFor : Outcome (List DirectHead) := do
  let recipient ← mls.memberIdForEndpoint owner peer
  let heads ← match session.inbox with
    | some inbox => inbox.directHeadsFor (securityOwner mls sframe owner) recipient
    | none => pure []
  heads.filterM fun head =>
    if session.subscribed peer head then do
      let profile ← orFail owner.member "called `Option::unwrap()` on a `None` value"
      pure (decide ((head.author = profile.id ∨ profile.id ∈ head.recipients) ∧
        session.nodeId ≠ peer))
    else pure false

def basePacket (announce : Bool) : Outcome Bytes := do
  let name ← nameState owner.provider
  pure (presenceMagic ++ [if announce then 1 else 0] ++ session.presence.instanceId.1 ++
    owner.id.1 ++ beBytes 8 (mls.epoch owner).val ++ (mls.epochFingerprint owner).1 ++ name.head.1)

/-- Where the next packet starts in a list of `n` heads. -/
def start (n : Nat) : Nat := min ((session.presence.headCursor.find? peer).getD 0) n

def moveCursor (n : Nat) : PresenceSession Group Signer :=
  { session with presence := { session.presence with
      headCursor :=
        if maxHeads < n then
          session.presence.headCursor.insert peer ((session.start peer n + min n maxHeads) % n)
        else session.presence.headCursor.erase peer } }

def packet (announce : Bool) : Outcome (Bytes × PresenceSession Group Signer) := do
  let owner ← orFail session.workspace "no workspace"
  let heads ← session.headsFor mls sframe owner peer
  let base ← session.basePacket mls owner announce
  let encoded ← (positions heads.length (session.start peer heads.length)).mapM (writeHead heads)
  pure (base ++ [UInt8.ofNat (min heads.length maxHeads)] ++ encoded.flatten,
    session.moveCursor peer heads.length)

/-- The first part of `observe`. -/
def parse (bytes : Bytes) : Outcome (Seen × List DirectHead) := do
  failIf (bytes.length < 127 ∨ ¬ presenceMagic <+: bytes ∨ 1 < bytes.getD 5 0 ∨
    (bytes.drop 22).take 32 ≠ owner.id.1 ∨ peer = session.nodeId ∨ mls.isMember owner peer = false)
    invalidPresence
  let (found, _) ← readPresence bytes
  return found

/-- The receiver `session` knows `peer` as another member of the workspace. -/
def Knows (id : Block 32) : Prop :=
  owner.id = id ∧ peer ≠ session.nodeId ∧ mls.isMember owner peer = true

/-- Packets for one peer, while its list of heads stays the same. In between, the session does
whatever leaves the peer's cursor alone. -/
inductive Step (heads : List DirectHead) :
    Option Bytes → PresenceSession Group Signer → Prop where
  | packet {owner : Workspace Group Signer} {announce : Bool} {bytes : Bytes}
      {next : PresenceSession Group Signer} (howner : session.workspace = some owner)
      (hheads : session.headsFor mls sframe owner peer = .ok heads)
      (h : session.packet mls sframe peer announce = .ok (bytes, next)) :
      Step heads (some bytes) next
  | other {next : PresenceSession Group Signer}
      (hcursor : next.presence.headCursor.find? peer = session.presence.headCursor.find? peer) :
      Step heads none next

variable {mls sframe session owner peer} {next receiver first last : PresenceSession Group Signer}
  {reader : Workspace Group Signer} {sender : PeerId} {announce : Bool} {base bytes : Bytes}
  {chunks : List Bytes} {heads sent : List DirectHead}
  {trace : List (Taken (PresenceSession Group Signer) (Option Bytes))}

theorem parse_packet (hbase : session.basePacket mls owner announce = .ok base)
    (hreads : List.Forall₂ (Reads readHead) chunks sent) (hsent : sent.length ≤ maxHeads)
    (hknows : receiver.Knows mls reader sender owner.id) :
    ∃ seen, receiver.parse mls reader sender
      (base ++ [UInt8.ofNat sent.length] ++ chunks.flatten) = .ok (seen, sent) := by
  simp only [basePacket, bind_eq_ok, pure_eq_ok] at hbase
  obtain ⟨name, _, rfl⟩ := hbase
  obtain ⟨hid, hsender, hmember⟩ := hknows
  have hstarts : presenceMagic <+: presenceMagic ++ [if announce then 1 else 0] :=
    List.prefix_append _ _
  have hlength : (presenceMagic ++ [if announce then (1 : UInt8) else 0]).length = 6 := rfl
  have hflag : ¬ 1 < (presenceMagic ++ [if announce then (1 : UInt8) else 0]).getD 5 0 := by
    cases announce <;> decide
  generalize presenceMagic ++ [if announce then 1 else 0] = header at hstarts hlength hflag ⊢
  simp only [List.append_assoc]
  refine ⟨⟨mls.epoch owner, mls.epochFingerprint owner, name.head, session.presence.instanceId⟩, ?_⟩
  rw [parse, failIf_of_not, ok_bind, readPresence_append hlength hreads hsent]
  · rfl
  · simp only [not_or, not_not]
    refine ⟨?_, hstarts.trans (List.prefix_append _ _), ?_, ?_, hsender, by simp [hmember]⟩
    · simp only [List.length_append, hlength, session.presence.instanceId.2, owner.id.2,
        beBytes_length, (mls.epochFingerprint owner).2, name.head.2, List.length_singleton]
      omega
    · rwa [List.getD_eq_getElem?_getD, List.getElem?_append_left (by omega),
        ← List.getD_eq_getElem?_getD]
    · rw [← List.append_assoc, List.drop_left', List.take_left' owner.id.2, hid]
      rw [List.length_append, hlength, session.presence.instanceId.2]

/-- What a packet for a peer with these heads is made of. -/
theorem packet_eq_ok (howner : session.workspace = some owner)
    (hheads : session.headsFor mls sframe owner peer = .ok heads) :
    session.packet mls sframe peer announce = .ok (bytes, next) ↔
      ∃ base, session.basePacket mls owner announce = .ok base ∧ ∃ chunks,
        (positions heads.length (session.start peer heads.length)).mapM (writeHead heads) =
          .ok chunks ∧
        bytes = base ++ [UInt8.ofNat (min heads.length maxHeads)] ++ chunks.flatten ∧
        next = session.moveCursor peer heads.length := by
  rw [packet, howner]
  simp only [orFail, ok_bind, hheads, bind_eq_ok, pure_eq_ok, Prod.mk.injEq, eq_comm (a := bytes),
    eq_comm (a := next)]

theorem packet_isOk (howner : session.workspace = some owner)
    (hheads : session.headsFor mls sframe owner peer = .ok heads)
    (hbase : session.basePacket mls owner announce = .ok base)
    (hwire : ∀ head ∈ heads, ∃ encoded, head.toWire = .ok encoded) :
    ∃ bytes, session.packet mls sframe peer announce =
      .ok (bytes, session.moveCursor peer heads.length) := by
  obtain ⟨chunks, hchunks⟩ := writeHeads_isOk hwire fun i hi =>
    @lt_of_mem_positions _ (session.start peer heads.length) i hi
  exact ⟨_, (packet_eq_ok howner hheads).mpr ⟨base, hbase, chunks, hchunks, rfl, rfl⟩⟩

theorem start_moveCursor {n : Nat} (h : maxHeads < n) :
    (session.moveCursor peer n).start peer n = (session.start peer n + maxHeads) % n := by
  have hlt : (session.start peer n + maxHeads) % n < n := Nat.mod_lt _ (by omega)
  rw [start, moveCursor]
  simp only [if_pos h, OrderedMap.find?_insert, if_true, Option.getD_some, min_eq_right h.le]
  exact min_eq_left hlt.le

/-- The head at a distance from the start is put in once the packets go that far. -/
theorem reaches (hrun : Run (Step mls sframe · peer heads) first trace last) {distance : Nat}
    (hdistance : distance < heads.length)
    (hpackets : distance < maxHeads * (trace.filter (·.label.isSome)).length) :
    ∃ taken ∈ trace, taken.label.isSome = true ∧
      (first.start peer heads.length + distance) % heads.length ∈
        positions heads.length (taken.before.start peer heads.length) := by
  induction hrun generalizing distance with
  | nil => simp at hpackets
  | @cons session next _ label rest hstep _ ih =>
    cases hstep with
    | other hcursor =>
      obtain ⟨taken, htaken, hlabel, hmem⟩ := ih hdistance (by simpa using hpackets)
      refine ⟨taken, List.mem_cons_of_mem _ htaken, hlabel, ?_⟩
      have hstart : next.start peer heads.length = session.start peer heads.length := by
        rw [start, hcursor, start]
      rwa [hstart] at hmem
    | packet howner hheads h =>
      obtain ⟨_, _, _, _, _, rfl⟩ := (packet_eq_ok howner hheads).mp h
      by_cases hnear : distance < maxHeads
      · refine ⟨_, List.mem_cons_self, rfl, ?_⟩
        exact List.mem_map.mpr ⟨distance, List.mem_range.mpr (lt_min hdistance hnear), rfl⟩
      · have hcount : distance - maxHeads < maxHeads * (rest.filter (·.label.isSome)).length := by
          simp only [List.filter_cons, Option.isSome_some, if_true, List.length_cons] at hpackets
          rw [Nat.mul_succ] at hpackets
          omega
        obtain ⟨taken, htaken, hlabel, hmem⟩ := ih (by omega) hcount
        refine ⟨taken, List.mem_cons_of_mem _ htaken, hlabel, ?_⟩
        rw [start_moveCursor (by omega), Nat.mod_add_mod, Nat.add_assoc,
          Nat.add_sub_cancel' (not_lt.mp hnear)] at hmem
        exact hmem

/-- Presence packets go round the list of direct heads. A packet is built wherever its header and
every head can be written. It holds at most eight heads, from different positions of the list, all
of them in range, and a receiver that knows its sender reads just these from it. From whatever
cursor, as many packets as there are eights in the list hold all of it. -/
theorem presence_rotates (hrun : Run (Step mls sframe · peer heads) first trace last) :
    (∀ (session : PresenceSession Group Signer) owner announce base,
      session.workspace = some owner → session.headsFor mls sframe owner peer = .ok heads →
      session.basePacket mls owner announce = .ok base →
      (∀ head ∈ heads, ∃ encoded, head.toWire = .ok encoded) →
      ∃ bytes next, session.packet mls sframe peer announce = .ok (bytes, next)) ∧
    (∀ taken ∈ trace, ∀ bytes, taken.label = some bytes →
      (∀ i ∈ positions heads.length (taken.before.start peer heads.length), i < heads.length) ∧
      (positions heads.length (taken.before.start peer heads.length)).Nodup ∧
      ∃ owner, ∃ sent : List DirectHead, taken.before.workspace = some owner ∧
        sent.length ≤ maxHeads ∧ sent.map some =
          (positions heads.length (taken.before.start peer heads.length)).map (heads[·]?) ∧
        (heads.Nodup → sent.Nodup) ∧
        ∀ (receiver : PresenceSession Group Signer) reader sender,
          receiver.Knows mls reader sender owner.id →
          ∃ seen, receiver.parse mls reader sender bytes = .ok (seen, sent)) ∧
    ((heads.length + maxHeads - 1) / maxHeads ≤ (trace.filter (·.label.isSome)).length →
      ∀ i < heads.length, ∃ taken ∈ trace, taken.label.isSome = true ∧
        i ∈ positions heads.length (taken.before.start peer heads.length)) := by
  refine ⟨?_, ?_, ?_⟩
  · intro session owner announce base howner hheads hbase hwire
    obtain ⟨bytes, hpacket⟩ := packet_isOk howner hheads hbase hwire
    exact ⟨bytes, _, hpacket⟩
  · intro taken htaken bytes hlabel
    obtain ⟨_, _, _, _, hstep, _⟩ := hrun.split htaken
    obtain ⟨session, label, next⟩ := taken
    obtain rfl : label = some bytes := hlabel
    dsimp only at hstep ⊢
    refine ⟨fun i => lt_of_mem_positions, positions_nodup _ _, ?_⟩
    cases hstep with
    | @packet owner _ _ _ howner hheads h =>
      obtain ⟨base, hbase, chunks, hchunks, rfl, _⟩ := (packet_eq_ok howner hheads).mp h
      obtain ⟨sent, hsent, hreads⟩ := writeHeads_read hchunks
      have hlength : sent.length = min heads.length maxHeads := by
        simpa [positions] using congrArg List.length hsent
      have hmax : sent.length ≤ maxHeads := hlength ▸ min_le_right _ _
      rw [← hlength]
      refine ⟨owner, sent, howner, hmax, hsent, fun hnodup => ?_,
        fun receiver reader sender hknows =>
        parse_packet hbase hreads hmax hknows⟩
      have hplaces : (sent.map some).Nodup := by
        rw [hsent]
        refine (positions_nodup _ _).map_on fun i hi j _ heq => ?_
        exact (List.getElem?_inj (lt_of_mem_positions hi) hnodup).mp heq
      exact hplaces.of_map
  · intro hpackets i hi
    have hle : first.start peer heads.length ≤ heads.length := min_le_right _ _
    have hfar := Nat.mod_lt (i + (heads.length - first.start peer heads.length))
      (Nat.zero_lt_of_lt hi)
    obtain ⟨taken, htaken, hlabel, hmem⟩ := reaches hrun hfar (by
      simp only [maxHeads] at hpackets ⊢
      omega)
    refine ⟨taken, htaken, hlabel, ?_⟩
    rwa [Nat.add_mod_mod, Nat.add_left_comm, Nat.add_sub_cancel' hle, Nat.add_mod_right,
      Nat.mod_eq_of_lt hi] at hmem

end PresenceSession

section Sample

open PresenceSession
open Security.Sample (block workspaceId pair leader sframe)

def boards : List Topic :=
  (List.range 9).filterMap fun i => (Topic.new [UInt8.ofNat (97 + i)]).toOption

def boardHeads : List DirectHead :=
  boards.map fun topic => ⟨workspaceId, block 1, 1, 1, topic, [block 2], 1⟩

/-- The administrator, who has written to the first joiner on nine boards. -/
def announcer : PresenceSession Security.ScriptGroup Bytes where
  workspace := some (leader pair)
  inbox := some { ObjectInbox.new workspaceId 1 with
    direct := boards.map fun topic =>
      { Delivery.DirectStream.new (block 1, 1, topic.val, [block 2]) with knownHead := 1 } }
  nodeId := block 11
  policy := boards.foldl (fun table topic => (table.subscribe workspaceId 1 (block 12) topic).2)
    (RoutingTable.new.installVerifiedPolicy workspaceId 1
      (OrderedMap.empty.insert (block 12) .allTopics)).2
  presence := ⟨OrderedMap.empty, OrderedMap.empty, zeroBlock 16⟩

theorem presence_rotates_boards :
    boardHeads.length = 9 ∧ ∃ trace last, Run (Step pair.mls sframe · (block 12) boardHeads)
        announcer trace last ∧ trace.length = 2 ∧
      ∀ i < boardHeads.length, ∃ taken ∈ trace, taken.label.isSome = true ∧
        i ∈ positions boardHeads.length (taken.before.start (block 12) boardHeads.length) := by
  have hlength : boardHeads.length = 9 := by decide
  have hvalid : ∀ head ∈ boardHeads, head.validate = .ok () := by decide
  have hname : nameState (leader pair).provider = .ok Security.NameState.unnamed := by decide
  have hbuilt : ∀ session : PresenceSession Security.ScriptGroup Bytes,
      session.workspace = some (leader pair) →
      session.headsFor pair.mls sframe (leader pair) (block 12) = .ok boardHeads →
      ∃ bytes, Step pair.mls sframe session (block 12) boardHeads (some bytes)
        (session.moveCursor (block 12) boardHeads.length) := by
    intro session howner hheads
    obtain ⟨base, hbase⟩ : ∃ base, session.basePacket pair.mls (leader pair) false = .ok base := by
      rw [basePacket, hname]
      exact ⟨_, rfl⟩
    obtain ⟨bytes, hpacket⟩ := packet_isOk howner hheads hbase (by
      intro head hhead
      rw [DirectHead.toWire, hvalid head hhead]
      exact ⟨_, rfl⟩)
    exact ⟨bytes, .packet howner hheads hpacket⟩
  have hheads : announcer.headsFor pair.mls sframe (leader pair) (block 12) = .ok boardHeads := by
    decide +kernel
  have howner : announcer.workspace = some (leader pair) := rfl
  generalize announcer = session at hheads howner ⊢
  obtain ⟨_, hfirst⟩ := hbuilt session howner hheads
  obtain ⟨_, hsecond⟩ := hbuilt (session.moveCursor (block 12) boardHeads.length) howner hheads
  have hrun : Run (Step pair.mls sframe · (block 12) boardHeads) session _ _ :=
    .cons hfirst (.cons hsecond (.nil _))
  refine ⟨hlength, _, _, hrun, rfl, (presence_rotates hrun).2.2 ?_⟩
  rw [hlength]
  exact Nat.le_refl 2

end Sample

end Arachne.Runtime
