import Arachne.Runtime.ProfileSet

/-! A member asks a peer for the names it lacks, page by page. The cursor of the next page is read
off the last profile of the page before, and the walk goes on while pages are full and hold
something that verifies. -/

namespace Arachne.Runtime

open ByteCodec Fallible Transition OrderedMap
open Security (Mls Workspace profileAuthor binding maxMemberProfile)

variable {Group Signer Staged : Type} {profiles : List Bytes}

/-- The codec with the side of the member that asks. -/
structure ProfileWire extends MembershipWire where
  profileQueryOut : ProfileQuery → Option Bytes
  pageIn : Bytes → Option (ProfilePage × Bytes)

namespace ProfileWire

variable (wire : ProfileWire)

def encodeProfileQuery (query : ProfileQuery) : Outcome Bytes :=
  encode (utf8 "DFPQ" ++ [1]) (wire.profileQueryOut query) 80

def decodeProfilePage (bytes : Bytes) : Outcome ProfilePage := do
  let page ← decode (utf8 "DFPS" ++ [1]) wire.pageIn maxControlReply bytes
  failIf (maxPageProfiles < page.profiles.length ∨
    ∃ profile ∈ page.profiles, profile = [] ∨ maxMemberProfile < profile.length)
      "invalid member profile page"
  pure page

/-- What is written is read back, and no message of its kind is too long. -/
structure Lawful : Prop where
  query (query : ProfileQuery) : ∃ body, wire.profileQueryOut query = some body ∧
    wire.profileQuery body = some (query, []) ∧ body.length ≤ 75
  page (page : ProfilePage) : page.profiles.length ≤ maxPageProfiles →
    (∀ profile ∈ page.profiles, profile.length ≤ maxMemberProfile) →
      ∃ body, wire.page page = some body ∧ wire.pageIn body = some (page, []) ∧
        body.length + 5 ≤ maxControlReply

end ProfileWire

structure ProfilePull where
  peer : Block 32
  after : Option (Block 32)
  digest : Block 32
deriving DecidableEq

/-- What a walk reads and writes of the session, and the requests it makes, the latest last. -/
structure WalkSession where
  profiles : ProfileSet
  pull : Option ProfilePull
  walked : OrderedMap (Block 32) (Block 32)
  requests : List (Block 32 × Bytes)
deriving DecidableEq

def maxPeerProfileSummaries : Nat := 64

/-- The peer is not asked again until its names change. -/
def WalkSession.endWalk (session : WalkSession) (pull : ProfilePull) : WalkSession :=
  let walked :=
    if (session.walked.find? pull.peer).isNone ∧ maxPeerProfileSummaries ≤ session.walked.size then
      match session.walked.entries with
      | [] => session.walked
      | (first, _) :: _ => session.walked.erase first
    else session.walked
  { session with walked := walked.insert pull.peer pull.digest }

section Walk

variable (mls : Mls Group Signer Staged) (wire : ProfileWire) (owner : Workspace Group Signer)

def startProfilePull (session : WalkSession) (pull : ProfilePull) : WalkSession :=
  match session.pull, wire.encodeProfileQuery ⟨owner.id, pull.after⟩ with
  | none, .ok query =>
      { session with pull := some pull, requests := session.requests ++ [(pull.peer, query)] }
  | _, _ => session

/-- The profiles of a page of this workspace. -/
def readPage (bytes : Bytes) : Option (List Bytes) :=
  match wire.decodeProfilePage bytes with
  | .ok page => if page.workspace = owner.id then some page.profiles else none
  | .error _ => none

/-- Where the walk goes on: after the member that the last profile of a full page names. -/
def nextCursor (after : Option (Block 32)) (profiles : List Bytes) : Option (Block 32) :=
  match profiles.getLast?.bind profileAuthor with
  | some last =>
      if profiles.length = maxPageProfiles ∧ (∀ id ∈ after, id < last) ∧
          ∃ profile ∈ profiles, (mls.verifyMemberProfile owner profile).isOk = true then some last
      else none
  | none => none

/-- `finish_profile_pull` on the reply of the pending request, which is empty if that failed. -/
def finishProfilePull (session : WalkSession) (reply : Bytes) : WalkSession :=
  match session.pull with
  | none => session
  | some pull =>
      let session := { session with pull := none }
      match readPage wire owner reply with
      | none => session.endWalk pull
      | some profiles =>
          let session := { session with
            profiles := (mergeInto mls owner session.profiles profiles maxProfileSetBytes).2 }
          match nextCursor mls owner pull.after profiles with
          | some last => startProfilePull wire owner session { pull with after := some last }
          | none => session.endWalk pull

/-- A reply arrives for the pending request. -/
def WalkStep (session : WalkSession) (reply : Bytes) (next : WalkSession) : Prop :=
  session.pull ≠ none ∧ next = finishProfilePull mls wire owner session reply

/-- A full page with a profile that verifies ends with one that does. -/
def EndsVerified (reply : Bytes) : Prop :=
  ∀ profiles ∈ readPage wire owner reply, profiles.length = maxPageProfiles →
    (∃ profile ∈ profiles, (mls.verifyMemberProfile owner profile).isOk = true) →
      ∀ last ∈ profiles.getLast?, (mls.verifyMemberProfile owner last).isOk = true

instance (reply : Bytes) : Decidable (EndsVerified mls wire owner reply) :=
  inferInstanceAs (Decidable (∀ _ ∈ _, _))

end Walk

section Bound

variable {mls : Mls Group Signer Staged} {wire : ProfileWire} {owner : Workspace Group Signer}
  {session : WalkSession} {pull : ProfilePull}

variable (wire owner session pull) in
theorem startProfilePull_cases : startProfilePull wire owner session pull = session ∨
    ∃ query, startProfilePull wire owner session pull = { session with
      pull := some pull, requests := session.requests ++ [(pull.peer, query)] } := by
  rw [startProfilePull]
  split
  · exact .inr ⟨_, rfl⟩
  · exact .inl rfl

theorem nextCursor_eq_some {after : Option (Block 32)} {last : Block 32}
    (h : nextCursor mls owner after profiles = some last) :
    (∃ bytes ∈ profiles.getLast?, profileAuthor bytes = some last) ∧
      profiles.length = maxPageProfiles ∧ (∀ id ∈ after, id < last) ∧
      ∃ profile ∈ profiles, (mls.verifyMemberProfile owner profile).isOk = true := by
  rw [nextCursor] at h
  split at h
  · rename_i id hid
    split at h
    · rename_i hfollow
      cases h
      obtain ⟨bytes, hbytes, hauthor⟩ := Option.bind_eq_some_iff.mp hid
      exact ⟨⟨bytes, hbytes, hauthor⟩, hfollow⟩
    · cases h
  · cases h

theorem finishProfilePull_cases (mls : Mls Group Signer Staged) (wire : ProfileWire)
    (owner : Workspace Group Signer) (hpull : session.pull = some pull) (reply : Bytes) :
    let next := finishProfilePull mls wire owner session reply
    (next.pull = none ∧ next.requests = session.requests) ∨
      ∃ profiles last, readPage wire owner reply = some profiles ∧
        nextCursor mls owner pull.after profiles = some last ∧
        next.pull = some { pull with after := some last } ∧
        next.requests.length = session.requests.length + 1 := by
  dsimp only
  rw [finishProfilePull, hpull]
  dsimp only
  split
  · exact .inl ⟨rfl, rfl⟩
  · rename_i profiles hpage
    split
    · rename_i last hlast
      rcases startProfilePull_cases wire owner _ _ with hstart | ⟨_, hstart⟩
      · rw [hstart]
        exact .inl ⟨rfl, rfl⟩
      · rw [hstart]
        exact .inr ⟨profiles, last, hpage, hlast, rfl, by simp⟩
    · exact .inl ⟨rfl, rfl⟩

/-- The cursors that a walk has followed: increasing ids of members, one for each request after
the first. -/
structure Followed (mls : Mls Group Signer Staged) (owner : Workspace Group Signer) (first : Nat)
    (session : WalkSession) (cursors : List (Block 32)) : Prop where
  increasing : cursors.Pairwise (· < ·)
  members : ∀ id ∈ cursors, ∃ member ∈ (mls.publicGroup owner.group).members,
    (binding member.credential).toOption.map Prod.fst = some id
  requests : session.requests.length = first + cursors.length
  current : ∀ pull ∈ session.pull, ∀ id ∈ cursors, ∃ after ∈ pull.after, id ≤ after

/-- The cursor that a reply makes the walk follow. -/
def followedBy (taken : Taken WalkSession Bytes) : List (Block 32) :=
  (taken.after.pull.bind (·.after)).toList

variable {first : Nat} {cursors : List (Block 32)}

theorem Followed.step {reply : Bytes} {next : WalkSession}
    (hfollowed : Followed mls owner first session cursors)
    (hstep : WalkStep mls wire owner session reply next)
    (hends : EndsVerified mls wire owner reply) :
    Followed mls owner first next (cursors ++ followedBy ⟨session, reply, next⟩) := by
  obtain ⟨hsome, rfl⟩ := hstep
  obtain ⟨pull, hpull⟩ := Option.ne_none_iff_exists'.mp hsome
  rcases finishProfilePull_cases mls wire owner hpull reply with
    ⟨hended, hrequests⟩ | ⟨profiles, last, hpage, hlast, hnext, hrequests⟩
  · have hnone : followedBy ⟨session, reply, finishProfilePull mls wire owner session reply⟩ =
        [] := by
      rw [followedBy, hended]
      rfl
    rw [hnone, List.append_nil]
    refine ⟨hfollowed.increasing, hfollowed.members, ?_, ?_⟩
    · rw [hrequests, hfollowed.requests]
    · rw [hended]
      nofun
  · have hcursor : followedBy ⟨session, reply, finishProfilePull mls wire owner session reply⟩ =
        [last] := by
      rw [followedBy, hnext]
      rfl
    rw [hcursor]
    obtain ⟨⟨bytes, hbytes, hauthor⟩, hfull, hafter, hverified⟩ := nextCursor_eq_some hlast
    have hlarger : ∀ id ∈ cursors, id < last := by
      intro id hid
      obtain ⟨after, hmem, hle⟩ := hfollowed.current pull hpull id hid
      exact lt_of_le_of_lt hle (hafter after hmem)
    have hok := hends profiles hpage hfull hverified bytes hbytes
    refine ⟨?_, ?_, ?_, ?_⟩
    · rw [List.pairwise_append]
      refine ⟨hfollowed.increasing, List.pairwise_singleton _ _, ?_⟩
      intro id hid other hother
      rw [List.mem_singleton.mp hother]
      exact hlarger id hid
    · intro id hid
      rcases List.mem_append.mp hid with hid | hid
      · exact hfollowed.members id hid
      · rw [List.mem_singleton.mp hid]
        cases hverify : mls.verifyMemberProfile owner bytes with
        | error message =>
          rw [hverify] at hok
          cases hok
        | ok profile =>
          obtain ⟨_, hid, hmember⟩ := Mls.verifyMemberProfile_eq_ok hverify
          rw [hauthor] at hid
          rw [Option.some.inj hid]
          exact hmember
    · rw [hrequests, hfollowed.requests, List.length_append]
      rfl
    · rw [hnext]
      rintro _ ⟨⟩ id hid
      refine ⟨last, rfl, ?_⟩
      rcases List.mem_append.mp hid with hid | hid
      · exact (hlarger id hid).le
      · rw [List.mem_singleton.mp hid]

theorem Followed.length_le (hfollowed : Followed mls owner first session cursors) :
    cursors.length ≤ (mls.publicGroup owner.group).members.length := by
  have hsubset : cursors ⊆ (mls.publicGroup owner.group).members.filterMap fun member =>
      (binding member.credential).toOption.map Prod.fst := by
    intro id hid
    obtain ⟨member, hmember, hbinding⟩ := hfollowed.members id hid
    exact List.mem_filterMap.mpr ⟨member, hmember, hbinding⟩
  have hnodup : cursors.Nodup := hfollowed.increasing.imp ne_of_lt
  exact (hnodup.subperm hsubset).length_le.trans (List.length_filterMap_le _ _)

end Bound

section Taken

variable {mls : Mls Group Signer Staged} {owner : Workspace Group Signer} {set : ProfileSet}
  {budget : Nat} {id : Block 32} {bytes : Bytes}

/-- A merge drops a profile that is too much for the budget together with the first few of the
profiles it adds. -/
def Overflows (mls : Mls Group Signer Staged) (owner : Workspace Group Signer) (set : ProfileSet)
    (profiles : List Bytes) (budget : Nat) (entry : Block 32 × Bytes) : Prop :=
  ∃ added dropped count,
    additions mls owner (set.recheck mls owner) profiles budget = .ok (added, dropped) ∧
    budget < retainedBytes
      (((set.recheck mls owner).retained.extend (added.take count)).insert entry.1 entry.2)

theorem fit_overflows {retained current : OrderedMap (Block 32) Bytes}
    {incoming : List (Block 32 × Bytes)} {entry : Block 32 × Bytes}
    (hsame : ∀ entry ∈ incoming, current.find? entry.1 = retained.find? entry.1)
    (hnodup : (incoming.map Prod.fst).Nodup)
    (h : entry ∈ (fit budget retained (retainedBytes current) incoming).2) :
    ∃ count, budget < retainedBytes ((current.extend
      ((fit budget retained (retainedBytes current) incoming).1.take count)).insert
        entry.1 entry.2) := by
  induction incoming generalizing current with
  | nil => cases h
  | cons first incoming ih =>
    rw [List.forall_mem_cons] at hsame
    rw [List.map_cons, List.nodup_cons] at hnodup
    have hprojected : retainedBytes current - entryBytes retained first.1 + first.2.length =
        retainedBytes (current.insert first.1 first.2) := by
      rw [retainedBytes_insert_eq, entryBytes_eq hsame.1]
    rw [fit] at h ⊢
    dsimp only at h ⊢
    rw [hprojected] at h ⊢
    split at h
    · rename_i hover
      rw [if_pos hover]
      rcases List.mem_cons.mp h with rfl | h
      · exact ⟨0, hover⟩
      · exact ih hsame.2 hnodup.2 h
    · rename_i hover
      rw [if_neg hover]
      obtain ⟨count, hcount⟩ := ih (fit_next hsame.2 hnodup.1) hnodup.2 h
      exact ⟨count + 1, hcount⟩

theorem verifiedOthers_eq_some {me : Block 32} (hmem : bytes ∈ profiles)
    (hverifies : VerifiesAs mls owner (id, bytes)) (hother : id ≠ me)
    (hunique : ∀ other ∈ profiles, profileAuthor other = some id → other = bytes) :
    (verifiedOthers mls owner me profiles).find? id = some bytes := by
  suffices hfold : ∀ incoming : OrderedMap (Block 32) Bytes,
      incoming.find? id = some bytes ∨ bytes ∈ profiles →
      (profiles.foldl (takeVerified mls owner me) incoming).find? id = some bytes from
    hfold .empty (.inr hmem)
  clear hmem
  induction profiles with
  | nil =>
    rintro incoming (hfind | hmem)
    · exact hfind
    · cases hmem
  | cons first profiles ih =>
    intro incoming hbefore
    rw [List.forall_mem_cons] at hunique
    rw [List.foldl_cons]
    apply ih hunique.2
    rw [takeVerified]
    by_cases hfirst : first = bytes
    · left
      obtain ⟨profile, hprofile, hid⟩ := hverifies
      dsimp only at hprofile hid
      rw [hfirst, hprofile]
      dsimp only
      rw [hid, if_neg hother, find?_insert_self]
    · rcases hbefore with hfind | hmem
      · left
        split
        · rename_i profile hprofile
          split
          · exact hfind
          · rw [find?_insert, if_neg, hfind]
            rintro rfl
            exact hfirst (hunique.1 (Mls.verifyMemberProfile_eq_ok hprofile).2.1)
        · exact hfind
      · rcases List.mem_cons.mp hmem with heq | hmem
        · exact absurd heq.symm hfirst
        · exact .inr hmem

/-- A profile that verifies stays, unless the merge brings another one of its member. -/
theorem mergeInto_keeps (hfind : set.retained.find? id = some bytes)
    (hok : (mls.verifyMemberProfile owner bytes).isOk = true)
    (hme : ∀ member, owner.member = some member → id ≠ member.id)
    (hnew : ∀ profile ∈ profiles, profileAuthor profile ≠ some id) :
    (mergeInto mls owner set profiles budget).2.retained.find? id = some bytes := by
  rw [mergeInto]
  split
  · exact hfind
  · have hrecheck : (set.recheck mls owner).retained.find? id = some bytes := by
      rw [ProfileSet.recheck]
      split
      · rw [find?_retain_eq_some]
        exact ⟨hfind, hok⟩
      · exact hfind
    dsimp only
    split
    · exact hrecheck
    · rename_i added dropped hadditions
      obtain ⟨member, own, kept, hmember, _, rfl, hfit⟩ := additions_eq_ok hadditions
      have hkept : kept = (fit budget _ _ _).1 := congrArg Prod.fst hfit
      dsimp only
      rw [find?_extend_of_notMem, hrecheck]
      rw [List.map_cons, List.mem_cons, not_or]
      refine ⟨hme member hmember, ?_⟩
      rintro hmem
      obtain ⟨entry, hentry, heq⟩ := List.mem_map.mp hmem
      rw [hkept] at hentry
      obtain ⟨hprofile, _, profile, hverify, hid⟩ := kept_verified hentry
      apply hnew _ hprofile
      rw [(Mls.verifyMemberProfile_eq_ok hverify).2.1, hid, heq]

/-- A profile of the batch that verifies is retained, or it does not fit. -/
theorem mergeInto_takes (set : ProfileSet) (hsized : ¬Oversized profiles)
    (hsign : ∀ service, ∃ own, mls.signProfile owner service = .ok own)
    (hmem : bytes ∈ profiles) (hverifies : VerifiesAs mls owner (id, bytes))
    (hme : ∀ member, owner.member = some member → id ≠ member.id)
    (hunique : ∀ other ∈ profiles, profileAuthor other = some id → other = bytes) :
    (mergeInto mls owner set profiles budget).2.retained.find? id = some bytes ∨
      Overflows mls owner set profiles budget (id, bytes) := by
  rw [mergeInto, if_neg hsized]
  dsimp only
  cases hadditions : additions mls owner (set.recheck mls owner) profiles budget with
  | error message =>
    obtain ⟨own, hown⟩ := hsign (set.recheck mls owner).service
    have hmember : ∃ member, owner.member = some member := by
      simp only [Mls.signProfile, bind_eq_ok, orFail_eq_ok] at hown
      exact hown.imp fun _ h => h.1
    obtain ⟨member, hmember⟩ := hmember
    rw [additions, hown, hmember] at hadditions
    cases hadditions
  | ok result =>
    obtain ⟨added, dropped⟩ := result
    have hnodup := additions_nodup hadditions
    obtain ⟨member, own, kept, hmember, _, rfl, hfit⟩ := additions_eq_ok hadditions
    have hincoming := verifiedOthers_eq_some hmem hverifies (hme member hmember) hunique
    rw [← mem_entries_iff] at hincoming
    have hsame := insert_own_same mls owner (set.recheck mls owner).retained member.id own profiles
    rcases mem_fit budget (set.recheck mls owner).retained
        (retainedBytes ((set.recheck mls owner).retained.insert member.id own)) hincoming with
      hkept | hdropped
    · left
      rw [← hfit] at hkept
      exact find?_extend_of_mem hnodup (List.mem_cons_of_mem _ hkept)
    · right
      obtain ⟨count, hcount⟩ := fit_overflows hsame (keys_nodup _) hdropped
      rw [← hfit] at hcount
      exact ⟨_, dropped, count + 1, hadditions, hcount⟩

end Taken

section Honest

variable {mls : Mls Group Signer Staged} {wire : ProfileWire}
  {owner peerOwner : Workspace Group Signer} {retained : OrderedMap (Block 32) Bytes}
  {session : WalkSession} {after : Option (Block 32)}

/-- A peer in the same workspace that knows the walker, and whose profiles can be sent. -/
structure NamedPeer (mls : Mls Group Signer Staged) (owner peerOwner : Workspace Group Signer)
    (retained : OrderedMap (Block 32) Bytes) : Prop where
  workspace : peerOwner.id = owner.id
  member : mls.isMember peerOwner owner.endpoint = true
  profiles : Named retained

/-- A peer in the same workspace that knows the walker, with a set that merges have left. -/
structure HonestPeer (mls : Mls Group Signer Staged) (owner peerOwner : Workspace Group Signer)
    (retained : OrderedMap (Block 32) Bytes) : Prop where
  workspace : peerOwner.id = owner.id
  member : mls.isMember peerOwner owner.endpoint = true
  merged : ∃ states me trace set,
    Run (ProfileStep mls states me maxProfileSetBytes) .empty trace set ∧ set.retained = retained

theorem HonestPeer.named (hsigns : mls.SignsShort)
    (h : HonestPeer mls owner peerOwner retained) : NamedPeer mls owner peerOwner retained := by
  obtain ⟨_, _, _, set, hrun, rfl⟩ := h.merged
  exact ⟨h.workspace, h.member, named_of_run hsigns hrun⟩

/-- The peer answers the latest request from the set it has. -/
def answerTo (mls : Mls Group Signer Staged) (wire : ProfileWire)
    (owner peerOwner : Workspace Group Signer) (retained : OrderedMap (Block 32) Bytes)
    (session : WalkSession) : Bytes :=
  match session.requests.getLast? with
  | some (_, query) =>
      profilePageReply mls wire.toMembershipWire (some peerOwner) retained owner.endpoint query
  | none => []

def HonestStep (mls : Mls Group Signer Staged) (wire : ProfileWire)
    (owner peerOwner : Workspace Group Signer) (retained : OrderedMap (Block 32) Bytes)
    (session : WalkSession) (reply : Bytes) (next : WalkSession) : Prop :=
  WalkStep mls wire owner session reply next ∧
    reply = answerTo mls wire owner peerOwner retained session

/-- The pages of a set: each starts where the one before ended. -/
def pageAt (retained : OrderedMap (Block 32) Bytes) (start : Nat) : List Bytes :=
  ((retained.entries.drop start).map Prod.snd).take maxPageProfiles

/-- Every full page of the peer holds a profile that the walker's roster verifies. -/
def PagesVerify (mls : Mls Group Signer Staged) (owner : Workspace Group Signer)
    (retained : OrderedMap (Block 32) Bytes) : Prop :=
  ∀ page, (pageAt retained (page * maxPageProfiles)).length = maxPageProfiles →
    ∃ profile ∈ pageAt retained (page * maxPageProfiles),
      (mls.verifyMemberProfile owner profile).isOk = true

theorem decode_append {α : Type} {opening body : Bytes} {value : Bytes → Option (α × Bytes)}
    {limit : Nat} {a : α} (hlimit : (opening ++ body).length ≤ limit)
    (hvalue : value body = some (a, [])) :
    decode opening value limit (opening ++ body) = .ok a := by
  have hopening : opening.isPrefixOf? (opening ++ body) = some body := by
    rw [List.isPrefixOf?_eq_some_iff_append_eq]
  rw [decode, failIf_of_not (Nat.not_lt.mpr hlimit), ok_bind, hopening, orFail_some, ok_bind,
    hvalue, orFail_some, ok_bind]
  dsimp only
  rw [failIf_of_not (by simp), ok_bind]
  rfl

theorem mem_pageAt {start : Nat} {profile : Bytes} (h : profile ∈ pageAt retained start) :
    ∃ id, (id, profile) ∈ retained.entries.drop start := by
  obtain ⟨⟨id, bytes⟩, hentry, rfl⟩ := List.mem_map.mp (List.mem_of_mem_take h)
  exact ⟨id, hentry⟩

theorem Named.author (hnamed : Named retained) {id : Block 32}
    {bytes : Bytes} (h : (id, bytes) ∈ retained.entries) :
    profileAuthor bytes = some id ∧ bytes.length ≤ maxMemberProfile :=
  hnamed id bytes ((mem_entries_iff _ _ _).mp h)

theorem Named.page_bounds (hnamed : Named retained) (start : Nat) :
    (pageAt retained start).length ≤ maxPageProfiles ∧
      ∀ profile ∈ pageAt retained start, profile ≠ [] ∧ profile.length ≤ maxMemberProfile := by
  constructor
  · exact List.length_take_le _ _
  · intro profile hprofile
    obtain ⟨id, hentry⟩ := mem_pageAt hprofile
    have hauthor := hnamed.author (List.mem_of_mem_drop hentry)
    refine ⟨?_, hauthor.2⟩
    rintro rfl
    cases hauthor.1

theorem Named.sized (hnamed : Named retained) (start : Nat) :
    ¬Oversized (pageAt retained start) := by
  obtain ⟨hlength, hprofiles⟩ := hnamed.page_bounds start
  rintro (hmany | ⟨profile, hmem, hlong⟩)
  · have hrequest : maxPageProfiles ≤ maxRequestProfiles := by decide
    omega
  · exact absurd hlong (Nat.not_lt.mpr (hprofiles profile hmem).2)

theorem encodeProfileQuery_ok (hwire : wire.Lawful) (query : ProfileQuery) :
    ∃ bytes, wire.encodeProfileQuery query = .ok bytes ∧
      wire.decodeProfileQuery bytes = .ok query := by
  obtain ⟨body, hout, hin, hlength⟩ := hwire.query query
  have hlimit : (utf8 "DFPQ" ++ [1] ++ body).length ≤ 80 := by
    have hopening : (utf8 "DFPQ" ++ [1]).length = 5 := by decide
    rw [List.length_append, hopening]
    omega
  refine ⟨utf8 "DFPQ" ++ [1] ++ body, ?_, decode_append hlimit hin⟩
  rw [ProfileWire.encodeProfileQuery, encode, hout, orFail_some, ok_bind,
    failIf_of_not (Nat.not_lt.mpr hlimit), ok_bind]
  rfl

/-- The walker reads the page that the peer has from where the query asks. -/
theorem readPage_honest (hwire : wire.Lawful) (hpeer : NamedPeer mls owner peerOwner retained)
    {start : Nat} {query : Bytes} (hquery : wire.decodeProfileQuery query = .ok ⟨owner.id, after⟩)
    (hstart : (retained.entries.filter fun entry =>
      after.all fun id => decide (id < entry.1)) = retained.entries.drop start) :
    readPage wire owner (profilePageReply mls wire.toMembershipWire (some peerOwner) retained
      owner.endpoint query) = some (pageAt retained start) := by
  have hserved : servedPage mls wire.toMembershipWire (some peerOwner) retained owner.endpoint
      query = ⟨owner.id, pageAt retained start⟩ := by
    rw [servedPage, hquery]
    dsimp only
    rw [if_pos ⟨hpeer.workspace.symm, hpeer.member⟩, hpeer.workspace, hstart]
    rfl
  obtain ⟨hlength, hprofiles⟩ := hpeer.profiles.page_bounds start
  obtain ⟨body, hout, hin, hbody⟩ := hwire.page ⟨owner.id, pageAt retained start⟩ hlength
    fun profile hprofile => (hprofiles profile hprofile).2
  have hlimit : (utf8 "DFPS" ++ [1] ++ body).length ≤ maxControlReply := by
    have hopening : (utf8 "DFPS" ++ [1]).length = 5 := by decide
    rw [List.length_append, hopening]
    omega
  have hreply : profilePageReply mls wire.toMembershipWire (some peerOwner) retained
      owner.endpoint query = utf8 "DFPS" ++ [1] ++ body := by
    rw [profilePageReply, hserved, MembershipWire.encodePage,
      failIf_of_not (Nat.not_lt.mpr hlength), ok_bind, encode, hout, orFail_some, ok_bind,
      failIf_of_not (Nat.not_lt.mpr hlimit), ok_bind]
    rfl
  have hpage : wire.decodeProfilePage (utf8 "DFPS" ++ [1] ++ body) =
      .ok ⟨owner.id, pageAt retained start⟩ := by
    rw [ProfileWire.decodeProfilePage, decode_append hlimit hin, ok_bind, failIf_of_not, ok_bind]
    · rfl
    · rintro (hmany | ⟨profile, hmem, hempty | hlong⟩)
      · exact absurd hmany (Nat.not_lt.mpr hlength)
      · exact (hprofiles profile hmem).1 hempty
      · exact absurd hlong (Nat.not_lt.mpr (hprofiles profile hmem).2)
  rw [hreply, readPage, hpage]
  dsimp only
  rw [if_pos rfl]

/-- What a walk from a position on leaves: the profiles from there on that verify, unless they do
not fit, and those it does not meet. -/
structure Collects (mls : Mls Group Signer Staged) (wire : ProfileWire)
    (owner : Workspace Group Signer) (retained : OrderedMap (Block 32) Bytes) (start : Nat)
    (session : WalkSession) (trace : List (Taken WalkSession Bytes)) (last : WalkSession) :
    Prop where
  ended : last.pull = none
  keeps : ∀ id bytes, session.profiles.retained.find? id = some bytes →
    (mls.verifyMemberProfile owner bytes).isOk = true →
    (∀ member, owner.member = some member → id ≠ member.id) →
    id ∉ (retained.entries.drop start).map Prod.fst → last.profiles.retained.find? id = some bytes
  takes : ∀ id bytes, (id, bytes) ∈ retained.entries.drop start → VerifiesAs mls owner (id, bytes) →
    (∀ member, owner.member = some member → id ≠ member.id) →
    last.profiles.retained.find? id = some bytes ∨ ∃ taken ∈ trace,
      ∃ profiles ∈ readPage wire owner taken.label,
        Overflows mls owner taken.before.profiles profiles maxProfileSetBytes (id, bytes)

theorem Named.unique (hnamed : Named retained) {start : Nat}
    {id : Block 32} {bytes : Bytes} (h : (id, bytes) ∈ retained.entries.drop start) :
    ∀ other ∈ pageAt retained start, profileAuthor other = some id → other = bytes := by
  intro other hother hauthor
  obtain ⟨id', hentry⟩ := mem_pageAt hother
  have hentry := List.mem_of_mem_drop hentry
  rw [(hnamed.author hentry).1] at hauthor
  cases hauthor
  rw [mem_entries_iff] at hentry
  have hfind := (mem_entries_iff _ _ _).mp (List.mem_of_mem_drop h)
  exact Option.some.inj (hentry.symm.trans hfind)

theorem Named.not_on_page (hnamed : Named retained) {start : Nat}
    {id : Block 32} (h : id ∉ (retained.entries.drop start).map Prod.fst) :
    ∀ profile ∈ pageAt retained start, profileAuthor profile ≠ some id := by
  intro profile hprofile hauthor
  obtain ⟨id', hentry⟩ := mem_pageAt hprofile
  rw [(hnamed.author (List.mem_of_mem_drop hentry)).1] at hauthor
  cases hauthor
  exact h (List.mem_map_of_mem hentry)

theorem mem_drop_cases {start : Nat} {id : Block 32} {bytes : Bytes}
    (h : (id, bytes) ∈ retained.entries.drop start) :
    (bytes ∈ pageAt retained start ∧
        id ∉ (retained.entries.drop (start + maxPageProfiles)).map Prod.fst) ∨
      (id, bytes) ∈ retained.entries.drop (start + maxPageProfiles) := by
  have hnodup : ((retained.entries.drop start).map Prod.fst).Nodup := by
    rw [List.map_drop]
    exact (List.drop_sublist _ _).nodup retained.keys_nodup
  rw [← List.take_append_drop maxPageProfiles (retained.entries.drop start), List.drop_drop,
    List.map_append, List.nodup_append'] at hnodup
  rw [← List.take_append_drop maxPageProfiles (retained.entries.drop start), List.drop_drop,
    List.mem_append] at h
  refine h.imp_left fun hpage => ⟨?_, ?_⟩
  · rw [pageAt, ← List.map_take]
    exact List.mem_map_of_mem hpage
  · exact fun hlater => hnodup.2.2 (List.mem_map_of_mem hpage) hlater

theorem isOk_of_verifiesAs {entry : Block 32 × Bytes} (h : VerifiesAs mls owner entry) :
    (mls.verifyMemberProfile owner entry.2).isOk = true := by
  obtain ⟨profile, hprofile, _⟩ := h
  rw [hprofile]
  rfl

/-- A full page sends the walk on to where the next one starts. -/
theorem nextCursor_pageAt (hnamed : Named retained) {start : Nat}
    (hstart : (retained.entries.filter fun entry =>
      after.all fun id => decide (id < entry.1)) = retained.entries.drop start)
    (hfull : (pageAt retained start).length = maxPageProfiles)
    (hverified : ∃ profile ∈ pageAt retained start,
      (mls.verifyMemberProfile owner profile).isOk = true) :
    ∃ last, nextCursor mls owner after (pageAt retained start) = some last ∧
      (retained.entries.filter fun entry => (some last).all fun id => decide (id < entry.1)) =
        retained.entries.drop (start + maxPageProfiles) := by
  have hlength : maxPageProfiles ≤ (retained.entries.drop start).length := by
    rw [pageAt, List.length_take, List.length_map] at hfull
    omega
  have hindex : maxPageProfiles - 1 < (retained.entries.drop start).length := by
    have hpos : 0 < maxPageProfiles := by decide
    omega
  obtain ⟨⟨last, bytes⟩, hlast⟩ : ∃ entry, (retained.entries.drop start)[maxPageProfiles - 1]? =
      some entry := ⟨_, List.getElem?_eq_getElem hindex⟩
  have hmem := List.mem_of_getElem? hlast
  have hend : (pageAt retained start).getLast? = some bytes := by
    rw [List.getLast?_eq_getElem?, hfull, pageAt, List.getElem?_take_of_lt (by decide),
      List.getElem?_map, hlast]
    rfl
  have hafter : ∀ id ∈ after, id < last := by
    rw [← hstart, List.mem_filter] at hmem
    intro id hid
    cases hid
    simpa using hmem.2
  refine ⟨last, ?_, ?_⟩
  · rw [nextCursor, hend, Option.bind_some, (hnamed.author (List.mem_of_mem_drop hmem)).1]
    dsimp only
    rw [if_pos ⟨hfull, hafter, hverified⟩]
  · rw [List.getElem?_drop] at hlast
    have hfilter := retained.filter_lt_of_getElem? hlast
    have hsum : start + (maxPageProfiles - 1) + 1 = start + maxPageProfiles := by
      have hpos : 0 < maxPageProfiles := by decide
      omega
    rw [← hsum, ← hfilter]
    refine List.filter_congr fun entry _ => ?_
    simp only [Option.all_some, decide_eq_decide]

/-- The session that asks for the page at a position. -/
structure Asks (wire : ProfileWire) (owner : Workspace Group Signer)
    (retained : OrderedMap (Block 32) Bytes) (session : WalkSession) (pull : ProfilePull)
    (start : Nat) : Prop where
  pending : session.pull = some pull
  request : ∃ query, session.requests.getLast? = some (pull.peer, query) ∧
    wire.decodeProfileQuery query = .ok ⟨owner.id, pull.after⟩
  start : (retained.entries.filter fun entry =>
    pull.after.all fun id => decide (id < entry.1)) = retained.entries.drop start

variable {pull : ProfilePull} {start : Nat} (hwire : wire.Lawful)
  (hpeer : NamedPeer mls owner peerOwner retained)

include hwire hpeer

theorem Asks.readPage (hasks : Asks wire owner retained session pull start) :
    Runtime.readPage wire owner (answerTo mls wire owner peerOwner retained session) =
      some (pageAt retained start) := by
  obtain ⟨query, hlast, hquery⟩ := hasks.request
  rw [answerTo, hlast]
  exact readPage_honest hwire hpeer hquery hasks.start

/-- The last page: what it holds is merged, and the walk ends. -/
theorem Asks.last_page (hsign : ∀ service, ∃ own, mls.signProfile owner service = .ok own)
    (hasks : Asks wire owner retained session pull start)
    (hshort : (pageAt retained start).length ≠ maxPageProfiles) :
    ∃ trace last, Run (HonestStep mls wire owner peerOwner retained) session trace last ∧
      Collects mls wire owner retained start session trace last := by
  have hread := hasks.readPage hwire hpeer
  have hnone : nextCursor mls owner pull.after (pageAt retained start) = none := by
    cases hcursor : nextCursor mls owner pull.after (pageAt retained start) with
    | none => rfl
    | some last => exact absurd (nextCursor_eq_some hcursor).2.1 hshort
  let reply := answerTo mls wire owner peerOwner retained session
  let next := finishProfilePull mls wire owner session reply
  have hnext : next.pull = none ∧ next.profiles =
      (mergeInto mls owner session.profiles (pageAt retained start) maxProfileSetBytes).2 := by
    simp only [next, reply, finishProfilePull, hasks.pending, hread, hnone]
    exact ⟨rfl, rfl⟩
  have hstep : HonestStep mls wire owner peerOwner retained session reply next :=
    ⟨⟨by rw [hasks.pending]; nofun, rfl⟩, rfl⟩
  -- A page that is not full is all that is left.
  have hall : pageAt retained start = (retained.entries.drop start).map Prod.snd := by
    rw [pageAt, List.take_of_length_le]
    rw [pageAt, List.length_take] at hshort
    omega
  refine ⟨_, next, .cons hstep (.nil _), hnext.1, ?_, ?_⟩
  · intro id bytes hfind hok hme hnot
    rw [hnext.2]
    exact mergeInto_keeps hfind hok hme (hpeer.profiles.not_on_page hnot)
  · intro id bytes hentry hverifies hme
    have hpage : bytes ∈ pageAt retained start := by
      rw [hall]
      exact List.mem_map_of_mem hentry
    rw [hnext.2]
    refine (mergeInto_takes _ (hpeer.profiles.sized start) hsign hpage hverifies hme
      (hpeer.profiles.unique hentry)).imp_right ?_
    intro hover
    exact ⟨_, List.mem_cons_self, _, hread, hover⟩

/-- A full page: what it holds is merged, and the walk asks for the page after it. -/
theorem Asks.full_page (hasks : Asks wire owner retained session pull start)
    (hfull : (pageAt retained start).length = maxPageProfiles)
    (hverified : ∃ profile ∈ pageAt retained start,
      (mls.verifyMemberProfile owner profile).isOk = true) :
    ∃ next pull', HonestStep mls wire owner peerOwner retained session
        (answerTo mls wire owner peerOwner retained session) next ∧
      Asks wire owner retained next pull' (start + maxPageProfiles) ∧
      next.profiles =
        (mergeInto mls owner session.profiles (pageAt retained start) maxProfileSetBytes).2 := by
  have hread := hasks.readPage hwire hpeer
  obtain ⟨last, hcursor, hrest⟩ := nextCursor_pageAt hpeer.profiles hasks.start hfull hverified
  obtain ⟨query, hencode, hdecode⟩ := encodeProfileQuery_ok hwire ⟨owner.id, some last⟩
  have hnext : finishProfilePull mls wire owner session
      (answerTo mls wire owner peerOwner retained session) =
        { session with
          profiles := (mergeInto mls owner session.profiles (pageAt retained start)
            maxProfileSetBytes).2
          pull := some { pull with after := some last }
          requests := session.requests ++ [(pull.peer, query)] } := by
    simp only [finishProfilePull, hasks.pending, hread, hcursor, startProfilePull, hencode]
  refine ⟨_, { pull with after := some last }, ⟨⟨by rw [hasks.pending]; nofun, rfl⟩, rfl⟩, ?_, ?_⟩
  · rw [hnext]
    exact ⟨rfl, ⟨query, by simp, hdecode⟩, hrest⟩
  · rw [hnext]

/-- A walk against an honest peer ends with all it could take. -/
theorem honest_walk (hsign : ∀ service, ∃ own, mls.signProfile owner service = .ok own)
    (hpages : PagesVerify mls owner retained) {left page : Nat}
    (hleft : retained.entries.length ≤ page * maxPageProfiles + left)
    (hasks : Asks wire owner retained session pull (page * maxPageProfiles)) :
    ∃ trace last, Run (HonestStep mls wire owner peerOwner retained) session trace last ∧
      Collects mls wire owner retained (page * maxPageProfiles) session trace last := by
  induction left generalizing page session pull with
  | zero =>
    refine hasks.last_page hwire hpeer hsign ?_
    rw [Nat.add_zero] at hleft
    rw [pageAt, List.drop_eq_nil_of_le hleft]
    decide
  | succ left ih =>
    by_cases hfull : (pageAt retained (page * maxPageProfiles)).length = maxPageProfiles
    · obtain ⟨next, pull', hstep, hnext, hprofiles⟩ :=
        hasks.full_page hwire hpeer hfull (hpages page hfull)
      rw [← Nat.succ_mul] at hnext
      have hread := hasks.readPage hwire hpeer
      have hmore : retained.entries.length ≤ (page + 1) * maxPageProfiles + left := by
        have hpos : 0 < maxPageProfiles := by decide
        rw [Nat.succ_mul]
        omega
      obtain ⟨trace, last, hrun, hcollects⟩ := ih hmore hnext
      have hkeeps : ∀ id bytes, next.profiles.retained.find? id = some bytes →
          (mls.verifyMemberProfile owner bytes).isOk = true →
          (∀ member, owner.member = some member → id ≠ member.id) →
          id ∉ (retained.entries.drop (page * maxPageProfiles + maxPageProfiles)).map Prod.fst →
          last.profiles.retained.find? id = some bytes := by
        rw [← Nat.succ_mul]
        exact hcollects.keeps
      refine ⟨_, last, .cons hstep hrun, hcollects.ended, ?_, ?_⟩
      · intro id bytes hfind hok hme hnot
        refine hkeeps id bytes ?_ hok hme ?_
        · rw [hprofiles]
          exact mergeInto_keeps hfind hok hme (hpeer.profiles.not_on_page hnot)
        · rintro hlater
          rw [← List.drop_drop] at hlater
          exact hnot ((List.map_subset _ (List.drop_subset _ _)) hlater)
      · intro id bytes hentry hverifies hme
        rcases mem_drop_cases hentry with ⟨hpage, hnot⟩ | hlater
        · rcases mergeInto_takes session.profiles (hpeer.profiles.sized _) hsign hpage hverifies
            hme (hpeer.profiles.unique hentry) with hfind | hover
          · left
            rw [← hprofiles] at hfind
            exact hkeeps id bytes hfind (isOk_of_verifiesAs hverifies) hme hnot
          · exact .inr ⟨_, List.mem_cons_self, _, hread, hover⟩
        · rw [← Nat.succ_mul] at hlater
          exact (hcollects.takes id bytes hlater hverifies hme).imp_right
            List.exists_mem_cons_of_exists
    · exact hasks.last_page hwire hpeer hsign hfull

end Honest

/-- Whatever a peer sends, a walk makes no more requests than there are members and one more, as
long as the pages it follows end with a profile that verifies. Against an honest peer whose full
pages all hold such a profile it ends, and what then lacks of the peer's profiles that verify did
not fit. -/
theorem profile_walk_bounded {Group Signer Staged : Type} (mls : Mls Group Signer Staged)
    (wire : ProfileWire) (owner : Workspace Group Signer) (session : WalkSession)
    (hidle : session.pull = none) (peer digest : Block 32) :
    (∀ trace last, Run (WalkStep mls wire owner)
        (startProfilePull wire owner session ⟨peer, none, digest⟩) trace last →
      (∀ taken ∈ trace, EndsVerified mls wire owner taken.label) →
      last.requests.length ≤
        session.requests.length + ((mls.publicGroup owner.group).members.length + 1)) ∧
    (wire.Lawful → mls.SignsShort → (∀ service, ∃ own, mls.signProfile owner service = .ok own) →
      ∀ peerOwner retained, HonestPeer mls owner peerOwner retained →
        PagesVerify mls owner retained →
        ∃ trace last, Run (HonestStep mls wire owner peerOwner retained)
            (startProfilePull wire owner session ⟨peer, none, digest⟩) trace last ∧
          last.pull = none ∧
          ∀ id bytes profile, retained.find? id = some bytes →
            mls.verifyMemberProfile owner bytes = .ok profile →
            (∀ member, owner.member = some member → id ≠ member.id) →
            last.profiles.retained.find? id = some bytes ∨ ∃ taken ∈ trace,
              ∃ profiles ∈ readPage wire owner taken.label,
                Overflows mls owner taken.before.profiles profiles maxProfileSetBytes
                  (id, bytes)) := by
  constructor
  · intro trace last hrun hends
    have hfirst : (startProfilePull wire owner session ⟨peer, none, digest⟩).requests.length ≤
        session.requests.length + 1 := by
      rcases startProfilePull_cases wire owner session ⟨peer, none, digest⟩ with
        hstart | ⟨_, hstart⟩
      · rw [hstart]
        omega
      · rw [hstart, List.length_append]
        rfl
    have hstart : Followed mls owner
        (startProfilePull wire owner session ⟨peer, none, digest⟩).requests.length
        (startProfilePull wire owner session ⟨peer, none, digest⟩) [] :=
      ⟨.nil, by simp, rfl, by simp⟩
    have hlast := hrun.accumulated followedBy (C := fun taken => EndsVerified mls wire owner
      taken.label) (fun _ _ _ _ hfollowed hstep hcond => hfollowed.step hstep hcond) hstart hends
    have hcount := hlast.requests
    have hbound := hlast.length_le
    omega
  · intro hwire hshort hsign peerOwner retained hhonest hpages
    have hpeer := hhonest.named hshort
    obtain ⟨query, hencode, hdecode⟩ := encodeProfileQuery_ok hwire ⟨owner.id, none⟩
    have hstart : startProfilePull wire owner session ⟨peer, none, digest⟩ =
        { session with
          pull := some ⟨peer, none, digest⟩, requests := session.requests ++ [(peer, query)] } := by
      rw [startProfilePull, hidle, hencode]
    have hasks : Asks wire owner retained
        (startProfilePull wire owner session ⟨peer, none, digest⟩) ⟨peer, none, digest⟩
        (0 * maxPageProfiles) := by
      rw [hstart]
      exact ⟨rfl, ⟨query, by simp, hdecode⟩, by simp⟩
    obtain ⟨trace, last, hrun, hcollects⟩ := honest_walk hwire hpeer hsign hpages
      (Nat.le_add_left _ _) hasks
    refine ⟨trace, last, hrun, hcollects.ended, ?_⟩
    intro id bytes profile hfind hverify hme
    have hauthor := (hpeer.profiles id bytes hfind).1
    rw [(Mls.verifyMemberProfile_eq_ok hverify).2.1] at hauthor
    refine hcollects.takes id bytes ?_ ⟨profile, hverify, Option.some.inj hauthor⟩ hme
    rw [Nat.zero_mul, List.drop_zero, mem_entries_iff]
    exact hfind

section Sample

open Security

def readSized : Reader Bytes := do
  let length ← takeNat "invalid page" 2
  take "invalid page" length

def readProfilePage : Reader ProfilePage := do
  let workspace ← takeBlock "invalid page" 32
  let count ← takeNat "invalid page" 1
  let profiles ← readMany readSized count
  pure ⟨workspace, profiles⟩

def readProfileQuery : Reader ProfileQuery := do
  let workspace ← takeBlock "invalid query" 32
  let kind ← takeNat "invalid query" 1
  if kind = 0 then pure ⟨workspace, none⟩
  else do
    let after ← takeBlock "invalid query" 32
    pure ⟨workspace, some after⟩

def profileQueryBytes (query : ProfileQuery) : Bytes :=
  query.workspace.1 ++
    match query.after with
    | none => beBytes 1 0
    | some after => beBytes 1 1 ++ after.1

def profilePageBytes (page : ProfilePage) : Bytes :=
  page.workspace.1 ++ (beBytes 1 page.profiles.length ++
    (page.profiles.map fun profile => beBytes 2 profile.length ++ profile).flatten)

/-- A codec that writes pages and queries with their lengths. -/
def walkWire : ProfileWire :=
  { plainWire with
    profileQuery := fun bytes => (readProfileQuery bytes).toOption
    page := fun page => some (profilePageBytes page)
    profileQueryOut := fun query => some (profileQueryBytes query)
    pageIn := fun bytes => (readProfilePage bytes).toOption }

theorem reads_profileQuery (query : ProfileQuery) :
    Reads readProfileQuery (profileQueryBytes query) query := by
  obtain ⟨workspace, after⟩ := query
  refine Reads.bind (Reads.takeBlock workspace) ?_
  cases after with
  | none =>
    exact Reads.bind_pure (Reads.takeNat (by decide)) (Reads.pure _)
  | some after =>
    refine Reads.bind (Reads.takeNat (by decide)) ?_
    exact Reads.bind_pure (Reads.takeBlock after) (Reads.pure _)

theorem reads_profilePage {page : ProfilePage} (hcount : page.profiles.length ≤ maxPageProfiles)
    (hsize : ∀ profile ∈ page.profiles, profile.length ≤ maxMemberProfile) :
    Reads readProfilePage (profilePageBytes page) page := by
  refine Reads.bind (Reads.takeBlock page.workspace) ?_
  refine Reads.bind (Reads.takeNat (Nat.lt_of_le_of_lt hcount (by decide))) ?_
  refine Reads.bind_pure (Reads.readMany ?_) (Reads.pure _)
  rw [List.forall₂_map_left_iff, List.forall₂_same]
  intro profile hprofile
  have hlength := hsize profile hprofile
  refine Reads.bind (Reads.takeNat (Nat.lt_of_le_of_lt hlength (by decide))) ?_
  exact Reads.take rfl

theorem length_profilePageBytes {page : ProfilePage}
    (hcount : page.profiles.length ≤ maxPageProfiles)
    (hsize : ∀ profile ∈ page.profiles, profile.length ≤ maxMemberProfile) :
    (profilePageBytes page).length + 5 ≤ maxControlReply := by
  have hsum : ((page.profiles.map fun profile => beBytes 2 profile.length ++ profile).map
      List.length).sum ≤ page.profiles.length * (maxMemberProfile + 2) := by
    rw [List.map_map]
    refine (List.sum_le_card_nsmul _ (maxMemberProfile + 2) ?_).trans (by simp)
    intro length hlength
    obtain ⟨profile, hprofile, rfl⟩ := List.mem_map.mp hlength
    have hprofile := hsize profile hprofile
    simp only [Function.comp_apply, List.length_append, beBytes_length]
    omega
  rw [profilePageBytes, List.length_append, List.length_append, page.workspace.2, beBytes_length,
    List.length_flatten]
  have hmul := Nat.mul_le_mul_right (maxMemberProfile + 2) hcount
  have hbound : 33 + maxPageProfiles * (maxMemberProfile + 2) + 5 ≤ maxControlReply := by decide
  omega

theorem walkWire_lawful : walkWire.Lawful where
  query query := by
    have hread := reads_profileQuery query []
    rw [List.append_nil] at hread
    refine ⟨profileQueryBytes query, rfl, ?_, ?_⟩
    · change (readProfileQuery (profileQueryBytes query)).toOption = some (query, [])
      rw [hread]
      rfl
    · obtain ⟨workspace, after⟩ := query
      rw [profileQueryBytes, List.length_append, workspace.2]
      cases after with
      | none =>
        dsimp only
        rw [beBytes_length]
        decide
      | some after =>
        dsimp only
        rw [List.length_append, beBytes_length, after.2]
        decide
  page page hcount hsize := by
    have hread := reads_profilePage hcount hsize []
    rw [List.append_nil] at hread
    refine ⟨profilePageBytes page, rfl, ?_, length_profilePageBytes hcount hsize⟩
    change (readProfilePage (profilePageBytes page)).toOption = some (page, [])
    rw [hread]
    rfl

def idleSession : WalkSession := ⟨.empty, none, .empty, []⟩

open Sample

/-- The session of the administrator once a walk over the first joiner's names has started. -/
def walking : WalkSession :=
  startProfilePull walkWire (viewAt 1) idleSession ⟨block 12, none, zeroBlock 32⟩

/-- Bytes that name a member and are no profile. -/
def junk (id : UInt8) : Bytes := List.replicate 37 0 ++ List.replicate 32 id

/-- A full page with one genuine name, which ends with whatever id the peer likes. -/
def lure (id : UInt8) : Bytes :=
  utf8 "DFPS" ++ [1] ++ profilePageBytes
    ⟨workspaceId, joinerProfile :: List.replicate 30 [0] ++ [junk id]⟩

/-- The administrator takes the reply to a page. -/
def walkNext (mls : Mls ScriptGroup Bytes ScriptGroup) : WalkSession → Bytes → WalkSession :=
  finishProfilePull mls walkWire (viewAt 1)

theorem run_walk {mls : Mls ScriptGroup Bytes ScriptGroup} {session : WalkSession}
    {replies : List Bytes}
    (h : ∀ taken ∈ play (walkNext mls) session replies, taken.before.pull ≠ none) :
    Run (WalkStep mls walkWire (viewAt 1)) session (play (walkNext mls) session replies)
      (replies.foldl (walkNext mls) session) :=
  play_run_of fun taken htaken => ⟨h taken htaken, after_of_mem_play htaken⟩

/-- Three members, and a fifth request. -/
theorem lured_walk :
    ∃ trace last, Run (WalkStep departing walkWire (viewAt 1)) walking trace last ∧
      (departing.publicGroup (viewAt 1).group).members.length = 3 ∧
      idleSession.requests = [] ∧ last.requests.length = 5 ∧ last.pull ≠ none := by
  have hwalk : (∀ taken ∈ play (walkNext departing) walking ([1, 2, 3, 4].map lure),
        taken.before.pull ≠ none) ∧
      (departing.publicGroup (viewAt 1).group).members.length = 3 ∧
      (([1, 2, 3, 4].map lure).foldl (walkNext departing) walking).requests.length = 5 ∧
      (([1, 2, 3, 4].map lure).foldl (walkNext departing) walking).pull ≠ none := by
    decide +kernel
  exact ⟨_, _, run_walk hwalk.1, hwalk.2.1, rfl, hwalk.2.2⟩

/-- A workspace of thirty-four. -/
def town : Mls ScriptGroup Bytes ScriptGroup :=
  { pair.mls with
    publicGroup := fun _ =>
      { pair.state 1 with
        tree := ⟨(List.range 34).map fun i =>
          ⟨i, credential (UInt8.ofNat (i + 1)) (UInt8.ofNat (i + 11)), []⟩, []⟩ } }

theorem town_signsShort : town.SignsShort := by
  rintro _ _ _ ⟨⟩
  decide

def profileOf (id : UInt8) : Bytes :=
  profileHeader ++ workspaceId.1 ++ (block id).1 ++ utf8 "Kim" ++ List.replicate 64 0

/-- The first joiner has merged the names of those who came after it. -/
def townNames : ProfileSet :=
  (mergeInto town (follower pair) .empty
    ((List.range 32).map fun i => profileOf (UInt8.ofNat (i + 3))) maxProfileSetBytes).2

theorem townNames_honest : HonestPeer town (viewAt 1) (follower pair) townNames.retained := by
  refine ⟨rfl, by decide +kernel, fun _ => follower pair, block 2, _, townNames,
    .cons (.merge ⟨follower pair, _⟩ ⟨fun _ => rfl, ?_⟩) (.nil _), rfl⟩
  rintro _ ⟨⟩
  rfl

/-- The two pages of these names. -/
def townPages : List Bytes :=
  [0, 32].map fun start =>
    utf8 "DFPS" ++ [1] ++ profilePageBytes ⟨workspaceId, pageAt townNames.retained start⟩

theorem townNames_pages : townNames.retained.entries.length = 33 ∧
    (∃ profile ∈ pageAt townNames.retained 0,
      (town.verifyMemberProfile (viewAt 1) profile).isOk = true) ∧
    townNames.retained.find? (block 34) = some (profileOf 34) ∧
    VerifiesAs town (viewAt 1) (block 34, profileOf 34) := by
  decide +kernel

theorem townNames_verify : PagesVerify town (viewAt 1) townNames.retained := by
  intro page hfull
  cases page with
  | zero =>
    rw [Nat.zero_mul]
    exact townNames_pages.2.1
  | succ page =>
    rw [pageAt, List.length_take, List.length_map, List.length_drop, townNames_pages.1,
      Nat.succ_mul] at hfull
    have hpage : maxPageProfiles = 32 := rfl
    omega

/-- A full page and the rest: two requests, and the last name is taken. -/
theorem profile_walk_bounded_town :
    HonestPeer town (viewAt 1) (follower pair) townNames.retained ∧
      PagesVerify town (viewAt 1) townNames.retained ∧
      (∃ trace last, Run (WalkStep town walkWire (viewAt 1)) walking trace last ∧
        (∀ taken ∈ trace, EndsVerified town walkWire (viewAt 1) taken.label) ∧
        last.pull = none ∧ last.requests.length = 2 ∧
        last.profiles.retained.find? (block 34) = some (profileOf 34) ∧
        last.requests.length ≤ idleSession.requests.length + (34 + 1)) ∧
      ∃ trace last, Run (HonestStep town walkWire (viewAt 1) (follower pair) townNames.retained)
          walking trace last ∧ last.pull = none ∧
        (last.profiles.retained.find? (block 34) = some (profileOf 34) ∨ ∃ taken ∈ trace,
          ∃ profiles ∈ readPage walkWire (viewAt 1) taken.label,
            Overflows town (viewAt 1) taken.before.profiles profiles maxProfileSetBytes
              (block 34, profileOf 34)) := by
  have hbounded := profile_walk_bounded town walkWire (viewAt 1) idleSession rfl (block 12)
    (zeroBlock 32)
  refine ⟨townNames_honest, townNames_verify, ?_, ?_⟩
  · have hwalk : (∀ taken ∈ play (walkNext town) walking townPages, taken.before.pull ≠ none) ∧
        (∀ taken ∈ play (walkNext town) walking townPages,
          EndsVerified town walkWire (viewAt 1) taken.label) ∧
        (townPages.foldl (walkNext town) walking).pull = none ∧
        (townPages.foldl (walkNext town) walking).requests.length = 2 ∧
        (townPages.foldl (walkNext town) walking).profiles.retained.find? (block 34) =
          some (profileOf 34) := by
      decide +kernel
    obtain ⟨hpending, hends, hwalked⟩ := hwalk
    have hrun := run_walk hpending
    exact ⟨_, _, hrun, hends, hwalked.1, hwalked.2.1, hwalked.2.2, hbounded.1 _ _ hrun hends⟩
  · obtain ⟨trace, last, hrun, hended, htakes⟩ := hbounded.2 walkWire_lawful town_signsShort
      (fun service => ⟨_, rfl⟩) _ _ townNames_honest townNames_verify
    obtain ⟨_, _, hfind, profile, hprofile, _⟩ := townNames_pages
    refine ⟨trace, last, hrun, hended, htakes _ _ profile hfind hprofile ?_⟩
    rintro _ ⟨⟩
    decide

end Sample

end Arachne.Runtime
