import Arachne.Security.Joining
import Arachne.Security.Object
import Arachne.Security.Script

/-! Concrete workspaces: an administrator who creates one, admits joiners and registers an
invitation. -/

namespace Arachne.Security

open ByteCodec

namespace Sample

def block (b : UInt8) : Block 32 := ⟨List.replicate 32 b, by simp⟩

def ident (b : UInt8) : Block 16 := ⟨List.replicate 16 b, by simp⟩

theorem one_ne : (1 : U64) ≠ 0 := by
  decide

theorem two_ne : (2 : U64) ≠ 0 := by
  decide

def credential (id endpoint : UInt8) : Credential :=
  .basic (memberCredentialText ++ (block id).1 ++ (block endpoint).1)

/-- A joiner's KeyPackage; the signature key stands for the encoding too. -/
def package (key id endpoint : UInt8) : KeyPackage :=
  ⟨⟨credential id endpoint, (block key).1⟩, suite, [key]⟩

def workspaceId : Block 32 := block 9

def administrator : Member := ⟨0, credential 1 11, (block 1).1⟩

def solo : PublicGroup :=
  ⟨⟨suite, workspaceId.1, 0, [], [],
    [⟨authorityKind, 1 :: 1 :: (block 1).1⟩, requiredCapabilities]⟩, ⟨[administrator], []⟩, []⟩

def admitting (packages : List KeyPackage) : StagedCommit :=
  ⟨packages.map fun package => Script.ownProposal (.add package), none,
    { solo.context with epoch := 1 },
    ⟨packages.foldl (fun members package => placeFrom 0 package.leafNode members) solo.members, []⟩,
    [1]⟩

theorem solo_wellFormed : solo.WellFormed :=
  ⟨by simp [solo, PublicGroup.members], by simp [solo, PublicGroup.members]⟩

theorem stages_admitting {packages : List KeyPackage}
    (h : (admitting packages).merged.WellFormed) :
    solo.Stages (.member 0) (admitting packages) := by
  have hadds : (admitting packages).adds = packages := by
    rw [StagedCommit.adds, admitting, List.filterMap_map]
    exact (congrFun List.filterMap_eq_map packages).trans (List.map_id _)
  have hkept : solo.kept (admitting packages) = solo.members := by
    rw [PublicGroup.kept, List.filter_eq_self]
    simp [admitting, Script.ownProposal]
  refine ⟨rfl, rfl, rfl, ?_, fun _ => ?_, h⟩
  · rw [PublicGroup.extensionsAfter, List.findSome?_eq_none_iff.mpr]
    · rfl
    · simp [admitting, Script.ownProposal]
  · have hactor : administrator ∈ solo.members := by simp [solo, PublicGroup.members]
    have hidentity : keepsIdentity administrator (admitting packages) := by
      simp [keepsIdentity, admitting]
    have hmembers := membersAfter_of_keepsIdentity solo_wellFormed hactor hidentity
    rw [hadds, hkept] at hmembers
    exact hmembers.symm

def registered : InvitationControl := ⟨block 7, 0, true, false, zeroBlock 32⟩

/-- The commit that registers an invitation in the group the joiners are in. -/
def registering (packages : List KeyPackage) : StagedCommit :=
  let extensions := [⟨authorityKind, 2 :: 1 :: (block 1).1 ++ encodePolicy true [registered]⟩,
    requiredCapabilities]
  ⟨[Script.ownProposal (.groupContextExtensions extensions)], none,
    { solo.context with epoch := 2, extensions }, (admitting packages).tree, [2]⟩

theorem stages_registering {packages : List KeyPackage}
    (h : (admitting packages).merged.WellFormed) :
    (admitting packages).merged.Stages (.member 0) (registering packages) := by
  refine ⟨rfl, rfl, rfl, rfl, fun _ => ?_, h.1, h.2⟩
  have hadds : (registering packages).adds = [] := rfl
  have hkept : (admitting packages).merged.kept (registering packages) =
      (admitting packages).merged.members := by
    rw [PublicGroup.kept, List.filter_eq_self]
    simp [registering, Script.ownProposal]
  have hmap : ∀ members : List Member, members.map (refresh (.member 0) none) = members :=
    fun members => List.map_id _
  rw [PublicGroup.membersAfter, hadds, hkept, List.foldl_nil]
  exact (hmap _).symm

/-- The administrator admits the joiners together, then registers an invitation. -/
def script (packages : List KeyPackage) (padding : List Nat)
    (h : (admitting packages).merged.WellFormed) : Script where
  start := solo
  commits := [admitting packages, registering packages]
  packages := packages
  padding := padding
  short := by simp
  wellFormed := solo_wellFormed
  stages
    | 0, _, hstaged => Option.some.inj hstaged ▸ stages_admitting h
    | 1, _, hstaged => Option.some.inj hstaged ▸ stages_registering h
    | n + 2, _, hstaged => by simp at hstaged
  kept
    | 0, _, hstaged => fun _ hmember =>
        Option.some.inj hstaged ▸ mem_foldl_place packages hmember
    | 1, _, hstaged => fun _ hmember => Option.some.inj hstaged ▸ hmember
    | n + 2, _, hstaged => by simp at hstaged

/-- Two joiners with their own ids and endpoints. -/
def pair : Script := script [package 2 2 12, package 3 3 13] [] ⟨by decide, by decide⟩

/-- The same two, with KeyPackages so large that the state with them in it exports to more than
an inline history can hold. -/
def crowded : Script :=
  script [package 2 2 12, package 3 3 13] [0, 70000] ⟨by decide, by decide⟩

/-- Two joiners with different ids on one endpoint. -/
def sharedEndpoint : Script := script [package 2 2 12, package 3 3 12] [] ⟨by decide, by decide⟩

/-- The administrator's workspace before the first commit. -/
def owner : Workspace ScriptGroup Bytes where
  provider := (OrderedMap.empty.insert (0 :: (block 1).1) []).insert (1 :: workspaceId.1)
    (ScriptGroup.code ⟨0, false, 0⟩)
  signer := (block 1).1
  group := ⟨0, false, 0⟩
  id := workspaceId
  endpoint := block 11
  member := some ⟨block 1, "Alex", false, by decide, by decide⟩
  admissions := []
  joinHistory := none
  invitationCheckpoints := []

theorem owner_sound (packages : List KeyPackage) (padding : List Nat)
    (h : (admitting packages).merged.WellFormed) :
    (script packages padding h).mls.Sound owner where
  ready := by
    refine ⟨by rfl, by rfl, rfl, rfl, ⟨administrator, ?_, rfl, rfl⟩, solo_wellFormed⟩
    exact List.mem_singleton_self administrator
  groupId := rfl
  ciphersuite := rfl
  credential := ⟨administrator, List.mem_singleton_self administrator, rfl, by rfl⟩

def signature : Block 64 := ⟨List.replicate 64 0, by simp⟩

def token : PublicGrant :=
  .ofParts workspaceId (block 5) (block 1) (block 7) signature signature

def authorization : AdmissionAuthorization := ⟨block 7, signature, signature⟩

/-- The request of a joiner, from the endpoint its credential binds. -/
def arrival (key id endpoint : UInt8) : Arrival :=
  let bytes := requestBytes token signature (package key id endpoint)
  ⟨block endpoint, bytes, ⟨workspaceId, block 5, block 1, package key id endpoint, authorization,
    Script.digest bytes, block endpoint⟩⟩

def batchStep : Step := (.admissionBatch [authorization, authorization], Script.commit 0)

/-- The administrator after admitting two joiners: a batch starts the history. -/
def leader (script : Script) : Workspace ScriptGroup Bytes :=
  { owner with
    provider := owner.provider.insert (1 :: workspaceId.1) (ScriptGroup.code ⟨1, false, 0⟩)
    group := ⟨1, false, 0⟩
    admissions := [arrival 2 2 12, arrival 3 3 13].map fun arrival =>
      ⟨Script.digest arrival.bytes, arrival.remoteEndpoint, block 1,
        ⟨1, Script.commit 0, Script.welcome 0, authorization⟩⟩
    joinHistory := some ⟨script.infoBytes 0 0, [batchStep]⟩ }

/-- The first of the joiners before the Welcome. -/
def joiner (script : Script) : PendingJoin Bytes where
  provider := (OrderedMap.empty.insert (0 :: (block 2).1) []).insert [2, 2] []
  signer := (block 2).1
  member := ⟨block 2, "Blair", false, by decide, by decide⟩
  endpoint := block 12
  workspace := workspaceId
  checkpointDigest := Script.digest (script.infoBytes 0 0)
  package := package 2 2 12
  request := none
  checkpoint := none
  invitation := none

/-- The proof the joiner starts from, and the one that leads to its own admission. -/
def foundingProof (script : Script) : JoinProof :=
  let digest := Script.digest (script.infoBytes 0 0)
  ⟨digest, solo, NameState.unnamed, inlineBytes false digest (script.infoBytes 0 0) [], 0⟩

def admissionProof (script : Script) : JoinProof :=
  let digest := Script.digest (script.infoBytes 0 0)
  ⟨digest, script.state 1, NameState.unnamed,
    inlineBytes true digest (script.infoBytes 0 0) [batchStep], 1⟩

/-- The first of the joiners, in the epoch that its admission led to. -/
def follower (script : Script) : Workspace ScriptGroup Bytes where
  provider := ((joiner script).provider.insert (1 :: workspaceId.1)
    (ScriptGroup.code ⟨1, false, 1⟩)).insert nameRecord NameState.unnamed.encode
  signer := (block 2).1
  group := ⟨1, false, 1⟩
  id := workspaceId
  endpoint := block 12
  member := some (joiner script).member
  admissions := []
  joinHistory := (leader script).joinHistory
  invitationCheckpoints := []

def registration : ManagementAction := .createInvitation (block 7) 0 false

/-- The administrator after registering the invitation. -/
def registrar (script : Script) : Workspace ScriptGroup Bytes :=
  { leader script with
    provider := owner.provider.insert (1 :: workspaceId.1) (ScriptGroup.code ⟨2, false, 0⟩)
    group := ⟨2, false, 0⟩
    joinHistory := some ⟨script.infoBytes 0 0,
      [batchStep, (.management registration, Script.commit 1)]⟩ }

/-- An SFrame header: small numbers stand in the first byte, others in full. -/
def frameHeader (id : Nat) (counter : U64) : Bytes :=
  if id < 8 ∧ counter.val < 8 then [UInt8.ofNat (id * 16 + counter.val)]
  else 0xff :: beBytes 8 id ++ beBytes 8 counter.val

/-- Frames that carry the payload in the open, with an empty tag. -/
def sframe : SFrame ScriptGroup Nat where
  exportSecret group := some [group.epoch]
  encryptionKey id _ := some id
  decryptionKey id _ := some id
  encrypt id counter payload _ := some (frameHeader id counter ++ payload ++ List.replicate 16 0)
  header frame :=
    match frame with
    | 0xff :: rest => some (beNat (rest.take 8), u64OfBytes ((rest.drop 8).take 8))
    | first :: _ => some (first.toNat / 16, Fin.ofNat _ (first.toNat % 16))
    | [] => none
  decrypt id frame _ :=
    match frame with
    | 0xff :: rest =>
        if beNat (rest.take 8) = id then some ((rest.drop 16).take (rest.length - 32)) else none
    | first :: rest =>
        if first.toNat / 16 = id then some (rest.take (rest.length - 16)) else none
    | [] => none

def frameHeaderLength (id : Nat) (counter : U64) : Nat := (frameHeader id counter).length

end Sample

end Arachne.Security
