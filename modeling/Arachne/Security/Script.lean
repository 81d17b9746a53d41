import Arachne.Security.Admission
import Arachne.Security.Roster

/-! A concrete MLS in which the member at leaf 0 makes a fixed list of commits and the others
follow. Signatures are always accepted. It gives the model something to run on, and shows that
the assumptions on OpenMLS can be met. -/

namespace Arachne.Security

open ByteCodec

/-- One member's copy of the group: the number of commits merged, whether the next is pending,
and the leaf. -/
structure ScriptGroup where
  epoch : UInt8
  pending : Bool
  leaf : UInt8
  deriving DecidableEq

namespace ScriptGroup

def code (group : ScriptGroup) : Bytes :=
  [group.epoch, UInt8.ofNat group.pending.toNat, group.leaf]

def decode : Bytes → Option ScriptGroup
  | [epoch, pending, leaf] => some ⟨epoch, pending == 1, leaf⟩
  | _ => none

theorem decode_code (group : ScriptGroup) : decode group.code = some group := by
  obtain ⟨epoch, pending, leaf⟩ := group
  cases pending <;> rfl

end ScriptGroup

structure Script where
  start : PublicGroup
  commits : List StagedCommit
  packages : List KeyPackage
  /-- How many bytes the exported state of each epoch has beyond its first ones. -/
  padding : List Nat
  short : commits.length < 255
  wellFormed : start.WellFormed
  stages : ∀ i staged, commits[i]? = some staged →
    ((start :: commits.map StagedCommit.merged).getD i start).Stages (.member 0) staged
  kept : ∀ i staged, commits[i]? = some staged →
    ∀ member ∈ ((start :: commits.map StagedCommit.merged).getD i start).members,
      member ∈ staged.tree.members

namespace Script

variable (script : Script)

def states : List PublicGroup := script.start :: script.commits.map StagedCommit.merged

def state (i : UInt8) : PublicGroup := script.states.getD i.toNat script.start

def message (i : UInt8) : ProtocolMessage :=
  ⟨script.start.context.groupId, (script.state i).context.epoch, [i]⟩

def commit (i : UInt8) : Bytes := [2, i]

def welcome (i : UInt8) : Bytes := [3, i]

/-- The GroupInfo of an epoch that the member at a leaf exports; the signature tells which. -/
def info (i leaf : UInt8) : GroupInfo :=
  ⟨(script.state i).context, [], some (script.state i).tree, (script.state i).confirmationTag,
    leaf.toNat, [i, leaf]⟩

def infoBytes (i leaf : UInt8) : Bytes :=
  1 :: i :: leaf :: List.replicate (script.padding.getD i.toNat 0) 0

def digest (bytes : Bytes) : Block 32 :=
  ⟨List.replicate 32 (bytes.getLastD 0 + 1), by simp⟩

def save (provider : Provider) (group : ScriptGroup) : Owner ScriptGroup :=
  ⟨provider.insert (1 :: script.start.context.groupId) group.code, group⟩

def ownProposal (proposal : Proposal) : QueuedProposal := ⟨.member 0, true, proposal⟩

/-- The next commit of the member at leaf 0. -/
def next (group : ScriptGroup) : Option StagedCommit :=
  if group.pending = false ∧ group.leaf = 0 then script.commits[group.epoch.toNat]? else none

/-- The MLS of the script, over a hash of one's choice. -/
def hashing (hash : Bytes → Block 32) : Mls ScriptGroup Bytes ScriptGroup where
  sha256 := hash
  verifySignature _ _ _ := true
  decodeMessage
    | [2, i] => some (.protocol (script.message i))
    | [3, i] => some (.welcome [i])
    | 1 :: i :: leaf :: rest =>
        if rest = List.replicate (script.padding.getD i.toNat 0) 0 then
          some (.groupInfo (script.info i leaf))
        else none
    | _ => none
  decodeKeyPackage bytes := script.packages.find? fun package => package.encoded == bytes
  validateKeyPackage _ _ := true
  encodeContext _ := some []
  fromExternal tree info := script.states.find? fun group => group.tree == tree &&
    group.context == info.context && group.confirmationTag == info.confirmationTag
  processMessage group message :=
    match message.content with
    | [i] =>
        if group = script.state i ∧ message = script.message i then
          (script.commits[i.toNat]?).map fun staged => ⟨.member 0, .stagedCommit staged⟩
        else none
    | _ => none
  publicGroup group := script.state group.epoch
  ownLeafIndex group := group.leaf.toNat
  isActive _ := true
  hasPendingCommit group := group.pending
  epochAuthenticator group := [group.epoch]
  load provider groupId := some ((provider.find? (1 :: groupId)).bind ScriptGroup.decode)
  newSigner random := some random
  storeSigner provider signer := some (provider.insert (0 :: signer) [])
  readSigner provider key := (provider.find? (0 :: key)).map fun _ => key
  signerPublic signer := signer
  sign _ _ := some (List.replicate 64 0)
  keyPair random := some (random, random)
  newGroup _ provider signer groupId credential extensions :=
    if script.start.context.groupId = groupId ∧ script.start.context.ciphersuite = suite ∧
        script.start.context.epoch = 0 ∧ script.start.extensions = extensions ∧
        script.start.members = [⟨0, credential, signer⟩] then
      some (script.save provider ⟨0, false, 0⟩)
    else none
  newKeyPackage _ provider signer credential :=
    (script.packages.find? fun package =>
      package.leafNode = ⟨credential, signer⟩ && package.ciphersuite == suite).map
        fun package => (package, provider.insert (2 :: package.encoded) [])
  stageWelcome provider welcome tree :=
    match welcome with
    | [i] =>
        if (script.state (i + 1)).tree = tree then
          ((script.state (i + 1)).members.find? fun member =>
            (provider.find? (0 :: member.signatureKey)).isSome).map fun member =>
              some (script.save provider ⟨i + 1, false, UInt8.ofNat member.index⟩)
        else none
    | _ => none
  exportGroupInfo group _ extensions :=
    if extensions = [] then some (script.info group.epoch group.leaf) else none
  encodeGroupInfo info :=
    match info.signature with
    | [i, leaf] => if info = script.info i leaf then some (script.infoBytes i leaf) else none
    | _ => none
  setConfiguration owner := some owner
  addMembers _ owner _ packages :=
    match script.next owner.group with
    | some staged =>
        if staged.updatePathLeaf = none ∧
            staged.proposals = packages.map fun package => ownProposal (.add package) then
          some (some (commit owner.group.epoch), some (welcome owner.group.epoch),
            { owner with group := { owner.group with pending := true } })
        else none
    | none => none
  buildCommit _ owner _ removals extensions :=
    match script.next owner.group with
    | some staged =>
        if staged.proposals = removals.map (fun index => ownProposal (.remove index)) ++
            extensions.toList.map fun list => ownProposal (.groupContextExtensions list) then
          .ok (some (commit owner.group.epoch),
            { owner with group := { owner.group with pending := true } })
        else .error .preparation
    | none => .error .staging
  mergePendingCommit owner :=
    if owner.group.pending then
      some (script.save owner.provider ⟨owner.group.epoch + 1, false, owner.group.leaf⟩)
    else none
  processPrivate owner message :=
    if owner.group.leaf ≠ 0 ∧ owner.group.pending = false ∧
        owner.group.epoch.toNat < script.commits.length ∧
        message = script.message owner.group.epoch then
      some (some ⟨owner.group.epoch + 1, false, owner.group.leaf⟩, owner)
    else none
  mergeStagedCommit owner staged := some (script.save owner.provider staged)

/-- The MLS of the script. -/
abbrev mls : Mls ScriptGroup Bytes ScriptGroup := script.hashing digest

variable {script : Script} {hash : Bytes → Block 32}

theorem state_mem_states (i : UInt8) : script.state i ∈ script.states := by
  rw [state, List.getD_eq_getElem?_getD]
  cases h : script.states[i.toNat]? with
  | none => exact List.mem_cons_self
  | some group => exact List.mem_of_getElem? h

variable {i kind : UInt8} {staged : StagedCommit} {member : Member} {name value signer : Bytes}
  {provider : Provider} {group : ScriptGroup} {owner : Owner ScriptGroup}

theorem toNat_succ (h : i.toNat < script.commits.length) : (i + 1).toNat = i.toNat + 1 := by
  have hshort := script.short
  rw [UInt8.toNat_add, show (1 : UInt8).toNat = 1 from rfl]
  omega

theorem state_succ (h : script.commits[i.toNat]? = some staged) :
    script.state (i + 1) = staged.merged := by
  have hlt : i.toNat < script.commits.length := (List.getElem?_eq_some_iff.mp h).1
  rw [state, toNat_succ hlt, states, List.getD_cons_succ, List.getD_eq_getElem?_getD,
    List.getElem?_map, h]
  rfl

theorem stages_state (h : script.commits[i.toNat]? = some staged) :
    (script.state i).Stages (.member 0) staged :=
  script.stages i.toNat staged h

theorem kept_state (h : i.toNat < script.commits.length)
    (hmember : member ∈ (script.state i).members) : member ∈ (script.state (i + 1)).members := by
  have hstaged := List.getElem?_eq_getElem h
  rw [state_succ hstaged]
  exact script.kept i.toNat _ hstaged member hmember

theorem forall_states {P : PublicGroup → Prop} (hstart : P script.start)
    (hstep : ∀ (group : PublicGroup) (staged : StagedCommit),
      P group → group.Stages (.member 0) staged → P staged.merged) :
    ∀ group ∈ script.states, P group := by
  have hall : ∀ (i : Nat) group, script.states[i]? = some group → P group := by
    intro i
    induction i with
    | zero =>
      intro group h
      obtain rfl := Option.some.inj h
      exact hstart
    | succ i ih =>
      intro group h
      rw [states, List.getElem?_cons_succ, List.getElem?_map, Option.map_eq_some_iff] at h
      obtain ⟨staged, hstaged, rfl⟩ := h
      have hlt : i < script.states.length := by
        rw [states, List.length_cons, List.length_map]
        exact Nat.lt_succ_of_lt (List.getElem?_eq_some_iff.mp hstaged).1
      have hstages := script.stages i staged hstaged
      change (script.states.getD i script.start).Stages _ _ at hstages
      rw [List.getD_eq_getElem?_getD, List.getElem?_eq_getElem hlt] at hstages
      exact hstep _ staged (ih _ (List.getElem?_eq_getElem hlt)) hstages
  intro group hgroup
  obtain ⟨i, hi⟩ := List.getElem?_of_mem hgroup
  exact hall i group hi

theorem state_wellFormed (i : UInt8) : (script.state i).WellFormed :=
  forall_states (P := PublicGroup.WellFormed) script.wellFormed
    (fun _ _ _ hstages => hstages.wellFormed) _ (state_mem_states i)

theorem state_groupId (i : UInt8) :
    (script.state i).context.groupId = script.start.context.groupId :=
  forall_states (P := fun group => group.context.groupId = script.start.context.groupId) rfl
    (fun _ _ hgroup hstages => hstages.groupId.trans hgroup) _ (state_mem_states i)

theorem head_of_isApplicationRecord (h : isApplicationRecord name) : name.head? = some 100 := by
  obtain ⟨rest, rfl⟩ := h
  rfl

theorem find_insert_of_head {other : Bytes} (h : name.head? ≠ other.head?) :
    (provider.insert other value).find? name = provider.find? name := by
  rw [OrderedMap.find?_insert, if_neg]
  rintro rfl
  exact h rfl

theorem sameRecords_insert (h : kind ≠ 100) :
    SameRecords provider (provider.insert (kind :: name) value) := by
  intro record hrecord
  refine find_insert_of_head ?_
  rw [head_of_isApplicationRecord hrecord]
  simpa using h.symm

theorem load_save : (script.hashing hash).load (script.save provider group).provider
      (script.state group.epoch).context.groupId = some (some group) := by
  change some (Option.bind ((script.save provider group).provider.find? _) _) = _
  rw [state_groupId, save, OrderedMap.find?_insert_self]
  simp [ScriptGroup.decode_code]

theorem readSigner_insert {key : Bytes} (h : kind ≠ 0) :
    (script.hashing hash).readSigner (provider.insert (kind :: name) value) key =
      (script.hashing hash).readSigner provider key := by
  change Option.map _ ((provider.insert (kind :: name) value).find? (0 :: key)) = _
  rw [find_insert_of_head (by simpa using h.symm)]
  rfl

theorem ready_save (hstored : (script.hashing hash).readSigner provider signer = some signer)
    (hpending : group.pending = false) (hmember : member ∈ (script.state group.epoch).members)
    (hindex : member.index = group.leaf.toNat) (hkey : member.signatureKey = signer) :
    (script.hashing hash).Ready (script.save provider group) signer :=
  ⟨load_save, (readSigner_insert (by decide)).trans hstored, rfl, hpending,
    ⟨member, hmember, hindex, hkey⟩, state_wellFormed _⟩

theorem ready_advance (hready : (script.hashing hash).Ready owner signer)
    (h : owner.group.epoch.toNat < script.commits.length) :
    (script.hashing hash).Ready
      (script.save owner.provider ⟨owner.group.epoch + 1, false, owner.group.leaf⟩)
      signer := by
  obtain ⟨member, hmember, hindex, hkey⟩ := hready.own
  exact ready_save hready.stored rfl (kept_state h hmember) hindex hkey

theorem keeps_advance (owner : Owner ScriptGroup) (i : UInt8) :
    (script.hashing hash).Keeps owner (script.save owner.provider ⟨i, false, owner.group.leaf⟩) :=
  ⟨rfl, sameRecords_insert (by decide)⟩

theorem next_eq_some (h : script.next group = some staged) :
    group.pending = false ∧ group.leaf = 0 ∧ script.commits[group.epoch.toNat]? = some staged := by
  simp only [next, Option.ite_none_right_eq_some] at h
  exact ⟨h.1.1, h.1.2, h.2⟩

theorem commits_advance (h : script.next owner.group = some staged) :
    (script.hashing hash).Commits owner
      (script.save owner.provider ⟨owner.group.epoch + 1, false, owner.group.leaf⟩)
      (commit owner.group.epoch) staged := by
  obtain ⟨_, hleaf, hstaged⟩ := next_eq_some h
  refine ⟨⟨script.message owner.group.epoch, rfl, ?_⟩, state_succ hstaged,
    keeps_advance owner _⟩
  simp [hashing, message, hstaged, hleaf]

theorem refresh_index (committer : Sender) (path : Option LeafNode) (member : Member) :
    (refresh committer path member).index = member.index := by
  cases path with
  | none => rfl
  | some leaf =>
    rw [refresh]
    split <;> rfl

/-- The commits of a script remove none of the members. -/
theorem not_removed {removals : List Nat} {extensions : List (List Extension)}
    (hstaged : script.commits[i.toNat]? = some staged)
    (hproposals : staged.proposals = removals.map (fun index => ownProposal (.remove index)) ++
      extensions.map fun list => ownProposal (.groupContextExtensions list))
    (hmember : member ∈ (script.state i).members) : member.index ∉ removals := by
  intro hremoved
  have hkinds : ∀ queued ∈ staged.proposals,
      (∃ index, queued.proposal = .remove index) ∨
        ∃ list, queued.proposal = .groupContextExtensions list := by
    intro queued hqueued
    rw [hproposals, List.mem_append, List.mem_map, List.mem_map] at hqueued
    rcases hqueued with ⟨index, _, rfl⟩ | ⟨list, _, rfl⟩
    · exact .inl ⟨index, rfl⟩
    · exact .inr ⟨list, rfl⟩
  have hadds : staged.adds = [] := by
    rw [StagedCommit.adds, List.filterMap_eq_nil_iff]
    intro queued hqueued
    rcases hkinds queued hqueued with ⟨_, h⟩ | ⟨_, h⟩ <;> rw [h]
  have hother : ∀ queued ∈ staged.proposals, ∀ kind, queued.proposal ≠ .other kind := by
    intro queued hqueued kind
    rcases hkinds queued hqueued with ⟨_, h⟩ | ⟨_, h⟩ <;> simp [h]
  have hafter := script.kept i.toNat staged hstaged member hmember
  rw [(stages_state hstaged).members hother, PublicGroup.membersAfter, hadds, List.foldl_nil,
    List.mem_map] at hafter
  obtain ⟨kept, hkept, rfl⟩ := hafter
  rw [refresh_index] at hremoved
  rw [PublicGroup.kept, List.mem_filter, decide_eq_true_iff] at hkept
  refine hkept.2 ⟨ownProposal (.remove kept.index), ?_, rfl⟩
  rw [hproposals, List.mem_append, List.mem_map]
  exact .inl ⟨kept.index, hremoved, rfl⟩

theorem fromExternal_state (i leaf : UInt8) :
    (script.hashing hash).fromExternal (script.state i).tree (script.info i leaf) =
      some (script.state i) := by
  cases hfind : (script.hashing hash).fromExternal (script.state i).tree (script.info i leaf) with
  | none =>
    have hnone := List.find?_eq_none.mp hfind _ (state_mem_states i)
    simp [info] at hnone
  | some group =>
    have hmatch := List.find?_some hfind
    simp only [info, Bool.and_eq_true, beq_iff_eq] at hmatch
    obtain ⟨⟨htree, hcontext⟩, htag⟩ := hmatch
    cases group
    simp_all

theorem decode_infoBytes (i leaf : UInt8) :
    (script.hashing hash).decodeMessage (script.infoBytes i leaf) =
      some (.groupInfo (script.info i leaf)) := by
  simp [hashing, infoBytes]

theorem hashing_lawful : (script.hashing hash).Lawful where
  decodeMessage := rfl
  fromExternal := by
    intro tree info group h
    have hmem := List.mem_of_find?_eq_some h
    have hmatch := List.find?_some h
    simp only [Bool.and_eq_true, beq_iff_eq] at hmatch
    obtain ⟨⟨rfl, hcontext⟩, htag⟩ := hmatch
    refine ⟨by rw [← hcontext, ← htag], ?_⟩
    exact forall_states (P := PublicGroup.WellFormed) script.wellFormed
      (fun _ _ _ hstages => hstages.wellFormed) _ hmem
  processMessage := by
    intro group message committer staged _ h
    simp only [hashing] at h
    split at h
    · rename_i i _
      simp only [Option.ite_none_right_eq_some, Option.map_eq_some_iff, ProcessedMessage.mk.injEq,
        ProcessedContent.stagedCommit.injEq] at h
      obtain ⟨⟨rfl, rfl⟩, _, hstaged, rfl, rfl⟩ := h
      exact ⟨rfl, stages_state hstaged⟩
    · cases h
  records := by
    intro provider name value hname
    have hhead := head_of_isApplicationRecord hname
    refine ⟨funext fun groupId => ?_, funext fun key => ?_⟩
    · change some (Option.bind ((provider.insert name value).find? _) _) = _
      rw [find_insert_of_head (by simp [hhead])]
      rfl
    · change Option.map _ ((provider.insert name value).find? _) = _
      rw [find_insert_of_head (by simp [hhead])]
      rfl
  storeSigner := by
    intro provider after signer h
    obtain rfl := Option.some.inj h
    exact ⟨by simp [hashing], sameRecords_insert (by decide)⟩
  newGroup := by
    intro random groupId provider signer credential extensions after hsigner h
    simp only [hashing, Option.ite_none_right_eq_some, Option.some.injEq] at h
    obtain ⟨⟨hid, hsuite, hepoch, hextensions, hmembers⟩, rfl⟩ := h
    have hmember : (⟨0, credential, signer⟩ : Member) ∈ script.start.members := by simp [hmembers]
    exact ⟨ready_save hsigner rfl hmember rfl rfl, sameRecords_insert (by decide),
      hsuite, hid, hepoch, hextensions, hmembers, rfl⟩
  newKeyPackage := by
    intro random provider after signer credential package hsigner h
    simp only [hashing, Option.map_eq_some_iff, Prod.mk.injEq] at h
    obtain ⟨_, hfind, rfl, rfl⟩ := h
    have hmatch := List.find?_some hfind
    simp only [Bool.and_eq_true, beq_iff_eq, decide_eq_true_iff] at hmatch
    exact ⟨hmatch.1, hmatch.2, (readSigner_insert (by decide)).trans hsigner,
      sameRecords_insert (by decide)⟩
  stageWelcome := by
    intro provider welcome tree owner signer member hsigner h hmember hindex hkey
    simp only [hashing] at h
    split at h
    · simp only [Option.ite_none_right_eq_some, Option.map_eq_some_iff, Option.some.injEq] at h
      obtain ⟨_, joined, _, rfl⟩ := h
      exact ⟨ready_save hsigner rfl hmember hindex hkey, sameRecords_insert (by decide)⟩
    · cases h
  exportGroupInfo := by
    intro owner signer extensions info _ h
    simp only [hashing, Option.ite_none_right_eq_some, Option.some.injEq] at h
    obtain ⟨rfl, rfl⟩ := h
    refine ⟨rfl, rfl, rfl, fromExternal_state _ _, ?_⟩
    intro bytes hbytes
    simp only [hashing, Script.info, if_true, Option.some.injEq] at hbytes
    rw [← hbytes, decode_infoBytes]
  setConfiguration := by
    intro owner after signer hready h
    obtain rfl := Option.some.inj h
    exact ⟨hready, ⟨rfl, fun _ _ => rfl⟩, rfl⟩
  addMembers := by
    intro random bytes owner pending after signer packages welcome hready h hmerge
    cases hnext : script.next owner.group with
    | none => simp [hashing, hnext] at h
    | some staged =>
      simp only [hashing, hnext, Option.ite_none_right_eq_some, Option.some.injEq,
        Prod.mk.injEq] at h
      obtain ⟨⟨hpath, hproposals⟩, rfl, rfl, rfl⟩ := h
      obtain rfl := Option.some.inj hmerge
      obtain ⟨_, hleaf, hstaged⟩ := next_eq_some hnext
      have hafter := ready_advance hready (List.getElem?_eq_some_iff.mp hstaged).1
      refine ⟨hafter, by simp [Script.welcome], staged, commits_advance hnext, hpath, ?_⟩
      rw [hproposals]
      simp [Mls.ownProposal, ownProposal, hashing, hleaf]
  buildCommit := by
    intro random bytes owner pending after signer removals extensions hready h hmerge
    cases hnext : script.next owner.group with
    | none => simp [hashing, hnext] at h
    | some staged =>
      simp only [hashing, hnext] at h
      split at h
      · simp only [Except.ok.injEq, Prod.mk.injEq, Option.some.injEq] at h
        obtain ⟨rfl, rfl⟩ := h
        obtain rfl := Option.some.inj hmerge
        obtain ⟨_, _, hstaged⟩ := next_eq_some hnext
        have hafter := ready_advance hready (List.getElem?_eq_some_iff.mp hstaged).1
        exact ⟨hafter, staged, commits_advance hnext⟩
      · cases h
  accept := by
    intro random bytes owner pending after other signer otherSigner removals extensions hready h
      hmerge hother hsame hleaf
    cases hnext : script.next owner.group with
    | none => simp [hashing, hnext] at h
    | some staged =>
      simp only [hashing, hnext] at h
      split at h
      · rename_i hproposals
        simp only [Except.ok.injEq, Prod.mk.injEq, Option.some.injEq] at h
        obtain ⟨rfl, rfl⟩ := h
        obtain rfl := Option.some.inj hmerge
        obtain ⟨_, hzero, hstaged⟩ := next_eq_some hnext
        have hepoch : other.group.epoch = owner.group.epoch :=
          List.singleton_inj.mp hsame.epochAuthenticator
        have hlt := (List.getElem?_eq_some_iff.mp hstaged).1
        have hne : other.group.leaf ≠ 0 :=
          fun heq => hleaf (congrArg UInt8.toNat (heq.trans hzero.symm))
        have hsettled : other.group.pending = false := hother.settled
        refine ⟨script.message owner.group.epoch, ⟨owner.group.epoch + 1, false, other.group.leaf⟩,
          other, _, rfl, by simp [hashing, hepoch, hlt, hne, hsettled], rfl, iff_of_true rfl ?_,
          fun _ => ⟨rfl, rfl⟩⟩
        obtain ⟨member, hmember, hindex, _⟩ := hother.own
        rw [← hindex]
        rw [hsame.publicGroup] at hmember
        exact not_removed hstaged hproposals hmember
      · cases h
  receive := by
    intro owner between after signer message secret hready h hmerge
    simp only [hashing, Option.ite_none_right_eq_some, Option.some.injEq, Prod.mk.injEq] at h
    obtain ⟨⟨_, _, hlt, _⟩, rfl, rfl⟩ := h
    obtain rfl := Option.some.inj hmerge
    exact ⟨fun _ => ⟨ready_advance hready hlt, keeps_advance owner _⟩, fun _ _ _ _ => rfl⟩

theorem lawful : script.mls.Lawful := hashing_lawful

end Script

end Arachne.Security
