import Arachne.Lib.Transition
import Arachne.Routing.Table

/-! Routing stays within the policy: over any calls, an interest is one that its peer asked for
and that the installed policy allows. -/

namespace Arachne.Routing

open ByteCodec Transition OrderedMap

variable {table table' : RoutingTable} {peer : PeerId} {revision : U64}
  {subscriptions : OrderedMap PeerId (Finset Topic)}

namespace RoutingTable

/-- Every interest is nonempty, bounded and allowed by the policy. -/
def Workspace.Sound (state : Workspace) : Prop :=
  ∀ peer topics, state.subscriptions.find? peer = some topics →
    topics.Nonempty ∧ topics.card ≤ maxTopicsPerPeer ∧
      ∀ topic ∈ topics, state.maySubscribe peer topic

def Sound (table : RoutingTable) : Prop :=
  ∀ workspace state, table.workspaces.find? workspace = some state → state.Sound

theorem find?_put (table : RoutingTable) (workspace workspace' : WorkspaceId) (state : Workspace) :
    (table.put workspace state).workspaces.find? workspace' =
      if workspace = workspace' then some state else table.workspaces.find? workspace' :=
  table.workspaces.find?_insert workspace workspace' state

theorem put_self {workspace : WorkspaceId} {state : Workspace}
    (h : table.workspaces.find? workspace = some state) : table.put workspace state = table := by
  have hmaps : (table.put workspace state).workspaces = table.workspaces := by
    apply OrderedMap.ext
    intro workspace'
    rw [find?_put]
    split
    · rename_i heq
      rw [← heq, h]
    · rfl
  cases table
  exact congrArg RoutingTable.mk hmaps

/-- What a call does to the table it is made on. -/
inductive Call where
  | installVerifiedPolicy (workspace : WorkspaceId) (revision : U64)
      (endpointPermissions : OrderedMap PeerId Permissions)
  | subscribe (workspace : WorkspaceId) (revision : U64) (peer : PeerId) (topic : Topic)
  | unsubscribe (workspace : WorkspaceId) (revision : U64) (peer : PeerId) (topic : Topic)

namespace Call

def workspace : Call → WorkspaceId
  | .installVerifiedPolicy workspace _ _ => workspace
  | .subscribe workspace _ _ _ => workspace
  | .unsubscribe workspace _ _ _ => workspace

def perform (table : RoutingTable) : Call → Outcome
  | .installVerifiedPolicy workspace revision endpointPermissions =>
      table.installVerifiedPolicy workspace revision endpointPermissions
  | .subscribe workspace revision peer topic => table.subscribe workspace revision peer topic
  | .unsubscribe workspace revision peer topic => table.unsubscribe workspace revision peer topic

end Call

def Step (table : RoutingTable) (call : Call) (table' : RoutingTable) : Prop :=
  (call.perform table).2 = table'

/-- Whether a step was a call that succeeded. -/
def Succeeds (taken : Taken RoutingTable Call) : Prop :=
  (taken.label.perform taken.before).1 = .ok ()

section Calls

def Interested (table : RoutingTable) (workspace : WorkspaceId) (peer : PeerId) (topic : Topic) :
    Prop :=
  ∃ state, table.workspaces.find? workspace = some state ∧ state.interested peer topic

theorem interested_iff {state : Workspace} {topic : Topic} : state.interested peer topic ↔
      ∃ topics, state.subscriptions.find? peer = some topics ∧ topic ∈ topics := by
  simp [Workspace.interested, Option.any_eq_true]

/-- What a successful call makes of the state of its workspace. -/
structure Changes (old : Option Workspace) (call : Call) (state : Workspace) : Prop where
  sound : (∀ before, old = some before → before.Sound) → state.Sound
  revision : ∀ before, old = some before → before.revision ≤ state.revision
  installs : ∀ workspace revision permissions,
    call = .installVerifiedPolicy workspace revision permissions →
      (∀ before, old = some before → before.revision < revision) ∧ state.revision = revision
  interest : ∀ peer topic, state.interested peer topic →
    (∃ revision, call = .subscribe call.workspace revision peer topic) ∨
      (∃ before, old = some before ∧ before.interested peer topic) ∧
        ¬ ∃ revision, call = .unsubscribe call.workspace revision peer topic

theorem find?_retained {permissions : OrderedMap PeerId Permissions} {topics : Finset Topic}
    (h : (retained permissions subscriptions).find? peer = some topics) :
    ∃ old access, subscriptions.find? peer = some old ∧ permissions.find? peer = some access ∧
      topics = old.filter (fun topic => access.canSubscribe topic) ∧ topics.Nonempty := by
  simp only [retained, find?_filterMap] at h
  obtain ⟨old, hold, hkept⟩ := Option.bind_eq_some_iff.mp h
  cases haccess : permissions.find? peer with
  | none => simp [haccess] at hkept
  | some access =>
    simp only [haccess] at hkept
    split at hkept
    · cases hkept
    · rename_i hnonempty
      cases hkept
      exact ⟨old, access, hold, rfl, rfl, Finset.nonempty_iff_ne_empty.mpr hnonempty⟩

theorem install_changes (table : RoutingTable) (workspace : WorkspaceId) (revision : U64)
    (endpointPermissions : OrderedMap PeerId Permissions) :
    (∃ error, table.installVerifiedPolicy workspace revision endpointPermissions =
      (.error error, table)) ∨
    ∃ state, Changes (table.workspaces.find? workspace)
        (.installVerifiedPolicy workspace revision endpointPermissions) state ∧
      table.installVerifiedPolicy workspace revision endpointPermissions =
        (.ok (), table.put workspace state) := by
  rw [installVerifiedPolicy]
  dsimp only
  split
  · exact .inl ⟨_, rfl⟩
  · split
    · exact .inl ⟨_, rfl⟩
    · rename_i hrevision
      have hlater : ∀ before, table.workspaces.find? workspace = some before →
          before.revision < revision := by
        intro before hbefore
        rw [hbefore] at hrevision
        simpa using hrevision
      have hold : ∀ {peer topics}, (((table.workspaces.find? workspace).map
          Workspace.subscriptions).getD OrderedMap.empty).find? peer = some topics →
          ∃ before, table.workspaces.find? workspace = some before ∧
            before.subscriptions.find? peer = some topics := by
        intro peer topics hfind
        cases hbefore : table.workspaces.find? workspace with
        | none =>
          rw [hbefore] at hfind
          cases hfind
        | some before =>
          rw [hbefore] at hfind
          exact ⟨before, rfl, hfind⟩
      refine .inr ⟨_, ⟨?_, fun before hbefore => (hlater before hbefore).le, ?_, ?_⟩, rfl⟩
      · intro hsound peer topics hfind
        obtain ⟨topics', access, hfind', haccess, rfl, hnonempty⟩ := find?_retained hfind
        obtain ⟨before, hbefore, hentry⟩ := hold hfind'
        refine ⟨hnonempty, ?_, ?_⟩
        · exact (Finset.card_filter_le _ _).trans (hsound before hbefore peer topics' hentry).2.1
        · intro topic htopic
          simpa [Workspace.maySubscribe, haccess] using (Finset.mem_filter.mp htopic).2
      · rintro _ _ _ ⟨⟩
        exact ⟨hlater, rfl⟩
      · intro peer topic hinterested
        obtain ⟨topics, hfind, htopic⟩ := interested_iff.mp hinterested
        obtain ⟨topics', access, hfind', _, rfl, _⟩ := find?_retained hfind
        obtain ⟨before, hbefore, hentry⟩ := hold hfind'
        refine .inr ⟨⟨before, hbefore, ?_⟩, nofun⟩
        exact interested_iff.mpr ⟨topics', hentry, (Finset.mem_filter.mp htopic).1⟩

theorem Changes.of_subscriptions {call : Call} {old : Option Workspace} {before : Workspace}
    (hbefore : old = some before)
    (hcall : ∀ workspace revision permissions,
      call ≠ .installVerifiedPolicy workspace revision permissions)
    (hfind : ∀ peer topics, subscriptions.find? peer = some topics →
      (before.Sound → topics.Nonempty ∧ topics.card ≤ maxTopicsPerPeer) ∧
      ∀ topic ∈ topics,
        (∃ revision, call = .subscribe call.workspace revision peer topic) ∧
          before.maySubscribe peer topic ∨
        before.interested peer topic ∧
          ¬ ∃ revision, call = .unsubscribe call.workspace revision peer topic) :
    Changes old call { before with subscriptions } := by
  subst hbefore
  refine ⟨?_, ?_, fun workspace revision permissions h => absurd h (hcall _ _ _), ?_⟩
  · intro hsound peer topics h
    obtain ⟨hbounds, hall⟩ := hfind peer topics h
    refine ⟨(hbounds (hsound before rfl)).1, (hbounds (hsound before rfl)).2,
      fun topic htopic => ?_⟩
    rcases hall topic htopic with ⟨_, hmay⟩ | ⟨hinterested, _⟩
    · exact hmay
    · obtain ⟨entry, hentry, hmem⟩ := interested_iff.mp hinterested
      exact (hsound before rfl peer entry hentry).2.2 topic hmem
  · rintro _ ⟨⟩
    exact le_rfl
  · intro peer topic hinterested
    obtain ⟨topics, h, htopic⟩ := interested_iff.mp hinterested
    rcases (hfind peer topics h).2 topic htopic with ⟨hcall, _⟩ | ⟨hinterested, hkept⟩
    · exact .inl hcall
    · exact .inr ⟨⟨before, rfl, hinterested⟩, hkept⟩

theorem subscribe_changes (table : RoutingTable) (workspace : WorkspaceId) (revision : U64)
    (peer : PeerId) (topic : Topic) :
    (∃ error, table.subscribe workspace revision peer topic = (.error error, table)) ∨
    ∃ state, Changes (table.workspaces.find? workspace)
        (.subscribe workspace revision peer topic) state ∧
      table.subscribe workspace revision peer topic = (.ok (), table.put workspace state) := by
  rw [subscribe]
  split
  · exact .inl ⟨_, rfl⟩
  · rename_i before hcurrent
    obtain ⟨hbefore, _⟩ := current_eq_ok.mp hcurrent
    split
    · exact .inl ⟨_, rfl⟩
    · rename_i hmay
      dsimp only
      split
      · rename_i hfull
        -- A full entry is one that the peer already had, so nothing was entered.
        left
        refine ⟨.limitExceeded, ?_⟩
        cases htopics : before.subscriptions.find? peer with
        | none =>
          rw [htopics] at hfull
          simp [maxTopicsPerPeer] at hfull
        | some topics =>
          have hsame : before.subscriptions.insert peer topics = before.subscriptions := by
            apply OrderedMap.ext
            intro peer'
            rw [find?_insert]
            split
            · rename_i heq
              rw [← heq, htopics]
            · rfl
          rw [Option.getD_some, hsame, put_self hbefore]
      · rename_i hroom
        refine .inr ⟨_, .of_subscriptions hbefore nofun ?_, rfl⟩
        intro peer' topics' h
        simp only [find?_insert] at h
        split at h
        · rename_i heq
          subst heq
          cases h
          refine ⟨fun hsound => ⟨Finset.insert_nonempty _ _, ?_⟩, fun topic' htopic' => ?_⟩
          · by_cases hmem : topic ∈ (before.subscriptions.find? peer).getD ∅
            · rw [Finset.insert_eq_of_mem hmem]
              cases hentry : before.subscriptions.find? peer with
              | none => simp
              | some topics => exact (hsound peer topics hentry).2.1
            · exact (Finset.card_insert_le _ _).trans (not_le.mp fun hle => hroom ⟨hle, hmem⟩)
          · rcases Finset.mem_insert.mp htopic' with rfl | hmem
            · exact .inl ⟨⟨revision, rfl⟩, by simpa using hmay⟩
            · refine .inr ⟨interested_iff.mpr ?_, nofun⟩
              cases hentry : before.subscriptions.find? peer with
              | none => simp [hentry] at hmem
              | some topics =>
                rw [hentry] at hmem
                exact ⟨topics, rfl, hmem⟩
        · exact ⟨fun hsound => ⟨(hsound peer' topics' h).1, (hsound peer' topics' h).2.1⟩,
            fun topic' htopic' => .inr ⟨interested_iff.mpr ⟨topics', h, htopic'⟩, nofun⟩⟩

theorem unsubscribe_changes (table : RoutingTable) (workspace : WorkspaceId) (revision : U64)
    (peer : PeerId) (topic : Topic) :
    (∃ error, table.unsubscribe workspace revision peer topic = (.error error, table)) ∨
    ∃ state, Changes (table.workspaces.find? workspace)
        (.unsubscribe workspace revision peer topic) state ∧
      table.unsubscribe workspace revision peer topic = (.ok (), table.put workspace state) := by
  rw [unsubscribe]
  split
  · exact .inl ⟨_, rfl⟩
  · rename_i before hcurrent
    obtain ⟨hbefore, _⟩ := current_eq_ok.mp hcurrent
    have hothers : ∀ peer' topics', before.subscriptions.find? peer' = some topics' →
        peer ≠ peer' → (before.Sound → topics'.Nonempty ∧ topics'.card ≤ maxTopicsPerPeer) ∧
          ∀ topic' ∈ topics', before.interested peer' topic' ∧
            ¬ ∃ revision', Call.unsubscribe workspace revision peer topic =
              .unsubscribe workspace revision' peer' topic' := by
      intro peer' topics' h hne
      refine ⟨fun hsound => ⟨(hsound peer' topics' h).1, (hsound peer' topics' h).2.1⟩,
        fun topic' htopic' => ⟨interested_iff.mpr ⟨topics', h, htopic'⟩, ?_⟩⟩
      rintro ⟨_, heq⟩
      cases heq
      exact hne rfl
    split
    · exact .inl ⟨_, rfl⟩
    · right
      split
      · rename_i hnone
        refine ⟨before, .of_subscriptions hbefore nofun fun peer' topics' h => ?_,
          by rw [put_self hbefore]⟩
        have hne : peer ≠ peer' := by
          rintro rfl
          cases hnone.symm.trans h
        obtain ⟨hbounds, hall⟩ := hothers peer' topics' h hne
        exact ⟨hbounds, fun topic' htopic' => .inr (hall topic' htopic')⟩
      · rename_i topics htopics
        refine ⟨_, .of_subscriptions hbefore nofun fun peer' topics' h => ?_, rfl⟩
        by_cases hpeer : peer = peer'
        · subst hpeer
          have hrest : topics.erase topic ≠ ∅ ∧ topics' = topics.erase topic := by
            split at h
            · rw [find?_erase, if_pos rfl] at h
              cases h
            · rename_i hrest
              rw [find?_insert_self] at h
              cases h
              exact ⟨hrest, rfl⟩
          obtain ⟨hrest, rfl⟩ := hrest
          refine ⟨fun hsound => ⟨Finset.nonempty_iff_ne_empty.mpr hrest,
            Finset.card_erase_le.trans (hsound peer topics htopics).2.1⟩, fun topic' htopic' => ?_⟩
          obtain ⟨hne, hmem⟩ := Finset.mem_erase.mp htopic'
          refine .inr ⟨interested_iff.mpr ⟨topics, htopics, hmem⟩, ?_⟩
          rintro ⟨_, heq⟩
          cases heq
          exact hne rfl
        · have hsame : before.subscriptions.find? peer' = some topics' := by
            split at h
            · rwa [find?_erase, if_neg hpeer] at h
            · rwa [find?_insert, if_neg hpeer] at h
          obtain ⟨hbounds, hall⟩ := hothers peer' topics' hsame hpeer
          exact ⟨hbounds, fun topic' htopic' => .inr (hall topic' htopic')⟩

/-- What a call can do: fail and leave the table as it was, or change the workspace it names. -/
theorem perform_cases (table : RoutingTable) (call : Call) :
    (∃ error, call.perform table = (.error error, table)) ∨
    ∃ state, Changes (table.workspaces.find? call.workspace) call state ∧
      call.perform table = (.ok (), table.put call.workspace state) := by
  cases call with
  | installVerifiedPolicy workspace revision endpointPermissions =>
    exact install_changes table workspace revision endpointPermissions
  | subscribe workspace revision peer topic =>
    exact subscribe_changes table workspace revision peer topic
  | unsubscribe workspace revision peer topic =>
    exact unsubscribe_changes table workspace revision peer topic

end Calls

section Steps

variable {call : Call}

/-- A failing call leaves the table as it was; any call leaves the other workspaces alone. -/
theorem perform_frame (table : RoutingTable) (call : Call) :
    ((call.perform table).1 ≠ .ok () → (call.perform table).2 = table) ∧
    ∀ workspace, workspace ≠ call.workspace →
      (call.perform table).2.workspaces.find? workspace = table.workspaces.find? workspace := by
  rcases perform_cases table call with ⟨error, herror⟩ | ⟨state, _, hok⟩
  · simp [herror]
  · rw [hok]
    refine ⟨fun hne => absurd rfl hne, fun workspace hne => ?_⟩
    rw [find?_put, if_neg (Ne.symm hne)]

/-- Every call keeps the interests within the policy. -/
theorem Sound.step (h : table.Sound) (hstep : Step table call table') : table'.Sound := by
  rw [← hstep]
  rcases perform_cases table call with ⟨error, herror⟩ | ⟨state, hchanges, hok⟩
  · rw [herror]
    exact h
  · rw [hok]
    intro workspace state' hfind
    rw [find?_put] at hfind
    split at hfind
    · cases hfind
      exact hchanges.sound fun before hbefore => h _ before hbefore
    · exact h workspace state' hfind

/-- A workspace stays in the table, at a revision that never falls. -/
theorem revision_step (hstep : Step table call table') {workspace : WorkspaceId}
    {state : Workspace} (hstate : table.workspaces.find? workspace = some state) :
    ∃ state', table'.workspaces.find? workspace = some state' ∧
      state.revision ≤ state'.revision := by
  rw [← hstep]
  rcases perform_cases table call with ⟨error, herror⟩ | ⟨state', hchanges, hok⟩
  · rw [herror]
    exact ⟨state, hstate, le_rfl⟩
  · rw [hok, find?_put]
    split
    · rename_i hnamed
      subst hnamed
      exact ⟨state', rfl, hchanges.revision state hstate⟩
    · exact ⟨state, hstate, le_rfl⟩

theorem installed_step {workspace : WorkspaceId}
    {endpointPermissions : OrderedMap PeerId Permissions}
    (hok : (table.installVerifiedPolicy workspace revision endpointPermissions).1 = .ok ()) :
    (∀ state, table.workspaces.find? workspace = some state → state.revision < revision) ∧
    ∃ state, (table.installVerifiedPolicy workspace revision
      endpointPermissions).2.workspaces.find? workspace = some state ∧
        state.revision = revision := by
  rcases install_changes table workspace revision endpointPermissions with
    ⟨error, herror⟩ | ⟨state, hchanges, hresult⟩
  · rw [herror] at hok
    cases hok
  · obtain ⟨hlater, hrevision⟩ := hchanges.installs _ _ _ rfl
    refine ⟨hlater, state, ?_, hrevision⟩
    rw [hresult, find?_put, if_pos rfl]

variable {topic : Topic}

/-- Where an interest comes from: a subscription made now, or one that was there and is not
withdrawn now. -/
theorem interested_step {workspace : WorkspaceId}
    (h : Interested (call.perform table).2 workspace peer topic) :
    (∃ revision, call = .subscribe workspace revision peer topic ∧
      (call.perform table).1 = .ok ()) ∨
    Interested table workspace peer topic ∧
      ¬ ∃ revision, call = .unsubscribe workspace revision peer topic ∧
        (call.perform table).1 = .ok () := by
  obtain ⟨state, hstate, hinterested⟩ := h
  rcases perform_cases table call with ⟨error, herror⟩ | ⟨state', hchanges, hok⟩
  · rw [herror] at hstate ⊢
    exact .inr ⟨⟨state, hstate, hinterested⟩, nofun⟩
  · rw [hok, find?_put] at hstate
    split at hstate
    · rename_i hnamed
      subst hnamed
      cases hstate
      rcases hchanges.interest peer topic hinterested with ⟨revision, hcall⟩ | ⟨hbefore, hkept⟩
      · exact .inl ⟨revision, hcall, by rw [hok]⟩
      · exact .inr ⟨hbefore, fun ⟨revision, hcall, _⟩ => hkept ⟨revision, hcall⟩⟩
    · rename_i hnamed
      refine .inr ⟨⟨state, hstate, hinterested⟩, ?_⟩
      rintro ⟨_, rfl, _⟩
      exact hnamed rfl

end Steps

section Runs

/-- The peer subscribed to the topic, and did not withdraw since. -/
def Asked (trace : List (Taken RoutingTable Call)) (workspace : WorkspaceId) (peer : PeerId)
    (topic : Topic) : Prop :=
  ∃ before taken after, trace = before ++ taken :: after ∧
    (∃ revision, taken.label = .subscribe workspace revision peer topic) ∧ Succeeds taken ∧
    ∀ later ∈ after, ¬ ((∃ revision, later.label = .unsubscribe workspace revision peer topic) ∧
      Succeeds later)

/-- Of two policies installed for a workspace, the second has the later revision. -/
def Increasing (first second : Taken RoutingTable Call) : Prop :=
  ∀ workspace revision revision' permissions permissions',
    first.label = .installVerifiedPolicy workspace revision permissions → Succeeds first →
    second.label = .installVerifiedPolicy workspace revision' permissions' → Succeeds second →
      revision < revision'

/-- What holds of a table and the calls that led to it. -/
structure History (table : RoutingTable) (past : List (Taken RoutingTable Call)) : Prop where
  sound : table.Sound
  asked : ∀ workspace peer topic, Interested table workspace peer topic →
    Asked past workspace peer topic
  installed : ∀ taken ∈ past, ∀ workspace revision permissions,
    taken.label = .installVerifiedPolicy workspace revision permissions → Succeeds taken →
      ∃ state, table.workspaces.find? workspace = some state ∧ revision ≤ state.revision
  increasing : past.Pairwise Increasing

variable {call : Call} {past : List (Taken RoutingTable Call)}

theorem Asked.later {workspace : WorkspaceId} {topic : Topic}
    (h : Asked past workspace peer topic) {taken : Taken RoutingTable Call}
    (htaken : ¬ ((∃ revision, taken.label = .unsubscribe workspace revision peer topic) ∧
      Succeeds taken)) :
    Asked (past ++ [taken]) workspace peer topic := by
  obtain ⟨before, asked, after, rfl, hlabel, hok, hafter⟩ := h
  refine ⟨before, asked, after ++ [taken], by simp, hlabel, hok, ?_⟩
  intro later hlater
  rcases List.mem_append.mp hlater with hold | hnew
  · exact hafter later hold
  · rw [List.mem_singleton.mp hnew]
    exact htaken

theorem History.step (h : History table past) (hstep : Step table call table') :
    History table' (past ++ [⟨table, call, table'⟩]) := by
  refine ⟨h.sound.step hstep, ?_, ?_, ?_⟩
  · intro workspace peer topic hinterested
    rw [← hstep] at hinterested
    rcases interested_step hinterested with ⟨revision, hcall, hok⟩ | ⟨hbefore, hnot⟩
    · exact ⟨past, _, [], rfl, ⟨revision, hcall⟩, hok, by simp⟩
    · apply (h.asked workspace peer topic hbefore).later
      rintro ⟨⟨revision, hlabel⟩, hok⟩
      exact hnot ⟨revision, hlabel, hok⟩
  · intro taken htaken workspace revision permissions hlabel hok
    rcases List.mem_append.mp htaken with hold | hnew
    · obtain ⟨state, hstate, hle⟩ :=
        h.installed taken hold workspace revision permissions hlabel hok
      obtain ⟨state', hstate', hle'⟩ := revision_step hstep hstate
      exact ⟨state', hstate', hle.trans hle'⟩
    · rw [List.mem_singleton.mp hnew] at hlabel hok
      replace hlabel : call = .installVerifiedPolicy workspace revision permissions := hlabel
      subst hlabel
      obtain ⟨_, state, hstate, hrevision⟩ := installed_step hok
      rw [← hstep]
      exact ⟨state, hstate, hrevision.ge⟩
  · rw [List.pairwise_append]
    refine ⟨h.increasing, List.pairwise_singleton _ _, ?_⟩
    intro first hfirst second hsecond workspace revision revision' permissions permissions' hlabel
      hok hlabel' hok'
    rw [List.mem_singleton.mp hsecond] at hlabel' hok'
    replace hlabel' : call = .installVerifiedPolicy workspace revision' permissions' := hlabel'
    subst hlabel'
    obtain ⟨state, hstate, hle⟩ :=
      h.installed first hfirst workspace revision permissions hlabel hok
    exact lt_of_le_of_lt hle ((installed_step hok').1 state hstate)

theorem new_history : History new [] where
  sound := fun _ _ hstate => (nomatch hstate)
  asked := fun _ _ _ hinterested => (nomatch hinterested)
  installed := fun _ htaken => (nomatch htaken)
  increasing := List.Pairwise.nil

theorem history_of_run {trace : List (Taken RoutingTable Call)} {last : RoutingTable}
    (hrun : Run Step new trace last) : History last trace := by
  have hall : History last ([] ++ trace.flatMap fun taken => [taken]) :=
    hrun.accumulate (C := fun _ => True)
      (fun s label s' past hpast hstep _ => hpast.step hstep) new_history (fun _ _ => trivial)
  simpa using hall

end Runs

section Recipients

variable {workspace : WorkspaceId} {sender : PeerId} {topic : Topic} {peers audience : List PeerId}

theorem recipients_eq_ok (h : table.recipients workspace revision sender topic = .ok peers) :
    ∃ state, table.workspaces.find? workspace = some state ∧ state.revision = revision ∧
      state.mayPublish sender topic ∧ ∀ peer, peer ∈ peers ↔ state.interested peer topic := by
  rw [recipients] at h
  split at h
  · cases h
  · rename_i state hcurrent
    obtain ⟨hstate, hrevision⟩ := current_eq_ok.mp hcurrent
    split at h
    · rename_i hpublish
      cases h
      refine ⟨state, hstate, hrevision, hpublish, ?_⟩
      intro peer
      rw [interested_iff]
      simp only [List.mem_map, List.mem_filter, Prod.exists, decide_eq_true_eq]
      constructor
      · rintro ⟨peer', topics, ⟨hentry, htopic⟩, rfl⟩
        exact ⟨topics, (state.subscriptions.mem_entries_iff peer' topics).mp hentry, htopic⟩
      · rintro ⟨topics, hfind, htopic⟩
        exact ⟨peer, topics,
          ⟨(state.subscriptions.mem_entries_iff peer topics).mpr hfind, htopic⟩, rfl⟩
    · cases h

theorem directRecipients_eq_ok
    (h : table.directRecipients workspace revision sender topic audience = .ok peers) :
    ∃ state, table.workspaces.find? workspace = some state ∧
      (∀ peer ∈ audience, state.maySubscribe peer topic) ∧
      peers = audience.filter (fun peer => state.interested peer topic) ∧
      ∃ all, table.recipients workspace revision sender topic = .ok all := by
  rw [directRecipients] at h
  split at h
  · cases h
  · rename_i state hcurrent
    obtain ⟨hstate, _⟩ := current_eq_ok.mp hcurrent
    split at h
    · cases h
    · split at h
      · cases h
      · rename_i hpublish
        split at h
        · cases h
        · rename_i hmay
          cases h
          refine ⟨state, hstate, ?_, rfl, ?_⟩
          · intro peer hpeer
            by_contra hnot
            exact hmay (List.any_eq_true.mpr ⟨peer, hpeer, by simpa using hnot⟩)
          · have hpublish' : state.mayPublish sender topic = true := by simpa using hpublish
            rw [recipients, hcurrent]
            simp only [hpublish', if_true]
            exact ⟨_, rfl⟩

end Recipients

/-- The endpoints that a publication may be handed to: those of the current policy that may
subscribe to the topic and did. -/
def Entitled (table : RoutingTable) (trace : List (Taken RoutingTable Call))
    (workspace : WorkspaceId) (topic : Topic) (peer : PeerId) : Prop :=
  (∃ state, table.workspaces.find? workspace = some state ∧
    ∃ access, state.endpointPermissions.find? peer = some access ∧ access.canSubscribe topic) ∧
  Asked trace workspace peer topic

theorem History.entitled {trace : List (Taken RoutingTable Call)} (h : History table trace)
    {workspace : WorkspaceId} {state : Workspace} {topic : Topic}
    (hstate : table.workspaces.find? workspace = some state)
    (hinterested : state.interested peer topic) : table.Entitled trace workspace topic peer := by
  refine ⟨⟨state, hstate, ?_⟩, h.asked workspace peer topic ⟨state, hstate, hinterested⟩⟩
  obtain ⟨topics, htopics, htopic⟩ := interested_iff.mp hinterested
  have hmay := (h.sound workspace state hstate peer topics htopics).2.2 topic htopic
  exact (Option.any_eq_true _ _).mp hmay

/-- Over any calls on any workspaces: interests stay within the installed policy, revisions only
rise, a failing call changes nothing and a successful one only its workspace, and publications
are handed only to peers that may have them and asked for them. -/
theorem routing_within_policy {trace : List (Taken RoutingTable Call)} {last : RoutingTable}
    (hrun : Run Step new trace last) :
    last.Sound ∧ trace.Pairwise Increasing ∧
    (∀ taken ∈ trace, (¬ Succeeds taken → taken.after = taken.before) ∧
      (∀ workspace, workspace ≠ taken.label.workspace →
        taken.after.workspaces.find? workspace = taken.before.workspaces.find? workspace) ∧
      ∀ workspace revision permissions,
        taken.label = .installVerifiedPolicy workspace revision permissions → Succeeds taken →
          (∀ state, taken.before.workspaces.find? workspace = some state →
            state.revision < revision) ∧
          ∃ state, taken.after.workspaces.find? workspace = some state ∧
            state.revision = revision) ∧
    (∀ workspace revision sender topic peers,
      last.recipients workspace revision sender topic = .ok peers →
        ∀ peer ∈ peers, last.Entitled trace workspace topic peer) ∧
    ∀ workspace revision sender topic audience peers,
      last.directRecipients workspace revision sender topic audience = .ok peers →
        (∀ peer ∈ peers, last.Entitled trace workspace topic peer) ∧
        ∃ all, last.recipients workspace revision sender topic = .ok all ∧
          peers = audience.filter fun peer => peer ∈ all := by
  have hhistory := history_of_run hrun
  refine ⟨hhistory.sound, hhistory.increasing, ?_, ?_, ?_⟩
  · intro taken htaken
    obtain ⟨_, _, _, _, hstep, _⟩ := hrun.split htaken
    obtain ⟨hfailed, hothers⟩ := perform_frame taken.before taken.label
    have hafter : (taken.label.perform taken.before).2 = taken.after := hstep
    rw [hafter] at hfailed hothers
    refine ⟨hfailed, hothers, ?_⟩
    intro workspace revision permissions hlabel hok
    rw [Succeeds, hlabel] at hok
    rw [hlabel] at hafter
    rw [← hafter]
    exact installed_step hok
  · intro workspace revision sender topic peers hpeers peer hpeer
    obtain ⟨state, hstate, _, _, hmem⟩ := recipients_eq_ok hpeers
    exact hhistory.entitled hstate ((hmem peer).mp hpeer)
  · intro workspace revision sender topic audience peers hpeers
    obtain ⟨state, hstate, _, rfl, all, hall⟩ := directRecipients_eq_ok hpeers
    obtain ⟨state', hstate', _, _, hmem⟩ := recipients_eq_ok hall
    cases hstate.symm.trans hstate'
    refine ⟨?_, all, hall, ?_⟩
    · intro peer hpeer
      exact hhistory.entitled hstate (List.mem_filter.mp hpeer).2
    · apply List.filter_congr
      intro peer _
      rw [Bool.eq_iff_iff, decide_eq_true_eq, hmem peer]

section Sample

def sampleTopic : Topic := ⟨utf8 "notes", isValid_notes⟩

/-- A policy that lets one endpoint do everything. -/
def samplePolicy : OrderedMap PeerId Permissions :=
  OrderedMap.empty.insert (zeroBlock 32) .allTopics

def sampleCalls : List Call :=
  [.installVerifiedPolicy (zeroBlock 32) 1 samplePolicy,
    .subscribe (zeroBlock 32) 1 (zeroBlock 32) sampleTopic]

def sampleNext (table : RoutingTable) (call : Call) : RoutingTable := (call.perform table).2

def sampleTable : RoutingTable := sampleCalls.foldl sampleNext new

theorem routing_within_policy_subscribed :
    sampleTable.recipients (zeroBlock 32) 1 (zeroBlock 32) sampleTopic = .ok [zeroBlock 32] ∧
      sampleTable.Entitled (play sampleNext new sampleCalls) (zeroBlock 32) sampleTopic
        (zeroBlock 32) := by
  have hpeers : sampleTable.recipients (zeroBlock 32) 1 (zeroBlock 32) sampleTopic =
      .ok [zeroBlock 32] := by decide
  have hrun : Run Step new (play sampleNext new sampleCalls) sampleTable :=
    play_run sampleNext new sampleCalls
  obtain ⟨_, _, _, hentitled, _⟩ := routing_within_policy hrun
  exact ⟨hpeers, hentitled _ _ _ _ _ hpeers _ List.mem_cons_self⟩

end Sample

end RoutingTable

end Arachne.Routing
