import Mathlib.Data.Finset.Card
import Mathlib.Data.Finset.Erase
import Mathlib.Data.Finset.Insert
import Arachne.Lib.OrderedMap
import Arachne.Routing.Publication

/-! The routing table of a node: which endpoints may publish and subscribe to which topics of a
workspace, and which topics they did subscribe to. -/

namespace Arachne.Routing

open ByteCodec

def maxWorkspaces : Nat := 32

def maxEndpoints : Nat := 4096

def maxTopicsPerPeer : Nat := 64

/-- Topic authorization, independent of subscription interest. -/
inductive Permissions where
  | allTopics
  | selected (publish subscribe : Finset Topic)
deriving DecidableEq

namespace Permissions

def canPublish (topic : Topic) : Permissions → Bool
  | .allTopics => true
  | .selected publish _ => topic ∈ publish

def canSubscribe (topic : Topic) : Permissions → Bool
  | .allTopics => true
  | .selected _ subscribe => topic ∈ subscribe

def withinBounds : Permissions → Bool
  | .allTopics => true
  | .selected publish subscribe =>
      publish.card ≤ maxTopicsPerPeer && subscribe.card ≤ maxTopicsPerPeer

end Permissions

/-- The verified policy of one workspace and the interests under it. -/
structure RoutingTable.Workspace where
  revision : U64
  endpointPermissions : OrderedMap PeerId Permissions
  subscriptions : OrderedMap PeerId (Finset Topic)
deriving DecidableEq

structure RoutingTable where
  workspaces : OrderedMap WorkspaceId RoutingTable.Workspace
deriving DecidableEq

namespace RoutingTable

def new : RoutingTable := ⟨OrderedMap.empty⟩

def Workspace.maySubscribe (state : Workspace) (peer : PeerId) (topic : Topic) : Bool :=
  (state.endpointPermissions.find? peer).any (·.canSubscribe topic)

def Workspace.mayPublish (state : Workspace) (peer : PeerId) (topic : Topic) : Bool :=
  (state.endpointPermissions.find? peer).any (·.canPublish topic)

def Workspace.interested (state : Workspace) (peer : PeerId) (topic : Topic) : Bool :=
  (state.subscriptions.find? peer).any (topic ∈ ·)

/-- The state of a workspace at the revision a caller expects. -/
def current (table : RoutingTable) (workspace : WorkspaceId) (revision : U64) :
    Except Error Workspace :=
  match table.workspaces.find? workspace with
  | none => .error .unknownWorkspace
  | some state => if state.revision ≠ revision then .error .wrongPolicyRevision else .ok state

/-- The table with a new state of one workspace. -/
def put (table : RoutingTable) (workspace : WorkspaceId) (state : Workspace) : RoutingTable :=
  ⟨table.workspaces.insert workspace state⟩

/-- The publishers of a topic, for an authorized subscriber. -/
def publishers (table : RoutingTable) (workspace : WorkspaceId) (revision : U64)
    (subscriber : PeerId) (topic : Topic) : Except Error (List PeerId) :=
  match table.current workspace revision with
  | .error error => .error error
  | .ok state =>
      if state.maySubscribe subscriber topic then
        .ok ((state.endpointPermissions.entries.filter fun entry =>
          entry.2.canPublish topic).map Prod.fst)
      else .error .denied

/-- The interests that a policy still allows; a peer without any is dropped. -/
def retained (permissions : OrderedMap PeerId Permissions)
    (subscriptions : OrderedMap PeerId (Finset Topic)) : OrderedMap PeerId (Finset Topic) :=
  subscriptions.filterMap fun peer topics =>
    match permissions.find? peer with
    | none => none
    | some access =>
        let kept := topics.filter fun topic => access.canSubscribe topic
        if kept = ∅ then none else some kept

/-- The result of a call and the table after it. -/
abbrev Outcome := Except Error Unit × RoutingTable

def installVerifiedPolicy (table : RoutingTable) (workspace : WorkspaceId) (revision : U64)
    (endpointPermissions : OrderedMap PeerId Permissions) : Outcome :=
  let old := table.workspaces.find? workspace
  if maxEndpoints < endpointPermissions.size ∨
      endpointPermissions.values.any (fun access => !access.withinBounds) ∨
      (old = none ∧ maxWorkspaces ≤ table.workspaces.size) then
    (.error .limitExceeded, table)
  else if old.any fun state => revision ≤ state.revision then
    (.error .wrongPolicyRevision, table)
  else
    let subscriptions := (old.map Workspace.subscriptions).getD OrderedMap.empty
    (.ok (), table.put workspace
      ⟨revision, endpointPermissions, retained endpointPermissions subscriptions⟩)

def subscribe (table : RoutingTable) (workspace : WorkspaceId) (revision : U64) (peer : PeerId)
    (topic : Topic) : Outcome :=
  match table.current workspace revision with
  | .error error => (.error error, table)
  | .ok state =>
      if !state.maySubscribe peer topic then (.error .denied, table)
      else
        -- The entry of the peer is made before its size is checked.
        let topics := (state.subscriptions.find? peer).getD ∅
        let entered := { state with subscriptions := state.subscriptions.insert peer topics }
        if maxTopicsPerPeer ≤ topics.card ∧ topic ∉ topics then
          (.error .limitExceeded, table.put workspace entered)
        else
          (.ok (), table.put workspace
            { entered with
              subscriptions := entered.subscriptions.insert peer (insert topic topics) })

def unsubscribe (table : RoutingTable) (workspace : WorkspaceId) (revision : U64) (peer : PeerId)
    (topic : Topic) : Outcome :=
  match table.current workspace revision with
  | .error error => (.error error, table)
  | .ok state =>
      if (state.endpointPermissions.find? peer).isNone then (.error .denied, table)
      else
        match state.subscriptions.find? peer with
        | none => (.ok (), table)
        | some topics =>
            let rest := topics.erase topic
            let subscriptions :=
              if rest = ∅ then state.subscriptions.erase peer
              else state.subscriptions.insert peer rest
            (.ok (), table.put workspace { state with subscriptions })

def subscribed (table : RoutingTable) (workspace : WorkspaceId) (revision : U64) (peer : PeerId)
    (topic : Topic) : Except Error Bool :=
  match table.current workspace revision with
  | .error error => .error error
  | .ok state =>
      if state.maySubscribe peer topic then .ok (state.interested peer topic) else .error .denied

/-- The subscribers of a topic, for an authorized sender. -/
def recipients (table : RoutingTable) (workspace : WorkspaceId) (revision : U64) (sender : PeerId)
    (topic : Topic) : Except Error (List PeerId) :=
  match table.current workspace revision with
  | .error error => .error error
  | .ok state =>
      if state.mayPublish sender topic then
        .ok ((state.subscriptions.entries.filter fun entry => topic ∈ entry.2).map Prod.fst)
      else .error .denied

/-- The subscribers among an explicit audience, all of which may subscribe. -/
def directRecipients (table : RoutingTable) (workspace : WorkspaceId) (revision : U64)
    (sender : PeerId) (topic : Topic) (audience : List PeerId) : Except Error (List PeerId) :=
  match table.current workspace revision with
  | .error error => .error error
  | .ok state =>
      if audience = [] ∨ maxEndpoints < audience.length ∨ ¬ audience.Pairwise (· < ·) then
        .error .denied
      else if !state.mayPublish sender topic then .error .denied
      else if audience.any fun peer => !state.maySubscribe peer topic then .error .denied
      else .ok (audience.filter fun peer => state.interested peer topic)

theorem current_eq_ok {table : RoutingTable} {workspace : WorkspaceId} {revision : U64}
    {state : Workspace} :
    table.current workspace revision = .ok state ↔
      table.workspaces.find? workspace = some state ∧ state.revision = revision := by
  rw [current]
  cases table.workspaces.find? workspace with
  | none => simp
  | some found =>
    by_cases hrevision : found.revision = revision
    · simp only [hrevision, ne_eq, not_true_eq_false, if_false, Except.ok.injEq,
        Option.some.injEq]
      constructor
      · rintro rfl
        exact ⟨rfl, hrevision⟩
      · intro h
        exact h.1
    · simp only [ne_eq, hrevision, not_false_eq_true, if_true, reduceCtorEq, Option.some.injEq,
        false_iff, not_and]
      rintro rfl
      exact hrevision

end RoutingTable

end Arachne.Routing
