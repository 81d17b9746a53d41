import Arachne.Delivery.CurrentRuns
import Arachne.Delivery.InboxRestore

/-! A cut identifies one view: the index of an authority over a whole run, and a reader who
applies the views it serves in the order they were made. -/

namespace Arachne.Delivery

open ByteCodec Fallible Routing SortedWindow Transition
open Security (Mls SFrame Workspace)

variable {index : CurrentViewIndex} {inserted : List CurrentInsert} {requester : PeerId}
  {verified : VerifiedCurrentView} {progress : CurrentProgress}

/-- The publisher sequence of a stored value. -/
def IndexedValue.position (entry : IndexedValue) : U64 :=
  NonZeroU64.orZero entry.context.sequence

namespace CurrentViewIndex

variable {next : CurrentViewIndex} {value : CurrentInsert} {query : CurrentViewQuery}

/-- From one moment of an index to a later one, cuts only grow, and a selection whose cut is the
same has the same values. -/
def Advances (earlier later : CurrentViewIndex) : Prop :=
  ∀ query, earlier.cutOf query ≤ later.cutOf query ∧
    (earlier.cutOf query = later.cutOf query → earlier.selected query = later.selected query)

theorem Advances.refl (index : CurrentViewIndex) : Advances index index :=
  fun _ => ⟨le_rfl, fun _ => rfl⟩

theorem Advances.trans {first second third : CurrentViewIndex} (h : Advances first second)
    (h' : Advances second third) : Advances first third := by
  intro query
  obtain ⟨hle, hsame⟩ := h query
  obtain ⟨hle', hsame'⟩ := h' query
  refine ⟨hle.trans hle', ?_⟩
  intro heq
  have hmiddle : first.cutOf query = second.cutOf query := le_antisymm hle (heq ▸ hle')
  exact (hsame hmiddle).trans (hsame' (hmiddle.symm.trans heq))

/-- A value that is written raises the cut of its selection, and leaves the other selections. -/
theorem Writes.advances {sequence : NonZeroU64} (h : Writes index value sequence next)
    (hkept : Kept index) (hnext : Kept next) : Advances index next := by
  obtain ⟨cut, hcut, rfl⟩ := h.result
  intro query
  by_cases hscope : value.scope = selection query.policyRevision query.topic query.selector
  · have hold : index.cutOf query = (index.cuts.find? value.scope).getD 0 := by
      rw [cutOf, hscope]
    have hnew : cutOf { index with
        values := index.values.insert value.key value.entry
        cuts := index.cuts.insert value.scope cut } query = cut := by
      rw [cutOf, ← hscope, OrderedMap.find?_insert_self, Option.getD_some]
    have hlt : index.cutOf query < cut := by
      rw [hold, Fin.lt_def, hcut]
      exact Nat.lt_succ_self _
    rw [hnew]
    exact ⟨hlt.le, fun heq => absurd heq hlt.ne⟩
  · have hsame : cutOf { index with
        values := index.values.insert value.key value.entry
        cuts := index.cuts.insert value.scope cut } query = index.cutOf query := by
      rw [cutOf, OrderedMap.find?_insert, if_neg hscope, cutOf]
    rw [hsame]
    refine ⟨le_rfl, fun _ => ?_⟩
    refine OrderedMap.eq_of_increasing (hkept.selected_sorted query)
      (hnext.selected_sorted query) ?_
    intro stored
    rw [hkept.mem_selected, hnext.mem_selected]
    have hkey : value.key ≠ valueKey query.policyRevision query.topic query.selector
        stored.replacementKey := by
      intro heq
      simp only [CurrentInsert.key, valueKey, EmbeddingLike.apply_eq_iff_eq, Prod.mk.injEq] at heq
      obtain ⟨hrevision, htopic, hselector, _⟩ := heq
      refine hscope ?_
      rw [CurrentInsert.scope, hrevision, htopic, hselector]
    dsimp only
    rw [OrderedMap.find?_insert, if_neg hkey]

theorem Kept.put_advances (hkept : Kept index) (h : index.put value = .ok next) :
    Advances index next := by
  have hnext := hkept.put h
  obtain ⟨sequence, _, ⟨rfl, _⟩ | hwrites⟩ := put_eq_ok h
  · exact .refl _
  · exact hwrites.advances hkept hnext

theorem IndexStep.advances {call : IndexCall} (h : IndexStep index call next) (hkept : Kept index) :
    Advances index next := by
  rcases h.changes with rfl | ⟨value, _, hput⟩
  · exact .refl _
  · exact hkept.put_advances hput

/-- Every value that was taken in is covered, by the one with the greatest sequence. -/
structure Latest (inserted : List CurrentInsert) (index : CurrentViewIndex) : Prop where
  covered : ∀ value ∈ inserted, index.values.find? value.key ≠ none
  source : ∀ key entry, index.values.find? key = some entry →
    ∃ value ∈ inserted, value.key = key ∧ value.entry = entry
  greatest : ∀ key entry, index.values.find? key = some entry → ∀ value ∈ inserted,
    value.key = key → value.entry.position ≤ entry.position ∧
      (value.entry.position = entry.position → value.entry = entry)

theorem new_latest (workspace : WorkspaceId) (authority : Block 32) (epoch : U64) :
    Latest [] (new workspace authority epoch) where
  covered := by simp
  source := by simp [new]
  greatest := by simp

variable {existing : IndexedValue} {sequence : NonZeroU64}

theorem Outdates.eq_entry (h : Outdates existing value.entry sequence.val)
    (hstored : Stored index.workspace value.key existing)
    (hvalue : value.context.sequence = some sequence) : value.entry.position ≤ existing.position ∧
      (value.entry.position = existing.position → value.entry = existing) := by
  obtain ⟨current, hcurrent, hle⟩ := h.later
  have hposition : value.entry.position = sequence.val := by
    rw [IndexedValue.position, CurrentInsert.entry, hvalue]
    rfl
  have hexisting : existing.position = current.val := by
    rw [IndexedValue.position, hcurrent]
    rfl
  rw [hposition, hexisting]
  refine ⟨hle, ?_⟩
  intro heq
  obtain ⟨hcontext, hexpires, htombstone, hpacket⟩ := h.same ⟨current, hcurrent, heq⟩
  have hkey := hstored.key
  simp only [CurrentInsert.key, valueKey, EmbeddingLike.apply_eq_iff_eq, Prod.mk.injEq] at hkey
  obtain ⟨_, _, hselector, hreplacement⟩ := hkey
  obtain ⟨context, selector, replacementKey, expiresAt, tombstone, packet⟩ := existing
  simp only [CurrentInsert.entry] at hcontext hexpires htombstone hpacket hselector hreplacement ⊢
  rw [hcontext, hexpires, htombstone, hpacket, hselector, hreplacement]

theorem Latest.ignored (h : Latest inserted index) (hkept : Kept index)
    (hfind : index.values.find? value.key = some existing)
    (hold : Outdates existing value.entry sequence.val)
    (hvalue : value.context.sequence = some sequence) : Latest (inserted ++ [value]) index := by
  have hlater := hold.eq_entry (hkept.stored _ _ hfind) hvalue
  constructor
  · intro other hother
    rcases List.mem_append.mp hother with hother | hother
    · exact h.covered other hother
    · rw [List.mem_singleton.mp hother, hfind]
      exact nofun
  · intro key entry hentry
    obtain ⟨source, hsource, heq⟩ := h.source key entry hentry
    exact ⟨source, List.mem_append_left _ hsource, heq⟩
  · intro key entry hentry other hother hkey
    rcases List.mem_append.mp hother with hother | hother
    · exact h.greatest key entry hentry other hother hkey
    · rw [List.mem_singleton.mp hother] at hkey ⊢
      subst hkey
      rw [hfind] at hentry
      cases hentry
      exact hlater

theorem Latest.written (h : Latest inserted index) (hwrites : Writes index value sequence next)
    (hvalue : value.context.sequence = some sequence) : Latest (inserted ++ [value]) next := by
  have hnewer := hwrites.newer
  obtain ⟨cut, _, rfl⟩ := hwrites.result
  have hposition : value.entry.position = sequence.val := by
    rw [IndexedValue.position, CurrentInsert.entry, hvalue]
    rfl
  -- what was taken in before for the same key is older than the value that is replaced
  have holder : ∀ other ∈ inserted, other.key = value.key →
      other.entry.position < value.entry.position := by
    intro other hother hkey
    obtain ⟨existing, hexisting⟩ := Option.ne_none_iff_exists'.mp (h.covered other hother)
    rw [hkey] at hexisting
    obtain ⟨current, hcurrent, hlt⟩ := hnewer existing hexisting
    have hle := (h.greatest _ _ hexisting other hother hkey).1
    have hequal : existing.position = current.val := by
      rw [IndexedValue.position, hcurrent]
      rfl
    rw [hposition]
    exact lt_of_le_of_lt (hequal ▸ hle) hlt
  constructor
  · intro other hother
    rw [OrderedMap.find?_insert]
    split
    · exact Option.some_ne_none _
    · rename_i hne
      rcases List.mem_append.mp hother with hother | hother
      · exact h.covered other hother
      · rw [List.mem_singleton.mp hother] at hne
        exact absurd rfl hne
  · intro key entry hentry
    rcases find?_insert_eq_some hentry with ⟨rfl, rfl⟩ | ⟨_, hold⟩
    · exact ⟨value, List.mem_append_right _ (List.mem_singleton_self _), rfl, rfl⟩
    · obtain ⟨source, hsource, heq⟩ := h.source key entry hold
      exact ⟨source, List.mem_append_left _ hsource, heq⟩
  · intro key entry hentry other hother hkey
    rcases find?_insert_eq_some hentry with ⟨rfl, rfl⟩ | ⟨hne, hold⟩
    · rcases List.mem_append.mp hother with hother | hother
      · have hlt := holder other hother hkey
        exact ⟨hlt.le, fun heq => absurd heq hlt.ne⟩
      · rw [List.mem_singleton.mp hother]
        exact ⟨le_rfl, fun _ => rfl⟩
    · rcases List.mem_append.mp hother with hother | hother
      · exact h.greatest key entry hold other hother hkey
      · rw [List.mem_singleton.mp hother] at hkey
        exact absurd hkey.symm hne

theorem Latest.put (h : Latest inserted index) (hkept : Kept index)
    (hput : index.put value = .ok next) : Latest (inserted ++ [value]) next := by
  obtain ⟨sequence, hvalue, ⟨rfl, existing, hfind, hold⟩ | hwrites⟩ := put_eq_ok hput
  · exact h.ignored hkept hfind hold hvalue.sequence
  · exact h.written hwrites hvalue.sequence

end CurrentViewIndex

/-- What an authority and a reader do: calls on the index, views that are served, and at the
reader the application of the oldest view not yet applied, and other calls on the inbox. -/
inductive ViewAct (Group Signer : Type) where
  | index (call : CurrentViewIndex.IndexCall)
  | serve (owner : Workspace Group Signer) (policy : RoutingTable) (requester : PeerId)
      (query : CurrentViewQuery)
  | apply (now : U64)
  | inbox (call : InboxCall)

/-- The index, the replies that are still to be applied, oldest first, and the reader's inbox. -/
structure ViewSystem where
  index : CurrentViewIndex
  replies : List (CurrentViewQuery × Bytes)
  inbox : ObjectInbox

def ViewSystem.start (workspace : WorkspaceId) (authority : Block 32) (epoch : U64) : ViewSystem :=
  ⟨CurrentViewIndex.new workspace authority epoch, [], ObjectInbox.new workspace epoch⟩

/-- The inbox after a view was offered to it. -/
def ObjectInbox.afterView (json : Json) (owner : SecurityOwner) (inbox : ObjectInbox)
    (query : CurrentViewQuery) (reply : Bytes) (now : U64) : ObjectInbox :=
  match inbox.acceptCurrentView json owner query reply now with
  | .ok (next, _, _) => next
  | .error _ => inbox

section System

open CurrentViewIndex
open ObjectInbox (viewProgress CacheKept)

variable {Group Signer Staged Key : Type} {mls : Mls Group Signer Staged}
  {sframe : SFrame Group Key}
  {json : Json} {signer : Signer} {reader : Workspace Group Signer}

/-- The authority always signs with one key, and all views of its authority that the reader is
offered are its replies. -/
inductive ViewStep (mls : Mls Group Signer Staged) (sframe : SFrame Group Key) (json : Json)
    (signer : Signer) (reader : Workspace Group Signer) :
    ViewSystem → ViewAct Group Signer → ViewSystem → Prop
  | index {system : ViewSystem} {call : IndexCall} {next : CurrentViewIndex}
      (hcall : IndexStep system.index call next) :
      ViewStep mls sframe json signer reader system (.index call) { system with index := next }
  | serve {system : ViewSystem} {owner : Workspace Group Signer} {policy : RoutingTable}
      {requester : PeerId} {query : CurrentViewQuery} {reply : Bytes}
      (hsigner : owner.signer = signer)
      (hserved : system.index.serve mls owner policy requester query = .ok reply) :
      ViewStep mls sframe json signer reader system (.serve owner policy requester query)
        { system with replies := system.replies ++ [(query, reply)] }
  | apply {system : ViewSystem} {query : CurrentViewQuery} {reply : Bytes}
      {rest : List (CurrentViewQuery × Bytes)} (now : U64)
      (hreplies : system.replies = (query, reply) :: rest) :
      ViewStep mls sframe json signer reader system (.apply now)
        { system with
          replies := rest
          inbox := system.inbox.afterView json (securityOwner mls sframe reader) query reply now }
  | inbox {system : ViewSystem} {call : InboxCall} {next : ObjectInbox}
      (hcall : InboxStep json (securityOwner mls sframe reader) system.inbox call next)
      (hother : ∀ query reply now, call = .currentView query reply now →
        query.authority ≠ system.index.authority) :
      ViewStep mls sframe json signer reader system (.inbox call) { system with inbox := next }

/-- The insertions of a run that succeeded. -/
def insertedBy (taken : Taken ViewSystem (ViewAct Group Signer)) : List CurrentInsert :=
  match taken.label with
  | .index (.insert value) => if (taken.before.index.put value).isOk then [value] else []
  | _ => []

/-- The view that an authority with this key makes of a cut and its values. -/
def MadeBy (mls : Mls Group Signer Staged) (signer : Signer) (query : CurrentViewQuery) (cut : U64)
    (values : List CurrentValue) (view : CurrentView) : Prop :=
  ∃ owner, owner.signer = signer ∧ protect mls owner query cut values = .ok view

theorem MadeBy.unique {query : CurrentViewQuery} {cut : U64} {values : List CurrentValue}
    {view view' : CurrentView} (h : MadeBy mls signer query cut values view)
    (h' : MadeBy mls signer query cut values view') : view = view' := by
  obtain ⟨owner, hsigner, hview⟩ := h
  obtain ⟨owner', hsigner', hview'⟩ := h'
  simp only [protect, Mls.signCurrentView, bind_eq_ok, orFail_eq_ok, pure_eq_ok] at hview hview'
  obtain ⟨_, _, body, hbody, _, ⟨_, _, signature, hsign, rfl⟩, rfl⟩ := hview
  obtain ⟨_, _, body', hbody', _, ⟨_, _, signature', hsign', rfl⟩, rfl⟩ := hview'
  have hbodies := ok_unique hbody hbody'
  subst hbodies
  rw [hsigner] at hsign
  rw [hsigner', hsign] at hsign'
  rw [Option.some.inj hsign']

variable {workspace : WorkspaceId} {authority : Block 32} {epoch : U64}

/-- A reply as it was served at a moment of the index: a denial, or the view of that moment. -/
structure ServedAt (mls : Mls Group Signer Staged) (signer : Signer) (reader : SecurityOwner)
    (workspace : WorkspaceId) (authority : Block 32) (epoch : U64) (moment : CurrentViewIndex)
    (item : CurrentViewQuery × Bytes) : Prop where
  kept : KeptFor workspace authority epoch moment
  verified : ∀ verified, verifyWireReply reader item.1 item.2 = .ok (some verified) →
    moment.InScope item.1 ∧ verified.cut = moment.cutOf item.1 ∧
      ∃ view : CurrentView, item.2 = view.encoded ∧
        MadeBy mls signer item.1 (moment.cutOf item.1) (moment.selected item.1) view

/-- Progress that a reader has from the view of a moment. -/
structure SeenAt (mls : Mls Group Signer Staged) (signer : Signer) (workspace : WorkspaceId)
    (authority : Block 32) (epoch : U64) (moment : CurrentViewIndex) (progress : CurrentProgress) :
    Prop where
  kept : KeptFor workspace authority epoch moment
  made : ∃ query view, moment.InScope query ∧
    MadeBy mls signer query (moment.cutOf query) (moment.selected query) view ∧
    progress = ⟨query.authority, query.policyRevision, query.topic.val, query.selector,
      moment.cutOf query, mls.sha256 view.encoded⟩

theorem verifyWireReply_denied (owner : SecurityOwner) (query : CurrentViewQuery) :
    verifyWireReply owner query deniedWire = .ok none := by
  rw [verifyWireReply]
  rfl

theorem KeptFor.servedAt (h : KeptFor workspace authority epoch index)
    (hreader : Trusts mls reader signer workspace authority epoch)
    {owner : Workspace Group Signer} {policy : RoutingTable} {query : CurrentViewQuery}
    {reply : Bytes} (hsigner : owner.signer = signer)
    (hserved : index.serve mls owner policy requester query = .ok reply) :
    ServedAt mls signer (securityOwner mls sframe reader) workspace authority epoch index
      (query, reply) := by
  refine ⟨h, ?_⟩
  intro verified hverified
  dsimp only at hverified ⊢
  cases hauthorized : index.authorizes mls owner policy requester query with
  | false =>
    rw [CurrentViewIndex.serve, hauthorized] at hserved
    simp only [Bool.false_eq_true, if_false, pure_eq_ok] at hserved
    rw [← hserved, verifyWireReply_denied] at hverified
    cases hverified
  | true =>
    have hscope : index.InScope query := by
      rw [authorizes, Bool.and_eq_true, decide_eq_true_eq] at hauthorized
      exact hauthorized.1
    have hview := hserved
    rw [CurrentViewIndex.serve, if_pos hauthorized, CurrentViewIndex.view] at hview
    simp only [bind_eq_ok] at hview
    obtain ⟨view, ⟨_, _, hprotect⟩, _⟩ := hview
    have howner : SpeaksFor mls owner workspace authority epoch := by
      simp only [protect, bind_eq_ok, failIf_eq_ok, not_or, not_not] at hprotect
      obtain ⟨_, ⟨hid, hepoch, hmember⟩, _⟩ := hprotect
      exact ⟨hid.trans (hscope.1.trans h.workspace), hepoch.trans (hscope.2.2.trans h.epoch),
        hmember.trans (congrArg some (hscope.2.1.trans h.authority))⟩
    obtain ⟨made, hmade, hreply, hexact⟩ := h.serve sframe howner (hsigner ▸ hreader) hauthorized
    have hbytes := ok_unique hserved hreply
    rw [hbytes, hexact] at hverified
    cases hverified
    exact ⟨hscope, rfl, made, hbytes, owner, hsigner, hmade⟩

theorem ServedAt.seen {moment : CurrentViewIndex} {query : CurrentViewQuery} {reply : Bytes}
    (h : ServedAt mls signer (securityOwner mls sframe reader) workspace authority epoch moment
      (query, reply))
    (hverified : verifyWireReply (securityOwner mls sframe reader) query reply =
      .ok (some verified)) :
    SeenAt mls signer workspace authority epoch moment
      (viewProgress (securityOwner mls sframe reader) query reply verified) := by
  refine ⟨h.kept, ?_⟩
  obtain ⟨hscope, hcut, view, hreply, hmade⟩ := h.verified verified hverified
  dsimp only at hscope hcut hreply hmade
  refine ⟨query, view, hscope, hmade, ?_⟩
  rw [viewProgress, hcut, hreply]
  rfl

/-- Progress of one selection from two moments: the cut grew, or it is the same reply. -/
theorem SeenAt.compare {earlier later : CurrentViewIndex} {known : CurrentProgress}
    (h : SeenAt mls signer workspace authority epoch earlier known)
    (h' : SeenAt mls signer workspace authority epoch later progress)
    (hadvances : Advances earlier later)
    (hkey : ObjectInbox.currentKey known = ObjectInbox.currentKey progress) :
    known.cut ≤ progress.cut ∧ (known.cut = progress.cut → known.digest = progress.digest) := by
  obtain ⟨query, view, hscope, hmade, rfl⟩ := h.made
  obtain ⟨query', view', hscope', hmade', rfl⟩ := h'.made
  simp only [ObjectInbox.currentKey, EmbeddingLike.apply_eq_iff_eq, Prod.mk.injEq] at hkey
  obtain ⟨hauthority, hrevision, htopic, hselector⟩ := hkey
  have hquery : query = query' := by
    obtain ⟨hworkspace, _, hepoch⟩ := hscope
    obtain ⟨hworkspace', _, hepoch'⟩ := hscope'
    rw [h.kept.workspace] at hworkspace
    rw [h'.kept.workspace] at hworkspace'
    rw [h.kept.epoch] at hepoch
    rw [h'.kept.epoch] at hepoch'
    obtain ⟨_, _, _, _, _, _⟩ := query
    obtain ⟨_, _, _, _, _, _⟩ := query'
    simp only at hworkspace hworkspace' hepoch hepoch' hauthority hrevision htopic hselector
    rw [hworkspace, hworkspace', hepoch, hepoch', hauthority, hrevision, Subtype.ext htopic,
      hselector]
  subst hquery
  obtain ⟨hle, hsame⟩ := hadvances query
  refine ⟨hle, ?_⟩
  intro heq
  dsimp only at heq ⊢
  rw [heq, hsame heq] at hmade
  rw [hmade.unique hmade']

/-- The reader's progress with the authority, and the replies on their way, in the order of the
moments of the index that they are from. -/
structure Ordered (mls : Mls Group Signer Staged) (sframe : SFrame Group Key) (signer : Signer)
    (reader : Workspace Group Signer) (workspace : WorkspaceId) (authority : Block 32) (epoch : U64)
    (system : ViewSystem) : Prop where
  index : KeptFor workspace authority epoch system.index
  cache : CacheKept (securityOwner mls sframe reader) system.inbox
  replies : ∃ moments, List.Forall₂ (ServedAt mls signer (securityOwner mls sframe reader) workspace
      authority epoch) moments system.replies ∧
    (moments ++ [system.index]).Pairwise Advances ∧
    ∀ progress ∈ system.inbox.currentProgress, progress.authority = authority →
      ∃ moment, SeenAt mls signer workspace authority epoch moment progress ∧
        ∀ later ∈ moments ++ [system.index], Advances moment later

theorem start_ordered (mls : Mls Group Signer Staged) (sframe : SFrame Group Key) (signer : Signer)
    (reader : Workspace Group Signer) (workspace : WorkspaceId) (authority : Block 32)
    (epoch : U64) : Ordered mls sframe signer reader workspace authority epoch
      (ViewSystem.start workspace authority epoch) where
  index := ⟨new_kept workspace authority epoch, rfl, rfl, rfl⟩
  cache := ObjectInbox.new_cacheKept _ workspace epoch
  replies := by
    refine ⟨[], .nil, List.pairwise_singleton _ _, ?_⟩
    simp [ViewSystem.start, ObjectInbox.new]

section Steps

variable {system : ViewSystem}
  (h : Ordered mls sframe signer reader workspace authority epoch system)

include h in
theorem Ordered.indexed {call : IndexCall} {next : CurrentViewIndex}
    (hcall : IndexStep system.index call next) :
    Ordered mls sframe signer reader workspace authority epoch { system with index := next } := by
  have hadvances := hcall.advances h.index.kept
  obtain ⟨moments, hserved, hordered, hseen⟩ := h.replies
  rw [List.pairwise_append] at hordered
  obtain ⟨hmoments, _, hlast⟩ := hordered
  refine ⟨h.index.step hcall, h.cache, moments, hserved, ?_, ?_⟩
  · rw [List.pairwise_append]
    refine ⟨hmoments, List.pairwise_singleton _ _, ?_⟩
    intro moment hmoment last hnext
    rw [List.mem_singleton.mp hnext]
    exact (hlast moment hmoment _ (List.mem_singleton_self _)).trans hadvances
  · intro progress hprogress hauthority
    obtain ⟨moment, hmoment, hlater⟩ := hseen progress hprogress hauthority
    refine ⟨moment, hmoment, ?_⟩
    intro later hmem
    rcases List.mem_append.mp hmem with hmem | hmem
    · exact hlater later (List.mem_append_left _ hmem)
    · rw [List.mem_singleton.mp hmem]
      exact (hlater _ (List.mem_append_right _ (List.mem_singleton_self _))).trans hadvances

variable {query : CurrentViewQuery} {reply : Bytes} {owner : SecurityOwner} {inbox : ObjectInbox}
  {now : U64} {rest : List (CurrentViewQuery × Bytes)} {call : InboxCall}
  {act : ViewAct Group Signer} {next : ViewSystem}

include h in
theorem Ordered.serves {owner : Workspace Group Signer} {policy : RoutingTable}
    (hreader : Trusts mls reader signer workspace authority epoch)
    (hsigner : owner.signer = signer)
    (hserved : system.index.serve mls owner policy requester query = .ok reply) :
    Ordered mls sframe signer reader workspace authority epoch
      { system with replies := system.replies ++ [(query, reply)] } := by
  obtain ⟨moments, hmoments, hordered, hseen⟩ := h.replies
  have hat : ServedAt mls signer (securityOwner mls sframe reader) workspace authority epoch
      system.index (query, reply) := KeptFor.servedAt h.index hreader hsigner hserved
  refine ⟨h.index, h.cache, moments ++ [system.index], ?_, ?_, ?_⟩
  · exact List.rel_append hmoments (.cons hat .nil)
  · rw [List.pairwise_append]
    refine ⟨hordered, List.pairwise_singleton _ _, ?_⟩
    intro moment hmoment last hlast
    rw [List.mem_singleton.mp hlast]
    rcases List.mem_append.mp hmoment with hmoment | hmoment
    · exact (List.pairwise_append.mp hordered).2.2 moment hmoment _ (List.mem_singleton_self _)
    · rw [List.mem_singleton.mp hmoment]
      exact .refl _
  · intro progress hprogress hauthority
    obtain ⟨moment, hmoment, hlater⟩ := hseen progress hprogress hauthority
    refine ⟨moment, hmoment, ?_⟩
    intro later hmem
    rcases List.mem_append.mp hmem with hmem | hmem
    · exact hlater later hmem
    · rw [List.mem_singleton.mp hmem]
      exact hlater _ (List.mem_append_right _ (List.mem_singleton_self _))

theorem mem_afterView
    (h : progress ∈ (inbox.afterView json owner query reply now).currentProgress) :
    progress ∈ inbox.currentProgress ∨ ∃ verified,
      verifyWireReply owner query reply = .ok (some verified) ∧
        progress = viewProgress owner query reply verified := by
  rw [ObjectInbox.afterView] at h
  split at h
  · rename_i next pending stale haccept
    obtain ⟨view, hview, ⟨_, rfl⟩ | ⟨_, _, rfl⟩⟩ := ObjectInbox.acceptCurrentView_eq_ok haccept
    · exact .inl h
    · dsimp only at h
      rw [ObjectInbox.stageAll_currentProgress, putCurrentProgress_eq] at h
      rcases mem_putOrdered h with rfl | hold
      · exact .inr ⟨view, hview, rfl⟩
      · exact .inl hold
  · exact .inl h

theorem afterView_cacheKept (h : CacheKept owner inbox) :
    CacheKept owner (inbox.afterView json owner query reply now) := by
  rw [ObjectInbox.afterView]
  split
  · rename_i next pending stale haccept
    exact ((ObjectInbox.viewActs_run haccept).invariant
      (fun _ _ _ hkept hact => hact.cacheKept hkept) h).1
  · exact h

include h in
theorem Ordered.applied (hreplies : system.replies = (query, reply) :: rest) :
    Ordered mls sframe signer reader workspace authority epoch { system with
      replies := rest
      inbox := system.inbox.afterView json (securityOwner mls sframe reader) query reply now } := by
  obtain ⟨moments, hmoments, hordered, hseen⟩ := h.replies
  rw [hreplies] at hmoments
  cases hmoments with
  | @cons moment _ moments _ hserved hrest =>
    rw [List.cons_append, List.pairwise_cons] at hordered
    refine ⟨h.index, afterView_cacheKept h.cache, moments, hrest, hordered.2, ?_⟩
    intro progress hprogress hauthority
    rcases mem_afterView hprogress with hold | ⟨verified, hverified, rfl⟩
    · obtain ⟨known, hknown, hlater⟩ := hseen progress hold hauthority
      exact ⟨known, hknown, fun later hmem => hlater later (List.mem_cons_of_mem _ hmem)⟩
    · exact ⟨moment, hserved.seen hverified, hordered.1⟩

/-- Only a current view is applied as one. -/
theorem view_of_mem_acts {taken : Taken ObjectInbox InboxAct}
    (h : taken ∈ call.acts json owner inbox) (hlabel : taken.label = .view query reply) :
    ∃ now, call = .currentView query reply now := by
  rw [InboxCall.acts] at h
  split at h
  · have haccepts : ∀ {stagings}, taken ∉ ObjectInbox.acceptances json owner inbox stagings := by
      intro stagings hmem
      obtain ⟨staging, haccept⟩ := ObjectInbox.label_of_mem_acceptances hmem
      rw [haccept] at hlabel
      cases hlabel
    cases call with
    | directRange other reply =>
      simp only [ObjectInbox.rangeActs] at h
      split at h
      · exact absurd h haccepts
      · simp at h
    | currentView other answer now =>
      simp only [ObjectInbox.viewActs] at h
      split at h
      · split at h
        · rcases List.mem_append.mp h with hstaged | hlast
          · exact absurd hstaged haccepts
          · rw [List.mem_singleton.mp hlast] at hlabel
            cases hlabel
            exact ⟨now, rfl⟩
        · simp at h
      · simp at h
    | reload log => simp at h
    | _ =>
      rw [List.mem_singleton.mp h] at hlabel
      cases hlabel
  · simp at h

/-- Other calls leave the progress with the authority. -/
theorem InboxStep.progress_of_authority {next : ObjectInbox} (hjson : json.Lawful)
    (hcache : CacheKept owner inbox) (hstep : InboxStep json owner inbox call next)
    (hother : ∀ query reply now, call = .currentView query reply now →
      query.authority ≠ authority) :
    CacheKept owner next ∧ ∀ progress ∈ next.currentProgress, progress.authority = authority →
      progress ∈ inbox.currentProgress := by
  have hacts := ObjectInbox.acts_run hjson hcache hstep
  refine (hacts.guarded (P := fun s => CacheKept owner s ∧ ∀ progress ∈ s.currentProgress,
      progress.authority = authority → progress ∈ inbox.currentProgress)
    (C := fun taken => ∀ query reply, taken.label = .view query reply →
      query.authority ≠ authority) ?_ ⟨hcache, fun _ hmem _ => hmem⟩ ?_).1
  · rintro s act s' ⟨hkept, hprogress⟩ hact hcond
    refine ⟨hact.cacheKept hkept, ?_⟩
    rcases hact.progress_cases with ⟨query, reply, view, rfl, _, _, _, rfl⟩ |
      ⟨query, reply, _, hcover⟩ | ⟨_, hsame⟩
    · intro progress hmem hauthority
      dsimp only at hmem
      rw [putCurrentProgress_eq] at hmem
      rcases mem_putOrdered hmem with rfl | hold
      · exact absurd hauthority (hcond query reply rfl)
      · exact hprogress progress hold hauthority
    · obtain ⟨_, ⟨_, rfl⟩ | ⟨_, _, _, rfl⟩⟩ := ObjectInbox.acceptRecoveryCoverage_eq_ok hcover
      · exact hprogress
      · exact hprogress
    · rwa [hsame]
  · intro taken htaken query reply hlabel
    obtain ⟨now, hcall⟩ := view_of_mem_acts htaken hlabel
    exact hother query reply now hcall

include h in
theorem Ordered.called {next : ObjectInbox} (hjson : json.Lawful)
    (hcall : InboxStep json (securityOwner mls sframe reader) system.inbox call next)
    (hother : ∀ query reply now, call = .currentView query reply now →
      query.authority ≠ system.index.authority) :
    Ordered mls sframe signer reader workspace authority epoch { system with inbox := next } := by
  rw [h.index.authority] at hother
  obtain ⟨hcache, hprogress⟩ := hcall.progress_of_authority hjson h.cache hother
  obtain ⟨moments, hmoments, hordered, hseen⟩ := h.replies
  refine ⟨h.index, hcache, moments, hmoments, hordered, ?_⟩
  intro progress hmem hauthority
  exact hseen progress (hprogress progress hmem hauthority) hauthority

include h in
theorem Ordered.step (hjson : json.Lawful)
    (hreader : Trusts mls reader signer workspace authority epoch)
    (hstep : ViewStep mls sframe json signer reader system act next) :
    Ordered mls sframe signer reader workspace authority epoch next := by
  cases hstep with
  | index hcall => exact h.indexed hcall
  | serve hsigner hserved => exact h.serves hreader hsigner hserved
  | apply now hreplies => exact h.applied hreplies
  | inbox hcall hother => exact h.called hjson hcall hother

theorem ViewStep.advances (hstep : ViewStep mls sframe json signer reader system act next)
    (hkept : Kept system.index) : Advances system.index next.index := by
  cases hstep with
  | index hcall => exact hcall.advances hkept
  | serve | apply | inbox => exact .refl _

theorem ViewStep.latest (h : Latest inserted system.index) (hkept : Kept system.index)
    (hstep : ViewStep mls sframe json signer reader system act next) :
    Latest (inserted ++ insertedBy ⟨system, act, next⟩) next.index := by
  cases hstep with
  | index hcall =>
    cases hcall with
    | insert value =>
      simp only [insertedBy, left_insertInPlace]
      cases hput : system.index.put value with
      | error message =>
        rw [if_neg (by simp [Except.isOk, Except.toBool]), List.append_nil]
        exact h
      | ok next =>
        rw [if_pos (by simp [Except.isOk, Except.toBool])]
        exact h.put hkept hput
    | reload hsaved hrestored =>
      rw [restore_snapshot hsaved] at hrestored
      cases hrestored
      rw [insertedBy, List.append_nil]
      exact h
  | serve | apply | inbox =>
    rw [insertedBy, List.append_nil]
    exact h

include h in
/-- The progress check on the oldest reply finds neither a rollback nor a conflict. -/
theorem Ordered.currentSeen (hreplies : system.replies = (query, reply) :: rest)
    (hverified : verifyWireReply (securityOwner mls sframe reader) query reply =
      .ok (some verified)) :
    system.inbox.currentSeen (viewProgress (securityOwner mls sframe reader) query reply verified) ≠
        .error "current-view rollback" ∧
      system.inbox.currentSeen
          (viewProgress (securityOwner mls sframe reader) query reply verified) ≠
        .error "conflicting current view" := by
  obtain ⟨moments, hmoments, _, hseen⟩ := h.replies
  rw [hreplies] at hmoments
  cases hmoments with
  | @cons moment _ moments _ hserved _ =>
    have hprogress := hserved.seen hverified
    have hauthority : query.authority = authority := by
      obtain ⟨hscope, _⟩ := hserved.verified verified hverified
      exact hscope.2.1.trans hserved.kept.authority
    rw [ObjectInbox.currentSeen]
    split
    · rename_i known hlookup
      obtain ⟨hmem, hkey⟩ := Keyed.mem_of_lookup hlookup
      have hknownAuthority : known.authority = authority := by
        simp only [ObjectInbox.currentKey, EmbeddingLike.apply_eq_iff_eq, Prod.mk.injEq] at hkey
        exact hkey.1.trans hauthority
      obtain ⟨earlier, hearlier, hlater⟩ := hseen known hmem hknownAuthority
      obtain ⟨hle, hsame⟩ := hearlier.compare hprogress
        (hlater moment (by simp)) hkey
      rw [if_neg hle.not_gt]
      split
      · rename_i heq
        rw [if_pos (hsame heq.symm).symm]
        exact ⟨pure_ne_error, pure_ne_error⟩
      · exact ⟨pure_ne_error, pure_ne_error⟩
    · constructor <;>
      · intro herror
        simp only [bind_eq_error, failIf_eq_error, pure_ne_error, and_false, exists_false,
          or_false] at herror
        exact absurd herror.2 (by decide)

end Steps

/-- For two moments of a run, selections with equal cuts have equal values, and a selection whose
values differ has a greater cut at the later one. The value kept for a key is the one taken in
with the greatest sequence. A reader who applies the replies in the order they were made never
finds a rollback or a conflict. -/
theorem cut_identifies_view (hjson : json.Lawful)
    (hreader : Trusts mls reader signer workspace authority epoch) {earlier later : ViewSystem}
    {first second : List (Taken ViewSystem (ViewAct Group Signer))}
    (hfirst : Run (ViewStep mls sframe json signer reader)
      (ViewSystem.start workspace authority epoch) first earlier)
    (hsecond : Run (ViewStep mls sframe json signer reader) earlier second later) :
    (∀ query, (earlier.index.cutOf query = later.index.cutOf query →
          earlier.index.selected query = later.index.selected query) ∧
        (earlier.index.selected query ≠ later.index.selected query →
          earlier.index.cutOf query < later.index.cutOf query)) ∧
      Latest ((first ++ second).flatMap insertedBy) later.index ∧
      ∀ taken ∈ first ++ second, ∀ query reply rest verified,
        taken.before.replies = (query, reply) :: rest →
        verifyWireReply (securityOwner mls sframe reader) query reply = .ok (some verified) →
        taken.before.inbox.currentSeen
            (viewProgress (securityOwner mls sframe reader) query reply verified) ≠
          .error "current-view rollback" ∧
        taken.before.inbox.currentSeen
            (viewProgress (securityOwner mls sframe reader) query reply verified) ≠
          .error "conflicting current view" := by
  have hrun := hfirst.append hsecond
  have hstart := start_ordered mls sframe signer reader workspace authority epoch
  have hearlier := (hfirst.invariant (fun _ _ _ h hstep => h.step hjson hreader hstep) hstart).1
  obtain ⟨_, hordered⟩ := hrun.invariant (fun _ _ _ h hstep => h.step hjson hreader hstep) hstart
  refine ⟨?_, ?_, ?_⟩
  · have hadvances := (hsecond.invariant
      (P := fun s => Ordered mls sframe signer reader workspace authority epoch s ∧
        Advances earlier.index s.index)
      (fun _ _ _ h hstep => ⟨h.1.step hjson hreader hstep,
        h.2.trans (hstep.advances h.1.index.kept)⟩) ⟨hearlier, .refl _⟩).1.2
    intro query
    obtain ⟨hle, hsame⟩ := hadvances query
    exact ⟨hsame, fun hne => lt_of_le_of_ne hle fun heq => hne (hsame heq)⟩
  · have hnew : Ordered mls sframe signer reader workspace authority epoch
        (ViewSystem.start workspace authority epoch) ∧
        Latest [] (ViewSystem.start workspace authority epoch).index :=
      ⟨hstart, new_latest workspace authority epoch⟩
    have hlatest := hrun.accumulate
      (I := fun s inserted => Ordered mls sframe signer reader workspace authority epoch s ∧
        Latest inserted s.index) (C := fun _ => True)
      (fun _ _ _ _ h hstep _ => ⟨h.1.step hjson hreader hstep,
        ViewStep.latest h.2 h.1.index.kept hstep⟩) hnew (fun _ _ => trivial)
    exact hlatest.2
  · intro taken htaken query reply rest verified hreplies hverified
    exact (hordered taken htaken).1.currentSeen hreplies hverified

end System

section Sample

open CurrentViewIndex
open Security.Sample (block workspaceId pair leader follower sframe one_ne two_ne)

open Sample

/-- What the administrator serves to the first joiner when the board has these cards. -/
def boardReply (cards : List CurrentInsert) : Bytes :=
  ((board cards).serve pair.mls (leader pair) notesPolicy (block 12)
    boardQuery).toOption.getD []

def firstCard : CurrentInsert := boardCard 4 1 ⟨1, one_ne⟩ false 7

def secondCard : CurrentInsert := boardCard 5 2 ⟨2, two_ne⟩ false 8

def oldReply : Bytes := boardReply [firstCard]

def newReply : Bytes := boardReply [firstCard, secondCard]

/-- The reader comes when the cards have expired, so that only the cut is new. -/
def boardJson : Json :=
  jsonFor receiver emptyInbox [.currentView boardQuery oldReply 200]

def boardServed : ViewSystem := ⟨board [firstCard], [(boardQuery, oldReply)], emptyInbox⟩

def boardApplied : ViewSystem :=
  ⟨board [firstCard, secondCard], [(boardQuery, newReply)],
    emptyInbox.afterView boardJson receiver boardQuery oldReply 200⟩

abbrev BoardStep : ViewSystem → ViewAct Security.ScriptGroup Bytes → ViewSystem → Prop :=
  ViewStep pair.mls sframe boardJson (leader pair).signer
    (follower pair)

theorem board_insert (cards : List CurrentInsert) (card : CurrentInsert)
    (replies : List (CurrentViewQuery × Bytes)) (inbox : ObjectInbox) :
    BoardStep ⟨board cards, replies, inbox⟩ (.index (.insert card))
      ⟨board (cards ++ [card]), replies, inbox⟩ := by
  have hboard : board (cards ++ [card]) = left (insertInPlace card (board cards)) := by
    rw [board, insertAll, List.foldl_append]
    rfl
  rw [hboard]
  exact .index (.insert _ card)

theorem board_serve {cards : List CurrentInsert} {reply : Bytes}
    (replies : List (CurrentViewQuery × Bytes)) (inbox : ObjectInbox)
    (hserved : (board cards).serve pair.mls (leader pair) notesPolicy
      (block 12) boardQuery = .ok reply) :
    BoardStep ⟨board cards, replies, inbox⟩
      (.serve (leader pair) notesPolicy (block 12) boardQuery)
      ⟨board cards, replies ++ [(boardQuery, reply)], inbox⟩ :=
  .serve rfl hserved

theorem boardServed_run : ∃ trace, Run BoardStep
    (ViewSystem.start workspaceId (block 1) 1) trace boardServed := by
  have hserved : (board [firstCard]).serve pair.mls (leader pair) notesPolicy
      (block 12) boardQuery = .ok oldReply := by decide +kernel
  exact ⟨_, .cons (board_insert [] firstCard [] emptyInbox)
    (.cons (board_serve [] emptyInbox hserved) (.nil _))⟩

def boardLast : ViewSystem :=
  ⟨board [firstCard, secondCard], [],
    boardApplied.inbox.afterView boardJson receiver boardQuery newReply 200⟩

theorem boardLast_run : ∃ trace, (∃ taken ∈ trace, taken.before = boardApplied) ∧
    Run BoardStep boardServed trace boardLast := by
  have hserved : (board [firstCard, secondCard]).serve pair.mls (leader pair)
      notesPolicy (block 12) boardQuery = .ok newReply := by decide +kernel
  have hold : BoardStep ⟨board [firstCard, secondCard], [(boardQuery, oldReply),
      (boardQuery, newReply)], emptyInbox⟩ (.apply 200) boardApplied := .apply 200 rfl
  have hnew : BoardStep boardApplied (.apply 200) boardLast := .apply 200 rfl
  refine ⟨_, ⟨⟨boardApplied, .apply 200, boardLast⟩, ?_, rfl⟩,
    .cons (board_insert [firstCard] secondCard [(boardQuery, oldReply)] emptyInbox)
      (.cons (board_serve [(boardQuery, oldReply)] emptyInbox hserved)
        (.cons hold (.cons hnew (.nil _))))⟩
  simp

theorem cut_identifies_view_board :
    boardServed.index.cutOf boardQuery < boardLast.index.cutOf boardQuery ∧
      ∃ verified, verifyWireReply receiver boardQuery newReply = .ok (some verified) ∧
        boardApplied.inbox.currentProgress ≠ [] ∧
        boardApplied.inbox.currentSeen
            (ObjectInbox.viewProgress receiver boardQuery newReply verified) ≠
          .error "current-view rollback" := by
  obtain ⟨first, hfirst⟩ := boardServed_run
  obtain ⟨second, ⟨taken, htaken, hbefore⟩, hsecond⟩ := boardLast_run
  obtain ⟨hcuts, _, hseen⟩ := cut_identifies_view (Json.among_lawful _ _) follower_trusts hfirst
    hsecond
  have hdiffer : boardServed.index.selected boardQuery ≠ boardLast.index.selected boardQuery := by
    decide
  have hverified : verifyWireReply receiver boardQuery newReply = .ok (some
      ⟨2, [firstCard.entry.value, secondCard.entry.value]⟩) := by decide +kernel
  refine ⟨(hcuts boardQuery).2 hdiffer, _, hverified, by decide +kernel, ?_⟩
  have hreplies : taken.before.replies = [(boardQuery, newReply)] := by
    rw [hbefore]
    rfl
  have hcheck := hseen taken (List.mem_append_right _ htaken) boardQuery newReply [] _ hreplies
    hverified
  rw [hbefore] at hcheck
  exact hcheck.1

end Sample

end Arachne.Delivery
