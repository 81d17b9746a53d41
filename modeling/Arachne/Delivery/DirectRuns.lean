import Arachne.Delivery.InboxRuns

/-! Direct streams over whole runs of an inbox: their order, which holds while no object comes
after its stream has dropped it, and what a delivered object tells about those before it, which
holds while no record behind a gap is dropped. -/

namespace Arachne.Delivery

open ByteCodec Fallible Routing SortedWindow Transition
open DirectStream (WellKept Ordered new_wellKept)
open Security (AuthenticatedObject)
open ObjectInbox

/-- An object as its direct stream retains it. -/
structure DirectObject where
  author : Block 32
  context : PublicationContext
  recipients : List (Block 32)
  object : Bytes
deriving DecidableEq

def DirectObject.key (direct : DirectObject) : DirectStream.Key :=
  directKey direct.author direct.context direct.recipients

def DirectObject.sequence (direct : DirectObject) : Option U64 :=
  direct.context.sequence.map Subtype.val

/-- The direct object that an act retains. -/
def InboxAct.retained (owner : SecurityOwner) : InboxAct → Option DirectObject
  | .accept staging =>
      match staging.authenticate owner with
      | .ok object =>
          if staging.recipients ≠ [] ∧ staging.context.sequence.isSome = true then
            some ⟨object.message.member, staging.context, staging.recipients, staging.object⟩
          else none
      | .error _ => none
  | .sent context recipients object =>
      owner.member.map fun author => ⟨author, context, recipients, object⟩
  | _ => none

section Effects

variable {json : Json} {owner : SecurityOwner} {inbox next : ObjectInbox} {act : InboxAct}

/-- What an act does to the direct streams: it retains an object, announces a head, gives up a
gap, or does nothing. -/
theorem Acts.direct_cases (hact : Acts json owner inbox act next) :
    (∃ direct sequence, act.retained owner = some direct ∧ direct.sequence = some sequence ∧
      retainDirect json inbox.direct direct.author direct.context direct.recipients direct.object =
        .ok next.direct) ∨
    (∃ head stream, act = .announce head ∧
      directStream inbox.direct (headKey head) = .ok stream ∧
      stream.effectiveHead ≤ head.through ∧
      next.direct = Keyed.put DirectStream.key { stream with knownHead := head.through }
        inbox.direct) ∨
    (∃ query stream stream' skipped, act = .skip query ∧
      Keyed.lookup DirectStream.key (queryKey query) inbox.direct = some stream ∧
      skipGap stream query = .ok (stream', skipped) ∧
      next.direct = Keyed.put DirectStream.key stream' inbox.direct) ∨
    (act.retained owner = none ∧ next.direct = inbox.direct) := by
  have hframe := hact.frame
  cases hact with
  | @accept _ staging haccept =>
    obtain ⟨object, stream, haccepts⟩ := stageScoped_eq_prepared haccept
    have hretained := haccepts.retained
    rw [retainStaged] at hretained
    split at hretained
    · rename_i hdirect
      obtain ⟨sequence, hsequence⟩ := Option.isSome_iff_exists.mp hdirect.2
      refine .inl ⟨⟨object.message.member, staging.context, staging.recipients, staging.object⟩,
        sequence.val, ?_, ?_, hretained⟩
      · simp only [InboxAct.retained, haccepts.authenticated, if_pos hdirect]
      · rw [DirectObject.sequence, hsequence, Option.map_some]
    · rename_i hdirect
      rw [pure_eq_ok] at hretained
      refine .inr (.inr (.inr ⟨?_, hretained.symm⟩))
      simp only [InboxAct.retained, haccepts.authenticated, if_neg hdirect]
  | @sent _ context recipients object hsent =>
    obtain ⟨author, _, _, direct, hmember, _, _, _, _, _, hretained, rfl⟩ :=
      stageSentDirect_eq_ok hsent
    obtain ⟨sequence, _, hsequence, _⟩ := retainDirect_eq_ok hretained
    refine .inl ⟨⟨author, context, recipients, object⟩, sequence.val, ?_, ?_, hretained⟩
    · rw [InboxAct.retained, hmember, Option.map_some]
    · rw [DirectObject.sequence, hsequence, Option.map_some]
  | announce hhead =>
    obtain ⟨_, stream, _, _, _, _, _, _, hstream, hthrough, rfl⟩ := stageDirectHead_eq_ok hhead
    exact .inr (.inl ⟨_, stream, rfl, hstream, hthrough, rfl⟩)
  | skip hskip =>
    obtain ⟨stream, stream', hlookup, hgap, rfl⟩ := skipDirectGap_eq_ok hskip
    exact .inr (.inr (.inl ⟨_, stream, stream', _, rfl, hlookup, hgap, rfl⟩))
  | _ =>
    have hnext : _ = _ := hframe
    rw [hnext]
    exact .inr (.inr (.inr ⟨rfl, rfl⟩))

end Effects

section Order

variable {json : Json} {owner : SecurityOwner} {inbox next : ObjectInbox} {act : InboxAct}

/-- The direct object of the act, if it has one, lies above the floor of its stream. -/
def AboveFloor (owner : SecurityOwner) (inbox : ObjectInbox) (act : InboxAct) : Prop :=
  ∀ direct sequence, act.retained owner = some direct → direct.sequence = some sequence →
    ∀ stream ∈ inbox.direct, stream.key = direct.key → stream.floor < sequence

theorem Acts.direct_wellKept (hact : Acts json owner inbox act next)
    (h : DirectStreams WellKept inbox.direct) :
    DirectStreams WellKept next.direct := by
  rcases hact.direct_cases with ⟨_, _, _, _, hretained⟩ |
    ⟨head, stream, _, hstream, hthrough, hnext⟩ |
    ⟨query, stream, stream', skipped, _, hlookup, hgap, hnext⟩ | ⟨_, hnext⟩
  · exact retainDirect_wellKept h hretained
  · rw [hnext]
    have hkept : stream.WellKept := h.directStream (new_wellKept _) hstream
    exact h.put (hkept.announce hthrough)
  · rw [hnext]
    exact h.put ((h.each stream (Keyed.mem_of_lookup hlookup).1).skipGap hgap)
  · rw [hnext]
    exact h

/-- An act whose object lies above the floor of its stream keeps every direct stream in order,
and none of them goes back. -/
theorem Acts.direct_ordered (hact : Acts json owner inbox act next)
    (h : DirectStreams Ordered inbox.direct) (habove : AboveFloor owner inbox act) :
    DirectStreams Ordered next.direct ∧ KeepUp inbox.direct next.direct := by
  rcases hact.direct_cases with ⟨direct, sequence, hdirect, hsequence, hretained⟩ |
    ⟨head, stream, _, hstream, hthrough, hnext⟩ |
    ⟨query, stream, stream', skipped, _, hlookup, hgap, hnext⟩ | ⟨_, hnext⟩
  · refine retainDirect_ordered h ?_ hretained
    intro number stream hnumber hlookup
    obtain ⟨hmem, hkey⟩ := Keyed.mem_of_lookup hlookup
    have habove := habove direct sequence hdirect hsequence stream hmem hkey
    rw [DirectObject.sequence, hnumber, Option.map_some, Option.some.injEq] at hsequence
    rwa [hsequence]
  · have hordered : stream.Ordered := h.directStream
      ⟨new_wellKept _, by simp [DirectStream.AboveFloor, DirectStream.new]⟩ hstream
    rw [hnext]
    refine ⟨h.put ⟨hordered.announce hthrough, hordered.aboveFloor⟩, KeepUp.put ?_⟩
    intro other hother hkey
    rw [eq_of_directStream h.keys hstream hother
      (hkey.trans (directStream_eq_ok hstream).1)]
    exact hordered.advances_announce hthrough
  · obtain ⟨hmem, hkey⟩ := Keyed.mem_of_lookup hlookup
    have hordered := h.each stream hmem
    have hadvances := hordered.advances_skipGap hgap
    have habove' : stream'.AboveFloor := by
      obtain ⟨_, _, _, _, _, _, rfl⟩ := skipGap_eq_ok hgap
      exact hordered.aboveFloor
    rw [hnext]
    refine ⟨h.put ⟨hordered.skipGap hgap, habove'⟩, KeepUp.put ?_⟩
    intro other hother hsame
    rw [List.inj_on_of_nodup_map h.keys hother hmem (hsame.trans hadvances.key)]
    exact hadvances
  · rw [hnext]
    exact ⟨h, KeepUp.refl _⟩

variable {workspace : WorkspaceId} {epoch : U64} {trace : List (Taken ObjectInbox InboxCall)}

theorem new_direct {P : DirectStream → Prop} (workspace : WorkspaceId) (epoch : U64) :
    DirectStreams P (new workspace epoch).direct :=
  ⟨List.nodup_nil, by simp [new]⟩

/-- In a run in which every direct object comes before its stream has dropped its place, all
direct streams stay in order and no floor and no head goes back. -/
theorem direct_streams_ordered (hjson : json.Lawful)
    (hrun : Run (InboxStep json owner) (new workspace epoch) trace inbox)
    (habove : ∀ taken ∈ actsOf json owner trace, AboveFloor owner taken.before taken.label) :
    DirectStreams Ordered inbox.direct ∧
      ∀ taken ∈ trace, DirectStreams Ordered taken.after.direct ∧
        KeepUp taken.before.direct taken.after.direct := by
  have hordered : ∀ {trace inbox}, Run (InboxStep json owner) (new workspace epoch) trace inbox →
      (∀ taken ∈ actsOf json owner trace, AboveFloor owner taken.before taken.label) →
      DirectStreams Ordered inbox.direct := by
    intro trace inbox hrun habove
    have hacts := run_actsOf hjson (new_cacheKept owner workspace epoch) hrun
    exact (hacts.guarded (P := fun s => DirectStreams Ordered s.direct)
      (fun _ _ _ h hact habove => (hact.direct_ordered h habove).1)
      (new_direct workspace epoch) habove).1
  refine ⟨hordered hrun habove, ?_⟩
  intro taken htaken
  obtain ⟨before, after, hsplit, hbefore, hstep, _⟩ := hrun.split htaken
  have hearlier : ∀ taken' ∈ actsOf json owner before,
      AboveFloor owner taken'.before taken'.label := by
    intro taken' hmem
    apply habove taken'
    rw [hsplit, actsOf, List.flatMap_append]
    exact List.mem_append_left _ hmem
  have hacts := acts_run hjson (run_kept hjson hbefore).1 hstep
  have hown : ∀ taken' ∈ taken.label.acts json owner taken.before,
      AboveFloor owner taken'.before taken'.label := by
    intro taken' hmem
    exact habove taken' (List.mem_flatMap.mpr ⟨taken, htaken, hmem⟩)
  refine (hacts.guarded (P := fun s => DirectStreams Ordered s.direct ∧
    KeepUp taken.before.direct s.direct) ?_ ⟨hordered hbefore hearlier, KeepUp.refl _⟩ hown).1
  intro s act s' h hact habove
  obtain ⟨hnext, hkeepUp⟩ := hact.direct_ordered h.1 habove
  exact ⟨hnext, h.2.trans hkeepUp⟩

open Sample

/-- The byte budget drops the sequence 2 of a stream and raises its floor; the sequence 1, which
comes after that, is then kept below the floor. -/
theorem direct_streams_disordered :
    (floodJson 4).Lawful ∧
      Run (InboxStep (floodJson 4) receiver) emptyInbox (floodTrace 4)
        (flooded 4) ∧
      ∃ stream ∈ (flooded 4).direct, ∃ record ∈ stream.records,
        record.sequence ≤ stream.floor :=
  ⟨floodJson_lawful 4, floodTrace_run 4, by decide +kernel⟩

/-- The objects of a run that never dropped one lie above every floor. -/
theorem aboveFloor_of_zero (h : ∀ stream ∈ inbox.direct, stream.floor = 0) :
    AboveFloor owner inbox act := by
  intro direct sequence _ hsequence stream hstream _
  obtain ⟨number, _, rfl⟩ := Option.map_eq_some_iff.mp hsequence
  rw [h stream hstream]
  exact Fin.pos_iff_ne_zero.mpr number.2

theorem direct_streams_ordered_scattered :
    ((outcome emptyInbox busyTrace).direct.map fun stream =>
        stream.records.map (·.sequence)) = [[1, 2, 3], [1]] ∧
      DirectStreams Ordered (outcome emptyInbox busyTrace).direct ∧
      ∀ taken ∈ busyTrace, KeepUp taken.before.direct taken.after.direct := by
  have hfloors : ∀ taken ∈ actsOf busyJson receiver busyTrace,
      ∀ stream ∈ taken.before.direct, stream.floor = 0 := by
    decide +kernel
  obtain ⟨hordered, hsteps⟩ := direct_streams_ordered busyJson_lawful busyTrace_run
    fun taken htaken => aboveFloor_of_zero (hfloors taken htaken)
  exact ⟨by decide +kernel, hordered, fun taken htaken => (hsteps taken htaken).2⟩

end Order

end Arachne.Delivery
