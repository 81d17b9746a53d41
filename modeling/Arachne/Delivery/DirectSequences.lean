import Arachne.Delivery.DirectDelivery

/-! The sequences an author gives to their direct publications. Only the author's own publications
move the known head of a scope that the author is not a recipient of, and the head outlives the
records that are evicted, so no sequence of a scope is given twice. -/

namespace Arachne.Delivery

open ByteCodec Fallible Routing Transition Watermark InboxCall
open DirectStream (WellKept)
open ObjectInbox

/-- What a direct publication is addressed by, besides its author. -/
structure DirectScope where
  revision : U64
  topic : Topic
  recipients : List (Block 32)
deriving DecidableEq

def DirectScope.key (scope : DirectScope) (author : Block 32) : DirectStream.Key :=
  (author, scope.revision, scope.topic.val, scope.recipients)

def scopeOf (context : PublicationContext) (recipients : List (Block 32)) : DirectScope :=
  ⟨context.revision, context.topic, recipients⟩

/-- The sequence that an act publishes in a scope. -/
def InboxAct.publishes (scope : DirectScope) : InboxAct → List U64
  | .sent context recipients _ =>
      if scopeOf context recipients = scope then
        (context.sequence.map Subtype.val).toList
      else []
  | _ => []

/-- The sequence that a call publishes in a scope. -/
def InboxCall.publishes (scope : DirectScope) : InboxCall → List U64
  | .sentDirect context recipients _ =>
      if scopeOf context recipients = scope then
        (context.sequence.map Subtype.val).toList
      else []
  | _ => []

/-- The sequences that a run publishes in a scope, in order. -/
def published (scope : DirectScope) (trace : List (Taken ObjectInbox InboxCall)) : List U64 :=
  trace.flatMap fun taken => taken.label.publishes scope

/-- Whether the call is a direct publication in the scope. -/
def InboxCall.isPublication (scope : DirectScope) : InboxCall → Bool
  | .sentDirect context recipients _ => decide (scopeOf context recipients = scope)
  | _ => false

/-- Whether a direct publication has the sequence that `next_direct_sequence` returns for its
scope. -/
def numbered (owner : SecurityOwner) (taken : Taken ObjectInbox InboxCall) : Bool :=
  match taken.label with
  | .sentDirect context recipients _ =>
      decide (context.sequence.map Except.ok =
        some (taken.before.nextDirectSequence owner context.revision context.topic recipients))
  | _ => true

theorem DirectScope.key_injective {scope other : DirectScope} {author : Block 32}
    (h : scope.key author = other.key author) : scope = other := by
  obtain ⟨revision, topic, recipients⟩ := scope
  obtain ⟨_, _, _⟩ := other
  simp only [key, Prod.mk.injEq, true_and] at h
  obtain ⟨rfl, htopic, rfl⟩ := h
  rw [Subtype.ext htopic]

section Acts

variable {json : Json} {owner : SecurityOwner} {inbox next : ObjectInbox} {act : InboxAct}
  {author : Block 32} {scope : DirectScope}

/-- The known head of the author's own stream of a scope. -/
def ownHead (author : Block 32) (scope : DirectScope) (inbox : ObjectInbox) : U64 :=
  (directAt inbox.direct (scope.key author)).knownHead

/-- The own head of a scope without the author among the recipients moves with the author's
publications only: objects and heads from others are for recipients. -/
theorem Acts.ownHead_eq (hact : Acts json owner inbox act next)
    (h : DirectStreams WellKept inbox.direct) (hmember : owner.member = some author)
    (haudience : author ∉ scope.recipients) :
    ownHead author scope next = (act.publishes scope).foldl max (ownHead author scope inbox) := by
  have hframe := hact.frame
  cases hact with
  | @accept _ staging haccept =>
    obtain ⟨object, stream, haccepts⟩ := stageScoped_eq_prepared haccept
    have hretained := haccepts.retained
    rw [retainStaged] at hretained
    split at hretained
    · rename_i hdirect
      obtain ⟨sequence, hsequence⟩ := Option.isSome_iff_exists.mp hdirect.2
      obtain ⟨member, hlocal, hmem⟩ :=
        ObjectInbox.Staging.received haccepts.authenticated hdirect.1
      rw [hmember, Option.some_inj] at hlocal
      have hkey : directKey object.message.member staging.context staging.recipients ≠
          scope.key author := by
        intro hkey
        rw [directKey, DirectScope.key, Prod.mk.injEq, Prod.mk.injEq, Prod.mk.injEq] at hkey
        rw [hlocal, ← hkey.2.2.2] at haudience
        exact haudience hmem
      have hhead : (directAt _ (scope.key author)).knownHead = _ :=
        retainDirect_knownHead h hretained (congrArg (Option.map Subtype.val) hsequence)
      rw [if_neg hkey] at hhead
      exact hhead
    · rw [pure_eq_ok] at hretained
      rw [ownHead, ← hretained]
      rfl
  | @sent _ context recipients object hsent =>
    obtain ⟨_, _, _, direct, hsender, _, _, _, _, _, hretained, rfl⟩ :=
      stageSentDirect_eq_ok hsent
    rw [hmember, Option.some_inj] at hsender
    subst hsender
    obtain ⟨sequence, _, hsequence, _⟩ := retainDirect_eq_ok hretained
    have hhead : (directAt _ (scope.key author)).knownHead = _ :=
      retainDirect_knownHead h hretained (congrArg (Option.map Subtype.val) hsequence)
    rw [InboxAct.publishes, hsequence]
    by_cases hscope : scopeOf context recipients = scope
    · rw [if_pos hscope]
      rw [if_pos (hscope ▸ rfl)] at hhead
      exact hhead
    · rw [if_neg hscope]
      have hkey : directKey author context recipients ≠ scope.key author :=
        fun hkey => hscope (DirectScope.key_injective hkey)
      rw [if_neg hkey] at hhead
      exact hhead
  | announce hhead =>
    obtain ⟨_, stream, hlocal, hmem, _, _, _, _, hstream, _, rfl⟩ := stageDirectHead_eq_ok hhead
    rw [hmember, Option.some_inj] at hlocal
    rw [ownHead, directAt_put, if_neg]
    · rfl
    · intro hkey
      have hrecipients : scope.recipients = stream.recipients := congrArg (·.2.2.2) hkey
      have hstreamKey : stream.recipients = _ := congrArg (·.2.2.2) (directStream_eq_ok hstream).1
      rw [hrecipients, hstreamKey, hlocal] at haudience
      exact haudience hmem
  | skip hskip =>
    obtain ⟨stream, stream', hlookup, hgap, rfl⟩ := skipDirectGap_eq_ok hskip
    have hkept := h.each stream (Keyed.mem_of_lookup hlookup).1
    rw [ownHead, directAt_put, (hkept.advances_skipGap hgap).key, (Keyed.mem_of_lookup hlookup).2]
    split
    · rename_i hkey
      obtain ⟨_, _, _, _, _, _, rfl⟩ := skipGap_eq_ok hgap
      show stream.knownHead = ownHead author scope inbox
      rw [ownHead, hkey, directAt, hlookup, Option.getD_some]
    · rfl
  | _ =>
    have hnext : _ = _ := hframe
    rw [hnext]
    rfl

end Acts

section Calls

variable {json : Json} {owner : SecurityOwner} {inbox next : ObjectInbox} {call : InboxCall}
  {author : Block 32} {scope : DirectScope} {trace : List (Taken ObjectInbox InboxCall)}

theorem acceptances_publishes (stagings : List Staging) (inbox : ObjectInbox) :
    (acceptances json owner inbox stagings).flatMap (fun taken => taken.label.publishes scope) =
      [] := by
  induction stagings generalizing inbox with
  | nil => rfl
  | cons staging stagings ih =>
    rw [acceptances]
    split
    · rw [List.flatMap_cons, ih]
      rfl
    · exact ih inbox

theorem acts_publishes (h : InboxStep json owner inbox call next) :
    (call.acts json owner inbox).flatMap (fun taken => taken.label.publishes scope) =
      call.publishes scope := by
  rw [InboxCall.acts, h.performed]
  cases call with
  | sentDirect => exact List.flatMap_singleton _ _
  | directRange query reply =>
    show (rangeActs json owner inbox query reply).flatMap _ = []
    rw [rangeActs]
    split
    · exact acceptances_publishes _ _
    · rfl
  | currentView query reply now =>
    show (viewActs json owner inbox query reply now next).flatMap _ = []
    rw [viewActs]
    split
    · split
      · rw [List.flatMap_append, acceptances_publishes]
        rfl
      · rfl
    · rfl
  | _ => rfl

/-- What a run keeps in order for the author's own heads. -/
structure HeadsKept (owner : SecurityOwner) (inbox : ObjectInbox) : Prop where
  cache : CacheKept owner inbox
  streams : DirectStreams WellKept inbox.direct

theorem InboxStep.ownHead_eq (hjson : json.Lawful) (hkept : HeadsKept owner inbox)
    (h : InboxStep json owner inbox call next) (hmember : owner.member = some author)
    (haudience : author ∉ scope.recipients) :
    HeadsKept owner next ∧
      ownHead author scope next =
        (call.publishes scope).foldl max (ownHead author scope inbox) := by
  have hrun := acts_run hjson hkept.cache h
  have hcache := (hrun.invariant (fun _ _ _ hkept hact => hact.cacheKept hkept) hkept.cache).1
  have hheads : DirectStreams WellKept next.direct ∧ ownHead author scope next =
      ((call.acts json owner inbox).flatMap fun taken =>
        taken.label.publishes scope).foldl max (ownHead author scope inbox) := by
    refine hrun.accumulated
      (I := fun s past => DirectStreams WellKept s.direct ∧
        ownHead author scope s = past.foldl max (ownHead author scope inbox))
      (C := fun _ => True) (fun taken => taken.label.publishes scope) ?_ ⟨hkept.streams, rfl⟩
      (fun _ _ => trivial)
    rintro s label s' past ⟨hstreams, hhead⟩ hact _
    refine ⟨hact.direct_wellKept hstreams, ?_⟩
    rw [hact.ownHead_eq hstreams hmember haudience, hhead, List.foldl_append]
  rw [acts_publishes h] at hheads
  exact ⟨⟨hcache, hheads.1⟩, hheads.2⟩

theorem new_headsKept (owner : SecurityOwner) (workspace : WorkspaceId) (epoch : U64) :
    HeadsKept owner (new workspace epoch) :=
  ⟨new_cacheKept owner workspace epoch, new_direct workspace epoch⟩

theorem nextDirectSequence_eq_ok (scope : DirectScope) {sequence : NonZeroU64}
    (h : inbox.nextDirectSequence owner scope.revision scope.topic scope.recipients =
      .ok sequence)
    (hkept : DirectStreams WellKept inbox.direct) :
    ∃ author, owner.member = some author ∧
      sequence.val.val = (ownHead author scope inbox).val + 1 := by
  simp only [nextDirectSequence, bind_eq_ok, orFail_eq_ok] at h
  obtain ⟨_, _, _, _, author, hmember, next, hnext, hnew⟩ := h
  refine ⟨author, hmember, ?_⟩
  have hhead : (Keyed.lookup DirectStream.key (scope.key author) inbox.direct).elim 0
      DirectStream.effectiveHead = ownHead author scope inbox := by
    rw [ownHead, directAt]
    cases hlookup : Keyed.lookup DirectStream.key (scope.key author) inbox.direct with
    | none => rfl
    | some stream =>
      exact (hkept.each stream (Keyed.mem_of_lookup hlookup).1).effectiveHead_eq
  have hvalue : sequence.val = next := by
    rw [NonZeroU64.new] at hnew
    split at hnew
    · cases hnew
      rfl
    · cases hnew
  rw [hvalue, ← hhead]
  exact checkedSucc_val hnext

theorem InboxStep.not_recipient (h : InboxStep json owner inbox call next)
    (hmember : owner.member = some author) (hcall : call.isPublication scope = true) :
    author ∉ scope.recipients := by
  cases call with
  | sentDirect context recipients object =>
    obtain ⟨hperformed, _⟩ := h
    rw [perform, map_eq_ok] at hperformed
    obtain ⟨_, hsent, _⟩ := hperformed
    obtain ⟨_, _, _, _, hsender, hnot, _⟩ := stageSentDirect_eq_ok hsent
    rw [hmember, Option.some_inj] at hsender
    have hscope := of_decide_eq_true hcall
    rw [← hscope, hsender]
    exact hnot
  | _ => cases hcall

theorem eq_sentDirect_of_publishes {sequence : U64} (h : sequence ∈ call.publishes scope) :
    ∃ context recipients object, call = .sentDirect context recipients object ∧
      scopeOf context recipients = scope := by
  cases call with
  | sentDirect context recipients object =>
    rw [InboxCall.publishes] at h
    split at h
    · rename_i hscope
      exact ⟨context, recipients, object, rfl, hscope⟩
    · cases h
  | _ => cases h

theorem isPublication_of_publishes {sequence : U64} (h : sequence ∈ call.publishes scope) :
    call.isPublication scope = true := by
  obtain ⟨context, recipients, object, rfl, hscope⟩ := eq_sentDirect_of_publishes h
  exact decide_eq_true hscope

theorem ownHead_of_run (hjson : json.Lawful)
    (hrun : Run (InboxStep json owner) (new owner.id owner.epoch) trace inbox)
    (hmember : owner.member = some author) (haudience : author ∉ scope.recipients) :
    ownHead author scope inbox = (published scope trace).foldl max 0 := by
  have hheads : HeadsKept owner inbox ∧
      ownHead author scope inbox = (published scope trace).foldl max 0 := by
    refine hrun.accumulated
      (I := fun s past => HeadsKept owner s ∧ ownHead author scope s = past.foldl max 0)
      (C := fun _ => True) (fun taken => taken.label.publishes scope) ?_
      ⟨new_headsKept owner _ _, rfl⟩ (fun _ _ => trivial)
    rintro s label s' past ⟨hkept, hhead⟩ hstep _
    obtain ⟨hnext, hmoved⟩ := hstep.ownHead_eq hjson hkept hmember haudience
    refine ⟨hnext, ?_⟩
    rw [hmoved, hhead, List.foldl_append]
  exact hheads.2

/-- When every publication is numbered, the own head is the last sequence published. -/
theorem ownHead_of_numbered (hjson : json.Lawful)
    (hrun : Run (InboxStep json owner) (new owner.id owner.epoch) trace inbox)
    (hnumbered : ∀ taken ∈ trace, numbered owner taken = true)
    (hmember : owner.member = some author) (haudience : author ∉ scope.recipients) :
    ownHead author scope inbox = (published scope trace).getLast?.getD 0 := by
  have hheads : HeadsKept owner inbox ∧
      ownHead author scope inbox = (published scope trace).getLast?.getD 0 := by
    refine hrun.accumulated
      (I := fun s past => HeadsKept owner s ∧ ownHead author scope s = past.getLast?.getD 0)
      (C := fun taken => numbered owner taken = true) (fun taken => taken.label.publishes scope) ?_
      ⟨new_headsKept owner _ _, rfl⟩ hnumbered
    rintro s label s' past ⟨hkept, hhead⟩ hstep hnumber
    obtain ⟨hnext, hmoved⟩ := hstep.ownHead_eq hjson hkept hmember haudience
    refine ⟨hnext, ?_⟩
    rw [hmoved]
    cases hpublishes : label.publishes scope with
    | nil => rw [List.append_nil, List.foldl_nil, hhead]
    | cons sequence rest =>
      obtain ⟨context, recipients, object, rfl, rfl⟩ :=
        eq_sentDirect_of_publishes (hpublishes ▸ List.mem_cons_self)
      obtain ⟨number, hsequence, hnextSequence⟩ :=
        Option.map_eq_some_iff.mp (of_decide_eq_true hnumber)
      change .ok number = s.nextDirectSequence owner _ _ recipients at hnextSequence
      rw [InboxCall.publishes, if_pos rfl, hsequence, Option.map_some, Option.toList_some,
        List.cons.injEq] at hpublishes
      obtain ⟨rfl, rfl⟩ := hpublishes
      obtain ⟨sender, hsender, hsucc⟩ := nextDirectSequence_eq_ok (scopeOf context recipients)
        hnextSequence.symm hkept.streams
      rw [hmember, Option.some_inj] at hsender
      subst hsender
      rw [List.getLast?_concat, Option.getD_some, List.foldl_cons, List.foldl_nil,
        max_eq_right]
      rw [Fin.le_def]
      omega
  exact hheads.2

/-- The sequence given to a direct publication is beyond every sequence that the run published in
its scope, and where only publications in the scope happened it is one more than the last. -/
theorem direct_sequences_fresh (hjson : json.Lawful)
    (hrun : Run (InboxStep json owner) (new owner.id owner.epoch) trace inbox)
    (hnumbered : ∀ taken ∈ trace, numbered owner taken = true) {sequence : NonZeroU64}
    (hnext : inbox.nextDirectSequence owner scope.revision scope.topic scope.recipients =
      .ok sequence) :
    (∀ earlier ∈ published scope trace, earlier < sequence.val) ∧
      ((∀ taken ∈ trace, taken.label.isPublication scope = true) →
        sequence.val.val = ((published scope trace).getLast?.getD 0).val + 1) := by
  obtain ⟨author, hmember, hsucc⟩ :=
    nextDirectSequence_eq_ok scope hnext (direct_wellKept_of_run hjson hrun)
  have haudience : ∀ taken ∈ trace, taken.label.isPublication scope = true →
      author ∉ scope.recipients := by
    intro taken htaken hpublication
    obtain ⟨_, _, _, _, hstep, _⟩ := hrun.split htaken
    exact hstep.not_recipient hmember hpublication
  constructor
  · intro earlier hearlier
    obtain ⟨taken, htaken, hmem⟩ := List.mem_flatMap.mp hearlier
    have hnot := haudience taken htaken (isPublication_of_publishes hmem)
    have hle := (le_foldl_max (published scope trace) 0).2 earlier hearlier
    rw [← ownHead_of_run hjson hrun hmember hnot, Fin.le_def] at hle
    rw [Fin.lt_def]
    omega
  · intro honly
    cases trace with
    | nil =>
      cases hrun
      exact hsucc
    | cons taken rest =>
      have hnot := haudience taken List.mem_cons_self (honly taken List.mem_cons_self)
      rw [← ownHead_of_numbered hjson hrun hnumbered hmember hnot]
      exact hsucc

end Calls

section Sample

open Security.Sample (block pair leader sframe)
open Sample

/-- The administrator, as the author of direct notes. -/
def notesAuthor : SecurityOwner := securityOwner pair.mls sframe (leader pair)

def outbox : ObjectInbox := .new notesAuthor.id notesAuthor.epoch

/-- Two notes to the member with id 2. -/
def sentCalls : List InboxCall :=
  [direct 1 1 0 [7], direct 2 2 1 [8]].map fun note =>
    .sentDirect note.context note.recipients note.object

def sentJson : Json := jsonFor notesAuthor outbox sentCalls

def sentTrace : List (Taken ObjectInbox InboxCall) :=
  InboxCall.play sentJson notesAuthor outbox sentCalls

def noteScope : DirectScope := ⟨1, Sample.notes, [block 2]⟩

/-- After two notes the next one has sequence 3. -/
theorem direct_sequences_fresh_third :
    published noteScope sentTrace = [1, 2] ∧
      (outcome outbox sentTrace).nextDirectSequence notesAuthor noteScope.revision
        noteScope.topic noteScope.recipients = .ok ⟨3, by decide⟩ ∧
      (3 : U64).val = ((published noteScope sentTrace).getLast?.getD 0).val + 1 := by
  have hnumbered : ∀ taken ∈ sentTrace, numbered notesAuthor taken = true := by decide +kernel
  have honly : ∀ taken ∈ sentTrace, taken.label.isPublication noteScope = true := by
    decide +kernel
  have hnext : (outcome outbox sentTrace).nextDirectSequence notesAuthor
      noteScope.revision noteScope.topic noteScope.recipients = .ok ⟨3, by decide⟩ := by
    decide +kernel
  refine ⟨by decide +kernel, hnext, ?_⟩
  exact (direct_sequences_fresh (Json.among_lawful _ _)
    (InboxCall.play_run _ _ _ _ (by simp [sentCalls])) hnumbered hnext).2 honly

end Sample

end Arachne.Delivery
