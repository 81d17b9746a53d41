import Mathlib.Data.List.Basic

/-! Runs of a labelled transition relation, kept as the list of the steps taken, and the
rules that lift what one step does to what a whole run does. -/

namespace Arachne.Transition

variable {State Label : Type*}

/-- A step as it was taken: the state before, the label and the state after. -/
structure Taken (State Label : Type*) where
  before : State
  label : Label
  after : State

/-- `Run step start trace last`: the steps of `trace` lead from `start` to `last`. -/
inductive Run (step : State → Label → State → Prop) :
    State → List (Taken State Label) → State → Prop where
  | nil (start : State) : Run step start [] start
  | cons {start next last : State} {label : Label} {trace : List (Taken State Label)}
      (hstep : step start label next) (hrest : Run step next trace last) :
      Run step start (⟨start, label, next⟩ :: trace) last

variable {step : State → Label → State → Prop} {start last : State}
  {trace : List (Taken State Label)} {P : State → Prop}

namespace Run

variable {C : Taken State Label → Prop} {trace' : List (Taken State Label)}
  {taken : Taken State Label} {Event : Type*} {I : State → List Event → Prop}

theorem guarded (hstep : ∀ s label s', P s → step s label s' → C ⟨s, label, s'⟩ → P s')
    (hrun : Run step start trace last) (hstart : P start) (hC : ∀ taken ∈ trace, C taken) :
    P last ∧ ∀ taken ∈ trace,
      P taken.before ∧ step taken.before taken.label taken.after ∧ P taken.after := by
  induction hrun with
  | nil start => exact ⟨hstart, by simp⟩
  | cons htaken _ ih =>
    rw [List.forall_mem_cons] at hC
    have hnext := hstep _ _ _ hstart htaken hC.1
    refine ⟨(ih hnext hC.2).1, ?_⟩
    rw [List.forall_mem_cons]
    exact ⟨⟨hstart, htaken, hnext⟩, (ih hnext hC.2).2⟩

theorem invariant (hstep : ∀ s label s', P s → step s label s' → P s')
    (hrun : Run step start trace last) (hstart : P start) :
    P last ∧ ∀ taken ∈ trace,
      P taken.before ∧ step taken.before taken.label taken.after ∧ P taken.after :=
  hrun.guarded (C := fun _ => True) (fun s label s' hP htaken _ => hstep s label s' hP htaken)
    hstart (fun _ _ => trivial)

theorem forall_after_iff {J : State → Prop} {C : State → Label → Prop}
    (hinvariant : ∀ s label s', J s → step s label s' → J s')
    (hstep : ∀ s label s', J s → P s → step s label s' → (P s' ↔ C s label))
    (hrun : Run step start trace last) (hstart : J start) (hP : P start) :
    (∀ taken ∈ trace, P taken.after) ↔ ∀ taken ∈ trace, C taken.before taken.label := by
  induction hrun with
  | nil start => simp
  | cons htaken _ ih =>
    have hnext := hinvariant _ _ _ hstart htaken
    have hiff := hstep _ _ _ hstart hP htaken
    rw [List.forall_mem_cons, List.forall_mem_cons]
    constructor
    · rintro ⟨hafter, hrest⟩
      exact ⟨hiff.mp hafter, (ih hnext hafter).mp hrest⟩
    · rintro ⟨hcond, hrest⟩
      have hafter := hiff.mpr hcond
      exact ⟨hafter, (ih hnext hafter).mpr hrest⟩

theorem append {between : State} (hfirst : Run step start trace between)
    (hsecond : Run step between trace' last) : Run step start (trace ++ trace') last := by
  induction hfirst with
  | nil => exact hsecond
  | cons hstep _ ih => exact .cons hstep (ih hsecond)

theorem imp {step' : State → Label → State → Prop} (hrun : Run step start trace last)
    (h : ∀ taken ∈ trace, step taken.before taken.label taken.after →
      step' taken.before taken.label taken.after) : Run step' start trace last := by
  induction hrun with
  | nil start => exact .nil start
  | cons hstep _ ih =>
    rw [List.forall_mem_cons] at h
    exact .cons (h.1 hstep) (ih h.2)

theorem of_append (hrun : Run step start (trace ++ trace') last) :
    ∃ between, Run step start trace between ∧ Run step between trace' last := by
  induction trace generalizing start with
  | nil => exact ⟨start, .nil start, hrun⟩
  | cons taken trace ih =>
    cases hrun with
    | cons hstep hrest =>
      obtain ⟨between, hfirst, hsecond⟩ := ih hrest
      exact ⟨between, .cons hstep hfirst, hsecond⟩

section

variable (hrun : Run step start trace last)

include hrun

theorem split (htaken : taken ∈ trace) :
    ∃ before after, trace = before ++ taken :: after ∧
      Run step start before taken.before ∧ step taken.before taken.label taken.after ∧
      Run step taken.after after last := by
  induction hrun with
  | nil => simp at htaken
  | @cons start next last label trace hstep hrest ih =>
    rcases List.mem_cons.mp htaken with rfl | hmem
    · exact ⟨[], trace, rfl, .nil _, hstep, hrest⟩
    · obtain ⟨before, after, rfl, hbefore, hmiddle, hafter⟩ := ih hmem
      exact ⟨⟨start, label, next⟩ :: before, after, rfl, .cons hstep hbefore, hmiddle, hafter⟩

theorem moment (htaken : taken ∈ trace) :
    ∃ before after, trace = before ++ after ∧ Run step start before taken.after := by
  obtain ⟨before, after, rfl, hbefore, hstep, _⟩ := hrun.split htaken
  refine ⟨before ++ [taken], after, by simp, ?_⟩
  exact hbefore.append (.cons hstep (.nil _))

theorem refine {Act : Type*} {fine : State → Act → State → Prop}
    {expand : State → Label → List (Taken State Act)}
    (hfine : ∀ s act s', P s → fine s act s' → P s')
    (hstep : ∀ s label s', P s → step s label s' → Run fine s (expand s label) s')
    (hstart : P start) :
    Run fine start (trace.flatMap fun taken => expand taken.before taken.label) last := by
  induction hrun with
  | nil start => exact .nil start
  | cons htaken _ ih =>
    have hexpanded := hstep _ _ _ hstart htaken
    exact hexpanded.append (ih (hexpanded.invariant hfine hstart).1)

theorem accumulate {events : Taken State Label → List Event}
    (hstep : ∀ s label s' past, I s past → step s label s' → C ⟨s, label, s'⟩ →
      I s' (past ++ events ⟨s, label, s'⟩))
    {past : List Event} (hstart : I start past) (hC : ∀ taken ∈ trace, C taken) :
    I last (past ++ trace.flatMap events) := by
  induction hrun generalizing past with
  | nil => simpa using hstart
  | cons htaken _ ih =>
    rw [List.forall_mem_cons] at hC
    have hnext := ih (hstep _ _ _ past hstart htaken hC.1) hC.2
    rwa [List.append_assoc] at hnext

theorem accumulated (events : Taken State Label → List Event)
    (hstep : ∀ s label s' past, I s past → step s label s' → C ⟨s, label, s'⟩ →
      I s' (past ++ events ⟨s, label, s'⟩))
    (hstart : I start []) (hC : ∀ taken ∈ trace, C taken) :
    I last (trace.flatMap events) :=
  hrun.accumulate hstep hstart hC

end

end Run

/-- The steps of a machine that goes on with every label. -/
def play (next : State → Label → State) (start : State) : List Label → List (Taken State Label)
  | [] => []
  | label :: labels => ⟨start, label, next start label⟩ :: play next (next start label) labels

theorem play_run (next : State → Label → State) (start : State) (labels : List Label) :
    Run (fun s label s' => next s label = s') start (play next start labels)
      (labels.foldl next start) := by
  induction labels generalizing start with
  | nil => exact .nil start
  | cons label labels ih => exact .cons rfl (ih _)

theorem play_run_of {next : State → Label → State} {labels : List Label}
    (h : ∀ taken ∈ play next start labels, step taken.before taken.label taken.after) :
    Run step start (play next start labels) (labels.foldl next start) :=
  (play_run next start labels).imp fun taken htaken _ => h taken htaken

theorem after_of_mem_play {next : State → Label → State} {labels : List Label}
    {taken : Taken State Label} (h : taken ∈ play next start labels) :
    taken.after = next taken.before taken.label := by
  obtain ⟨_, _, _, _, hstep, _⟩ := (play_run next start labels).split h
  exact hstep.symm

theorem label_of_mem_play {next : State → Label → State} {labels : List Label}
    {taken : Taken State Label} (h : taken ∈ play next start labels) : taken.label ∈ labels := by
  induction labels generalizing start with
  | nil => cases h
  | cons label labels ih =>
    rcases List.mem_cons.mp h with rfl | hrest
    · exact List.mem_cons_self
    · exact List.mem_cons_of_mem _ (ih hrest)

/-- The steps of a machine up to the first label that it cannot go on with. -/
def attempt (next : State → Label → Option State) (start : State) :
    List Label → List (Taken State Label)
  | [] => []
  | label :: labels =>
      match next start label with
      | some state => ⟨start, label, state⟩ :: attempt next state labels
      | none => []

/-- The state that a list of steps leads to. -/
def outcome (start : State) (trace : List (Taken State Label)) : State :=
  trace.foldl (fun _ taken => taken.after) start

section

variable (next : State → Label → Option State) (start : State) (labels : List Label)

theorem attempt_run :
    Run (fun s label s' => next s label = some s') start (attempt next start labels)
      (outcome start (attempt next start labels)) := by
  induction labels generalizing start with
  | nil => exact .nil start
  | cons label labels ih =>
    rw [attempt]
    split
    · rename_i state hnext
      exact .cons hnext (ih state)
    · exact .nil start

theorem map_label_attempt_sublist :
    ((attempt next start labels).map Taken.label).Sublist labels := by
  induction labels generalizing start with
  | nil => exact .slnil
  | cons label labels ih =>
    rw [attempt]
    split
    · exact (ih _).cons_cons label
    · exact List.nil_sublist _

end

theorem label_of_mem_attempt {next : State → Label → Option State} {labels : List Label}
    {taken : Taken State Label} (h : taken ∈ attempt next start labels) : taken.label ∈ labels :=
  (map_label_attempt_sublist next start labels).subset (List.mem_map_of_mem h)

end Arachne.Transition
