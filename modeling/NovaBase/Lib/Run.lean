import Mathlib.Data.Option.Basic

/-!
# Runs of a system

A system takes one event after another, and an event may be impossible in a
state. A property that every guarded step keeps holds at the end of every run
whose steps all meet the guard.
-/

namespace NovaBase.Lib

variable {σ ε : Type}

/-- The state after a list of events, if each of them is possible when it comes. -/
def run (step : σ → ε → Option σ) : List ε → σ → Option σ
  | [], state => some state
  | event :: events, state => (step state event).bind (run step events)

/-- Every event of the list meets `guard` in the state in which it comes. -/
def Along (step : σ → ε → Option σ) (guard : σ → ε → Prop) : List ε → σ → Prop
  | [], _ => True
  | event :: events, state =>
      guard state event ∧
        match step state event with
        | some next => Along step guard events next
        | none => True

instance Along.decidable (step : σ → ε → Option σ) (guard : σ → ε → Prop)
    [∀ state event, Decidable (guard state event)] :
    ∀ events state, Decidable (Along step guard events state)
  | [], _ => .isTrue trivial
  | event :: events, state =>
      have : Decidable (match step state event with
          | some next => Along step guard events next
          | none => True) :=
        match step state event with
        | some next => Along.decidable step guard events next
        | none => .isTrue trivial
      inferInstanceAs (Decidable (_ ∧ _))

variable {step : σ → ε → Option σ}

@[simp] theorem run_nil (state : σ) : run step [] state = some state := rfl

theorem run_cons {event : ε} {events : List ε} {state last : σ} :
    run step (event :: events) state = some last ↔
      ∃ next, step state event = some next ∧ run step events next = some last := by
  simp [run, Option.bind_eq_some_iff]

theorem run_append {first second : List ε} {state last : σ} :
    run step (first ++ second) state = some last ↔
      ∃ middle, run step first state = some middle ∧ run step second middle = some last := by
  induction first generalizing state with
  | nil => simp
  | cons event events ih =>
      simp only [List.cons_append, run_cons, ih]
      constructor
      · rintro ⟨next, hstep, middle, hfirst, hsecond⟩
        exact ⟨middle, ⟨next, hstep, hfirst⟩, hsecond⟩
      · rintro ⟨middle, ⟨next, hstep, hfirst⟩, hsecond⟩
        exact ⟨next, hstep, middle, hfirst, hsecond⟩

/-- A guard that is met along a run is met along its parts. -/
theorem Along.append {guard : σ → ε → Prop} {before after : List ε} {state middle : σ}
    (hguard : Along step guard (before ++ after) state)
    (hrun : run step before state = some middle) :
    Along step guard before state ∧ Along step guard after middle := by
  induction before generalizing state with
  | nil =>
      obtain rfl : state = middle := by simpa using hrun
      exact ⟨trivial, hguard⟩
  | cons first before ih =>
      obtain ⟨next, hnext, hrest⟩ := run_cons.mp hrun
      obtain ⟨hfirst, htail⟩ := hguard
      rw [hnext] at htail
      obtain ⟨hbefore, hafter⟩ := ih htail hrest
      refine ⟨⟨hfirst, ?_⟩, hafter⟩
      rw [hnext]
      exact hbefore

/-- A guard is met along a run when every event of the run meets it in the state before it. -/
theorem along_iff {guard : σ → ε → Prop} {events : List ε} {state last : σ}
    (hrun : run step events state = some last) :
    Along step guard events state ↔ ∀ before event after middle,
      events = before ++ event :: after → run step before state = some middle →
        guard middle event := by
  constructor
  · rintro hguard before event after middle rfl hmiddle
    exact (hguard.append hmiddle).2.1
  · intro hsplits
    induction events generalizing state with
    | nil => exact trivial
    | cons event events ih =>
        obtain ⟨next, hnext, hrest⟩ := run_cons.mp hrun
        refine ⟨hsplits [] event events state rfl rfl, ?_⟩
        rw [hnext]
        apply ih hrest
        intro before later after middle hsplit hmiddle
        apply hsplits (event :: before) later after middle
        · rw [hsplit, List.cons_append]
        · exact run_cons.mpr ⟨next, hnext, hmiddle⟩

/-- What every guarded step keeps, every guarded run keeps. -/
theorem run_guarded {guard : σ → ε → Prop} {invariant : σ → Prop}
    (hstep : ∀ {state event next}, invariant state → guard state event →
      step state event = some next → invariant next)
    {events : List ε} {state last : σ} (hstart : invariant state)
    (hguard : Along step guard events state) (hrun : run step events state = some last) :
    invariant last := by
  induction events generalizing state with
  | nil =>
      obtain rfl : state = last := by simpa using hrun
      exact hstart
  | cons event events ih =>
      obtain ⟨next, hnext, hrest⟩ := run_cons.mp hrun
      obtain ⟨hevent, htail⟩ := hguard
      rw [hnext] at htail
      exact ih (hstep hstart hevent hnext) htail hrest

/-- What every step keeps, every run keeps. -/
theorem run_invariant {invariant : σ → Prop}
    (hstep : ∀ {state event next}, invariant state → step state event = some next →
      invariant next)
    {events : List ε} {state last : σ} (hstart : invariant state)
    (hrun : run step events state = some last) : invariant last := by
  induction events generalizing state with
  | nil =>
      obtain rfl : state = last := by simpa using hrun
      exact hstart
  | cons event events ih =>
      obtain ⟨next, hnext, hrest⟩ := run_cons.mp hrun
      exact ih (hstep hstart hnext) hrest

end NovaBase.Lib
