import Mathlib.Data.Int.Order.Basic
import YingSma.TransitionRuns

/-! A component with a clock that schedules tasks for itself. Every task runs at exactly
its due time: the clock does not go past a task that is still to run. -/
namespace YingSma.TaskSchedule
open TransitionRuns

/-- The component, the clock, and the tasks still to run with their due times. -/
structure Timed (S T : Type*) where
  now : ℤ
  state : S
  tasks : List (ℤ × T)

/-- A call from outside, the passing of time, and the running of a task that is due. What
a task finds around it when it runs is given by `v`. -/
inductive Event (C V T : Type*)
  | call (c : C)
  | advance (t : ℤ)
  | fire (v : V) (task : T)

variable {S T C V E : Type*} [DecidableEq T]

/-- `perform` gives the state after a call and the tasks scheduled by it. Events that
cannot happen change nothing. -/
def step (perform : ℤ → S → C → Except E (S × List (ℤ × T))) (body : V → T → C)
    (s : Timed S T) : Event C V T → Except E (Timed S T)
  | .call c => (perform s.now s.state c).map fun out => ⟨s.now, out.1, s.tasks ++ out.2⟩
  | .advance t =>
      if s.now ≤ t ∧ ∀ task ∈ s.tasks, t ≤ task.1 then .ok { s with now := t } else .ok s
  | .fire v task =>
      if (s.now, task) ∈ s.tasks then
        (perform s.now s.state (body v task)).map fun out =>
          ⟨s.now, out.1, s.tasks.erase (s.now, task) ++ out.2⟩
      else .ok s

variable {perform : ℤ → S → C → Except E (S × List (ℤ × T))} {body : V → T → C}

section Steps

variable {s : Timed S T} {P : Timed S T → Prop}

/-- What a call leads to, by what it performs. -/
theorem call_leads_iff (c : C) : (∀ s', step perform body s (.call c) = .ok s' → P s') ↔
    ∀ s' new, perform s.now s.state c = .ok (s', new) → P ⟨s.now, s', s.tasks ++ new⟩ := by
  constructor
  · intro h s' new hok
    apply h
    rw [step, hok]
    rfl
  · intro h s' hstep
    obtain ⟨out, hok, rfl⟩ := map_eq_ok hstep
    exact h out.1 out.2 hok

theorem fire_leads_iff {task : T} (v : V) (hmem : (s.now, task) ∈ s.tasks) :
    (∀ s', step perform body s (.fire v task) = .ok s' → P s') ↔
      ∀ s' new, perform s.now s.state (body v task) = .ok (s', new) →
        P ⟨s.now, s', s.tasks.erase (s.now, task) ++ new⟩ := by
  rw [step, if_pos hmem]
  constructor
  · intro h s' new hok
    apply h
    rw [hok]
    rfl
  · intro h s' hstep
    obtain ⟨out, hok, rfl⟩ := map_eq_ok hstep
    exact h out.1 out.2 hok

theorem fire_undue {task : T} (v : V) (hmem : (s.now, task) ∉ s.tasks) :
    step perform body s (.fire v task) = .ok s :=
  if_neg hmem

end Steps

/-- What time, calls and due tasks keep, every run keeps. -/
theorem invariant_of_run (P : Timed S T → Prop)
    (hadvance : ∀ s t, P s → s.now ≤ t → (∀ task ∈ s.tasks, t ≤ task.1) →
      P { s with now := t })
    (hcall : ∀ s c s' new, P s → perform s.now s.state c = .ok (s', new) →
      P ⟨s.now, s', s.tasks ++ new⟩)
    (hfire : ∀ s v task s' new, P s → (s.now, task) ∈ s.tasks →
      perform s.now s.state (body v task) = .ok (s', new) →
      P ⟨s.now, s', s.tasks.erase (s.now, task) ++ new⟩)
    {s t : Timed S T} {events : List (Event C V T)} (hs : P s)
    (hr : run (step perform body) s events = .ok t) : P t := by
  refine run_invariant P ?_ hs hr
  intro s event s' hp hstep
  cases event with
  | call c =>
    obtain ⟨out, hok, rfl⟩ := map_eq_ok hstep
    exact hcall s c out.1 out.2 hp hok
  | advance later =>
    simp only [step] at hstep
    split_ifs at hstep with hlater
    · obtain rfl := Except.ok.inj hstep
      exact hadvance s later hp hlater.1 hlater.2
    · obtain rfl := Except.ok.inj hstep
      exact hp
  | fire v task =>
    simp only [step] at hstep
    split_ifs at hstep with hmem
    · obtain ⟨out, hok, rfl⟩ := map_eq_ok hstep
      exact hfire s v task out.1 out.2 hp hmem hok
    · obtain rfl := Except.ok.inj hstep
      exact hp

end YingSma.TaskSchedule
