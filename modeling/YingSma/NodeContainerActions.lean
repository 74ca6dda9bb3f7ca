import YingSma.AsyncEvents

/-! The actions of a node in a scenario: a queue in the order of their times, of which the
simulator holds an event for one at most. -/
namespace YingSma

/-- An action with its time and the event that was last scheduled for it. -/
structure NodeAction (P : Type*) where
  time : ℤ
  eventId : Option EventKey
  payload : P

/-- What an action is, whatever event is scheduled for it. -/
def NodeAction.what {P : Type*} (act : NodeAction P) : ℤ × P := (act.time, act.payload)

/-- What `act_emplace_front` and `act_emplace_back` are given. -/
structure Emplacement (P : Type*) where
  atFront : Bool
  delay : ℤ
  payload : P

/-- `Ns3NodeContainer`, as far as its actions go, on its simulator. -/
structure NodeContainer (P : Type*) where
  sim : Simulator Unit
  actions : List (NodeAction P)
  started : Bool

namespace NodeContainer
open Simulator TransitionRuns

variable {P : Type*}

def new : NodeContainer P := ⟨.new, [], false⟩

/-- The loop from the front. -/
def emplaceFront (act : NodeAction P) : List (NodeAction P) → List (NodeAction P)
  | [] => [act]
  | it :: actions => if it.time ≥ act.time then act :: it :: actions
      else it :: emplaceFront act actions

/-- The loop from the back, over the actions in reverse. -/
def emplaceBehind (act : NodeAction P) : List (NodeAction P) → List (NodeAction P)
  | [] => [act]
  | it :: actions => if it.time < act.time then act :: it :: actions
      else it :: emplaceBehind act actions

def emplaceBack (act : NodeAction P) (actions : List (NodeAction P)) : List (NodeAction P) :=
  (emplaceBehind act actions.reverse).reverse

def emplace (now : ℤ) (x : Emplacement P) (actions : List (NodeAction P)) : List (NodeAction P) :=
  let act : NodeAction P := ⟨now + x.delay, none, x.payload⟩
  if x.atFront then emplaceFront act actions else emplaceBack act actions

def emplaceAll (now : ℤ) (xs : List (Emplacement P)) (actions : List (NodeAction P)) :
    List (NodeAction P) :=
  xs.foldl (fun actions x => emplace now x actions) actions

/-- `remaining_delay_ns` -/
def remainingDelay (now : ℤ) (act : NodeAction P) : ℤ :=
  if act.time - now ≥ 0 then act.time - now else 0

/-- `act_schedule` for the front of the queue, if there is one. -/
def actSchedule (c : NodeContainer P) : Except Fault (NodeContainer P) :=
  match c.actions with
  | [] => .ok c
  | act :: actions =>
      (c.sim.schedule (remainingDelay c.sim.currentTs act) (some ())).map fun out =>
        { c with sim := out.2, actions := { act with eventId := some out.1 } :: actions }

/-- `~Action` -/
def destroy (act : NodeAction P) (c : NodeContainer P) : NodeContainer P :=
  { c with sim := act.eventId.elim c.sim c.sim.cancel }

/-- The front of the queue runs, with what it emplaces. -/
def actNext (news : List (Emplacement P)) (c : NodeContainer P) : Except Fault (NodeContainer P) :=
  match c.actions with
  | [] => .error .outOfBounds
  | act :: actions =>
      (actSchedule { c with actions := emplaceAll c.sim.currentTs news actions }).map (destroy act)

/-- A call from without, `StartApplication`, an event that is not of the container, and the next
turn of the simulator with what the action that runs emplaces. -/
inductive Act (P : Type*)
  | emplace (x : Emplacement P)
  | start
  | other (delay : ℤ)
  | process (news : List (Emplacement P))

def step (c : NodeContainer P) : Act P → Except Fault (NodeContainer P)
  | .emplace x => .ok { c with actions := emplace c.sim.currentTs x c.actions }
  | .start => if c.started then .ok c else actSchedule { c with started := true }
  | .other delay => (c.sim.schedule delay none).map fun out => { c with sim := out.2 }
  | .process news =>
      match c.sim.removeNext with
      | .error e => .error e
      | .ok none => .ok c
      | .ok (some (next, sim)) =>
          match next.cancelled, next.task with
          | false, some () => actNext news { c with sim }
          | _, _ => .ok { c with sim }

section Queue

variable {act : NodeAction P} {actions : List (NodeAction P)}

/-- The actions in the order of their times. -/
def Sorted (actions : List (NodeAction P)) : Prop :=
  actions.Pairwise fun a b => a.time ≤ b.time

theorem emplaceFront_perm (act : NodeAction P) (actions : List (NodeAction P)) :
    (emplaceFront act actions).Perm (act :: actions) := by
  induction actions with
  | nil => rfl
  | cons it actions ih =>
    rw [emplaceFront]
    split_ifs
    · rfl
    · exact (ih.cons it).trans (.swap act it actions)

theorem emplaceFront_sorted (hs : Sorted actions) : Sorted (emplaceFront act actions) := by
  induction actions with
  | nil => exact List.pairwise_singleton _ act
  | cons it actions ih =>
    obtain ⟨hit, hs'⟩ := List.pairwise_cons.mp hs
    rw [emplaceFront]
    split_ifs with hlate
    · refine .cons ?_ hs
      rw [List.forall_mem_cons]
      exact ⟨hlate, fun a ha => le_trans hlate (hit a ha)⟩
    · refine .cons (fun a ha => ?_) (ih hs')
      rcases List.mem_cons.mp ((emplaceFront_perm act actions).mem_iff.mp ha) with rfl | ha
      · omega
      · exact hit a ha

theorem sorted_split (act : NodeAction P) (hs : Sorted actions) : ∃ sooner later,
    actions = sooner ++ later ∧ (∀ a ∈ sooner, a.time < act.time) ∧
      ∀ a ∈ later, act.time ≤ a.time := by
  induction actions with
  | nil => exact ⟨[], [], rfl, by simp, by simp⟩
  | cons it actions ih =>
    obtain ⟨hit, hs'⟩ := List.pairwise_cons.mp hs
    by_cases hsooner : it.time < act.time
    · obtain ⟨sooner, later, rfl, hall, hlater⟩ := ih hs'
      exact ⟨it :: sooner, later, rfl, List.forall_mem_cons.mpr ⟨hsooner, hall⟩, hlater⟩
    · refine ⟨[], it :: actions, rfl, by simp, List.forall_mem_cons.mpr ⟨by omega, ?_⟩⟩
      intro a ha
      have hle := hit a ha
      omega

theorem emplaceFront_split {sooner later : List (NodeAction P)}
    (hsooner : ∀ a ∈ sooner, a.time < act.time) (hlater : ∀ a ∈ later, act.time ≤ a.time) :
    emplaceFront act (sooner ++ later) = sooner ++ act :: later := by
  induction sooner with
  | nil =>
    cases later with
    | nil => rfl
    | cons it later => exact if_pos (hlater it List.mem_cons_self)
  | cons it sooner ih =>
    rw [List.forall_mem_cons] at hsooner
    rw [List.cons_append, emplaceFront, if_neg (by omega), ih hsooner.2, List.cons_append]

theorem emplaceBehind_split {sooner later : List (NodeAction P)}
    (hsooner : ∀ a ∈ sooner, a.time < act.time) (hlater : ∀ a ∈ later, act.time ≤ a.time) :
    emplaceBehind act (later ++ sooner) = later ++ act :: sooner := by
  induction later with
  | nil =>
    cases sooner with
    | nil => rfl
    | cons it sooner => exact if_pos (hsooner it List.mem_cons_self)
  | cons it later ih =>
    rw [List.forall_mem_cons] at hlater
    rw [List.cons_append, emplaceBehind, if_neg (by omega), ih hlater.2, List.cons_append]

/-- In a queue in order both loops find the same place: before all that are not sooner. -/
theorem emplaceBack_eq (hs : Sorted actions) :
    emplaceBack act actions = emplaceFront act actions := by
  obtain ⟨sooner, later, rfl, hsooner, hlater⟩ := sorted_split act hs
  rw [emplaceBack, List.reverse_append, emplaceFront_split hsooner hlater,
    emplaceBehind_split (by simpa using hsooner) (by simpa using hlater)]
  simp

/-- An action gets among the others, and the front is no later than it was. -/
theorem emplace_sorted (now : ℤ) (x : Emplacement P) (hs : Sorted actions) :
    Sorted (emplace now x actions) ∧
      (emplace now x actions).Perm (⟨now + x.delay, none, x.payload⟩ :: actions) := by
  have hfront : emplace now x actions = emplaceFront ⟨now + x.delay, none, x.payload⟩ actions := by
    unfold emplace
    split_ifs
    · rfl
    · exact emplaceBack_eq hs
  rw [hfront]
  exact ⟨emplaceFront_sorted hs, emplaceFront_perm _ _⟩

/-- The actions that are emplaced. -/
def emplaced (now : ℤ) (xs : List (Emplacement P)) : List (NodeAction P) :=
  xs.map fun x => ⟨now + x.delay, none, x.payload⟩

theorem emplaceAll_sorted (now : ℤ) (xs : List (Emplacement P)) (hs : Sorted actions) :
    Sorted (emplaceAll now xs actions) ∧
      (emplaceAll now xs actions).Perm (actions ++ emplaced now xs) := by
  induction xs generalizing actions with
  | nil => exact ⟨hs, by simp [emplaceAll, emplaced]⟩
  | cons x xs ih =>
    obtain ⟨hs', hperm⟩ := emplace_sorted now x hs
    obtain ⟨hsorted, hall⟩ := ih hs'
    refine ⟨hsorted, hall.trans ?_⟩
    exact (hperm.append_right _).trans List.perm_middle.symm

end Queue

section Steps

variable {c c' : NodeContainer P}

/-- The queue is in order, and if there is an event for the container, it is the only one, the
container has been started, and the front of the queue is due by then. -/
structure Sound (c : NodeContainer P) : Prop where
  sim : c.sim.Sound
  sorted : Sorted c.actions
  one : (live c.sim.events).length ≤ 1
  due : ∀ x ∈ live c.sim.events, c.started = true ∧ ∃ a ∈ c.actions, a.time ≤ x.1.ts
  known : ∀ a ∈ c.actions, ∀ id, a.eventId = some id → id.uid < c.sim.uid

theorem new_sound : (new : NodeContainer P).Sound where
  sim := Simulator.new_sound
  sorted := .nil
  one := Nat.zero_le 1
  due _ hx := (List.not_mem_nil hx).elim
  known _ ha := (List.not_mem_nil ha).elim

/-- Scheduling the front when nothing is scheduled. -/
structure Rescheduled (c c' : NodeContainer P) : Prop where
  sound : c'.Sound
  started_eq : c'.started = c.started
  current_eq : c'.sim.current = c.sim.current
  whats : c'.actions.map NodeAction.what = c.actions.map NodeAction.what
  live_uid : ∀ x ∈ live c'.sim.events, c.sim.uid ≤ x.1.uid
  awaited : ∀ act ∈ c'.actions.head?, ∃ id, live c'.sim.events = [(id, ())] ∧
    id.ts = max act.time c.sim.currentTs

theorem actSchedule_ok (hsim : c.sim.Sound) (hsorted : Sorted c.actions)
    (hknown : ∀ a ∈ c.actions, ∀ id, a.eventId = some id → id.uid < c.sim.uid)
    (hnone : live c.sim.events = []) (hstarted : c.started = true)
    (hok : actSchedule c = .ok c') : Rescheduled c c' := by
  unfold actSchedule at hok
  split at hok
  · next hempty =>
    obtain rfl := Except.ok.inj hok
    exact ⟨⟨hsim, hsorted, by simp [hnone], by simp [hnone], hknown⟩, rfl, rfl, rfl,
      by simp [hnone], by simp [hempty]⟩
  · next act actions hactions =>
    obtain ⟨⟨id, sim⟩, hschedule, rfl⟩ := map_eq_ok hok
    have hs := schedule_ok hsim hschedule
    have hlive : live sim.events = [(id, ())] := by
      have hperm := hs.live_perm
      rw [hnone] at hperm
      exact List.perm_singleton.mp hperm
    have hid := hs.id_eq
    rw [hactions] at hsorted hknown
    obtain ⟨hfirst, hrest⟩ := List.pairwise_cons.mp hsorted
    have hts : id.ts = max act.time c.sim.currentTs := by
      rw [hid]
      simp only [remainingDelay]
      split_ifs <;> omega
    refine ⟨⟨hs.sound, .cons hfirst hrest, by simp [hlive], ?_, ?_⟩, rfl, hs.current_eq, ?_, ?_, ?_⟩
    · intro x hx
      rw [hlive, List.mem_singleton] at hx
      refine ⟨hstarted, _, List.mem_cons_self, ?_⟩
      rw [hx, hts]
      exact le_max_left _ _
    · intro a ha id' hid'
      dsimp only
      rw [hs.uid_eq]
      rcases List.mem_cons.mp ha with rfl | ha
      · obtain rfl := Option.some.inj hid'
        rw [hid]
        exact Nat.lt_succ_self _
      · exact Nat.lt_succ_of_lt (hknown a (List.mem_cons_of_mem _ ha) id' hid')
    · rw [hactions]
      rfl
    · intro x hx
      rw [hlive, List.mem_singleton] at hx
      rw [hx, hid]
    · intro a ha
      obtain rfl := Option.some.inj ha
      exact ⟨id, hlive, hts⟩

theorem destroy_sound {act : NodeAction P} (hs : c.Sound)
    (hold : ∀ id, act.eventId = some id → ∀ x ∈ live c.sim.events, id.uid < x.1.uid) :
    (destroy act c).Sound ∧ (destroy act c).sim.current = c.sim.current ∧
      live (destroy act c).sim.events = live c.sim.events := by
  unfold destroy
  cases hid : act.eventId with
  | none => exact ⟨hs, rfl, rfl⟩
  | some id =>
    have hlive : live (c.sim.cancel id).events = live c.sim.events := by
      refine live_cancel fun x hx heq => ?_
      have hlt := hold id hid x hx
      rw [heq] at hlt
      exact lt_irrefl _ hlt
    obtain ⟨hcurrent, huid⟩ := @cancel_clock _ c.sim id
    refine ⟨⟨cancel_sound hs.sim id, hs.sorted, ?_, ?_, ?_⟩, hcurrent, hlive⟩
    · simpa only [Option.elim, hlive] using hs.one
    · simpa only [Option.elim, hlive] using hs.due
    · simpa only [Option.elim, huid] using hs.known

/-- What the run of the front leads to, on a simulator with no event left for the container. -/
structure Ran (c : NodeContainer P) (rest : List (NodeAction P)) (news : List (Emplacement P))
    (c' : NodeContainer P) : Prop where
  sound : c'.Sound
  started_eq : c'.started = c.started
  current_eq : c'.sim.current = c.sim.current
  whats : (c'.actions.map NodeAction.what).Perm
    ((rest ++ emplaced c.sim.currentTs news).map NodeAction.what)
  awaited : ∀ act ∈ c'.actions.head?, ∃ id, live c'.sim.events = [(id, ())] ∧
    id.ts = max act.time c.sim.currentTs

theorem actNext_ran {act : NodeAction P} {rest : List (NodeAction P)} {news : List (Emplacement P)}
    (hsim : c.sim.Sound) (hsorted : Sorted c.actions)
    (hknown : ∀ a ∈ c.actions, ∀ id, a.eventId = some id → id.uid < c.sim.uid)
    (hnone : live c.sim.events = []) (hstarted : c.started = true)
    (hactions : c.actions = act :: rest) (hok : actNext news c = .ok c') : Ran c rest news c' := by
  rw [hactions] at hsorted hknown
  obtain ⟨hsorted', hperm⟩ :=
    emplaceAll_sorted c.sim.currentTs news (List.pairwise_cons.mp hsorted).2
  have hknown' : ∀ a ∈ emplaceAll c.sim.currentTs news rest, ∀ id, a.eventId = some id →
      id.uid < c.sim.uid := by
    intro a ha id hid
    rcases List.mem_append.mp (hperm.mem_iff.mp ha) with ha | ha
    · exact hknown a (List.mem_cons_of_mem _ ha) id hid
    · obtain ⟨x, -, rfl⟩ := List.mem_map.mp ha
      cases hid
  unfold actNext at hok
  rw [hactions] at hok
  obtain ⟨c₁, hschedule, rfl⟩ := map_eq_ok hok
  have hr := actSchedule_ok (c := { c with actions := emplaceAll c.sim.currentTs news rest })
    hsim hsorted' hknown' hnone hstarted hschedule
  have hold : ∀ id, act.eventId = some id → ∀ x ∈ live c₁.sim.events, id.uid < x.1.uid :=
    fun id hid x hx => (hknown act List.mem_cons_self id hid).trans_le (hr.live_uid x hx)
  obtain ⟨hsound, hcurrent, hlive⟩ := destroy_sound hr.sound hold
  refine ⟨hsound, hr.started_eq, hcurrent.trans hr.current_eq, ?_, ?_⟩
  · have hwhats : (destroy act c₁).actions.map NodeAction.what =
        (emplaceAll c.sim.currentTs news rest).map NodeAction.what := hr.whats
    rw [hwhats]
    exact hperm.map _
  · rw [hlive]
    exact hr.awaited

/-- The container when the simulator has come to an event. -/
def atEvent (c : NodeContainer P) (id : EventKey) (events : List (SimEvent Unit)) :
    NodeContainer P :=
  { c with sim := ⟨id.ts, id.uid, c.sim.uid, events⟩ }

/-- What a turn of the simulator leads to. -/
inductive Turn (news : List (Emplacement P)) (c c' : NodeContainer P) : Prop
  | idle (hevents : c.sim.events = []) (heq : c' = c)
  | skip (next : SimEvent Unit) (events : List (SimEvent Unit))
      (hevents : c.sim.events = next :: events) (hlive : live [next] = [])
      (heq : c' = c.atEvent next.key events)
  | run (id : EventKey) (events : List (SimEvent Unit)) (act : NodeAction P)
      (rest : List (NodeAction P)) (hevents : c.sim.events = ⟨id, some (), false⟩ :: events)
      (hactions : c.actions = act :: rest) (hdue : act.time ≤ id.ts) (hstarted : c.started = true)
      (hran : Ran (c.atEvent id events) rest news c')

theorem process_turn {news : List (Emplacement P)} (hs : c.Sound)
    (hok : step c (.process news) = .ok c') : Turn news c c' := by
  cases hevents : c.sim.events with
  | nil =>
    simp only [step, removeNext_nil hevents] at hok
    exact .idle hevents (Except.ok.inj hok).symm
  | cons next events =>
    obtain ⟨hnext, hsim⟩ := removeNext_cons hs.sim hevents
    simp only [step, hnext] at hok
    split at hok
    · next hcancelled htask =>
      obtain ⟨id, task, cancelled⟩ := next
      dsimp only at hcancelled htask
      subst hcancelled htask
      have hlive : live c.sim.events = (id, ()) :: live events := by
        rw [hevents, live_cons]
        rfl
      have hnone : live events = [] := by
        have hone := hs.one
        rw [hlive, List.length_cons] at hone
        exact List.length_eq_zero_iff.mp (by omega)
      obtain ⟨hstarted, a, ha, hdue⟩ := hs.due (id, ()) (hlive ▸ List.mem_cons_self)
      obtain ⟨act, rest, hactions⟩ := List.exists_cons_of_ne_nil (List.ne_nil_of_mem ha)
      have hfront : act.time ≤ id.ts := by
        have hsorted := hs.sorted
        rw [hactions] at ha hsorted
        rcases List.mem_cons.mp ha with rfl | ha
        · exact hdue
        · exact le_trans ((List.pairwise_cons.mp hsorted).1 a ha) hdue
      exact .run id events act rest hevents hactions hfront hstarted
        (actNext_ran hsim hs.sorted hs.known hnone hstarted hactions hok)
    · next hnot =>
      exact .skip next events hevents (live_of_not fun _ => hnot) (Except.ok.inj hok).symm

theorem skip_sound {next : SimEvent Unit} {events : List (SimEvent Unit)} (hs : c.Sound)
    (hevents : c.sim.events = next :: events) (hlive : live [next] = []) :
    (c.atEvent next.key events).Sound ∧ live events = live c.sim.events := by
  have hsame : live events = live c.sim.events := by
    rw [hevents, live_cons, hlive, List.nil_append]
  exact ⟨⟨(removeNext_cons hs.sim hevents).2, hs.sorted, hsame ▸ hs.one, hsame ▸ hs.due, hs.known⟩,
    hsame⟩

theorem other_sound {delay : ℤ} {id : EventKey} {sim : Simulator Unit} (hs : c.Sound)
    (hsim : Scheduled c.sim delay none id sim) : ({ c with sim } : NodeContainer P).Sound := by
  have hlive : (live sim.events).Perm (live c.sim.events) := hsim.live_perm
  refine ⟨hsim.sound, hs.sorted, hlive.length_eq ▸ hs.one, fun x hx => hs.due x
    (hlive.mem_iff.mp hx), fun a ha id hid => ?_⟩
  dsimp only
  rw [hsim.uid_eq]
  exact Nat.lt_succ_of_lt (hs.known a ha id hid)

theorem emplace_sound (x : Emplacement P) (hs : c.Sound) :
    ({ c with actions := emplace c.sim.currentTs x c.actions } : NodeContainer P).Sound := by
  obtain ⟨hsorted, hperm⟩ := emplace_sorted c.sim.currentTs x hs.sorted
  refine ⟨hs.sim, hsorted, hs.one, fun y hy => ?_, fun a ha id hid => ?_⟩
  · obtain ⟨hstarted, a, ha, hdue⟩ := hs.due y hy
    exact ⟨hstarted, a, hperm.mem_iff.mpr (List.mem_cons_of_mem _ ha), hdue⟩
  · rcases List.mem_cons.mp (hperm.mem_iff.mp ha) with rfl | ha
    · cases hid
    · exact hs.known a ha id hid

/-- Before the start there is no event for the container. -/
theorem unstarted_live (hs : c.Sound) (hnot : c.started = false) : live c.sim.events = [] :=
  List.eq_nil_iff_forall_not_mem.mpr fun x hx => by cases hnot.symm.trans (hs.due x hx).1

theorem start_rescheduled (hs : c.Sound) (hnot : c.started = false)
    (hok : actSchedule { c with started := true } = .ok c') :
    Rescheduled { c with started := true } c' := by
  have hnone := unstarted_live hs hnot
  exact actSchedule_ok (c := { c with started := true }) hs.sim hs.sorted hs.known hnone rfl hok

end Steps

section Histories

/-- The actions that were emplaced, with their times, and those that were run, with the times when
they were. -/
structure History (P : Type*) where
  emplaced : List (ℤ × P)
  ran : List (ℤ × ℤ × P)

def History.empty : History P := ⟨[], []⟩

def note (h : History P) (c : NodeContainer P) (act : Act P) (c' : NodeContainer P) : History P :=
  match act with
  | .emplace x => { h with emplaced := h.emplaced ++ [(c.sim.currentTs + x.delay, x.payload)] }
  | .process news =>
      match c.sim.events, c.actions with
      | ⟨id, some (), false⟩ :: _, act :: _ =>
          ⟨h.emplaced ++ (emplaced id.ts news).map NodeAction.what,
            h.ran ++ [(c'.sim.currentTs, act.what)]⟩
      | _, _ => h
  | _ => h

/-- Every action is run once and not before its time, or is still in the queue, which is in order;
the simulator has at most one event for all of them. -/
structure InTurn (r : History P × NodeContainer P) : Prop where
  once : r.1.emplaced.Perm (r.1.ran.map Prod.snd ++ r.2.actions.map NodeAction.what)
  notEarly : ∀ x ∈ r.1.ran, x.2.1 ≤ x.1
  chronological : r.1.ran.Pairwise fun x y => x.1 ≤ y.1
  sorted : Sorted r.2.actions
  oneEvent : (live r.2.sim.events).length ≤ 1

structure Kept (r : History P × NodeContainer P) : Prop where
  sound : r.2.Sound
  once : r.1.emplaced.Perm (r.1.ran.map Prod.snd ++ r.2.actions.map NodeAction.what)
  notEarly : ∀ x ∈ r.1.ran, x.2.1 ≤ x.1
  chronological : r.1.ran.Pairwise fun x y => x.1 ≤ y.1
  past : ∀ x ∈ r.1.ran, x.1 ≤ r.2.sim.currentTs

variable {h : History P} {c c' : NodeContainer P}

theorem note_idle {news : List (Emplacement P)} (hevents : c.sim.events = []) :
    note h c (.process news) c' = h := by
  simp only [note, hevents]

theorem note_skip {news : List (Emplacement P)} {next : SimEvent Unit}
    {events : List (SimEvent Unit)} (hevents : c.sim.events = next :: events)
    (hlive : live [next] = []) : note h c (.process news) c' = h := by
  simp only [note, hevents]
  split
  · next id events' act rest hcons _ =>
    obtain ⟨rfl, -⟩ := List.cons.inj hcons
    cases hlive
  · rfl

theorem note_run {news : List (Emplacement P)} {id : EventKey} {events : List (SimEvent Unit)}
    {act : NodeAction P} {rest : List (NodeAction P)}
    (hevents : c.sim.events = ⟨id, some (), false⟩ :: events) (hactions : c.actions = act :: rest) :
    note h c (.process news) c' = ⟨h.emplaced ++ (emplaced id.ts news).map NodeAction.what,
      h.ran ++ [(c'.sim.currentTs, act.what)]⟩ := by
  simp only [note, hevents, hactions]

theorem kept_turn {news : List (Emplacement P)} (hk : Kept (h, c)) (ht : Turn news c c') :
    Kept (note h c (.process news) c', c') := by
  cases ht with
  | idle hevents heq =>
    subst heq
    rwa [note_idle hevents]
  | skip next events hevents hlive heq =>
    have hlater := hk.sound.sim.later next (hevents ▸ List.mem_cons_self)
    simp only [EventKey.before, current] at hlater
    rw [note_skip hevents hlive]
    subst heq
    refine ⟨(skip_sound hk.sound hevents hlive).1, hk.once, hk.notEarly, hk.chronological, ?_⟩
    intro x hx
    have hle := hk.past x hx
    dsimp only [atEvent] at hle ⊢
    omega
  | run id events act rest hevents hactions hdue hstarted hran =>
    have hlater := hk.sound.sim.later _ (hevents ▸ List.mem_cons_self)
    simp only [EventKey.before, current] at hlater
    have hnow : c'.sim.currentTs = id.ts := congrArg EventKey.ts hran.current_eq
    have hpast : ∀ x ∈ h.ran, x.1 ≤ id.ts := fun x hx => by
      have hle := hk.past x hx
      dsimp only at hle
      omega
    rw [note_run hevents hactions, hnow]
    refine ⟨hran.sound, ?_, ?_, ?_, ?_⟩
    · have honce := hk.once
      dsimp only at honce
      have hwhats := hran.whats
      rw [hactions] at honce
      rw [List.map_append] at hwhats
      refine (honce.append_right _).trans (List.Perm.trans ?_ (hwhats.append_left _).symm)
      simp [atEvent]
    · intro x hx
      rcases List.mem_append.mp hx with hx | hx
      · exact hk.notEarly x hx
      · rw [List.mem_singleton.mp hx]
        exact hdue
    · refine List.pairwise_append.mpr ⟨hk.chronological, List.pairwise_singleton _ _, ?_⟩
      intro x hx y hy
      rw [List.mem_singleton.mp hy]
      exact hpast x hx
    · intro x hx
      dsimp only
      rw [hnow]
      rcases List.mem_append.mp hx with hx | hx
      · exact hpast x hx
      · rw [List.mem_singleton.mp hx]

theorem kept_emplace (x : Emplacement P) (hk : Kept (h, c)) :
    Kept ({ h with emplaced := h.emplaced ++ [(c.sim.currentTs + x.delay, x.payload)] },
      { c with actions := emplace c.sim.currentTs x c.actions }) := by
  refine ⟨emplace_sound x hk.sound, ?_, hk.notEarly, hk.chronological, hk.past⟩
  have hperm := (emplace_sorted c.sim.currentTs x hk.sound.sorted).2.map NodeAction.what
  refine (hk.once.append_right _).trans ?_
  dsimp only
  rw [List.append_assoc]
  exact (List.perm_append_singleton _ _).trans hperm.symm |>.append_left _

/-- Where the clock stands still and the actions are the same, but for their events. -/
theorem kept_same (hk : Kept (h, c)) (hs : c'.Sound) (hcurrent : c'.sim.current = c.sim.current)
    (hwhats : c'.actions.map NodeAction.what = c.actions.map NodeAction.what) : Kept (h, c') := by
  have hnow : c'.sim.currentTs = c.sim.currentTs := congrArg EventKey.ts hcurrent
  refine ⟨hs, ?_, hk.notEarly, hk.chronological, ?_⟩
  · dsimp only
    rw [hwhats]
    exact hk.once
  · dsimp only
    rw [hnow]
    exact hk.past

theorem step_kept {r r' : History P × NodeContainer P} {act : Act P} (hk : Kept r)
    (hs : noted step note r act = .ok r') : Kept r' := by
  obtain ⟨h, c⟩ := r
  obtain ⟨h', c'⟩ := r'
  obtain ⟨hstep, hnote⟩ := noted_ok hs
  dsimp only at hstep hnote
  subst hnote
  cases act with
  | emplace x =>
    obtain rfl := Except.ok.inj hstep
    exact kept_emplace x hk
  | start =>
    simp only [step] at hstep
    split_ifs at hstep with hstarted
    · obtain rfl := Except.ok.inj hstep
      exact hk
    · have hr := start_rescheduled hk.sound (by simpa using hstarted) hstep
      exact kept_same hk hr.sound hr.current_eq hr.whats
  | other delay =>
    obtain ⟨⟨id, sim⟩, hsim, rfl⟩ := map_eq_ok hstep
    have hscheduled := schedule_ok hk.sound.sim hsim
    exact kept_same hk (other_sound hk.sound hscheduled) hscheduled.current_eq rfl
  | process news => exact kept_turn hk (process_turn hk.sound hstep)

theorem kept_of_run {acts : List (Act P)} {r : History P × NodeContainer P}
    (hr : run (noted step note) (History.empty, new) acts = .ok r) : Kept r :=
  run_invariant Kept (fun _ _ _ => step_kept)
    ⟨new_sound, .nil, fun _ hx => (List.not_mem_nil hx).elim, .nil,
      fun _ hx => (List.not_mem_nil hx).elim⟩ hr

/-- In every run, whenever and at whichever end actions are emplaced, each is run once and never
before its time. -/
theorem actions_in_turn (acts : List (Act P)) :
    Always (noted step note) InTurn ((History.empty : History P), new) acts :=
  always_of_run fun _ _ hr => by
    have hk := kept_of_run hr
    exact ⟨hk.once, hk.notEarly, hk.chronological, hk.sound.sorted, hk.sound.one⟩

end Histories

section Times

variable {r r' : History P × NodeContainer P}

/-- Actions are emplaced before the start, none for a time before it, or by those that run, none
for the past. -/
def Prompt (r : History P × NodeContainer P) : Act P → Prop
  | .emplace _ => r.2.started = false
  | .start => r.2.started = false → ∀ a ∈ r.2.actions, r.2.sim.currentTs ≤ a.time
  | .other _ => True
  | .process news => ∀ x ∈ news, 0 ≤ x.delay

instance (r : History P × NodeContainer P) : DecidablePred (Prompt r)
  | .emplace _ => inferInstanceAs (Decidable (r.2.started = false))
  | .start => inferInstanceAs
      (Decidable (r.2.started = false → ∀ a ∈ r.2.actions, r.2.sim.currentTs ≤ a.time))
  | .other _ => inferInstanceAs (Decidable True)
  | .process news => inferInstanceAs (Decidable (∀ x ∈ news, 0 ≤ x.delay))

/-- Actions run at exactly their times, and the event is the one for the front of the queue. -/
structure OnTime (r : History P × NodeContainer P) : Prop where
  punctual : ∀ x ∈ r.1.ran, x.1 = x.2.1
  awaited : r.2.started = true → ∀ act ∈ r.2.actions.head?, ∃ id,
    live r.2.sim.events = [(id, ())] ∧ id.ts = act.time

variable {h : History P} {c c' : NodeContainer P}

theorem onTime_turn {news : List (Emplacement P)} (hk : Kept (h, c)) (ho : OnTime (h, c))
    (hnews : ∀ x ∈ news, 0 ≤ x.delay) (ht : Turn news c c') :
    OnTime (note h c (.process news) c', c') := by
  cases ht with
  | idle hevents heq =>
    subst heq
    rwa [note_idle hevents]
  | skip next events hevents hlive heq =>
    rw [note_skip hevents hlive]
    subst heq
    have hsame := (skip_sound hk.sound hevents hlive).2
    exact ⟨ho.punctual, fun hstarted act hact => hsame ▸ ho.awaited hstarted act hact⟩
  | run id events act rest hevents hactions hdue hstarted hran =>
    have hact : act ∈ c.actions.head? := by simp [hactions]
    obtain ⟨id', hlive, hts⟩ := ho.awaited hstarted act hact
    have hid : id.ts = act.time := by
      have hfirst : live c.sim.events = (id, ()) :: live events := by
        rw [hevents, live_cons]
        rfl
      obtain ⟨hsame, -⟩ := List.cons.inj (hfirst.symm.trans hlive)
      rw [(Prod.mk.inj hsame).1, hts]
    have hnow : c'.sim.currentTs = id.ts := congrArg EventKey.ts hran.current_eq
    have hsorted := hk.sound.sorted
    dsimp only at hsorted
    rw [hactions] at hsorted
    rw [note_run hevents hactions]
    refine ⟨fun x hx => ?_, fun _ a ha => ?_⟩
    · rcases List.mem_append.mp hx with hx | hx
      · exact ho.punctual x hx
      · rw [List.mem_singleton.mp hx]
        exact hnow.trans hid
    · obtain ⟨id₁, hlive₁, hts₁⟩ := hran.awaited a ha
      refine ⟨id₁, hlive₁, hts₁.trans (max_eq_left ?_)⟩
      -- what is left is no sooner than what has run, and what has been emplaced no sooner than now
      have hmem : a.what ∈ (rest ++ emplaced id.ts news).map NodeAction.what :=
        hran.whats.mem_iff.mp (List.mem_map_of_mem (List.mem_of_mem_head? ha))
      obtain ⟨b, hb, heq⟩ := List.mem_map.mp hmem
      have htime : b.time = a.time := (Prod.mk.inj heq).1
      dsimp only [atEvent]
      rw [← htime]
      rcases List.mem_append.mp hb with hb | hb
      · exact hid.trans_le ((List.pairwise_cons.mp hsorted).1 b hb)
      · obtain ⟨x, hx, rfl⟩ := List.mem_map.mp hb
        exact Int.le_add_of_nonneg_right (hnews x hx)

theorem step_onTime (r : History P × NodeContainer P) (act : Act P)
    (r' : History P × NodeContainer P) (h : Kept r ∧ OnTime r) (hp : Prompt r act)
    (hs : noted step note r act = .ok r') : Kept r' ∧ OnTime r' := by
  refine ⟨step_kept h.1 hs, ?_⟩
  obtain ⟨hk, ho⟩ := h
  obtain ⟨hstep, hnote⟩ := noted_ok hs
  obtain ⟨h', c'⟩ := r'
  dsimp only at hstep hnote
  subst hnote
  cases act with
  | emplace x =>
    obtain rfl := Except.ok.inj hstep
    exact ⟨ho.punctual, fun hstarted => by cases hp.symm.trans hstarted⟩
  | start =>
    simp only [step] at hstep
    split_ifs at hstep with hstarted
    · obtain rfl := Except.ok.inj hstep
      exact ho
    · have hnot : r.2.started = false := by simpa using hstarted
      have hr := start_rescheduled hk.sound hnot hstep
      refine ⟨ho.punctual, fun _ act hact => ?_⟩
      obtain ⟨id, hlive, hts⟩ := hr.awaited act hact
      refine ⟨id, hlive, hts.trans (max_eq_left ?_)⟩
      have hmem : act.what ∈ r.2.actions.map NodeAction.what := by
        rw [← show c'.actions.map NodeAction.what = _ from hr.whats]
        exact List.mem_map_of_mem (List.mem_of_mem_head? hact)
      obtain ⟨a, ha, heq⟩ := List.mem_map.mp hmem
      exact (hp hnot a ha).trans_eq (Prod.mk.inj heq).1
  | other delay =>
    obtain ⟨⟨id, sim⟩, hsim, rfl⟩ := map_eq_ok hstep
    have hscheduled := schedule_ok hk.sound.sim hsim
    refine ⟨ho.punctual, fun hstarted act hact => ?_⟩
    obtain ⟨id', hlive, hts⟩ := ho.awaited hstarted act hact
    have hperm : (live sim.events).Perm (live r.2.sim.events) := hscheduled.live_perm
    exact ⟨id', List.perm_singleton.mp (hlive ▸ hperm), hts⟩
  | process news => exact onTime_turn hk ho hp (process_turn hk.sound hstep)

/-- In every run in which actions are emplaced promptly, each is run at exactly its time. -/
theorem actions_on_time (acts : List (Act P))
    (hprompt : Each (noted step note) Prompt ((History.empty : History P), new) acts) :
    Always (noted step note) OnTime ((History.empty : History P), new) acts :=
  always_of_each (fun r => Kept r ∧ OnTime r) (fun _ h => h.2) step_onTime
    ⟨kept_of_run (run_nil _), fun _ hx => (List.not_mem_nil hx).elim, fun hnot => by cases hnot⟩
    hprompt

/-- Two actions before the start, the sooner one emplacing a third. -/
def twoActions : List (Act ℕ) :=
  [.emplace ⟨true, 10, 1⟩, .emplace ⟨false, 5, 2⟩, .start, .process [⟨true, 3, 3⟩], .process [],
    .process []]

theorem actions_on_time_two : Each (noted step note) Prompt ((History.empty : History ℕ), new)
    twoActions ∧ Always (noted step note) OnTime ((History.empty : History ℕ), new) twoActions :=
  ⟨by decide, actions_on_time twoActions (by decide)⟩

end Times

section Stranding

variable {h : History P} {c c' : NodeContainer P}

theorem actSchedule_returns (c : NodeContainer P) : ∃ c', actSchedule c = .ok c' := by
  unfold actSchedule
  split
  · exact ⟨c, rfl⟩
  · next act actions _ =>
    have hdelay : ¬ remainingDelay c.sim.currentTs act < 0 := by
      unfold remainingDelay
      split_ifs <;> omega
    rw [schedule, if_neg hdelay]
    exact ⟨_, rfl⟩

/-- The queue is never empty when its event comes. -/
theorem process_returns (hs : c.Sound) (news : List (Emplacement P)) :
    ∃ c', step c (.process news) = .ok c' := by
  cases hevents : c.sim.events with
  | nil =>
    exact ⟨c, by simp only [step, removeNext_nil hevents]⟩
  | cons next events =>
    simp only [step, (removeNext_cons hs.sim hevents).1]
    split
    · next hcancelled htask =>
      have hmem : (next.key, ()) ∈ live c.sim.events := by
        obtain ⟨id, task, cancelled⟩ := next
        dsimp only at hcancelled htask
        subst hcancelled htask
        exact mem_live.mpr (hevents ▸ List.mem_cons_self)
      obtain ⟨-, a, ha, -⟩ := hs.due _ hmem
      obtain ⟨act, rest, hactions⟩ := List.exists_cons_of_ne_nil (List.ne_nil_of_mem ha)
      obtain ⟨c₁, hschedule⟩ := actSchedule_returns
        { c.atEvent next.key events with actions := emplaceAll next.key.ts news rest }
      have hrun := congrArg (Except.map (destroy act)) hschedule
      refine ⟨destroy act c₁, ?_⟩
      unfold actNext
      simp only [hactions]
      exact hrun
    · exact ⟨_, rfl⟩

/-- From here on, some action can be run. -/
def Runnable (r : History P × NodeContainer P) : Prop :=
  ∃ acts r', run (noted step note) r acts = .ok r' ∧ r'.1.ran ≠ r.1.ran

theorem runnable_of_live (hk : Kept (h, c)) (hlive : live c.sim.events ≠ []) : Runnable (h, c) := by
  generalize hevents : c.sim.events = events at hlive
  induction events generalizing c with
  | nil => exact absurd rfl hlive
  | cons next events ih =>
    obtain ⟨c', hstep⟩ := process_returns hk.sound []
    have hturn := process_turn hk.sound hstep
    have hk' := kept_turn hk hturn
    have hnoted := noted_of_ok note h hstep
    cases hturn with
    | idle hnil _ => cases hnil.symm.trans hevents
    | skip next' events' hevents' hother heq =>
      obtain ⟨rfl, rfl⟩ := List.cons.inj (hevents'.symm.trans hevents)
      rw [live_cons, hother, List.nil_append] at hlive
      rw [note_skip hevents hother] at hk' hnoted
      obtain ⟨acts, r', hrun, hran⟩ := ih hk' (by rw [heq]; rfl) hlive
      exact ⟨_ :: acts, r', (run_cons_ok acts hnoted).trans hrun, hran⟩
    | run id events' act rest hevents' hactions _ _ _ =>
      refine ⟨[.process []], _, run_cons_ok [] hnoted, ?_⟩
      rw [note_run hevents' hactions]
      simp

/-- A container that has been started and has no event is left alone for good. -/
theorem step_stranded {r r' : History P × NodeContainer P} {act : Act P}
    (hk : Kept r) (hstarted : r.2.started = true) (hidle : live r.2.sim.events = [])
    (hs : noted step note r act = .ok r') :
    r'.2.started = true ∧ live r'.2.sim.events = [] ∧ r'.1.ran = r.1.ran := by
  obtain ⟨hstep, hnote⟩ := noted_ok hs
  rw [hnote]
  cases act with
  | emplace x =>
    rw [← Except.ok.inj hstep]
    exact ⟨hstarted, hidle, rfl⟩
  | start =>
    simp only [step, hstarted, if_true] at hstep
    rw [← Except.ok.inj hstep]
    exact ⟨hstarted, hidle, rfl⟩
  | other delay =>
    obtain ⟨⟨id, sim⟩, hsim, heq⟩ := map_eq_ok hstep
    have hperm : (live sim.events).Perm (live r.2.sim.events) :=
      (schedule_ok hk.sound.sim hsim).live_perm
    rw [← heq]
    exact ⟨hstarted, List.Perm.eq_nil (hidle ▸ hperm), rfl⟩
  | process news =>
    obtain ⟨h, c⟩ := r
    cases process_turn hk.sound hstep with
    | idle hevents heq =>
      rw [note_idle hevents, heq]
      exact ⟨hstarted, hidle, rfl⟩
    | skip next events hevents hlive heq =>
      rw [note_skip hevents hlive, heq]
      exact ⟨hstarted, (skip_sound hk.sound hevents hlive).2.trans hidle, rfl⟩
    | run id events act rest hevents hactions hdue _ hran =>
      have hmem : (id, ()) ∈ live (h, c).2.sim.events := by
        rw [mem_live, hevents]
        exact List.mem_cons_self
      rw [hidle] at hmem
      cases hmem

theorem not_runnable {r : History P × NodeContainer P} (hk : Kept r)
    (hstarted : r.2.started = true) (hidle : live r.2.sim.events = []) : ¬ Runnable r := by
  rintro ⟨acts, r', hrun, hran⟩
  have hstranded := run_invariant (fun r' => Kept r' ∧ r'.2.started = true ∧
    live r'.2.sim.events = [] ∧ r'.1.ran = r.1.ran) ?_ ⟨hk, hstarted, hidle, rfl⟩ hrun
  · exact hran hstranded.2.2.2
  · rintro r₁ act r₂ ⟨hk₁, hstarted₁, hidle₁, hsame⟩ hs
    obtain ⟨hstarted₂, hidle₂, hran₂⟩ := step_stranded hk₁ hstarted₁ hidle₁ hs
    exact ⟨step_kept hk₁ hs, hstarted₂, hidle₂, hran₂.trans hsame⟩

/-- In every run, the actions of a started container can be run exactly if it has an event; once its
queue is empty it has none, and what is emplaced then is never run. -/
theorem runnable_iff (acts : List (Act P)) :
    Always (noted step note) (fun r => r.2.started = true →
      (Runnable r ↔ live r.2.sim.events ≠ []) ∧ (r.2.actions = [] → ¬ Runnable r))
      ((History.empty : History P), new) acts := by
  refine always_of_run fun r past hr hstarted => ?_
  have hk := kept_of_run hr
  have hiff : Runnable r ↔ live r.2.sim.events ≠ [] :=
    ⟨fun hrunnable hidle => not_runnable hk hstarted hidle hrunnable, runnable_of_live hk⟩
  refine ⟨hiff, fun hempty => hiff.not.mpr ?_⟩
  rw [not_not]
  refine List.eq_nil_iff_forall_not_mem.mpr fun x hx => ?_
  obtain ⟨-, a, ha, -⟩ := hk.sound.due x hx
  rw [hempty] at ha
  cases ha

end Stranding

end NodeContainer

end YingSma
