import YingSma.Messages
import YingSma.TaskSchedule

/-! The tasks on the simulator: `Async` hands them to its list of events, and its loop runs one
event after the other. -/
namespace YingSma

/-- `Scheduler::EventKey`: the time, and the number in the order of scheduling. The numbers go on
for good here; those of the source are of type `uint32_t`, and are the same below `uidEnd`. -/
structure EventKey where
  ts : ℤ
  uid : ℕ
  deriving DecidableEq, Repr

namespace EventKey

/-- `operator <` -/
def before (a b : EventKey) : Prop := a.ts < b.ts ∨ (a.ts = b.ts ∧ a.uid < b.uid)

instance : DecidableRel before := fun a b => by unfold before; infer_instance

/-- The same with the numbers as `uint32_t`. -/
def narrowBefore (a b : EventKey) : Prop :=
  a.ts < b.ts ∨ (a.ts = b.ts ∧ UInt32.ofNat a.uid < UInt32.ofNat b.uid)

/-- The number that `m_uid` cannot hold any more. -/
def uidEnd : ℕ := 2 ^ 32

theorem before_iff_narrowBefore {a b : EventKey} (ha : a.uid < uidEnd) (hb : b.uid < uidEnd) :
    a.before b ↔ a.narrowBefore b := by
  have huid : UInt32.ofNat a.uid < UInt32.ofNat b.uid ↔ a.uid < b.uid := by
    rw [UInt32.lt_iff_toNat_lt, UInt32.toNat_ofNat_of_lt' ha, UInt32.toNat_ofNat_of_lt' hb]
  rw [before, narrowBefore, huid]

theorem before_trans {a b c : EventKey} (hab : a.before b) (hbc : b.before c) : a.before c := by
  unfold before at *
  omega

theorem before_of_uid {a b : EventKey} (hlt : a.uid < b.uid) (hnot : ¬ b.before a) :
    a.before b := by
  unfold before at *
  omega

end EventKey

/-- An event runs a task, or something of the simulator's own. -/
structure SimEvent (T : Type*) where
  key : EventKey
  task : Option T
  cancelled : Bool
  deriving DecidableEq

/-- `DefaultSimulatorImpl`, with the map of its scheduler as a list. Once `uid` is past
`EventKey.uidEnd`, events have been scheduled with numbers for which `m_uid` has wrapped. -/
structure Simulator (T : Type*) where
  currentTs : ℤ
  currentUid : ℕ
  uid : ℕ
  events : List (SimEvent T)

namespace Simulator

variable {T : Type*}

/-- No event has been scheduled since `m_uid` wrapped. -/
def Unwrapped (s : Simulator T) : Prop := s.uid ≤ EventKey.uidEnd

/-- The numbers below 4 are not those of events in the list. -/
def new : Simulator T := ⟨0, 0, 4, []⟩

/-- `MapScheduler::Insert` -/
def insert (e : SimEvent T) : List (SimEvent T) → List (SimEvent T)
  | [] => [e]
  | next :: events => if e.key.before next.key then e :: next :: events
      else next :: insert e events

def schedule (delay : ℤ) (task : Option T) (s : Simulator T) :
    Except Fault (EventKey × Simulator T) :=
  if delay < 0 then .error (.assertFailed "tAbsolute >= TimeStep (m_currentTs)")
  else
    let key : EventKey := ⟨s.currentTs + delay, s.uid⟩
    .ok (key, { s with uid := s.uid + 1, events := insert ⟨key, task, false⟩ s.events })

def isExpired (id : EventKey) (s : Simulator T) : Bool :=
  id.ts < s.currentTs || (id.ts = s.currentTs && id.uid ≤ s.currentUid) ||
    s.events.any fun e => e.key = id && e.cancelled

/-- A cancelled event stays in the list. -/
def cancel (s : Simulator T) (id : EventKey) : Simulator T :=
  if s.isExpired id then s
  else { s with events := s.events.map fun e =>
      if e.key = id then { e with cancelled := true } else e }

/-- The first half of `ProcessOneEvent`: the event that is next, and the clock at its time. -/
def removeNext (s : Simulator T) : Except Fault (Option (SimEvent T × Simulator T)) :=
  match s.events with
  | [] => .ok none
  | next :: events =>
      if next.key.ts < s.currentTs then .error (.assertFailed "next.key.m_ts >= m_currentTs")
      else .ok (some (next, ⟨next.key.ts, next.key.uid, s.uid, events⟩))

/-- The tasks still to run. -/
def live (events : List (SimEvent T)) : List (EventKey × T) :=
  events.filterMap fun e => if e.cancelled then none else e.task.map (e.key, ·)

/-- The key of the event that runs or has run last. -/
def current (s : Simulator T) : EventKey := ⟨s.currentTs, s.currentUid⟩

/-- The events are in order, after the current one, and none has a number that is yet to come. -/
structure Sound (s : Simulator T) : Prop where
  sorted : s.events.Pairwise fun a b => a.key.before b.key
  later : ∀ e ∈ s.events, s.current.before e.key
  numbered : ∀ e ∈ s.events, e.key.uid < s.uid
  current : s.currentUid < s.uid

/-- The keys are in the order that they have in the source. -/
def OrderedNarrowly (s : Simulator T) : Prop :=
  ∀ a ∈ s.current :: s.events.map SimEvent.key, ∀ b ∈ s.current :: s.events.map SimEvent.key,
    a.before b ↔ a.narrowBefore b

theorem Sound.orderedNarrowly {s : Simulator T} (hs : s.Sound) (hunwrapped : s.Unwrapped) :
    s.OrderedNarrowly := by
  have hbelow : ∀ a ∈ s.current :: s.events.map SimEvent.key, a.uid < EventKey.uidEnd := by
    rw [List.forall_mem_cons]
    exact ⟨hs.current.trans_le hunwrapped, List.forall_mem_map.mpr fun e he =>
      (hs.numbered e he).trans_le hunwrapped⟩
  exact fun a ha b hb => EventKey.before_iff_narrowBefore (hbelow a ha) (hbelow b hb)

theorem new_sound : (new : Simulator T).Sound where
  sorted := .nil
  later _ he := (List.not_mem_nil he).elim
  numbered _ he := (List.not_mem_nil he).elim
  current := show 0 < 4 by decide

theorem live_cons (e : SimEvent T) (events : List (SimEvent T)) :
    live (e :: events) = live [e] ++ live events := by
  simp [live, List.filterMap_cons]
  split <;> simp

theorem mem_live {events : List (SimEvent T)} {id : EventKey} {task : T} :
    (id, task) ∈ live events ↔ ⟨id, some task, false⟩ ∈ events := by
  simp only [live, List.mem_filterMap]
  constructor
  · rintro ⟨⟨key, task', cancelled⟩, he, heq⟩
    cases cancelled <;> cases task' <;> simp at heq
    obtain ⟨rfl, rfl⟩ := heq
    exact he
  · intro he
    exact ⟨_, he, by simp⟩

/-- Nothing is left to run in an event that was cancelled or runs no task. -/
theorem live_of_not {next : SimEvent T}
    (hnot : ∀ task, next.cancelled = false → next.task = some task → False) :
    live [next] = [] := by
  refine List.eq_nil_iff_forall_not_mem.mpr fun x hx => ?_
  obtain ⟨id, task⟩ := x
  obtain rfl := List.mem_singleton.mp (mem_live.mp hx)
  exact hnot task rfl rfl

theorem insert_perm (e : SimEvent T) (events : List (SimEvent T)) :
    (insert e events).Perm (e :: events) := by
  induction events with
  | nil => rfl
  | cons next events ih =>
    rw [insert]
    split_ifs
    · rfl
    · exact (ih.cons next).trans (.swap e next events)

theorem insert_sorted {e : SimEvent T} {events : List (SimEvent T)}
    (hsorted : events.Pairwise fun a b => a.key.before b.key)
    (hlast : ∀ x ∈ events, x.key.uid < e.key.uid) :
    (insert e events).Pairwise fun a b => a.key.before b.key := by
  induction events with
  | nil => exact List.pairwise_singleton _ e
  | cons next events ih =>
    obtain ⟨hnext, hsorted'⟩ := List.pairwise_cons.mp hsorted
    rw [List.forall_mem_cons] at hlast
    rw [insert]
    split_ifs with hbefore
    · refine .cons ?_ hsorted
      rw [List.forall_mem_cons]
      exact ⟨hbefore, fun x hx => EventKey.before_trans hbefore (hnext x hx)⟩
    · refine .cons (fun x hx => ?_) (ih hsorted' hlast.2)
      rcases List.mem_cons.mp ((insert_perm e events).mem_iff.mp hx) with rfl | hx
      · exact EventKey.before_of_uid hlast.1 hbefore
      · exact hnext x hx

section Calls

variable {s s' : Simulator T}

/-- What scheduling leads to. -/
structure Scheduled (s : Simulator T) (delay : ℤ) (task : Option T) (id : EventKey)
    (s' : Simulator T) : Prop where
  sound : s'.Sound
  id_eq : id = ⟨s.currentTs + delay, s.uid⟩
  current_eq : s'.current = s.current
  uid_eq : s'.uid = s.uid + 1
  live_perm : (live s'.events).Perm (live [⟨id, task, false⟩] ++ live s.events)

theorem schedule_ok (hs : s.Sound) {delay : ℤ} {task : Option T} {id : EventKey}
    (hok : s.schedule delay task = .ok (id, s')) : Scheduled s delay task id s' := by
  unfold schedule at hok
  split_ifs at hok with hdelay
  obtain ⟨rfl, rfl⟩ := Prod.mk.inj (Except.ok.inj hok)
  have hmem : ∀ {e}, e ∈ insert ⟨⟨s.currentTs + delay, s.uid⟩, task, false⟩ s.events →
      e = ⟨⟨s.currentTs + delay, s.uid⟩, task, false⟩ ∨ e ∈ s.events := fun he =>
    List.mem_cons.mp ((insert_perm _ _).mem_iff.mp he)
  refine ⟨⟨insert_sorted hs.sorted hs.numbered, ?_, ?_, ?_⟩, rfl, rfl, rfl, ?_⟩
  · intro e he
    rcases hmem he with rfl | he
    · have hcurrent := hs.current
      simp only [EventKey.before, current]
      omega
    · exact hs.later e he
  · intro e he
    rcases hmem he with rfl | he
    · exact Nat.lt_succ_self _
    · exact Nat.lt_succ_of_lt (hs.numbered e he)
  · exact Nat.lt_succ_of_lt hs.current
  · rw [← live_cons]
    exact (insert_perm _ _).filterMap _

theorem removeNext_nil (hevents : s.events = []) : s.removeNext = .ok none := by
  rw [removeNext, hevents]

/-- The next event is the first of the list, and no assertion fails. -/
theorem removeNext_cons (hs : s.Sound) {next : SimEvent T} {events : List (SimEvent T)}
    (hevents : s.events = next :: events) :
    s.removeNext = .ok (some (next, ⟨next.key.ts, next.key.uid, s.uid, events⟩)) ∧
      (⟨next.key.ts, next.key.uid, s.uid, events⟩ : Simulator T).Sound := by
  have hnext : next ∈ s.events := hevents ▸ List.mem_cons_self
  have hrest : ∀ e ∈ events, e ∈ s.events := fun e he => hevents ▸ List.mem_cons_of_mem _ he
  have hlater := hs.later next hnext
  have hsorted := hs.sorted
  rw [hevents] at hsorted
  obtain ⟨hfirst, hsorted⟩ := List.pairwise_cons.mp hsorted
  constructor
  · simp only [removeNext, hevents]
    rw [if_neg]
    simp only [EventKey.before, current] at hlater
    omega
  · exact ⟨hsorted, hfirst, fun e he => hs.numbered e (hrest e he), hs.numbered next hnext⟩

theorem eq_of_key (hs : s.Sound) {a b : SimEvent T} (ha : a ∈ s.events) (hb : b ∈ s.events)
    (hkey : a.key = b.key) : a = b := by
  have hapart : s.events.Pairwise fun a b => a.key ≠ b.key := by
    refine hs.sorted.imp fun hbefore heq => ?_
    simp only [heq, EventKey.before] at hbefore
    omega
  have : Std.Symm fun a b : SimEvent T => a.key ≠ b.key := ⟨fun _ _ => Ne.symm⟩
  by_contra hne
  exact hapart.forall ha hb hne hkey

/-- A cancelled event keeps its place. -/
theorem cancel_sound (hs : s.Sound) (id : EventKey) : (s.cancel id).Sound := by
  have hkey : ∀ e : SimEvent T, (if e.key = id then { e with cancelled := true } else e).key =
      e.key := fun e => by split_ifs <;> rfl
  unfold cancel
  split_ifs
  · exact hs
  · refine ⟨?_, ?_, ?_, hs.current⟩
    · refine List.pairwise_map.mpr (hs.sorted.imp fun hab => ?_)
      rwa [hkey, hkey]
    · exact List.forall_mem_map.mpr fun e he => (hkey e).symm ▸ hs.later e he
    · exact List.forall_mem_map.mpr fun e he => (hkey e).symm ▸ hs.numbered e he

theorem mem_live_cancel (hs : s.Sound) (id : EventKey) {x : EventKey × T} :
    x ∈ live (s.cancel id).events ↔ x ∈ live s.events ∧ x.1 ≠ id := by
  obtain ⟨key, task⟩ := x
  unfold cancel
  split_ifs with hexpired
  · -- an event still to run that has expired is one that was cancelled
    refine ⟨fun hx => ⟨hx, ?_⟩, And.left⟩
    rintro rfl
    have he := mem_live.mp hx
    have hlater := hs.later _ he
    simp only [isExpired, Bool.or_eq_true, Bool.and_eq_true, decide_eq_true_eq,
      List.any_eq_true] at hexpired
    simp only [EventKey.before, current] at hlater
    rcases hexpired with hpast | ⟨e, he', hkey, hcancelled⟩
    · omega
    · have hsame : e = ⟨key, some task, false⟩ :=
        eq_of_key hs he' he hkey
      simp [hsame] at hcancelled
  · rw [mem_live, List.mem_map]
    constructor
    · rintro ⟨e, he, heq⟩
      split_ifs at heq with hkey
      · simp at heq
      · subst heq
        exact ⟨mem_live.mpr he, hkey⟩
    · rintro ⟨hx, hne⟩
      exact ⟨_, mem_live.mp hx, if_neg hne⟩

theorem live_cancel {id : EventKey} (hnot : ∀ x ∈ live s.events, x.1 ≠ id) :
    live (s.cancel id).events = live s.events := by
  unfold cancel
  split_ifs
  · rfl
  · simp only [live, List.filterMap_map]
    refine List.filterMap_congr fun e he => ?_
    obtain ⟨key, task, cancelled⟩ := e
    by_cases hkey : key = id
    · cases task with
      | none => cases cancelled <;> simp [hkey]
      | some task =>
        cases cancelled with
        | true => simp [hkey]
        | false => exact absurd hkey (hnot _ (mem_live.mpr he))
    · simp [hkey]

theorem cancel_clock (id : EventKey) :
    (s.cancel id).current = s.current ∧ (s.cancel id).uid = s.uid := by
  unfold cancel
  split_ifs <;> exact ⟨rfl, rfl⟩

/-- Of the events still to run those are left that are not among the cancelled ones. -/
theorem cancelAll (hs : s.Sound) (ids : List EventKey) :
    (ids.foldl cancel s).Sound ∧ ((ids.foldl cancel s).current = s.current ∧
      (ids.foldl cancel s).uid = s.uid) ∧
      ∀ x, x ∈ live (ids.foldl cancel s).events ↔ x ∈ live s.events ∧ x.1 ∉ ids := by
  induction ids generalizing s with
  | nil => exact ⟨hs, ⟨rfl, rfl⟩, fun x => by simp⟩
  | cons id ids ih =>
    obtain ⟨hsound, ⟨hcurrent, huid⟩, hlive⟩ := ih (cancel_sound hs id)
    obtain ⟨hcurrent', huid'⟩ := @cancel_clock _ s id
    refine ⟨hsound, ⟨hcurrent.trans hcurrent', huid.trans huid'⟩, fun x => ?_⟩
    rw [List.foldl_cons, hlive x, mem_live_cancel hs, List.mem_cons]
    tauto

end Calls

end Simulator

/-- The state of `Async`: the simulator, `ns3_events` and `purged`. -/
structure Async (T : Type*) where
  sim : Simulator T
  ns3Events : List EventKey
  purged : Bool

namespace Async

variable {T : Type*}

def new : Async T := ⟨.new, [], false⟩

def schedule (task : T) (delay : ℤ) (a : Async T) : Except Fault (Async T) :=
  if a.purged then .ok a
  else (a.sim.schedule delay (some task)).map fun out =>
    { a with sim := out.2, ns3Events := a.ns3Events ++ [out.1] }

def purge (a : Async T) : Async T := ⟨a.ns3Events.foldl .cancel a.sim, [], true⟩

/-- The tasks with their delays, one after the other. -/
def scheduleAll : List (ℤ × T) → Async T → Except Fault (Async T)
  | [], a => .ok a
  | new :: news, a => a.schedule new.2 new.1 >>= scheduleAll news

/-- `Ns3AsyncProxy::operator()` after the task is done. -/
def done (id : EventKey) (a : Async T) : Async T := { a with ns3Events := a.ns3Events.erase id }

open Simulator (live)

/-- `ns3_events` are the tasks still to run, and those that are running. -/
structure Sound (running : List EventKey) (a : Async T) : Prop where
  sim : a.sim.Sound
  ids : a.ns3Events.Perm (running ++ (live a.sim.events).map Prod.fst)
  purged : a.purged = true → live a.sim.events = []

theorem new_sound : (new : Async T).Sound [] where
  sim := Simulator.new_sound
  ids := .rfl
  purged _ := rfl

/-- The tasks as the events that are made of them. -/
def asked (now : ℤ) : ℕ → List (ℤ × T) → List (EventKey × T)
  | _, [] => []
  | uid, new :: news => (⟨now + new.1, uid⟩, new.2) :: asked now (uid + 1) news

theorem asked_uid {now : ℤ} {uid : ℕ} {news : List (ℤ × T)} {x : EventKey × T}
    (hx : x ∈ asked now uid news) : uid ≤ x.1.uid ∧ x.1.uid < uid + news.length := by
  induction news generalizing uid with
  | nil => cases hx
  | cons new news ih =>
    rw [List.length_cons]
    rcases List.mem_cons.mp hx with rfl | hx
    · dsimp only
      omega
    · obtain ⟨hle, hlt⟩ := ih hx
      omega

theorem asked_sorted (now : ℤ) (uid : ℕ) (news : List (ℤ × T)) :
    (asked now uid news).Pairwise fun x y => x.1.uid < y.1.uid := by
  induction news generalizing uid with
  | nil => exact .nil
  | cons new news ih => exact .cons (fun x hx => (asked_uid hx).1) (ih (uid + 1))

section Calls

variable {running : List EventKey} {a a' : Async T}

/-- What the scheduling of tasks leads to. -/
structure Grown (running : List EventKey) (a : Async T) (news : List (EventKey × T))
    (a' : Async T) : Prop where
  sound : a'.Sound running
  purged_eq : a'.purged = false
  current_eq : a'.sim.current = a.sim.current
  uid_le : a.sim.uid ≤ a'.sim.uid
  news_lt : ∀ x ∈ news, x.1.uid < a'.sim.uid
  live_perm : (live a'.sim.events).Perm (live a.sim.events ++ news)

theorem schedule_grown (ha : a.Sound running) (hpurged : a.purged = false) {task : T} {delay : ℤ}
    (hok : a.schedule task delay = .ok a') :
    Grown running a [(⟨a.sim.currentTs + delay, a.sim.uid⟩, task)] a' ∧
      a'.sim.uid = a.sim.uid + 1 := by
  rw [schedule, hpurged] at hok
  obtain ⟨⟨id, sim⟩, hsim, rfl⟩ := TransitionRuns.map_eq_ok hok
  have hs := Simulator.schedule_ok ha.sim hsim
  have hlive : (live sim.events).Perm (live a.sim.events ++ [(id, task)]) :=
    hs.live_perm.trans List.perm_append_comm
  have hid := hs.id_eq
  subst hid
  refine ⟨⟨⟨hs.sound, ?_, by simp⟩, rfl, hs.current_eq, hs.uid_eq ▸ Nat.le_succ _, ?_, hlive⟩,
    hs.uid_eq⟩
  · refine (ha.ids.append_right _).trans ?_
    rw [List.append_assoc]
    refine List.Perm.append_left running ?_
    simpa using (hlive.map Prod.fst).symm
  · simp [hs.uid_eq]

theorem scheduleAll_grown (ha : a.Sound running) (hpurged : a.purged = false)
    {news : List (ℤ × T)} (hok : a.scheduleAll news = .ok a') :
    Grown running a (asked a.sim.currentTs a.sim.uid news) a' := by
  induction news generalizing a with
  | nil =>
    obtain rfl := Except.ok.inj hok
    exact ⟨ha, hpurged, rfl, le_rfl, fun x hx => (List.not_mem_nil hx).elim, by simp [asked]⟩
  | cons new news ih =>
    cases hfirst : a.schedule new.2 new.1 with
    | error e =>
      rw [scheduleAll, hfirst] at hok
      cases hok
    | ok a₁ =>
      rw [scheduleAll, hfirst] at hok
      obtain ⟨hg, huid⟩ := schedule_grown ha hpurged hfirst
      have hrest := ih hg.sound hg.purged_eq hok
      have hts : a₁.sim.currentTs = a.sim.currentTs := congrArg EventKey.ts hg.current_eq
      rw [hts, huid] at hrest
      refine ⟨hrest.sound, hrest.purged_eq, hrest.current_eq.trans hg.current_eq,
        hg.uid_le.trans hrest.uid_le, ?_, ?_⟩
      · rw [asked, List.forall_mem_cons]
        exact ⟨(hg.news_lt _ List.mem_cons_self).trans_le hrest.uid_le, hrest.news_lt⟩
      · refine hrest.live_perm.trans ((hg.live_perm.append_right _).trans ?_)
        rw [List.append_assoc]
        rfl

theorem scheduleAll_purged (hpurged : a.purged = true) (news : List (ℤ × T)) :
    a.scheduleAll news = .ok a := by
  induction news with
  | nil => rfl
  | cons new news ih =>
    rw [scheduleAll, schedule, if_pos hpurged]
    exact ih

/-- No task is left. -/
theorem purge_live (ha : a.Sound []) : live a.purge.sim.events = [] := by
  obtain ⟨-, -, hlive⟩ := Simulator.cancelAll ha.sim a.ns3Events
  refine List.eq_nil_iff_forall_not_mem.mpr fun x hx => ?_
  obtain ⟨hmem, hnot⟩ := (hlive x).mp hx
  exact hnot (ha.ids.mem_iff.mpr (List.mem_map_of_mem hmem))

theorem purge_sound (ha : a.Sound []) : a.purge.Sound [] where
  sim := (Simulator.cancelAll ha.sim a.ns3Events).1
  ids := by
    rw [purge_live ha]
    rfl
  purged _ := purge_live ha

theorem done_sound {id : EventKey} (ha : a.Sound [id]) : (a.done id).Sound [] where
  sim := ha.sim
  ids := by
    have herase := ha.ids.erase id
    simpa [done] using herase
  purged := ha.purged

end Calls

end Async

/-- A component whose tasks the simulator runs, with the `start_time` of its clock. -/
structure EventLoop (S T : Type*) where
  startTime : TimePoint
  state : S
  async : Async T

namespace EventLoop

/-- What happens to the loop: a call from within an event of the simulator's own, or before the
first one; the scheduling of such an event; the next turn of `Run`; the end. -/
inductive Act (C V : Type*)
  | call (c : C)
  | other (delay : ℤ)
  | process (v : V)
  | purge

variable {S T C V : Type*}

/-- `system_clock::now` -/
def now (l : EventLoop S T) : TimePoint := l.startTime + l.async.sim.currentTs

/-- A call of the component, and the tasks it schedules by their due times. -/
def callWith (perform : ℤ → S → C → Except Fault (S × List (ℤ × T))) (c : C)
    (l : EventLoop S T) : Except Fault (EventLoop S T) :=
  match perform l.now l.state c with
  | .error e => .error e
  | .ok (state, news) =>
      (l.async.scheduleAll (news.map fun new => (new.1 - l.now, new.2))).map fun async =>
        { l with state, async }

def step (perform : ℤ → S → C → Except Fault (S × List (ℤ × T))) (body : V → T → C)
    (l : EventLoop S T) : Act C V → Except Fault (EventLoop S T)
  | .call c => l.callWith perform c
  | .other delay => (l.async.sim.schedule delay none).map fun out =>
      { l with async := { l.async with sim := out.2 } }
  | .process v =>
      match l.async.sim.removeNext with
      | .error e => .error e
      | .ok none => .ok l
      | .ok (some (next, sim)) =>
          let l : EventLoop S T := { l with async := { l.async with sim } }
          match next.cancelled, next.task with
          | false, some task => (l.callWith perform (body v task)).map fun l =>
              { l with async := l.async.done next.key }
          | _, _ => .ok l
  | .purge => .ok { l with async := l.async.purge }

def start (startTime : TimePoint) (state : S) : EventLoop S T := ⟨startTime, state, .new⟩

/-- A component that is built before the first event, and what its constructor schedules. -/
def launch (startTime : TimePoint) (state : S) (news : List (ℤ × T)) :
    Except Fault (EventLoop S T) :=
  (start startTime state).callWith (fun _ _ () => .ok (state, news)) ()

end EventLoop

end YingSma
