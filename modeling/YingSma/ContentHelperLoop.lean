import YingSma.AsyncEventRuns
import YingSma.ContentHelperSweeps

/-! The pending requests of a content helper whose tasks the simulator runs: none is there longer
than it may be. -/
namespace YingSma.ContentHelper
open TransitionRuns TaskSchedule

variable {hasher : List UInt8 → Hash}

/-- The loop of one helper. -/
def loopStep (hasher : List UInt8 → Hash) :
    EventLoop ContentHelper Task → EventLoop.Act (Surroundings × Op) Surroundings →
      Except Fault (EventLoop ContentHelper Task) :=
  EventLoop.step (timedCall hasher) fun env task => (env, taskOp task)

/-- The helper built when the clock shows `start`. -/
def loopStart (flags : Flags) (id : NodeId) (start : ℕ) :
    Except Fault (EventLoop ContentHelper Task) :=
  EventLoop.launch start (build flags id) (dueTasks start (build flags id).effects)

/-- No pending request is past its expiry, and a sweep is among the events for each. -/
structure Expiring (l : EventLoop ContentHelper Task) : Prop where
  unexpired : ∀ entry ∈ l.state.prt, l.now ≤ entry.2.expiry
  outstanding : ∀ entry ∈ l.state.prt, (entry.2.expiry, Task.checkPendingRequests) ∈ l.dues

/-- The sweep that runs is none of those that are outstanding for the entries it leaves. -/
theorem fire_inTime {s : Timed ContentHelper Task} {env : Surroundings} {task : Task}
    {h' : ContentHelper} {new : List (TimePoint × Task)} (hs : InTime s)
    (hcall : timedCall hasher s.now s.state (env, taskOp task) = .ok (h', new)) :
    InTime ⟨s.now, h', s.tasks.erase (s.now, task) ++ new⟩ := by
  refine ⟨hs.1, ?_⟩
  cases htask : task with
  | checkPendingRequests =>
    subst htask
    exact sweep_covers hs.2 hcall
  | _ =>
    subst htask
    refine timedCall_covers hs.1 ⟨hs.2.distinct, fun entry he => ?_⟩ hcall
    exact (List.mem_erase_of_ne (by simp)).mpr (hs.2.outstanding entry he)

theorem inTime_of_run {flags : Flags} {id : NodeId} {start : ℕ}
    {events : List (Event (Surroundings × Op) Surroundings Task)} {s : Timed ContentHelper Task}
    (hr : run (timedStep hasher) (launched flags id start) events = .ok s) : InTime s :=
  invariant_of_run InTime (fun _ _ hs hlater _ => ⟨hs.1.trans hlater, hs.2⟩)
    (fun _ _ _ _ hs hcall => ⟨hs.1, timedCall_covers hs.1 hs.2 hcall⟩)
    (fun _ _ _ _ _ hs _ hcall => fire_inTime hs hcall) (launched_inTime flags id start) hr

/-- No task in the loop is due before now. -/
theorem now_le_dues {l : EventLoop ContentHelper Task} (ha : l.async.Sound [])
    {due : TimePoint × Task} (hdue : due ∈ l.dues) : l.now ≤ due.1 := by
  obtain ⟨⟨id, task⟩, hlive, rfl⟩ := List.mem_map.mp hdue
  have hlater := EventLoop.live_later ha.sim hlive
  simp only [EventKey.before, Simulator.current] at hlater
  have hle : l.async.sim.currentTs ≤ id.ts := by omega
  exact Int.add_le_add_left hle l.startTime

/-- In every run on the simulator and until its end, a pending request is dropped when it expires
at the latest. -/
theorem pending_requests_expire (hasher : List UInt8 → Hash) (flags : Flags) (id : NodeId)
    (start : ℕ) {l : EventLoop ContentHelper Task} (hl : loopStart flags id start = .ok l)
    (acts : List (EventLoop.Act (Surroundings × Op) Surroundings)) :
    Always (loopStep hasher) (fun l => l.async.purged = false → Expiring l) l acts := by
  refine always_of_run fun l' past hr hpurged => ?_
  obtain ⟨hsound, hmatched⟩ := EventLoop.matched_of_run hl hr
  obtain ⟨events, s, hrun, hf⟩ := hmatched hpurged
  have hs : InTime s := inTime_of_run hrun
  have houtstanding : ∀ entry ∈ l'.state.prt,
      (entry.2.expiry, Task.checkPendingRequests) ∈ l'.dues := fun entry he =>
    hf.tasks.mem_iff.mp (hs.2.outstanding entry (hf.state ▸ he))
  exact ⟨fun entry he => now_le_dues hsound (houtstanding entry he), houtstanding⟩

def noWhere : Surroundings := ⟨5, ⟨0, 0⟩, fun _ => false⟩

def oneRequest : LocalRequestArgs := ⟨⟨⟨default, 0⟩, 0, 10, ⟨1⟩, ⟨0, 0⟩, 0⟩, true, false⟩

/-- With one block requested, and the first two events. -/
theorem pending_requests_expire_one : ∃ l, loopStart ⟨true, true, true, true⟩ ⟨1⟩ 5 = .ok l ∧
    Always (loopStep fun _ => default) (fun l => l.async.purged = false → Expiring l) l
      [.call (noWhere, .request [oneRequest]), .process noWhere, .process noWhere] :=
  ⟨_, rfl, pending_requests_expire (fun _ => default) ⟨true, true, true, true⟩ ⟨1⟩ 5 rfl _⟩

end YingSma.ContentHelper
