import YingSma.EntryTable
import YingSma.NeighborHelper
import YingSma.TaskSchedule

/-! The clock side of `NeighborHelperImpl`: when a neighbour was last seen, the tasks that are
scheduled for beacons and for the refresh of the table, and who is listed as a neighbour. -/
namespace YingSma.NeighborTimers
open EntryTable TaskSchedule TransitionRuns

/-- The last four positions are kept. The velocity, which is computed from them in floating point
and read by nobody here, is left out. -/
structure NeighborRecord where
  positions : List (TimePoint × Vec2d)
  firstSeen : TimePoint
  lastSeen : TimePoint
  timesPinged : ℕ

namespace NeighborRecord

def saw (now : TimePoint) (position : Vec2d) (r : NeighborRecord) : NeighborRecord :=
  let positions := r.positions ++ [(now, position)]
  { r with lastSeen := now, positions := positions.drop (positions.length - 4), timesPinged := 0 }

def new (now : TimePoint) (position : Vec2d) : NeighborRecord :=
  saw now position ⟨[], now, now, 0⟩

/-- `position()`, the last of the positions. -/
def position (r : NeighborRecord) : Vec2d := (r.positions.getLastD (0, ⟨0, 0⟩)).2

def olderThan (now : TimePoint) (ageMs : ℤ) (r : NeighborRecord) : Bool :=
  (now - r.lastSeen).tdiv milli ≥ ageMs

end NeighborRecord

def initialRefreshMs : ℤ := 5000

/-- `query_response_delay` -/
def queryResponseDelayMs : ℤ := 100

/-- The member functions `asynctask` is given. -/
inductive Task
  | beacon
  | refreshNeighbors
  deriving DecidableEq

/-- The table, and what has been posted and signaled so far. -/
structure NeighborHelperImpl where
  neighbors : List (NodeId × NeighborRecord)
  posted : List Beacon
  departed : List NodeId

namespace NeighborHelperImpl

/-- The ids of the neighbours `get` lists. -/
def get (h : NeighborHelperImpl) : List NodeId := h.neighbors.map Prod.fst

/-- The table without the times. -/
def known (h : NeighborHelperImpl) : NeighborHelper :=
  ⟨h.neighbors.map fun entry => (entry.1, entry.2.position)⟩

def saw (now : TimePoint) (node : NodeId) (position : Vec2d) (h : NeighborHelperImpl) : NeighborHelperImpl :=
  { h with
    neighbors :=
      match h.neighbors.lookup node with
      | none => (node, .new now position) :: h.neighbors
      | some _ => h.neighbors.map fun entry =>
          if entry.1 = node then (entry.1, entry.2.saw now position) else entry }

def receive (now : TimePoint) (position : Vec2d) (header : MessageHeader) (msg : Beacon)
    (h : NeighborHelperImpl) : NeighborHelperImpl :=
  let h := h.saw now header.sender msg.position
  if !msg.isResponse then { h with posted := h.posted ++ [⟨position, true⟩] } else h

/-- The task of `schedule_beacon`, with what `rand()` returns. -/
def scheduleBeacon (now : TimePoint) (delayMs rand : ℕ) : ℤ × Task :=
  (now + (delayMs / 2 + rand % delayMs : ℕ) * milli, .beacon)

def beacon (now : TimePoint) (position : Vec2d) (rand : ℕ) (h : NeighborHelperImpl) :
    NeighborHelperImpl × List (ℤ × Task) :=
  ({ h with posted := h.posted ++ [⟨position, false⟩] }, [scheduleBeacon now 2000 rand])

/-- The loop of `refresh_neighbors`: what is left of the table, whether a neighbour is to be
polled, and who is dropped. -/
def sweep (now : TimePoint) :
    List (NodeId × NeighborRecord) → List (NodeId × NeighborRecord) × Bool × List NodeId
  | [] => ([], false, [])
  | (id, r) :: rest =>
      let out := sweep now rest
      if r.olderThan now initialRefreshMs then
        if r.timesPinged < 3 then ((id, { r with timesPinged := r.timesPinged + 1 }) :: out.1, true, out.2.2)
        else (out.1, out.2.1, id :: out.2.2)
      else ((id, r) :: out.1, out.2)

def scheduleRefresh (now : TimePoint) (delayMs : ℤ) : ℤ × Task :=
  (now + delayMs * milli, .refreshNeighbors)

def refreshNeighbors (now : TimePoint) (position : Vec2d) (rand : ℕ) (h : NeighborHelperImpl) :
    NeighborHelperImpl × List (ℤ × Task) :=
  if h.neighbors = [] then (h, [])
  else
    let out := sweep now h.neighbors
    let h := { h with neighbors := out.1, departed := h.departed ++ out.2.2 }
    if out.2.1 then
      let sent := h.beacon now position rand
      (sent.1, sent.2 ++ [scheduleRefresh now queryResponseDelayMs])
    else (h, [])

/-- A beacon that is received, and the tasks. -/
inductive Call
  | receive (position : Vec2d) (header : MessageHeader) (msg : Beacon)
  | run (position : Vec2d) (rand : ℕ) (task : Task)

/-- A beacon always fits its message buffer, and so no call fails. -/
def perform (now : TimePoint) (h : NeighborHelperImpl) : Call → Except Fault (NeighborHelperImpl × List (ℤ × Task))
  | .receive position header msg => .ok (h.receive now position header msg, [])
  | .run position rand .beacon => .ok (h.beacon now position rand)
  | .run position rand .refreshNeighbors => .ok (h.refreshNeighbors now position rand)

end NeighborHelperImpl

open NeighborHelperImpl

/-- The constructor schedules the first beacon. -/
def launched (start : TimePoint) (rand : ℕ) : Timed NeighborHelperImpl Task :=
  ⟨start, ⟨[], [], []⟩, [scheduleBeacon start 100 rand]⟩

/-- What a run is made of: beacons that are received, time, and tasks that run when they are due. -/
inductive Event
  | receive (position : Vec2d) (header : MessageHeader) (msg : Beacon)
  | advance (t : TimePoint)
  | fire (position : Vec2d) (rand : ℕ) (task : Task)

def Event.timed : Event → TaskSchedule.Event Call (Vec2d × ℕ) Task
  | .receive position header msg => .call (.receive position header msg)
  | .advance t => .advance t
  | .fire position rand task => .fire (position, rand) task

def step (s : Timed NeighborHelperImpl Task) (event : Event) : Except Fault (Timed NeighborHelperImpl Task) :=
  TaskSchedule.step perform (fun v task => .run v.1 v.2 task) s event.timed

/-- When a beacon of each node was last received. -/
def noteHeard (heard : NodeId → Option TimePoint) (s : Timed NeighborHelperImpl Task) (event : Event)
    (_ : Timed NeighborHelperImpl Task) : NodeId → Option TimePoint :=
  match event with
  | .receive _ header _ => Function.update heard header.sender (some s.now)
  | _ => heard

/-- A beacon of the node was received at most that long ago. -/
def HeardWithin (ms : ℤ) (r : (NodeId → Option TimePoint) × Timed NeighborHelperImpl Task)
    (node : NodeId) : Prop :=
  ∃ t, r.1 node = some t ∧ r.2.now - t ≤ ms * milli

/-- The time a silent neighbour is given, with its polls. -/
def silenceMs : ℤ := initialRefreshMs + 4 * queryResponseDelayMs + initialRefreshMs

/-- Who has been silent for too long is not listed, and who has just been heard is. -/
structure UpToDate (r : (NodeId → Option TimePoint) × Timed NeighborHelperImpl Task) : Prop where
  silent : ∀ node, ¬ HeardWithin silenceMs r node → node ∉ r.2.state.get
  recent : ∀ node, HeardWithin initialRefreshMs r node → node ∈ r.2.state.get

/-- Nobody who was ever heard has been silent for too long. -/
def NobodySilent (r : (NodeId → Option TimePoint) × Timed NeighborHelperImpl Task) : Prop :=
  ∀ node, (r.1 node).isSome → HeardWithin silenceMs r node

/-- No refresh is ever due, and everyone who was ever heard is listed. -/
structure Unrefreshed (r : (NodeId → Option TimePoint) × Timed NeighborHelperImpl Task) : Prop where
  tasks : ∀ task ∈ r.2.tasks, task.2 = .beacon
  listed : ∀ node, node ∈ r.2.state.get ↔ (r.1 node).isSome

section Tables

theorem saw_position (now : TimePoint) (position : Vec2d) (r : NeighborRecord) :
    (r.saw now position).position = position := by
  have hsplit : (r.positions ++ [(now, position)]).drop
      ((r.positions ++ [(now, position)]).length - 4) =
        r.positions.drop ((r.positions ++ [(now, position)]).length - 4) ++ [(now, position)] := by
    rw [List.drop_append_of_le_length]
    rw [List.length_append, List.length_singleton]
    omega
  simp only [NeighborRecord.position, NeighborRecord.saw, hsplit, List.getLastD_concat]

/-- A beacon does to the table what it does without the times. -/
theorem receive_known (now : TimePoint) (position : Vec2d) (header : MessageHeader) (msg : Beacon)
    (h : NeighborHelperImpl) :
    (h.receive now position header msg).known = (h.known.receive position header msg).1 := by
  have hany : (h.neighbors.map fun entry => (entry.1, entry.2.position)).any
      (fun pair => pair.1 = header.sender) = (h.neighbors.lookup header.sender).isSome := by
    induction h.neighbors with
    | nil => rfl
    | cons entry entries ih =>
      rw [List.map_cons, List.any_cons, ih]
      by_cases hsender : header.sender = entry.1
      · simp [hsender]
      · rw [lookup_cons_ne entries hsender]
        simp [Ne.symm hsender]
  have hsaw : (h.saw now header.sender msg.position).known =
      h.known.saw header.sender msg.position := by
    unfold saw known NeighborHelper.saw
    rw [hany]
    cases h.neighbors.lookup header.sender with
    | none => simp [NeighborRecord.new, saw_position]
    | some r =>
      simp only [Option.isSome_some, if_true, List.map_map]
      congr 1
      apply List.map_congr_left
      intro entry _
      simp only [Function.comp_apply]
      split_ifs with hsender
      · rw [saw_position, hsender]
      · rfl
  unfold receive NeighborHelper.receive
  rw [← hsaw]
  cases msg.isResponse <;> rfl

end Tables

section Steps

variable {r r' : (NodeId → Option TimePoint) × Timed NeighborHelperImpl Task}

theorem saw_get (now : TimePoint) (node : NodeId) (position : Vec2d) (h : NeighborHelperImpl)
    (other : NodeId) : other ∈ (h.saw now node position).get ↔ other = node ∨ other ∈ h.get := by
  unfold saw NeighborHelperImpl.get
  cases hlookup : h.neighbors.lookup node with
  | none => simp
  | some r =>
    dsimp only
    rw [keys_update]
    have hmem : node ∈ h.neighbors.map Prod.fst :=
      List.mem_map_of_mem (f := Prod.fst) (mem_of_lookup hlookup)
    constructor
    · exact .inr
    · rintro (rfl | hother)
      · exact hmem
      · exact hother

theorem receive_get (now : TimePoint) (position : Vec2d) (header : MessageHeader) (msg : Beacon)
    (h : NeighborHelperImpl) (other : NodeId) :
    other ∈ (h.receive now position header msg).get ↔ other = header.sender ∨ other ∈ h.get := by
  rw [← saw_get now header.sender msg.position h other]
  unfold receive
  cases msg.isResponse <;> rfl

theorem launched_unrefreshed (start : TimePoint) (rand : ℕ) :
    Unrefreshed (fun _ => none, launched start rand) where
  tasks task htask := by
    rw [List.mem_singleton.mp htask]
    rfl
  listed node := by simp [launched, NeighborHelperImpl.get]

/-- Only a refresh schedules a refresh, and the first one is missing. -/
theorem step_unrefreshed {event : Event} (hr : Unrefreshed r)
    (hs : noted step noteHeard r event = .ok r') : Unrefreshed r' := by
  obtain ⟨heard, s⟩ := r
  obtain ⟨heard', s'⟩ := r'
  obtain ⟨hstep, hnote⟩ := noted_ok hs
  dsimp only at hstep hnote
  subst hnote
  cases event with
  | receive position header msg =>
    obtain rfl := Except.ok.inj hstep
    refine ⟨?_, fun node => ?_⟩
    · simpa [Event.timed] using hr.tasks
    · simp only [noteHeard]
      rw [receive_get, hr.listed]
      by_cases hnode : node = header.sender
      · subst hnode
        simp
      · simp [hnode]
  | advance t =>
    simp only [step, Event.timed, TaskSchedule.step] at hstep
    split_ifs at hstep <;> obtain rfl := Except.ok.inj hstep <;> exact ⟨hr.tasks, hr.listed⟩
  | fire position rand task =>
    simp only [step, Event.timed, TaskSchedule.step] at hstep
    split_ifs at hstep with hmem
    · obtain rfl := hr.tasks _ hmem
      obtain rfl := Except.ok.inj hstep
      refine ⟨fun task htask => ?_, hr.listed⟩
      rcases List.mem_append.mp htask with hold | hnew
      · exact hr.tasks task (List.mem_of_mem_erase hold)
      · rw [List.mem_singleton.mp hnew]
        rfl
    · obtain rfl := Except.ok.inj hstep
      exact hr

theorem upToDate_iff (hr : Unrefreshed r) : UpToDate r ↔ NobodySilent r := by
  constructor
  · intro hup node hheard
    by_contra hsilent
    exact hup.silent node hsilent ((hr.listed node).mpr hheard)
  · intro hnone
    refine ⟨fun node hsilent hlisted => hsilent (hnone node ((hr.listed node).mp hlisted)), ?_⟩
    rintro node ⟨t, ht, -⟩
    exact (hr.listed node).mpr (by rw [ht]; rfl)

end Steps

/-- The table is up to date throughout a run exactly if nobody who was ever heard falls silent. -/
theorem up_to_date_iff (start : TimePoint) (rand : ℕ) (events : List Event) :
    Always (noted step noteHeard) UpToDate (fun _ => none, launched start rand) events ↔
      Always (noted step noteHeard) NobodySilent (fun _ => none, launched start rand) events :=
  always_congr Unrefreshed (fun _ _ _ hr hs => step_unrefreshed hr hs)
    (fun _ hr => upToDate_iff hr) (launched_unrefreshed start rand)

/-- One beacon from node 2, and then only the own beacons of the next twelve seconds. -/
def heardOnce : List Event :=
  [.receive ⟨0, 0⟩ ⟨⟨2⟩, []⟩ ⟨⟨0, 0⟩, false⟩, .advance (50 * milli), .fire ⟨0, 0⟩ 1999 .beacon,
    .advance (3049 * milli), .fire ⟨0, 0⟩ 1999 .beacon, .advance (6048 * milli),
    .fire ⟨0, 0⟩ 1999 .beacon, .advance (9047 * milli), .fire ⟨0, 0⟩ 1999 .beacon,
    .advance (12046 * milli)]

/-- Node 2 is still listed. -/
theorem silent_still_listed :
    ¬ Always (noted step noteHeard) UpToDate (fun _ => none, launched 0 0) heardOnce := by
  intro halways
  have hend : (run (noted step noteHeard) (fun _ => none, launched 0 0) heardOnce).map
      (fun r => (r.1 ⟨2⟩, r.2.now, r.2.state.get)) = .ok (some 0, 12046 * milli, [⟨2⟩]) := by
    decide +kernel
  obtain ⟨r, hrun, hr⟩ := map_eq_ok hend
  obtain ⟨hheard, hnow, hget⟩ : r.1 ⟨2⟩ = some 0 ∧ r.2.now = 12046 * milli ∧ r.2.state.get = [⟨2⟩] := by
    simpa using hr
  apply (halways.last hrun).silent ⟨2⟩
  · rintro ⟨t, ht, hle⟩
    obtain rfl := Option.some.inj (hheard.symm.trans ht)
    rw [hnow] at hle
    revert hle
    decide
  · rw [hget]
    exact List.mem_singleton_self _

end YingSma.NeighborTimers
