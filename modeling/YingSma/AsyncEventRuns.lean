import YingSma.AsyncEvents

/-! What the loop makes of the tasks: each is run once, when it is due, as `TaskSchedule` has it. -/
namespace YingSma.EventLoop
open TransitionRuns Simulator
open Async (asked)

variable {S T C V : Type*} {perform : ℤ → S → C → Except Fault (S × List (ℤ × T))}
  {body : V → T → C}

section Steps

variable {l l' : EventLoop S T} {running : List EventKey}

/-- What a call of the component leads to. -/
structure Called (perform : ℤ → S → C → Except Fault (S × List (ℤ × T)))
    (running : List EventKey) (l : EventLoop S T) (c : C) (news : List (ℤ × T))
    (l' : EventLoop S T) : Prop where
  performed : perform l.now l.state c = .ok (l'.state, news)
  startTime_eq : l'.startTime = l.startTime
  async : l.async.purged = true ∧ l'.async = l.async ∨
    l.async.purged = false ∧ Async.Grown running l.async
      (asked l.async.sim.currentTs l.async.sim.uid (news.map fun new => (new.1 - l.now, new.2)))
      l'.async

theorem callWith_called (ha : l.async.Sound running) {c : C}
    (hok : l.callWith perform c = .ok l') : ∃ news, Called perform running l c news l' := by
  unfold callWith at hok
  split at hok
  · cases hok
  · next state news hperform =>
    obtain ⟨async, hasync, rfl⟩ := map_eq_ok hok
    refine ⟨news, hperform, rfl, ?_⟩
    cases hpurged : l.async.purged with
    | true =>
      rw [Async.scheduleAll_purged hpurged] at hasync
      exact .inl ⟨rfl, (Except.ok.inj hasync).symm⟩
    | false => exact .inr ⟨rfl, Async.scheduleAll_grown ha hpurged hasync⟩

theorem Called.sound {c : C} {news : List (ℤ × T)} (hc : Called perform running l c news l')
    (ha : l.async.Sound running) : l'.async.Sound running := by
  rcases hc.async with ⟨-, hsame⟩ | ⟨-, hg⟩
  · rwa [hsame]
  · exact hg.sound

/-- What a turn of the loop leads to. -/
inductive Turn (perform : ℤ → S → C → Except Fault (S × List (ℤ × T))) (body : V → T → C)
    (v : V) (l l' : EventLoop S T) : Prop
  | idle (hevents : l.async.sim.events = []) (heq : l' = l)
  | skip (next : SimEvent T) (rest : List (SimEvent T))
      (hevents : l.async.sim.events = next :: rest) (hlive : live [next] = [])
      (heq : l' = { l with async := { l.async with
        sim := ⟨next.key.ts, next.key.uid, l.async.sim.uid, rest⟩ } })
  | task (id : EventKey) (task : T) (rest : List (SimEvent T)) (called : EventLoop S T)
      (news : List (ℤ × T)) (hevents : l.async.sim.events = ⟨id, some task, false⟩ :: rest)
      (hcalled : Called perform [id] { l with async := { l.async with
        sim := ⟨id.ts, id.uid, l.async.sim.uid, rest⟩ } } (body v task) news called)
      (heq : l' = { called with async := called.async.done id })

theorem running_sound {id : EventKey} {task : T} {rest : List (SimEvent T)}
    (ha : l.async.Sound []) (hevents : l.async.sim.events = ⟨id, some task, false⟩ :: rest) :
    ({ l.async with sim := ⟨id.ts, id.uid, l.async.sim.uid, rest⟩ } : Async T).Sound [id] where
  sim := (removeNext_cons ha.sim hevents).2
  ids := by
    have hids := ha.ids
    rw [hevents, live_cons] at hids
    simpa [live] using hids
  purged hpurged := by
    have hnone := ha.purged hpurged
    rw [hevents, live_cons] at hnone
    exact (List.append_eq_nil_iff.mp hnone).2

theorem process_turn (ha : l.async.Sound []) {v : V}
    (hok : step perform body l (.process v) = .ok l') : Turn perform body v l l' := by
  cases hevents : l.async.sim.events with
  | nil =>
    simp only [step, removeNext_nil hevents] at hok
    exact .idle hevents (Except.ok.inj hok).symm
  | cons next rest =>
    simp only [step, (removeNext_cons ha.sim hevents).1] at hok
    split at hok
    · next task hcancelled htask =>
      obtain ⟨called, hcall, rfl⟩ := map_eq_ok hok
      obtain ⟨id, task', cancelled⟩ := next
      dsimp only at hcancelled htask
      subst hcancelled htask
      obtain ⟨news, hcalled⟩ := callWith_called (running_sound ha hevents) hcall
      exact .task id task rest called news hevents hcalled rfl
    · next hnot =>
      exact .skip next rest hevents (live_of_not hnot) (Except.ok.inj hok).symm

/-- In a turn of a task nothing has been purged. -/
theorem task_unpurged {id : EventKey} {task : T} {rest : List (SimEvent T)}
    (ha : l.async.Sound []) (hevents : l.async.sim.events = ⟨id, some task, false⟩ :: rest) :
    l.async.purged = false := by
  cases hpurged : l.async.purged with
  | false => rfl
  | true =>
    have hnone := ha.purged hpurged
    simp [hevents, live] at hnone

theorem other_sound {delay : ℤ} {id : EventKey} {sim : Simulator T} (ha : l.async.Sound [])
    (hs : Scheduled l.async.sim delay none id sim) :
    ({ l.async with sim } : Async T).Sound [] where
  sim := hs.sound
  ids := ha.ids.trans (hs.live_perm.map _).symm
  purged hpurged := by
    have hlive := hs.live_perm
    rw [ha.purged hpurged] at hlive
    exact hlive.eq_nil

theorem turn_sound {v : V} (ha : l.async.Sound []) (ht : Turn perform body v l l') :
    l'.async.Sound [] := by
  cases ht with
  | idle hevents heq => rwa [heq]
  | skip next rest hevents hlive heq =>
    have hsame : live l.async.sim.events = live rest := by
      rw [hevents, live_cons, hlive, List.nil_append]
    subst heq
    exact ⟨(removeNext_cons ha.sim hevents).2, hsame ▸ ha.ids, fun hpurged =>
      hsame.symm.trans (ha.purged hpurged)⟩
  | task id task rest called news hevents hcalled heq =>
    subst heq
    exact Async.done_sound (hcalled.sound (running_sound ha hevents))

theorem step_sound {act : Act C V} (ha : l.async.Sound []) (hs : step perform body l act = .ok l') :
    l'.async.Sound [] := by
  cases act with
  | call c =>
    obtain ⟨news, hc⟩ := callWith_called ha hs
    exact hc.sound ha
  | other delay =>
    obtain ⟨⟨id, sim⟩, hsim, rfl⟩ := map_eq_ok hs
    exact other_sound ha (schedule_ok ha.sim hsim)
  | process v => exact turn_sound ha (process_turn ha hs)
  | purge =>
    obtain rfl := Except.ok.inj hs
    exact Async.purge_sound ha

/-- The end is for good. -/
theorem step_purged {act : Act C V} (ha : l.async.Sound []) (hpurged : l.async.purged = true)
    (hs : step perform body l act = .ok l') : l'.async.purged = true := by
  cases act with
  | call c =>
    obtain ⟨news, hc⟩ := callWith_called ha hs
    rcases hc.async with ⟨-, hsame⟩ | ⟨hnot, -⟩
    · rwa [hsame]
    · cases hpurged.symm.trans hnot
  | other delay =>
    obtain ⟨_, -, rfl⟩ := map_eq_ok hs
    exact hpurged
  | process v =>
    cases process_turn ha hs with
    | idle hevents heq => rwa [heq]
    | skip next rest hevents hlive heq => rwa [heq]
    | task id task rest called news hevents hcalled heq =>
      cases hpurged.symm.trans (task_unpurged ha hevents)
  | purge =>
    obtain rfl := Except.ok.inj hs
    rfl

end Steps

section Histories

/-- The tasks that have been asked for with their due times, those that have been run with the
times when they were, and those that have been dropped. -/
structure History (T : Type*) where
  asked : List (EventKey × T)
  ran : List (EventKey × T)
  dropped : List (EventKey × T)

def History.empty : History T := ⟨[], [], []⟩

/-- The loop when it comes to an event. -/
def atEvent (l : EventLoop S T) (id : EventKey) (rest : List (SimEvent T)) : EventLoop S T :=
  { l with async := { l.async with sim := ⟨id.ts, id.uid, l.async.sim.uid, rest⟩ } }

/-- The tasks that a call asks for. -/
def requested (perform : ℤ → S → C → Except Fault (S × List (ℤ × T))) (l : EventLoop S T) (c : C) :
    List (EventKey × T) :=
  match perform l.now l.state c with
  | .error _ => []
  | .ok (_, news) =>
      if l.async.purged then []
      else asked l.async.sim.currentTs l.async.sim.uid (news.map fun new => (new.1 - l.now, new.2))

def note (perform : ℤ → S → C → Except Fault (S × List (ℤ × T))) (body : V → T → C)
    (h : History T) (l : EventLoop S T) (act : Act C V) (l' : EventLoop S T) : History T :=
  match act with
  | .call c => { h with asked := h.asked ++ l.requested perform c }
  | .other _ => h
  | .process v =>
      match l.async.sim.events with
      | ⟨id, some task, false⟩ :: rest =>
          { h with
            asked := h.asked ++ (l.atEvent id rest).requested perform (body v task)
            ran := h.ran ++ [(⟨l'.async.sim.currentTs, id.uid⟩, task)] }
      | _ => h
  | .purge => { h with dropped := h.dropped ++ live l.async.sim.events }

/-- Every task that has been asked for is run once, at its due time, or is still to run, or was
dropped; the tasks are run in the order of their due times, and those due at the same time in the
order in which they were asked for. -/
structure Accounted (r : History T × EventLoop S T) : Prop where
  once : r.1.asked.Perm (r.1.ran ++ live r.2.async.sim.events ++ r.1.dropped)
  numbered : r.1.asked.Pairwise fun x y => x.1.uid < y.1.uid
  inOrder : (r.1.ran ++ live r.2.async.sim.events).Pairwise fun x y => x.1.before y.1
  pending : r.2.async.ns3Events.Perm ((live r.2.async.sim.events).map Prod.fst)
  purged : r.2.async.purged = true → live r.2.async.sim.events = []

/-- What every step keeps. -/
structure Kept (r : History T × EventLoop S T) : Prop where
  sound : r.2.async.Sound []
  once : r.1.asked.Perm (r.1.ran ++ live r.2.async.sim.events ++ r.1.dropped)
  numbered : r.1.asked.Pairwise fun x y => x.1.uid < y.1.uid
  asked_lt : ∀ x ∈ r.1.asked, x.1.uid < r.2.async.sim.uid
  ran_sorted : r.1.ran.Pairwise fun x y => x.1.before y.1
  ran_past : ∀ x ∈ r.1.ran, x.1 = r.2.async.sim.current ∨ x.1.before r.2.async.sim.current

variable {h : History T} {l l' : EventLoop S T}

theorem live_sorted {s : Simulator T} (hs : s.Sound) :
    (live s.events).Pairwise fun x y => x.1.before y.1 := by
  refine List.pairwise_filterMap.mpr (hs.sorted.imp fun hbefore x hx y hy => ?_)
  split_ifs at hx hy
  obtain ⟨_, -, rfl⟩ := Option.map_eq_some_iff.mp hx
  obtain ⟨_, -, rfl⟩ := Option.map_eq_some_iff.mp hy
  exact hbefore

theorem live_later {s : Simulator T} (hs : s.Sound) {x : EventKey × T} (hx : x ∈ live s.events) :
    s.current.before x.1 :=
  hs.later _ (mem_live.mp hx)

theorem Kept.accounted {r : History T × EventLoop S T} (hk : Kept r) : Accounted r where
  once := hk.once
  numbered := hk.numbered
  inOrder := by
    refine List.pairwise_append.mpr ⟨hk.ran_sorted, live_sorted hk.sound.sim, fun x hx y hy => ?_⟩
    have hlater := live_later hk.sound.sim hy
    rcases hk.ran_past x hx with heq | hbefore
    · rwa [heq]
    · exact EventKey.before_trans hbefore hlater
  pending := hk.sound.ids
  purged := hk.sound.purged

/-- What has been asked for grows by what a call asks for, whatever has been run before it. -/
theorem called_kept {running : List EventKey} {c : C} {news : List (ℤ × T)}
    (hc : Called perform running l c news l')
    (hasked : h.asked.Pairwise fun x y => x.1.uid < y.1.uid)
    (hlt : ∀ x ∈ h.asked, x.1.uid < l.async.sim.uid) :
    (h.asked ++ l.requested perform c).Pairwise (fun x y => x.1.uid < y.1.uid) ∧
      (∀ x ∈ h.asked ++ l.requested perform c, x.1.uid < l'.async.sim.uid) ∧
      (live l'.async.sim.events).Perm (live l.async.sim.events ++ l.requested perform c) ∧
      l'.async.sim.current = l.async.sim.current := by
  simp only [requested, hc.performed]
  rcases hc.async with ⟨hpurged, hsame⟩ | ⟨hpurged, hg⟩
  · simp only [hpurged, if_true, List.append_nil, hsame]
    exact ⟨hasked, hlt, .rfl, trivial⟩
  · simp only [hpurged, Bool.false_eq_true, if_false]
    refine ⟨List.pairwise_append.mpr ⟨hasked, Async.asked_sorted _ _ _, fun x hx y hy => ?_⟩, ?_,
      hg.live_perm, hg.current_eq⟩
    · exact (hlt x hx).trans_le (Async.asked_uid hy).1
    · intro x hx
      rcases List.mem_append.mp hx with hx | hx
      · exact (hlt x hx).trans_le hg.uid_le
      · exact hg.news_lt x hx

theorem past_of_next {ran : List (EventKey × T)} {s : Simulator T} {next : EventKey}
    (hran : ∀ x ∈ ran, x.1 = s.current ∨ x.1.before s.current) (hnext : s.current.before next) :
    ∀ x ∈ ran, x.1.before next := by
  intro x hx
  rcases hran x hx with heq | hbefore
  · rwa [heq]
  · exact EventKey.before_trans hbefore hnext

theorem perm_grown {α : Type*} {past ran left left' dropped news : List α}
    (honce : past.Perm (ran ++ left ++ dropped)) (hleft : left'.Perm (left ++ news)) :
    (past ++ news).Perm (ran ++ left' ++ dropped) := by
  have hgrown := (hleft.append_left ran).append_right dropped
  refine (honce.append_right news).trans (List.Perm.trans ?_ hgrown.symm)
  simp only [List.append_assoc]
  exact (List.perm_append_comm.append_left left).append_left ran

theorem kept_call {c : C} (hk : Kept (h, l)) (hs : l.callWith perform c = .ok l') :
    Kept ({ h with asked := h.asked ++ l.requested perform c }, l') := by
  obtain ⟨news, hc⟩ := callWith_called hk.sound hs
  obtain ⟨hsorted, hlt, hlive, hcurrent⟩ := called_kept hc hk.numbered hk.asked_lt
  refine ⟨hc.sound hk.sound, perm_grown hk.once hlive, hsorted, hlt, hk.ran_sorted, ?_⟩
  dsimp only
  rw [hcurrent]
  exact hk.ran_past

/-- An event of the simulator's own is none of the tasks. -/
theorem kept_other {delay : ℤ} {id : EventKey} {sim : Simulator T} (hk : Kept (h, l))
    (hs : l.async.sim.schedule delay none = .ok (id, sim)) :
    Kept (h, { l with async := { l.async with sim } }) := by
  have hsim := schedule_ok hk.sound.sim hs
  have hlive : (live sim.events).Perm (live l.async.sim.events) := hsim.live_perm
  refine ⟨other_sound hk.sound hsim, ?_, hk.numbered, fun x hx => ?_, hk.ran_sorted, ?_⟩
  · exact hk.once.trans ((hlive.symm.append_left _).append_right _)
  · dsimp only
    rw [hsim.uid_eq]
    exact Nat.lt_succ_of_lt (hk.asked_lt x hx)
  · dsimp only
    rw [hsim.current_eq]
    exact hk.ran_past

theorem kept_purge (hk : Kept (h, l)) :
    Kept ({ h with dropped := h.dropped ++ live l.async.sim.events },
      { l with async := l.async.purge }) := by
  obtain ⟨-, ⟨hcurrent, huid⟩, -⟩ := cancelAll hk.sound.sim l.async.ns3Events
  refine ⟨Async.purge_sound hk.sound, ?_, hk.numbered, ?_, hk.ran_sorted, ?_⟩
  · dsimp only
    rw [Async.purge_live hk.sound, List.append_nil]
    refine hk.once.trans ?_
    rw [List.append_assoc]
    exact List.perm_append_comm.append_left _
  · exact fun x hx => (hk.asked_lt x hx).trans_eq huid.symm
  · have hsame : l.async.purge.sim.current = l.async.sim.current := hcurrent
    dsimp only
    rw [hsame]
    exact hk.ran_past

theorem kept_turn {v : V} (hk : Kept (h, l)) (ht : Turn perform body v l l') :
    Kept (note perform body h l (.process v) l', l') := by
  have hsound := turn_sound hk.sound ht
  cases ht with
  | idle hevents heq =>
    subst heq
    simpa only [note, hevents] using hk
  | skip next rest hevents hlive heq =>
    have hnext : l.async.sim.current.before next.key :=
      hk.sound.sim.later next (hevents ▸ List.mem_cons_self)
    have hsame : live l.async.sim.events = live rest := by
      rw [hevents, live_cons, hlive, List.nil_append]
    have hnote : note perform body h l (.process v) l' = h := by
      simp only [note, hevents]
      split
      · next id task rest' hcons =>
        obtain ⟨rfl, -⟩ := List.cons.inj hcons
        cases hlive
      · rfl
    have honce := hk.once
    dsimp only at honce
    rw [hsame] at honce
    subst heq
    rw [hnote]
    exact ⟨hsound, honce, hk.numbered, hk.asked_lt, hk.ran_sorted, fun x hx =>
      .inr (past_of_next hk.ran_past hnext x hx)⟩
  | task id task rest called news hevents hcalled heq =>
    have hnext : l.async.sim.current.before id :=
      hk.sound.sim.later ⟨id, some task, false⟩ (hevents ▸ List.mem_cons_self)
    obtain ⟨hsorted, hlt, hlive, hcurrent⟩ := called_kept hcalled hk.numbered hk.asked_lt
    have hclock : (⟨l'.async.sim.currentTs, id.uid⟩ : EventKey) = id := by
      have hts : called.async.sim.currentTs = id.ts := congrArg EventKey.ts hcurrent
      subst heq
      simp only [Async.done, hts]
    have hlast : called.async.sim.current = id := hcurrent
    have hran := past_of_next hk.ran_past hnext
    have honce : h.asked.Perm ((h.ran ++ [(id, task)]) ++ live rest ++ h.dropped) := by
      have honce := hk.once
      dsimp only at honce
      rwa [hevents, live_cons, ← List.append_assoc] at honce
    simp only [note, hevents, hclock]
    subst heq
    refine ⟨hsound, perm_grown honce hlive, hsorted, hlt, ?_, ?_⟩
    · exact List.pairwise_append.mpr ⟨hk.ran_sorted, List.pairwise_singleton _ _, fun x hx y hy =>
        List.mem_singleton.mp hy ▸ hran x hx⟩
    · intro x hx
      have hcur : (called.async.done id).sim.current = id := hlast
      dsimp only
      rw [hcur]
      rcases List.mem_append.mp hx with hx | hx
      · exact .inr (hran x hx)
      · exact .inl (congrArg Prod.fst (List.mem_singleton.mp hx))

theorem step_kept {r r' : History T × EventLoop S T} {act : Act C V} (hk : Kept r)
    (hs : noted (step perform body) (note perform body) r act = .ok r') : Kept r' := by
  obtain ⟨h, l⟩ := r
  obtain ⟨h', l'⟩ := r'
  obtain ⟨hstep, hnote⟩ := noted_ok hs
  dsimp only at hstep hnote
  subst hnote
  cases act with
  | call c => exact kept_call hk hstep
  | other delay =>
    obtain ⟨⟨id, sim⟩, hsim, rfl⟩ := map_eq_ok hstep
    exact kept_other hk hsim
  | process v => exact kept_turn hk (process_turn hk.sound hstep)
  | purge =>
    obtain rfl := Except.ok.inj hstep
    exact kept_purge hk

/-- In every run of the loop, and as long as the numbers of events have not wrapped and so have the
order that they have in the source, each task that is asked for is run exactly once and at its due
time, in order, unless the end drops it before. -/
theorem tasks_run_once (perform : ℤ → S → C → Except Fault (S × List (ℤ × T))) (body : V → T → C)
    (startTime : TimePoint) (state : S) (acts : List (Act C V)) :
    Always (noted (step perform body) (note perform body))
      (fun r => r.2.async.sim.Unwrapped → r.2.async.sim.OrderedNarrowly ∧ Accounted r)
      (History.empty, start startTime state) acts := by
  refine always_of_run fun r past hr hunwrapped => ?_
  have hkept : Kept r := by
    refine run_invariant Kept (fun _ _ _ => step_kept) ?_ hr
    exact ⟨Async.new_sound, .nil, .nil, fun _ hx => (List.not_mem_nil hx).elim, .nil,
      fun _ hx => (List.not_mem_nil hx).elim⟩
  exact ⟨hkept.sound.sim.orderedNarrowly hunwrapped, hkept.accounted⟩

end Histories

section Refinement

variable {l l' : EventLoop S T} {s : TaskSchedule.Timed S T}

/-- The tasks with their due times. -/
def dues (l : EventLoop S T) : List (ℤ × T) :=
  (live l.async.sim.events).map fun x => (l.startTime + x.1.ts, x.2)

/-- The schedule has the same time, state and tasks as the loop. -/
structure Follows (l : EventLoop S T) (s : TaskSchedule.Timed S T) : Prop where
  now : s.now = l.now
  state : s.state = l.state
  tasks : s.tasks.Perm l.dues

theorem start_follows (startTime : TimePoint) (state : S) :
    Follows (start startTime state : EventLoop S T) ⟨startTime, state, []⟩ where
  now := (add_zero startTime).symm
  state := rfl
  tasks := .rfl

/-- The due times that have been asked for, in the list of events. -/
theorem asked_dues (startTime now : ℤ) (uid : ℕ) (news : List (ℤ × T)) :
    (asked now uid (news.map fun new => (new.1 - (startTime + now), new.2))).map
      (fun x => (startTime + x.1.ts, x.2)) = news := by
  induction news generalizing uid with
  | nil => rfl
  | cons new news ih =>
    have hdue : startTime + (now + (new.1 - (startTime + now))) = new.1 := by omega
    rw [List.map_cons, asked, List.map_cons, ih]
    exact congrArg (fun due => (due, new.2) :: news) hdue

/-- A call is one of the schedule. -/
theorem call_follows {running : List EventKey} {c : C} {news : List (ℤ × T)}
    (hf : Follows l s) (hc : Called perform running l c news l')
    (hpurged : l.async.purged = false) :
    perform s.now s.state c = .ok (l'.state, news) ∧
      Follows l' ⟨s.now, l'.state, s.tasks ++ news⟩ := by
  rcases hc.async with ⟨hpurged', -⟩ | ⟨-, hg⟩
  · cases hpurged'.symm.trans hpurged
  have hts : l'.async.sim.currentTs = l.async.sim.currentTs := congrArg EventKey.ts hg.current_eq
  refine ⟨by rw [hf.now, hf.state, hc.performed], ⟨?_, rfl, ?_⟩⟩
  · rw [hf.now, now, now, hts, hc.startTime_eq]
  · have hlive := hg.live_perm.map fun x => (l.startTime + x.1.ts, x.2)
    rw [List.map_append, now, asked_dues] at hlive
    rw [dues, hc.startTime_eq]
    exact (hf.tasks.append_right news).trans hlive.symm

/-- As long as nothing has been purged, the loop is where the schedule is. -/
def InStep (l : EventLoop S T) (s : TaskSchedule.Timed S T) : Prop :=
  l.async.Sound [] ∧ (l.async.purged = false → Follows l s)

theorem launch_inStep {startTime : TimePoint} {state : S} {news : List (ℤ × T)}
    (hl : launch startTime state news = .ok l) : InStep l ⟨startTime, state, news⟩ := by
  obtain ⟨news', hc⟩ := callWith_called Async.new_sound hl
  obtain ⟨hstate, rfl⟩ := Prod.mk.inj (Except.ok.inj hc.performed)
  obtain ⟨-, hf⟩ := call_follows (start_follows startTime state) hc rfl
  rw [← hstate] at hf
  exact ⟨hc.sound Async.new_sound, fun _ => hf⟩

variable [DecidableEq T]

/-- No task is due before the event that is next, and so time may pass up to it. -/
theorem advance_follows {next : SimEvent T} {rest : List (SimEvent T)} (ha : l.async.Sound [])
    (hf : Follows l s) (hevents : l.async.sim.events = next :: rest) :
    TaskSchedule.step perform body s
        (.advance (l.startTime + next.key.ts) : TaskSchedule.Event C V T) =
      .ok { s with now := l.startTime + next.key.ts } := by
  have hmem : next ∈ l.async.sim.events := hevents ▸ List.mem_cons_self
  have hsorted := ha.sim.sorted
  rw [hevents] at hsorted
  have hfirst : ∀ e ∈ l.async.sim.events, next.key.ts ≤ e.key.ts := by
    rw [hevents, List.forall_mem_cons]
    refine ⟨le_rfl, fun e he => ?_⟩
    have hbefore := (List.pairwise_cons.mp hsorted).1 e he
    simp only [EventKey.before] at hbefore
    omega
  rw [TaskSchedule.step, if_pos]
  constructor
  · have hlater := ha.sim.later next hmem
    simp only [EventKey.before, current] at hlater
    rw [hf.now, now]
    omega
  · intro due hdue
    obtain ⟨⟨id, task⟩, hlive, rfl⟩ := List.mem_map.mp (hf.tasks.mem_iff.mp hdue)
    exact add_le_add_right (hfirst _ (mem_live.mp hlive)) _

/-- A turn of the loop is the passing of time, and the running of the task that is then due. -/
theorem turn_follows {v : V} (ha : l.async.Sound []) (hf : Follows l s)
    (ht : Turn perform body v l l') : ∃ events s',
      run (TaskSchedule.step perform body) s events = .ok s' ∧ Follows l' s' := by
  cases ht with
  | idle hevents heq =>
    subst heq
    exact ⟨[], s, rfl, hf⟩
  | skip next rest hevents hlive heq =>
    refine ⟨[.advance (l.startTime + next.key.ts)], _,
      run_cons_ok [] (advance_follows ha hf hevents), ?_⟩
    subst heq
    refine ⟨rfl, hf.state, hf.tasks.trans ?_⟩
    rw [dues, hevents, live_cons, hlive, List.nil_append]
    rfl
  | task id task rest called news hevents hcalled heq =>
    have hdues : l.dues = (l.startTime + id.ts, task) ::
        (live rest).map fun x => (l.startTime + x.1.ts, x.2) := by
      rw [dues, hevents, live_cons]
      rfl
    have hfollows : Follows (l.atEvent id rest)
        ⟨l.startTime + id.ts, s.state, s.tasks.erase (l.startTime + id.ts, task)⟩ := by
      refine ⟨rfl, hf.state, ?_⟩
      have herase := hf.tasks.erase (l.startTime + id.ts, task)
      rwa [hdues, List.erase_cons_head] at herase
    have hunpurged := task_unpurged ha hevents
    obtain ⟨hperform, hf'⟩ := call_follows hfollows hcalled hunpurged
    have hmem : (l.startTime + id.ts, task) ∈ s.tasks :=
      hf.tasks.mem_iff.mpr (hdues ▸ List.mem_cons_self)
    have hfire : TaskSchedule.step perform body ⟨l.startTime + id.ts, s.state, s.tasks⟩
        (.fire v task) = .ok ⟨l.startTime + id.ts, called.state,
          s.tasks.erase (l.startTime + id.ts, task) ++ news⟩ := by
      rw [TaskSchedule.step, if_pos hmem, hperform]
      rfl
    have hrun := (run_cons_ok [.fire v task] (advance_follows ha hf hevents)).trans
      (run_cons_ok [] hfire)
    subst heq
    exact ⟨_, _, hrun, hf'.now, hf'.state, hf'.tasks⟩

theorem step_matched (l : EventLoop S T) (act : Act C V) (l' : EventLoop S T)
    (s : TaskSchedule.Timed S T) (h : InStep l s) (hs : step perform body l act = .ok l') :
    ∃ events s', run (TaskSchedule.step perform body) s events = .ok s' ∧ InStep l' s' := by
  obtain ⟨ha, hf⟩ := h
  have hsound := step_sound ha hs
  cases hpurged : l.async.purged with
  | true =>
    exact ⟨[], s, rfl, hsound, fun hnot => by cases (step_purged ha hpurged hs).symm.trans hnot⟩
  | false =>
    cases act with
    | call c =>
      obtain ⟨news, hc⟩ := callWith_called ha hs
      obtain ⟨hperform, hf'⟩ := call_follows (hf hpurged) hc hpurged
      have hcall : TaskSchedule.step perform body s (.call c) =
          .ok ⟨s.now, l'.state, s.tasks ++ news⟩ := by
        rw [TaskSchedule.step, hperform]
        rfl
      exact ⟨[.call c], _, run_cons_ok [] hcall, hsound, fun _ => hf'⟩
    | other delay =>
      obtain ⟨⟨id, sim⟩, hsim, rfl⟩ := map_eq_ok hs
      have hscheduled := schedule_ok ha.sim hsim
      have hts : sim.currentTs = l.async.sim.currentTs := congrArg EventKey.ts hscheduled.current_eq
      refine ⟨[], s, rfl, hsound, fun _ => ⟨?_, (hf hpurged).state, (hf hpurged).tasks.trans ?_⟩⟩
      · rw [(hf hpurged).now, now, now, hts]
      · exact (hscheduled.live_perm.map _).symm
    | process v =>
      obtain ⟨events, s', hrun, hf'⟩ := turn_follows ha (hf hpurged) (process_turn ha hs)
      exact ⟨events, s', hrun, hsound, fun _ => hf'⟩
    | purge =>
      obtain rfl := Except.ok.inj hs
      exact ⟨[], s, rfl, hsound, fun hnot => by cases hnot⟩

/-- A state of the loop that the schedule gets to, with the same time, state and tasks. -/
def Matched (perform : ℤ → S → C → Except Fault (S × List (ℤ × T))) (body : V → T → C)
    (s₀ : TaskSchedule.Timed S T) (l : EventLoop S T) : Prop :=
  ∃ events s, run (TaskSchedule.step perform body) s₀ events = .ok s ∧ Follows l s

theorem matched_of_run {startTime : TimePoint} {state : S} {news : List (ℤ × T)}
    (hl : launch startTime state news = .ok l) {acts : List (Act C V)}
    (hr : run (step perform body) l acts = .ok l') : l'.async.Sound [] ∧
      (l'.async.purged = false → Matched perform body ⟨startTime, state, news⟩ l') := by
  obtain ⟨events, s, hrun, hsound, hf⟩ := run_matched InStep step_matched (launch_inStep hl) hr
  exact ⟨hsound, fun hpurged => ⟨events, s, hrun, hf hpurged⟩⟩

/-- In every run of the loop, and until the end, the component is where the schedule of its tasks
takes it: every task is run at exactly its due time, and time never goes past one. -/
theorem loop_refines_schedule (perform : ℤ → S → C → Except Fault (S × List (ℤ × T)))
    (body : V → T → C) (startTime : TimePoint) (state : S) (news : List (ℤ × T))
    (hl : launch startTime state news = .ok l) (acts : List (Act C V)) :
    Always (step perform body) (fun l => l.async.purged = false →
      Matched perform body ⟨startTime, state, news⟩ l) l acts :=
  always_of_run fun _ _ hr => (matched_of_run hl hr).2

/-- A task that counts and schedules itself again. -/
def tick (now : ℤ) (count : ℕ) (_ : Unit) : Except Fault (ℕ × List (ℤ × Unit)) :=
  .ok (count + 1, [(now + 10, ())])

theorem loop_refines_schedule_tick : ∃ l, launch 5 0 [(15, ())] = .ok l ∧
    Always (step tick fun () () => ()) (fun l => l.async.purged = false →
      Matched tick (fun () () => ()) ⟨5, 0, [(15, ())]⟩ l) l [.process (), .other 3, .process ()] :=
  ⟨_, rfl, loop_refines_schedule tick (fun () () => ()) 5 0 [(15, ())] rfl _⟩

end Refinement

end YingSma.EventLoop
