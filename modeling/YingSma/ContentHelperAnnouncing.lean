import YingSma.ContentHelperMetadata
import YingSma.ContentHelperSweeps

/-! When metadata are announced: the timer of `announce_metadata`, and the time from one
announcement of an entry to its next. -/
namespace YingSma.ContentHelper
open StateActions TransitionRuns TaskSchedule

section Timer

/-- The outstanding calls of `announce_metadata`. -/
def announceTimers (tasks : List (TimePoint × Task)) : ℕ :=
  tasks.countP fun task => task.2 = .announceMetadata

/-- The node knows of no content, its own or that of others. -/
def NothingKnown (h : ContentHelper) : Prop := h.lmt = [] ∧ h.rmt = []

/-- A call of `announce_metadata` by its timer that finds something to go through, or any
other call that finds nothing or whose message is too large to be encoded. -/
def KeepsTimer (s : Timed ContentHelper Task) : Event (Surroundings × Op) Surroundings Task → Prop
  | .call (env, .announceMetadata) =>
      NothingKnown s.state ∨ ¬ Announceable { env with now := s.now } s.state
  | .fire _ .announceMetadata =>
      (s.now, .announceMetadata) ∈ s.tasks → ¬ NothingKnown s.state
  | _ => True

variable {hasher : List UInt8 → Hash} {env : Surroundings} {h h' : ContentHelper}
  {now : TimePoint} {new : List (TimePoint × Task)}

theorem announceTimers_append (tasks new : List (TimePoint × Task)) :
    announceTimers (tasks ++ new) = announceTimers tasks + announceTimers new :=
  List.countP_append

/-- A task that runs is no longer outstanding. -/
theorem announceTimers_erase {tasks : List (TimePoint × Task)} {task : Task}
    (hmem : (now, task) ∈ tasks) :
    announceTimers tasks =
      announceTimers (tasks.erase (now, task)) + if task = .announceMetadata then 1 else 0 := by
  unfold announceTimers
  rw [(List.perm_cons_erase hmem).countP_eq, List.countP_cons]
  simp

theorem discover_unannounced (m : ContentMetadata) : Keeps Unannounced (discover env m) := by
  unfold discover
  refine keeps_bind keeps_get fun h => ?_
  cases h.rmt.find? fun r => r.data.hash = m.hash with
  | some existing =>
    exact keeps_ite (keeps_bind (keeps_modify fun _ => .of_eq rfl rfl) fun _ => keeps_pure _)
      (keeps_pure _)
  | none =>
    refine keeps_bind (keeps_modify fun _ => .of_eq rfl rfl) fun _ => keeps_ite ?_ (keeps_pure _)
    refine keeps_bind ?_ fun _ => keeps_ite ?_ (keeps_pure _)
    · exact keeps_unannounced (record_aside (by simp [Effect.ofAnnouncing]))
    · refine keeps_bind (keeps_attempt _) fun _ => ?_
      refine keeps_bind (keeps_modify fun _ => .of_eq rfl rfl) fun _ => ?_
      exact keeps_bind (keeps_unannounced (doAutoFetch_ends aside_admits.toAdmits env).keeps) fun _ => keeps_pure _

theorem receiveContentAnn_unannounced (msg : ContentAnn) :
    Keeps Unannounced (receiveContentAnn env msg) := by
  apply keeps_forEach
  intro m _
  refine keeps_bind keeps_get fun h => keeps_ite (keeps_pure _) ?_
  exact keeps_bind (discover_unannounced _) fun _ => keeps_pure _

theorem createNew_unannounced (types : List ContentType) (name : ContentName) (src : List UInt8) :
    Keeps Unannounced (createNew hasher env types name src) := by
  refine keeps_bind keeps_get fun h => keeps_bind (keeps_attempt _) fun out => ?_
  exact keeps_bind (keeps_modify fun _ => .of_eq rfl rfl) fun _ => keeps_pure _

/-- No call but `announce_metadata` itself has a part in announcing. -/
theorem step_unannounced {op : Op} (hop : op ≠ .announceMetadata)
    (hs : step hasher h (env, op) = .ok h') : Unannounced h h' := by
  obtain ⟨u, hrun⟩ := TransitionRuns.map_snd_ok hs
  suffices hkeeps : Keeps Unannounced (perform hasher env op) from hkeeps h u h' hrun
  cases op with
  | announceMetadata => exact absurd rfl hop
  | subscribe handler => exact keeps_modify fun _ => .of_eq rfl rfl
  | createNew types name src => exact keeps_discard (createNew_unannounced types name src)
  | receiveContentAnn msg => exact receiveContentAnn_unannounced msg
  | receiveBlockRequest header msg => exact keeps_unannounced (receiveBlockRequest_ends aside_admits.toAdmits env header msg).keeps
  | receiveBlockResponse msg => exact keeps_unannounced (receiveBlockResponse_ends aside_admits env msg).keeps
  | request requests => exact keeps_unannounced (request_ends aside_admits.toAdmits env requests).keeps
  | broadcast ref => exact keeps_discard (keeps_unannounced (broadcast_ends aside_admits.toAdmits env ref).keeps)
  | frozen blocks enabled => exact keeps_discard (keeps_unannounced (frozen_ends aside_admits enabled blocks).keeps)
  | metadata =>
    exact keeps_discard (keeps_bind (keeps_modify fun _ => .of_eq rfl rfl) fun _ =>
      keeps_bind keeps_get fun _ => keeps_pure _)
  | sweepPendingRequests => exact keeps_unannounced (sweepPendingRequests_ends aside_admits.toAdmits env.now).keeps
  | doAutoFetch => exact keeps_unannounced (doAutoFetch_ends aside_admits.toAdmits env).keeps

theorem dueTasks_unannounced {es : List Effect} (hes : ∀ e ∈ es, ¬ Effect.ofAnnouncing e) :
    announceTimers (dueTasks now es) = 0 := by
  induction es with
  | nil => rfl
  | cons e es ih =>
    rw [List.forall_mem_cons] at hes
    have hrest := ih hes.2
    cases e with
    | doIn delay task =>
      cases task with
      | announceMetadata => exact (hes.1 rfl).elim
      | _ => exact hrest
    | _ => exact hrest

/-- What a call of `announce_metadata` with something in the tables does. -/
theorem step_announced (htables : ¬ NothingKnown h) :
    step hasher h (env, .announceMetadata) = .ok h' ↔ Announceable env h ∧ h' = h.announced env := by
  rw [← announceMetadata_ok_iff htables]
  constructor
  · intro hs
    obtain ⟨u, hrun⟩ := TransitionRuns.map_snd_ok hs
    exact discard_eq_ok hrun
  · rintro ⟨n, hrun⟩
    have hperform : perform hasher env .announceMetadata h = .ok ((), h') := discard_run hrun
    simp only [step, hperform, Except.map]

theorem step_idle (htables : NothingKnown h) :
    step hasher h (env, .announceMetadata) = .ok h := by
  have hperform : perform hasher env .announceMetadata h = .ok ((), h) :=
    discard_run (announceMetadata_idle htables)
  simp only [step, hperform, Except.map]

theorem step_auto {op : Op} (hs : step hasher h (env, op) = .ok h') :
    h'.autoAnnounce = h.autoAnnounce := by
  cases op with
  | announceMetadata =>
    by_cases htables : NothingKnown h
    · rw [step_idle htables] at hs
      rw [Except.ok.inj hs]
    · rw [((step_announced htables).mp hs).2]
      rfl
  | _ => exact (step_unannounced (by simp) hs).auto_eq

/-- A call other than `announce_metadata` leaves its timers alone. -/
theorem timedCall_unannounced {op : Op} (hop : op ≠ .announceMetadata)
    (hs : timedCall hasher now h (env, op) = .ok (h', new)) : announceTimers new = 0 := by
  obtain ⟨hstep, rfl⟩ := timedCall_ok hs
  obtain ⟨es, hes, hquiet⟩ := (step_unannounced hop hstep).effects
  rw [newEffects_eq hes]
  exact dueTasks_unannounced hquiet

theorem timedCall_idle (htables : NothingKnown h) :
    timedCall hasher now h (env, .announceMetadata) = .ok (h, []) := by
  simp only [timedCall, step_idle htables, Except.map]
  rw [newEffects_eq (List.append_nil _).symm]
  rfl

/-- A call of `announce_metadata` that goes through the tables starts a timer. -/
theorem timedCall_announced (hauto : h.autoAnnounce) (htables : ¬ NothingKnown h)
    (hs : timedCall hasher now h (env, .announceMetadata) = .ok (h', new)) :
    announceTimers new = 1 := by
  obtain ⟨hstep, rfl⟩ := timedCall_ok hs
  obtain ⟨-, rfl⟩ := (step_announced htables).mp hstep
  rw [newEffects_eq rfl, announcement, if_pos hauto]
  split_ifs <;> rfl

/-- The flag is set, and one call of `announce_metadata` is outstanding. -/
structure Ticking (s : Timed ContentHelper Task) : Prop where
  auto : s.state.autoAnnounce
  one : announceTimers s.tasks = 1

variable {s s' : Timed ContentHelper Task}

theorem timedCall_auto {call : Surroundings × Op}
    (hs : timedCall hasher now h call = .ok (h', new)) : h'.autoAnnounce = h.autoAnnounce :=
  step_auto (timedCall_ok hs).1

theorem timedStep_auto {event : Event (Surroundings × Op) Surroundings Task}
    (hs : timedStep hasher s event = .ok s') : s'.state.autoAnnounce = s.state.autoAnnounce := by
  cases event with
  | call c =>
    obtain ⟨out, hcall, rfl⟩ := map_eq_ok hs
    exact timedCall_auto hcall
  | advance t =>
    simp only [timedStep, TaskSchedule.step] at hs
    split_ifs at hs <;> rw [← Except.ok.inj hs]
  | fire env task =>
    simp only [timedStep, TaskSchedule.step] at hs
    split_ifs at hs
    · obtain ⟨out, hcall, rfl⟩ := map_eq_ok hs
      exact timedCall_auto hcall
    · rw [← Except.ok.inj hs]

/-- A call adds to the timers exactly if it announces. -/
theorem call_keepsTimer_iff (hs : Ticking s) (env : Surroundings) (op : Op) :
    (∀ s', timedStep hasher s (.call (env, op)) = .ok s' → announceTimers s'.tasks = 1) ↔
      KeepsTimer s (.call (env, op)) := by
  have hcall : (∀ s', timedStep hasher s (.call (env, op)) = .ok s' → announceTimers s'.tasks = 1) ↔
      ∀ h' new, timedCall hasher s.now s.state (env, op) = .ok (h', new) → announceTimers new = 0 := by
    refine (call_leads_iff (env, op)).trans ?_
    simp only [announceTimers_append, hs.one, Nat.add_eq_left]
  rw [hcall]
  cases op with
  | announceMetadata =>
    by_cases htables : NothingKnown s.state
    · refine iff_of_true (fun h' new hok => ?_) (.inl htables)
      rw [timedCall_idle htables] at hok
      rw [← (Prod.mk.inj (Except.ok.inj hok)).2]
      rfl
    · rw [KeepsTimer, or_iff_right htables]
      constructor
      · intro hnone hfits
        have hok : timedCall hasher s.now s.state (env, .announceMetadata) = .ok _ :=
          congrArg (Except.map _) ((step_announced htables).mpr ⟨hfits, rfl⟩)
        have hone := timedCall_announced hs.auto htables hok
        rw [hnone _ _ hok] at hone
        exact absurd hone (by decide)
      · intro hfits h' new hok
        exact (hfits ((step_announced htables).mp (timedCall_ok hok).1).1).elim
  | _ => exact iff_of_true (fun h' new hok => timedCall_unannounced (by simp) hok) trivial

/-- A task of its own stops the timer exactly if it is the timer and finds nothing known. -/
theorem fire_keepsTimer_iff (hs : Ticking s) (env : Surroundings) (task : Task) :
    (∀ s', timedStep hasher s (.fire env task) = .ok s' → announceTimers s'.tasks = 1) ↔
      KeepsTimer s (.fire env task) := by
  by_cases hmem : (s.now, task) ∈ s.tasks
  · have hrest := announceTimers_erase hmem
    rw [hs.one] at hrest
    refine (fire_leads_iff env hmem).trans ?_
    simp only [announceTimers_append]
    cases task with
    | announceMetadata =>
      have hnone : announceTimers (s.tasks.erase (s.now, .announceMetadata)) = 0 := by
        simpa using hrest
      rw [hnone]
      constructor
      · intro hone _ htables
        exact absurd (hone s.state [] (timedCall_idle htables)) (by decide)
      · intro hknown h' new hok
        rw [timedCall_announced hs.auto (hknown hmem) hok]
    | _ =>
      refine iff_of_true (fun h' new hok => ?_) trivial
      rw [timedCall_unannounced (by simp [taskOp]) hok]
      simpa using hrest.symm
  · have hstep : timedStep hasher s (.fire env task) = .ok s := fire_undue env hmem
    rw [hstep]
    apply iff_of_true
    · intro s' hs'
      rw [← Except.ok.inj hs']
      exact hs.one
    · cases task with
      | announceMetadata => exact fun hdue => absurd hdue hmem
      | _ => trivial

theorem keepsTimer_iff (hs : Ticking s) (event : Event (Surroundings × Op) Surroundings Task) :
    (∀ s', timedStep hasher s event = .ok s' → announceTimers s'.tasks = 1) ↔ KeepsTimer s event := by
  cases event with
  | call c => exact call_keepsTimer_iff hs c.1 c.2
  | fire env task => exact fire_keepsTimer_iff hs env task
  | advance t =>
    apply iff_of_true _ trivial
    intro s' hstep
    simp only [timedStep, TaskSchedule.step] at hstep
    split_ifs at hstep <;> rw [← Except.ok.inj hstep] <;> exact hs.one

theorem launched_ticking (flags : Flags) (id : NodeId) (start : TimePoint) :
    Ticking (launched { flags with autoAnnounce := true } id start) :=
  ⟨rfl, rfl⟩

/-- One call of `announce_metadata` is outstanding throughout a run exactly if its timer always
finds something known and nobody else calls it when it would announce. -/
theorem one_timer_iff (hasher : List UInt8 → Hash) (flags : Flags) (id : NodeId) (start : TimePoint)
    (events : List (Event (Surroundings × Op) Surroundings Task)) :
    Always (timedStep hasher) (fun s => announceTimers s.tasks = 1)
        (launched { flags with autoAnnounce := true } id start) events ↔
      Each (timedStep hasher) KeepsTimer (launched { flags with autoAnnounce := true } id start)
        events := by
  have hstart := launched_ticking flags id start
  refine (always_iff (P := fun s => announceTimers s.tasks = 1) hstart.one events).trans
    (each_congr Ticking ?_ ?_ hstart)
  · intro s event _ s' hs hkeeps hstep
    exact ⟨(timedStep_auto hstep).trans hs.auto, (keepsTimer_iff hs event).mpr hkeeps s' hstep⟩
  · intro s event _ hs
    exact keepsTimer_iff hs event

/-- Nobody is interested in anything. -/
def nowhere : Surroundings := ⟨0, ⟨0, 0⟩, fun _ => false⟩

def started : Timed ContentHelper Task := launched ⟨true, true, true, true⟩ ⟨1⟩ 0

/-- The timer that finds nothing does not come back, and publishing adds one of its own. -/
theorem timer_stops_and_multiplies :
    ¬ Always (timedStep fun _ => default) (fun s => announceTimers s.tasks = 1) started
        [.advance minAnnounceInterval, .fire nowhere .announceMetadata] ∧
      ¬ Always (timedStep fun _ => default) (fun s => announceTimers s.tasks = 1) started
        [.call (nowhere, .createNew [] ⟨[]⟩ [7]), .call (nowhere, .announceMetadata)] := by
  have hends : ∀ events n, n ≠ 1 → ((run (timedStep fun _ => default) started events).map
      fun s => announceTimers s.tasks) = .ok n →
      ¬ Always (timedStep fun _ => default) (fun s => announceTimers s.tasks = 1) started events := by
    intro events n hn hrun halways
    obtain ⟨s, hok, hcount⟩ := map_eq_ok hrun
    exact hn (hcount.symm.trans (halways.last hok))
  exact ⟨hends _ 0 (by decide) (by decide +kernel), hends _ 2 (by decide) (by decide +kernel)⟩

end Timer

end YingSma.ContentHelper
