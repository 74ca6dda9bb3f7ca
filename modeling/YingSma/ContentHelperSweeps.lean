import YingSma.ContentHelperMoves
import YingSma.TaskSchedule

/-! The lifetime of pending requests. A sweep is outstanding for each of them, however often
its entry has been extended, erased and made again. -/
namespace YingSma.ContentHelper
open EntryTable TransitionRuns TaskSchedule

/-- The tasks a call has scheduled, with their due times. -/
def dueTasks (now : TimePoint) (es : List Effect) : List (TimePoint × Task) :=
  es.filterMap fun e =>
    match e with
    | .doIn delay task => some (now + delay, task)
    | _ => none

/-- The member function a task runs. -/
def taskOp : Task → Op
  | .announceMetadata => .announceMetadata
  | .checkPendingRequests => .sweepPendingRequests
  | .doAutoFetch => .doAutoFetch

/-- A call at the time the clock shows. -/
def timedCall (hasher : List UInt8 → Hash) (now : TimePoint) (h : ContentHelper)
    (call : Surroundings × Op) : Except Fault (ContentHelper × List (TimePoint × Task)) :=
  (step hasher h ({ call.1 with now := now }, call.2)).map fun h' =>
    (h', dueTasks now (newEffects h h'))

/-- Calls, the passing of time and the tasks of one helper. -/
def timedStep (hasher : List UInt8 → Hash) :
    Timed ContentHelper Task → Event (Surroundings × Op) Surroundings Task →
      Except Fault (Timed ContentHelper Task) :=
  TaskSchedule.step (timedCall hasher) fun env task => (env, taskOp task)

/-- A helper built at the time `start`. -/
def launched (flags : Flags) (id : NodeId) (start : TimePoint) : Timed ContentHelper Task :=
  ⟨start, build flags id, dueTasks start (build flags id).effects⟩

/-- A sweep drops the entries past their expiry and no others, and it raises one timeout for
each entry dropped. -/
structure SweptAt (now : TimePoint) (h h' : ContentHelper) : Prop where
  dropped : ∀ entry, entry ∈ h'.prt ↔ entry ∈ h.prt ∧ now < entry.2.expiry
  raised : ∀ entry ∈ h.prt, entry.2.expiry ≤ now →
    (newEffects h h').count (.requestTimedout entry.1) = 1
  noOther : ∀ block, .requestTimedout block ∈ newEffects h h' →
    ∃ p, (block, p) ∈ h.prt ∧ p.expiry ≤ now

/-- What holds of the pending requests between events, and of a sweep at any moment of the
next call. -/
structure SweepsOnTime (s : Timed ContentHelper Task) : Prop where
  outstanding : ∀ entry ∈ s.state.prt, (entry.2.expiry, Task.checkPendingRequests) ∈ s.tasks
  none_left : ∀ t, (∀ due, (due, Task.checkPendingRequests) ∈ s.tasks → t < due) →
    ∀ entry ∈ s.state.prt, t < entry.2.expiry
  exact_sweeps : ∀ (env : Surroundings) op asks h, Moves { env with now := s.now } op asks s.state h →
    ∀ now, ∃ h', sweepPendingRequests now h = .ok ((), h') ∧ SweptAt now h h'

/-- Entries have different blocks, and the expiry of each is the due time of a sweep. -/
structure Covered (tasks : List (TimePoint × Task)) (h : ContentHelper) : Prop where
  distinct : Distinct h.prt
  outstanding : ∀ entry ∈ h.prt, (entry.2.expiry, Task.checkPendingRequests) ∈ tasks

/-- The tasks scheduled on the way cover the entries made or extended on the way. -/
def KeepsCovered (now : TimePoint) (h h' : ContentHelper) : Prop :=
  ∃ es, h'.effects = h.effects ++ es ∧
    ∀ tasks, Covered tasks h → Covered (tasks ++ dueTasks now es) h'

section Covering

variable {now : TimePoint} {h h' : ContentHelper}

theorem dueTasks_append (es es' : List Effect) :
    dueTasks now (es ++ es') = dueTasks now es ++ dueTasks now es' :=
  List.filterMap_append

theorem Covered.more {tasks : List (TimePoint × Task)} (hc : Covered tasks h)
    (new : List (TimePoint × Task)) : Covered (tasks ++ new) h :=
  ⟨hc.distinct, fun entry he => List.mem_append_left new (hc.outstanding entry he)⟩

theorem KeepsCovered.of_prt (hprt : h'.prt = h.prt) {es : List Effect}
    (heffects : h'.effects = h.effects ++ es) : KeepsCovered now h h' := by
  refine ⟨es, heffects, fun tasks hc => ?_⟩
  have hmore := hc.more (dueTasks now es)
  exact ⟨hprt ▸ hmore.distinct, hprt ▸ hmore.outstanding⟩

instance (now : TimePoint) : IsPreorder ContentHelper (KeepsCovered now) where
  refl h := KeepsCovered.of_prt rfl (List.append_nil h.effects).symm
  trans a b c hab hbc := by
    obtain ⟨es, hes, hcover⟩ := hab
    obtain ⟨es', hes', hcover'⟩ := hbc
    refine ⟨es ++ es', by rw [hes', hes, List.append_assoc], fun tasks hc => ?_⟩
    rw [dueTasks_append, ← List.append_assoc]
    exact hcover' _ (hcover tasks hc)

/-- Changes of an entry other than to its expiry. -/
theorem Covered.updated {tasks : List (TimePoint × Task)} (hc : Covered tasks h)
    (block : BlockRef) {f : PendingRequest → PendingRequest} (hf : ∀ p, (f p).expiry = p.expiry) :
    Covered tasks (h.updated block f) := by
  refine ⟨hc.distinct.update block f, ?_⟩
  intro entry he
  obtain ⟨entry, hentry, rfl⟩ := List.mem_map.mp he
  have hold := hc.outstanding entry hentry
  split_ifs
  · rwa [hf]
  · exact hold

theorem updated_keepsCovered (block : BlockRef) {f : PendingRequest → PendingRequest}
    (hf : ∀ p, (f p).expiry = p.expiry) : KeepsCovered now h (h.updated block f) :=
  ⟨[], (List.append_nil _).symm, fun _ hc => (hc.more _).updated block hf⟩

theorem erased_keepsCovered (block : BlockRef) : KeepsCovered now h (h.erased block) := by
  refine ⟨[], (List.append_nil _).symm, fun tasks hc => ⟨hc.distinct.filter _, ?_⟩⟩
  intro entry he
  exact (hc.more _).outstanding entry (List.mem_of_mem_filter he)

theorem swept_keepsCovered (when_ : TimePoint) : KeepsCovered now h (h.swept when_) := by
  refine ⟨_, rfl, fun tasks hc => ⟨hc.distinct.filter _, ?_⟩⟩
  intro entry he
  exact (hc.more _).outstanding entry (List.mem_of_mem_filter he)

/-- Scheduling a sweep covers the entries that expire at its due time. The time of an epoch
asks for a sweep at once, and they are gone. -/
theorem scheduled_keepsCovered {when_ : TimePoint} {h₀ : ContentHelper} (hnow : 0 ≤ now)
    (heffects : h.effects = h₀.effects)
    (hall : ∀ tasks, Covered tasks h₀ → Distinct h.prt ∧ ∀ entry ∈ h.prt,
      entry.2.expiry = when_ ∨ (entry.2.expiry, Task.checkPendingRequests) ∈ tasks) :
    KeepsCovered now h₀ (h.scheduled now when_) := by
  unfold scheduled
  split_ifs with hzero
  · refine ⟨[.doIn (when_ - now) .checkPendingRequests], by rw [← heffects]; rfl, ?_⟩
    intro tasks hc
    obtain ⟨hdistinct, hentries⟩ := hall tasks hc
    refine ⟨hdistinct, fun entry he => List.mem_append.mpr ?_⟩
    rcases hentries entry he with hdue | hold
    · right
      simp [dueTasks, hdue]
    · exact .inl hold
  · refine ⟨_, by rw [swept, heffects], ?_⟩
    intro tasks hc
    obtain ⟨hdistinct, hentries⟩ := hall tasks hc
    refine ⟨hdistinct.filter _, fun entry he => List.mem_append_left _ ?_⟩
    obtain ⟨hentry, hlate⟩ := List.mem_filter.mp he
    have hexpiry : now < entry.2.expiry := by simpa using hlate
    have hnot : entry.2.expiry ≠ when_ := by
      rw [not_not.mp hzero]
      exact (hnow.trans_lt hexpiry).ne'
    exact (hentries entry hentry).resolve_left hnot

theorem extended_keepsCovered (hnow : 0 ≤ now) (block : BlockRef) (newExpiry : TimePoint)
    (p : PendingRequest) :
    KeepsCovered now h (h.extended now block newExpiry p) := by
  unfold extended
  split_ifs
  · refine scheduled_keepsCovered hnow rfl fun tasks hc =>
      ⟨hc.distinct.update block fun p => { p with expiry := newExpiry }, ?_⟩
    intro entry he
    obtain ⟨entry, hentry, rfl⟩ := List.mem_map.mp he
    have hold := hc.outstanding entry hentry
    split_ifs
    · exact .inl rfl
    · exact .inr hold
  · exact refl_of (KeepsCovered now) h

theorem added_keepsCovered {env : Surroundings} (hnow : 0 ≤ env.now) (req : LocalRequestArgs) :
    KeepsCovered env.now h (h.added env req) := by
  unfold added
  cases hp : h.pending req.block with
  | some p =>
    refine trans_of (KeepsCovered env.now) (extended_keepsCovered hnow req.block _ p)
      (updated_keepsCovered req.block ?_)
    intro p
    rfl
  | none =>
    refine scheduled_keepsCovered hnow rfl fun tasks hc => ⟨hc.distinct.insert hp _, ?_⟩
    intro entry he
    rcases List.mem_append.mp he with he | he
    · exact .inr (hc.outstanding entry he)
    · obtain rfl := List.mem_singleton.mp he
      exact .inl rfl

theorem forwarded_keepsCovered {env : Surroundings} (hnow : 0 ≤ env.now) (req : BlockRequestArgs) :
    KeepsCovered env.now h (h.forwarded env req) := by
  unfold forwarded
  cases h.pending req.block with
  | some p =>
    have hupdated : KeepsCovered env.now h (h.updated req.block fun p => { p with localOnly := false }) :=
      updated_keepsCovered _ fun _ => rfl
    exact trans_of (KeepsCovered env.now) hupdated (extended_keepsCovered hnow _ _ p)
  | none => exact refl_of (KeepsCovered env.now) h

theorem Move.keepsCovered {env : Surroundings} {op : Op} {asks : List LocalRequestArgs}
    (hnow : 0 ≤ env.now) (hm : Move env op asks h h') : KeepsCovered env.now h h' := by
  cases hm with
  | frame hprt _ _ heffects =>
    exact .of_prt hprt (heffects.trans (List.append_nil _).symm)
  | emit e _ => exact .of_prt rfl rfl
  | deal req _ =>
    unfold dealt
    split_ifs
    · exact erased_keepsCovered _
    · exact added_keepsCovered hnow req
  | alreadyHere req _ _ => exact .of_prt rfl rfl
  | sweep _ => exact swept_keepsCovered _
  | forward req _ _ => exact forwarded_keepsCovered hnow req
  | arrive _ => exact .of_prt rfl rfl
  | keep _ _ => exact .of_prt rfl (List.append_nil _).symm
  | fill cache _ => exact .of_prt rfl (List.append_nil _).symm

theorem Moves.keepsCovered {env : Surroundings} {op : Op} {asks : List LocalRequestArgs}
    (hnow : 0 ≤ env.now) (hm : Moves env op asks h h') : KeepsCovered env.now h h' := by
  induction hm with
  | refl => exact refl_of (KeepsCovered env.now) h
  | tail _ hm ih => exact trans_of (KeepsCovered env.now) ih (hm.keepsCovered hnow)

end Covering

section Sweeping

variable {now : TimePoint} {h : ContentHelper}

theorem swept_newEffects :
    newEffects h (h.swept now) =
      ((h.prt.filter fun entry => now ≥ entry.2.expiry).map Prod.fst).map Effect.requestTimedout :=
  newEffects_eq rfl

theorem sweptAt_swept (hd : Distinct h.prt) : SweptAt now h (h.swept now) where
  dropped entry := by
    simp [swept]
  raised entry he hexpired := by
    have hnodup : ((h.prt.filter fun entry => now ≥ entry.2.expiry).map Prod.fst).Nodup :=
      hd.filter _
    have hmem : entry.1 ∈ (h.prt.filter fun entry => now ≥ entry.2.expiry).map Prod.fst :=
      List.mem_map_of_mem (List.mem_filter.mpr ⟨he, by simpa using hexpired⟩)
    rw [swept_newEffects, List.count_eq_one_of_mem]
    · exact hnodup.map fun _ _ heq => Effect.requestTimedout.inj heq
    · exact List.mem_map_of_mem hmem
  noOther block hmem := by
    rw [swept_newEffects] at hmem
    simpa using hmem

variable {hasher : List UInt8 → Hash}

/-- Time has not run backwards, and a sweep is outstanding for every entry. -/
def InTime (s : Timed ContentHelper Task) : Prop := 0 ≤ s.now ∧ Covered s.tasks s.state

theorem InTime.sweepsOnTime {s : Timed ContentHelper Task} (hs : InTime s) : SweepsOnTime s where
  outstanding := hs.2.outstanding
  none_left t hdue entry he := hdue _ (hs.2.outstanding entry he)
  exact_sweeps env op asks h hm now := by
    obtain ⟨es, -, hcover⟩ := hm.keepsCovered hs.1
    exact ⟨h.swept now, sweepPendingRequests_run h now, sweptAt_swept (hcover _ hs.2).distinct⟩

theorem timedCall_ok {now : TimePoint} {h' : ContentHelper} {call : Surroundings × Op}
    {new : List (TimePoint × Task)} (hs : timedCall hasher now h call = .ok (h', new)) :
    step hasher h ({ call.1 with now := now }, call.2) = .ok h' ∧
      new = dueTasks now (newEffects h h') := by
  obtain ⟨h₁, hstep, heq⟩ := map_eq_ok hs
  obtain ⟨rfl, rfl⟩ := Prod.mk.inj heq
  exact ⟨hstep, rfl⟩

/-- A call covers the entries it leaves with the tasks that were outstanding and its own. -/
theorem timedCall_covers {now : TimePoint} {h' : ContentHelper} {call : Surroundings × Op}
    {tasks new : List (TimePoint × Task)} (hnow : 0 ≤ now) (hc : Covered tasks h)
    (hs : timedCall hasher now h call = .ok (h', new)) : Covered (tasks ++ new) h' := by
  obtain ⟨hstep, rfl⟩ := timedCall_ok hs
  obtain ⟨es, heffects, hcover⟩ := (step_moves hstep).keepsCovered hnow
  rw [newEffects_eq heffects]
  exact hcover tasks hc

/-- The sweep that runs was outstanding for entries it drops. -/
theorem sweep_covers {now : TimePoint} {env : Surroundings} {h' : ContentHelper}
    {tasks new : List (TimePoint × Task)} (hc : Covered tasks h)
    (hs : timedCall hasher now h (env, .sweepPendingRequests) = .ok (h', new)) :
    Covered (tasks.erase (now, .checkPendingRequests) ++ new) h' := by
  obtain ⟨hstep, -⟩ := timedCall_ok hs
  have hswept : (Except.ok (h.swept now) : Except Fault ContentHelper) = .ok h' := by
    simpa only [step, perform, sweepPendingRequests_run, Except.map] using hstep
  obtain rfl := Except.ok.inj hswept
  refine Covered.more ⟨hc.distinct.filter _, ?_⟩ new
  intro entry he
  obtain ⟨hentry, hlate⟩ := List.mem_filter.mp he
  have hexpiry : now < entry.2.expiry := by simpa using hlate
  apply (List.mem_erase_of_ne _).mpr (hc.outstanding entry hentry)
  intro heq
  exact hexpiry.ne' (Prod.mk.inj heq).1

theorem launched_inTime (flags : Flags) (id : NodeId) (start : ℕ) :
    InTime (launched flags id start) :=
  ⟨Int.natCast_nonneg start, List.nodup_nil, fun _ he => absurd he List.not_mem_nil⟩

/-- Over every run of calls, time and due tasks: each pending request has a sweep due exactly
at its expiry, so that none outlives the sweeps due up to a time, and each sweep, at whatever
moment, drops the expired entries alone with one timeout for each. -/
theorem pending_requests_swept (hasher : List UInt8 → Hash) (flags : Flags) (id : NodeId) (start : ℕ)
    (events : List (Event (Surroundings × Op) Surroundings Task)) :
    Always (timedStep hasher) SweepsOnTime (launched flags id start) events := by
  refine always_of_run fun s past hr => InTime.sweepsOnTime ?_
  refine invariant_of_run InTime ?_ ?_ ?_ (launched_inTime flags id start) hr
  · intro s later hs hlater _
    exact ⟨hs.1.trans hlater, hs.2⟩
  · intro s call h' new hs hcall
    exact ⟨hs.1, timedCall_covers hs.1 hs.2 hcall⟩
  · intro s env task h' new hs _ hcall
    refine ⟨hs.1, ?_⟩
    by_cases htask : task = .checkPendingRequests
    · subst htask
      exact sweep_covers hs.2 hcall
    · refine timedCall_covers hs.1 ⟨hs.2.distinct, fun entry he => ?_⟩ hcall
      apply (List.mem_erase_of_ne _).mpr (hs.2.outstanding entry he)
      intro heq
      exact htask (Prod.mk.inj heq).2.symm

end Sweeping

end YingSma.ContentHelper
