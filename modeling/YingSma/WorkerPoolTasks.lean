import YingSma.WorkerPool

/-! What becomes of the tasks of a pool. -/
namespace YingSma.WorkerPool
open Threadpool TransitionRuns

variable {n : ℕ} {C Task : Type*} {maxSize : ℕ} {s s' : Pool n C Task}

section Lock

/-- What holds of a worker by the place where it stands. -/
def Fits (s : Pool n C Task) (v : Fin n) : Place Task → Prop
  | .checking | .testing => s.mx = some v ∧ s.pushing (.inl v) = none
  | .sleeping => s.mx = some v ∧ s.ring.count = 0 ∧ s.pushing (.inl v) = none
  | .deciding => s.mx = some v ∧ s.idle = false ∧ s.pushing (.inl v) = none
  | .taking => s.mx = some v ∧ s.ring.count ≠ 0 ∧ s.pushing (.inl v) = none
  | .running _ => s.mx ≠ some v
  | _ => s.mx ≠ some v ∧ s.pushing (.inl v) = none

def Sound (s : Pool n C Task) : Prop := ∀ v, Fits s v (s.workers v)

theorem start_sound (p : Setting) : Sound (start p : Pool n C Task) := fun v => ⟨by simp [start], rfl⟩

theorem Fits.frame {v : Fin n} {place : Place Task} (hv : Fits s v place)
    (hmx : s'.mx = some v ↔ s.mx = some v)
    (hcount : s.mx = some v → s'.ring.count = s.ring.count)
    (hidle : s.mx = some v → s.idle = false → s'.idle = false)
    (hpushing : s.pushing (.inl v) = none → s'.pushing (.inl v) = none) : Fits s' v place := by
  cases place <;> simp_all [Fits]

/-- With the same flags, lock and ring a worker fits as it did. -/
theorem Fits.same {v : Fin n} {place : Place Task} (hv : Fits s v place) (hmx : s'.mx = s.mx)
    (hring : s'.ring = s.ring) (hidle : s'.idle = s.idle) (hpushing : s'.pushing = s.pushing) :
    Fits s' v place :=
  hv.frame (by rw [hmx]) (fun _ => by rw [hring]) (fun _ => by rw [hidle]; exact id)
    (by rw [hpushing]; exact id)

/-- Nothing but a wait is ended. -/
theorem Notified.places (hnotified : Notified s s') :
    ∃ places, s' = { s with workers := places } ∧
      ∀ v, places v = s.workers v ∨ s.workers v = .waiting ∧ places v = .woken := by
  cases hnotified with
  | nobody hnone => exact ⟨s.workers, rfl, fun v => .inl rfl⟩
  | @woken v hv =>
    refine ⟨_, rfl, fun u => ?_⟩
    by_cases huv : u = v
    · subst huv
      exact .inr ⟨hv, Function.update_self _ _ _⟩
    · exact .inl (Function.update_of_ne huv _ _)

theorem Notified.sound (hnotified : Notified s s') (h : Sound s) : Sound s' := by
  obtain ⟨places, rfl, hplaces⟩ := hnotified.places
  intro v
  have hv := h v
  rcases hplaces v with hsame | ⟨hwaiting, hwoken⟩
  · rw [show ({ s with workers := places } : Pool n C Task).workers v = s.workers v from hsame]
    exact hv.same rfl rfl rfl rfl
  · rw [hwaiting] at hv
    rw [show ({ s with workers := places } : Pool n C Task).workers v = .woken from hwoken]
    exact hv

/-- A worker's own step, with the lock taken or let go. -/
theorem move_sound {w : Fin n} (h : Sound s) (hmove : Move maxSize w s (s.workers w) s') :
    Sound s' := by
  have hw := h w
  generalize hplace : s.workers w = place at hmove hw
  intro v
  have hv := h v
  by_cases hvw : v = w
  · subst hvw
    cases hmove with
    | stays hstop hjoin =>
      simp only [Fits, Pool.idle, hstop, Bool.and_eq_false_imp] at hw
      have hcount : s.ring.count ≠ 0 := fun hzero => by simp_all
      simpa [Fits] using ⟨hw.1, hcount, hw.2.2⟩
    | notifies hnotified =>
      obtain ⟨places, rfl, -⟩ := hnotified.places
      simpa [Fits] using hw.1
    | _ => simp_all [Fits, Pool.idle]
  · cases hmove with
    | locks hmx | relocks hmx =>
      rw [goto_workers, Function.update_of_ne hvw]
      exact hv.frame (by simp [hmx, Ne.symm hvw]) (by simp [hmx]) (by simp [hmx]) id
    | sleeps | leaves hleave | takes htake =>
      rw [unlock_workers, Function.update_of_ne hvw]
      exact hv.frame (by simp [hw.1, Ne.symm hvw]) (by simp [hw.1, Ne.symm hvw])
        (by simp [hw.1, Ne.symm hvw]) id
    | notifies hnotified =>
      rw [goto_workers, Function.update_of_ne hvw]
      exact ((hnotified.sound h) v).same rfl rfl rfl rfl
    | _ =>
      rw [goto_workers, Function.update_of_ne hvw]
      exact hv.same rfl rfl rfl rfl

theorem isRunning_iff {place : Place Task} :
    place.isRunning = true ↔ ∃ task, place = .running task := by
  cases place <;> simp [Place.isRunning]

/-- Only a worker in the middle of a task pushes. -/
theorem Sound.running {w : Fin n} {push : Push Task} (h : Sound s)
    (hpush : s.pushing (.inl w) = some push) : ∃ task, s.workers w = .running task := by
  have hw := h w
  cases hplace : s.workers w <;> simp_all [Fits]

/-- The pushes and the lock-free parts of the ring do not touch what a worker relies on. -/
theorem Sound.pushes [DecidableEq C] {caller : Fin n ⊕ C} {push : Option (Push Task)}
    (h : Sound s) (hmx : s'.mx = s.mx) (hworkers : s'.workers = s.workers)
    (hcount : ∀ v, s.mx = some v → s'.ring.count = s.ring.count)
    (hidle : ∀ v, s.mx = some v → s.idle = false → s'.idle = false)
    (hpushing : s'.pushing = Function.update s.pushing caller push)
    (hcaller : ∀ w, caller = .inl w → ∃ task, s.workers w = .running task) : Sound s' := by
  intro v
  have hv := h v
  rw [hworkers]
  by_cases hvcaller : caller = .inl v
  · obtain ⟨task, htask⟩ := hcaller v hvcaller
    rw [htask] at hv ⊢
    simpa [Fits, hmx] using hv
  · refine hv.frame (by rw [hmx]) (hcount v) (hidle v) fun hnone => ?_
    rw [hpushing, Function.update_of_ne (Ne.symm hvcaller)]
    exact hnone

variable [DecidableEq C]

theorem step_sound {a : Act n C Task} (h : Sound s) (hs : step maxSize s a = .ok s') :
    Sound s' := by
  cases step_steps hs with
  | worker hmove => exact move_sound h hmove
  | @spurious w hw => exact (Notified.woken hw).sound h
  | @readSize caller task hmay hnone =>
    refine h.pushes rfl rfl (fun _ _ => rfl) (fun _ _ => id) rfl fun w hcaller => ?_
    subst hcaller
    exact isRunning_iff.mp hmay
  | @store caller sz task ring hsized hmx hstore =>
    refine h.pushes rfl rfl ?_ ?_ rfl fun w hcaller => ?_
    · intro v hv
      rw [hmx] at hv
      cases hv
    · intro v hv
      rw [hmx] at hv
      cases hv
    · subst hcaller
      exact h.running hsized
  | @notify caller wake s₁ hstored hnotified =>
    have h₁ := hnotified.sound h
    obtain ⟨places, rfl, hplaces⟩ := hnotified.places
    refine h₁.pushes rfl rfl (fun _ _ => rfl) (fun _ _ => id) rfl fun w hcaller => ?_
    subst hcaller
    exact h₁.running hstored
  | stop howner => exact fun v => (h v).frame Iff.rfl (fun _ => rfl) (fun _ _ => rfl) id
  | begins howner => exact fun v => (h v).same rfl rfl rfl rfl
  | locks howner hmx => exact fun v => (h v).same rfl rfl rfl rfl
  | sets howner =>
    refine fun v => (h v).frame Iff.rfl (fun _ => rfl) (fun _ _ => ?_) id
    simp [Pool.idle]
  | notifiesAll howner =>
    intro v
    have hv := h v
    show Fits _ v (s.workers v).wake
    cases hplace : s.workers v <;> rw [hplace] at hv <;> exact hv
  | ends howner hexited => exact fun v => (h v).same rfl rfl rfl rfl

end Lock

section Order

variable {ring ring' : SharedState Task} {queue : List Task} {sz : ℕ} {task : Task}

/-- What has been stored and taken, and what has been run to its end. -/
structure History (Task : Type*) where
  stored : List Task
  taken : List (Option Task)
  returned : List (Option Task)

def History.empty : History Task := ⟨[], [], []⟩

def note (h : History Task) (s : Pool n C Task) (a : Act n C Task) (s' : Pool n C Task) :
    History Task :=
  match a with
  | .store caller =>
      match s.pushing caller with
      | some (.sized _ task) => { h with stored := h.stored ++ [task] }
      | _ => h
  | .worker w _ =>
      match s.workers w, s'.workers w with
      | .taking, .taken task => { h with taken := h.taken ++ [task] }
      | .running task, .returned => { h with returned := h.returned ++ [task] }
      | _, _ => h
  | _ => h

/-- The ring is the queue of the tasks stored and not yet taken. -/
def Lined (maxSize : ℕ) (r : History Task × Pool n C Task) : Prop :=
  ∃ queue, Queued maxSize r.2.ring queue ∧ r.1.taken ++ queue.map some = r.1.stored.map some

/-- The size read before is as good as the size now: the ring is found full at this size, or it
has room and wraps at neither of the two, or at both. -/
def SizeFits (sz : ℕ) (ring : SharedState Task) : Prop :=
  ring.count = sz ∨
    ring.count < ring.tasks.length ∧ (ring.p + 1 = sz ↔ ring.p + 1 = ring.tasks.length)

theorem resize_fits {len : ℕ} (h : ring.resize maxSize len = .ok ring') : len ≤ maxSize := by
  by_contra hlong
  rw [SharedState.resize, vector, if_neg hlong] at h
  cases h

theorem storeSized_queued (h : Queued maxSize ring queue) (hfits : SizeFits sz ring)
    (hstore : storeSized maxSize sz task ring = .ok ring') :
    Queued maxSize ring' (queue ++ [task]) := by
  unfold storeSized at hstore
  by_cases hfull : ring.count = sz
  · rw [if_pos hfull] at hstore
    split at hstore
    · cases hstore
    · next s₁ hresize =>
      by_cases hzero : sz = 0
      · -- a ring of no places cannot be put into
        subst hzero
        simp only [SharedState.resize, vector, hfull, ringmove, ringmoveFrom, Nat.zero_mul,
          Nat.zero_le, if_true, Except.ok.injEq] at hresize
        subst hresize
        cases hstore
      · obtain ⟨s', hs, hqueued, hlength, hcount⟩ :=
          h.resize (show ring.count < sz * 2 by omega) (resize_fits hresize)
        obtain rfl := Except.ok.inj (hresize.symm.trans hs)
        obtain ⟨s', hput, hput'⟩ :=
          (hqueued.scale true).put (by simp only [hcount, hlength]; omega) task
        simp only [hlength] at hput
        obtain rfl := Except.ok.inj (hstore.symm.trans hput)
        exact hput'
  · rw [if_neg hfull] at hstore
    obtain ⟨hroom, hwrap⟩ := hfits.resolve_left hfull
    obtain ⟨s', hput, hqueued⟩ := h.put hroom task
    have hsame : ring.put sz task = ring.put ring.tasks.length task := by
      simp only [SharedState.put, hwrap]
    obtain rfl := Except.ok.inj (hstore.symm.trans (hsame.trans hput))
    exact hqueued

/-- Otherwise the head is overwritten, or the next place is not the one behind the task. -/
theorem storeSized_unfit (h : Queued maxSize ring queue) (hunfit : ¬ SizeFits sz ring) :
    ∃ ring', storeSized maxSize sz task ring = .ok ring' ∧
      ¬ Queued maxSize ring' (queue ++ [task]) := by
  obtain ⟨hfull, hwrap⟩ := not_or.mp hunfit
  have hlt := h.t_lt
  have hp : ring.p < ring.tasks.length := by
    rw [h.p_eq]
    exact Nat.mod_lt _ (by omega)
  refine ⟨_, by rw [storeSized, if_neg hfull, SharedState.put, if_pos hp], fun hqueued => ?_⟩
  have hle := hqueued.count_le
  have hnext := hqueued.p_eq
  simp only [List.length_set] at hle hnext
  rw [← Nat.add_assoc, ← Nat.mod_add_mod, ← h.p_eq, ← next_eq_mod hp] at hnext
  refine hwrap ⟨hle, ?_⟩
  split at hnext <;> split at hnext <;> omega

instance : Decidable (SizeFits sz ring) := inferInstanceAs (Decidable (_ ∨ _))

def Fitting (ring : SharedState Task) : Option (Push Task) → Prop
  | some (.sized sz _) => SizeFits sz ring
  | _ => True

instance : DecidablePred (Fitting ring)
  | none => isTrue trivial
  | some .stored => isTrue trivial
  | some (.sized sz _) => inferInstanceAs (Decidable (SizeFits sz ring))

/-- A push finds in its critical section a ring that its size fits. -/
def StoresSafely (s : Pool n C Task) : Act n C Task → Prop
  | .store caller => s.mx = none → Fitting s.ring (s.pushing caller)
  | _ => True

instance : DecidablePred (StoresSafely s)
  | .store _ => inferInstanceAs (Decidable (_ → _))
  | .worker .. | .spurious _ | .readSize .. | .notify .. | .stop | .join => isTrue trivial

theorem powerOfTwo_pos {minCapacity : ℕ} (h : 0 < minCapacity) : 0 < powerOfTwo minCapacity := by
  unfold powerOfTwo
  split
  · simp [Nat.shiftLeft_eq]
  · exact h

theorem capacity_pos (minCapacity : ℕ) : 0 < capacity minCapacity := by
  refine powerOfTwo_pos ?_
  split <;> omega

variable {g : History Task}

theorem start_lined (p : Setting) :
    Lined p.maxSize (History.empty, (start p : Pool n C Task)) := by
  refine ⟨[], ?_, rfl⟩
  exact
    { count_le := Nat.zero_le _
      p_eq := by simp [start]
      t_lt := by simpa [start] using capacity_pos p.minCapacity
      minCapacity_pos := capacity_pos p.minCapacity
      fits := p.fits
      count_eq := rfl
      holds := RingWindow.holds_nil _ _ }

/-- A worker that takes a task takes the one stored first. -/
theorem move_lined {w : Fin n} {wake : Option (Fin n)} (hsound : Sound s)
    (h : Lined maxSize (g, s)) (hmove : Move maxSize w s (s.workers w) s') :
    Lined maxSize (note g s (.worker w wake) s', s') := by
  obtain ⟨queue, hqueued, hsplit⟩ := h
  have hw := hsound w
  generalize hplace : s.workers w = place at hmove hw
  cases hmove with
  | takes htake =>
    cases queue with
    | nil => exact absurd (hqueued.count_zero.mpr rfl) hw.2.1
    | cons task queue =>
      obtain ⟨ring', hs, hqueued'⟩ := hqueued.take
      obtain ⟨rfl, rfl⟩ := Prod.mk.inj (Except.ok.inj (htake.symm.trans hs))
      refine ⟨queue, hqueued', ?_⟩
      simpa [note, hplace] using hsplit
  | notifies hnotified =>
    obtain ⟨places, rfl, -⟩ := hnotified.places
    exact ⟨queue, hqueued, by simpa [note, hplace] using hsplit⟩
  | _ => exact ⟨queue, hqueued, by simpa [note, hplace] using hsplit⟩

variable [DecidableEq C]

/-- One step keeps the order if, and only if, the push that it may be part of finds the ring as it
saw it. -/
theorem step_lined_iff (hsound : Sound s) (h : Lined maxSize (g, s)) (a : Act n C Task) :
    StoresSafely s a ↔
      ∀ s', step maxSize s a = .ok s' → Lined maxSize (note g s a s', s') := by
  by_cases hstores : ∃ caller, a = .store caller
  · obtain ⟨caller, rfl⟩ := hstores
    obtain ⟨queue, hqueued, hsplit⟩ := h
    constructor
    · intro hsafe s' hs
      cases step_steps hs with
      | @store caller sz task ring hsized hmx hstore =>
        have hfits : Fitting s.ring (s.pushing caller) := hsafe hmx
        rw [hsized] at hfits
        refine ⟨queue ++ [task], storeSized_queued hqueued hfits hstore, ?_⟩
        simp only [note, hsized, List.map_append, ← List.append_assoc]
        rw [hsplit]
    · intro hstep hmx
      rcases hsized : s.pushing caller with _ | (⟨sz, task⟩ | _)
      case none => trivial
      case some.stored => trivial
      by_contra hunfit
      have hlost : ∃ ring', storeSized maxSize sz task s.ring = .ok ring' ∧
          ¬ Queued maxSize ring' (queue ++ [task]) := storeSized_unfit hqueued hunfit
      obtain ⟨ring', hstore, hbroken⟩ := hlost
      obtain ⟨queue', hqueued', hsplit'⟩ := hstep _ (by simp only [step, hsized, hmx, hstore]; rfl)
      refine hbroken ?_
      have hqueue : queue' = queue ++ [task] := by
        simp only [note, hsized, List.map_append] at hsplit'
        rw [← hsplit, List.append_assoc] at hsplit'
        have htail := List.append_cancel_left hsplit'
        rw [← List.map_append] at htail
        exact List.map_injective_iff.mpr (Option.some_injective Task) htail
      rw [← hqueue]
      exact hqueued'
  · refine ⟨fun _ s' hs => ?_, fun _ => ?_⟩
    · cases step_steps hs with
      | worker hmove => exact move_lined hsound h hmove
      | store hsized hmx hstore => exact absurd ⟨_, rfl⟩ hstores
      | notify hstored hnotified =>
        obtain ⟨places, rfl, -⟩ := hnotified.places
        exact h
      | _ => exact h
    · cases a with
      | store caller => exact absurd ⟨caller, rfl⟩ hstores
      | _ => trivial

theorem always_sound (p : Setting) (acts : List (Act n C Task)) :
    Always (step p.maxSize) Sound (start p) acts :=
  always_of_run fun _ _ hr => run_invariant Sound (fun _ _ _ => step_sound) (start_sound p) hr

/-- In every interleaving, the ring is at all times the queue of the tasks stored and not yet taken
if, and only if, no push stores with a size that no longer fits the ring. -/
theorem lined_iff (p : Setting) (acts : List (Act n C Task)) :
    Always (noted (step p.maxSize) note) (Lined p.maxSize) (History.empty, start p) acts ↔
      Each (step p.maxSize) StoresSafely (start p) acts := by
  let both (r : History Task × Pool n C Task) : Prop := Sound r.2 ∧ Lined p.maxSize r
  let sound (r : History Task × Pool n C Task) : Prop := Sound r.2
  have hboth : Always (noted (step p.maxSize) note) (Lined p.maxSize)
        (History.empty, (start p : Pool n C Task)) acts ↔
      Always (noted (step p.maxSize) note) both (History.empty, start p) acts :=
    always_congr sound (fun r a r' h hs => step_sound h (noted_ok hs).1)
      (fun r h => (and_iff_right h).symm) (start_sound p)
  rw [hboth, ← each_noted note History.empty]
  refine always_iff_each (fun r a h => ?_) ⟨start_sound p, start_lined p⟩ acts
  refine (step_lined_iff h.1 h.2 a).trans ⟨fun hstep r' hs => ?_, fun hstep s' hs => ?_⟩
  · obtain ⟨hs', hnote⟩ := noted_ok hs
    have hlined := hstep r'.2 hs'
    rw [← hnote] at hlined
    exact ⟨step_sound h.1 hs', hlined⟩
  · exact (hstep _ (noted_of_ok note r.1 hs)).2

end Order

end YingSma.WorkerPool
