import YingSma.WorkerPoolDrained

/-! `join()` sets its flag without the lock. A worker that has tested the flag and is about to
sleep misses the notification, and then `join()` need not return. When there is no such worker,
it does. -/
namespace YingSma.WorkerPool
open Threadpool TransitionRuns ThreadTotals

variable {n : ℕ} {C Task : Type*} {maxSize : ℕ} {s s' : Pool n C Task}

/-- A step of a worker or of the owner, and no push or spurious wakeup. -/
def Act.isQuiet : Act n C Task → Bool
  | worker _ _ | join => true
  | _ => false

/-- The flag is set, nobody is about to sleep, and those who slept have been woken if the owner
has got so far. -/
structure Closing (s : Pool n C Task) : Prop where
  join : s.join = true
  owner : s.owner = .notifying ∨ s.owner = .joining ∨ s.owner = .joined
  awake : ∀ w, s.workers w ≠ .sleeping
  woken : s.owner ≠ .notifying → ∀ w, s.workers w ≠ .waiting

section Closing

theorem Closing.idle (h : Closing s) : s.idle = false := by
  simp [Pool.idle, h.join]

theorem Move.closing {w : Fin n} {place : Place Task} (hmove : Move maxSize w s place s')
    (h : Closing s) (hplace : s.workers w = place) : Closing s' := by
  have hapart := hmove.apart
  have hw : s'.workers w ≠ .sleeping ∧ s'.workers w ≠ .waiting := by
    have hidle := h.idle
    cases hmove with
    | sleeps => exact absurd hplace (h.awake w)
    | _ => simp_all
  refine ⟨hapart.join.trans h.join, hapart.owner ▸ h.owner, fun v => ?_, fun howner v => ?_⟩
  · by_cases hv : v = w
    · rw [hv]
      exact hw.1
    · rcases hapart.places v hv with hsame | ⟨-, hwoken⟩
      · rw [hsame]
        exact h.awake v
      · simp [hwoken]
  · by_cases hv : v = w
    · rw [hv]
      exact hw.2
    · rcases hapart.places v hv with hsame | ⟨-, hwoken⟩
      · rw [hsame]
        exact h.woken (hapart.owner ▸ howner) v
      · simp [hwoken]

variable [DecidableEq C]

omit [DecidableEq C] in
theorem Closing.places {places : Fin n → Place Task} (h : Closing s)
    (hjoin : s'.join = s.join) (howner : s'.owner = s.owner) (hworkers : s'.workers = places)
    (hplaces : ∀ v, places v = s.workers v ∨ s.workers v = .waiting ∧ places v = .woken) :
    Closing s' := by
  refine ⟨hjoin.trans h.join, howner ▸ h.owner, fun w => ?_, fun hnot w => ?_⟩
  · rw [hworkers]
    rcases hplaces w with hsame | ⟨-, hwoken⟩
    · rw [hsame]
      exact h.awake w
    · simp [hwoken]
  · rw [hworkers]
    rcases hplaces w with hsame | ⟨-, hwoken⟩
    · rw [hsame]
      exact h.woken (howner ▸ hnot) w
    · simp [hwoken]

theorem step_closing {a : Act n C Task} (h : Closing s) (hs : step maxSize s a = .ok s') :
    Closing s' := by
  cases step_steps hs with
  | worker hmove => exact hmove.closing h rfl
  | @spurious w hw =>
    obtain ⟨places, hwoken, hplaces⟩ := (Notified.woken hw).places
    rw [hwoken]
    exact h.places rfl rfl rfl hplaces
  | notify hstored hnotified =>
    obtain ⟨places, rfl, hplaces⟩ := hnotified.places
    exact h.places rfl rfl rfl hplaces
  | stop howner => simpa [howner] using h.owner
  | begins howner => simpa [howner] using h.owner
  | locks howner hmx => simpa [howner] using h.owner
  | sets howner => simpa [howner] using h.owner
  | notifiesAll howner =>
    refine ⟨h.join, by simp, fun w => ?_, fun _ w => ?_⟩
    · have hw := h.awake w
      show (s.workers w).wake ≠ .sleeping
      cases hplace : s.workers w <;> simp_all [Place.wake]
    · show (s.workers w).wake ≠ .waiting
      cases s.workers w <;> simp [Place.wake]
  | ends howner hexited => exact ⟨h.join, by simp, h.awake, fun _ => h.woken (by simp [howner])⟩
  | _ => exact h.places rfl rfl rfl fun v => .inl rfl

theorem run_closing {as : List (Act n C Task)} (h : Closing s)
    (hr : run (step maxSize) s as = .ok s') : Closing s' :=
  run_invariant Closing (fun _ _ _ => step_closing) h hr

end Closing

section Hanging

variable [DecidableEq C]

/-- Some worker can come to sleep for good if nobody pushes. -/
def Hangs (maxSize : ℕ) (s : Pool n C Task) : Prop :=
  ∃ as s', (∀ a ∈ as, Act.isQuiet a = true) ∧ run (step maxSize) s as = .ok s' ∧
    ∃ w, ∀ bs s'', (∀ b ∈ bs, Act.isQuiet b = true) → run (step maxSize) s' bs = .ok s'' →
      s''.workers w = .waiting

theorem Closing.not_hangs (h : Closing s) : ¬ Hangs maxSize s := by
  rintro ⟨as, s', has, hr, w, hw⟩
  have h' := run_closing h hr
  by_cases howner : s'.owner = .notifying
  · have hnext : run (step maxSize) s' [.join] = .ok
        { s' with workers := fun w => (s'.workers w).wake, owner := .joining } := by
      simp [run, step, joinStep, howner]
    have hasleep := hw [.join] _ (by simp [Act.isQuiet]) hnext
    simp only at hasleep
    cases hplace : s'.workers w <;> simp [hplace, Place.wake] at hasleep
  · exact h'.woken howner w (hw [] s' (by simp) rfl)

/-- Nothing is left that could wake the worker. -/
structure Asleep (w : Fin n) (s : Pool n C Task) : Prop where
  waiting : s.workers w = .waiting
  count : s.ring.count = 0
  owner : s.owner = .joining
  notifying : ∀ v task, s.workers v ≠ .notifying task

theorem Asleep.quiet {w : Fin n} {a : Act n C Task} (hsound : Sound s) (h : Asleep w s)
    (ha : a.isQuiet = true) (hs : step maxSize s a = .ok s') : Asleep w s' := by
  cases step_steps hs with
  | @worker v wake s' hmove =>
    have hv := hsound v
    have hnot := h.notifying v
    have howner := hmove.apart.owner
    have hvw : w ≠ v := by
      rintro rfl
      rw [h.waiting] at hmove
      cases hmove
    have hrest : s'.ring.count = 0 ∧ (∀ task, s'.workers v ≠ .notifying task) ∧
        ∀ u, u ≠ v → s'.workers u = s.workers u := by
      generalize s.workers v = place at hmove hv hnot
      cases hmove with
      | takes htake => exact absurd h.count hv.2.1
      | passes hcount => exact absurd h.count hcount
      | notifies hnotified => exact absurd rfl (hnot _)
      | _ => exact ⟨h.count, by simp, fun u hu => Function.update_of_ne hu _ _⟩
    obtain ⟨hcount, hself, hothers⟩ := hrest
    refine ⟨(hothers w hvw).trans h.waiting, hcount, howner.trans h.owner, fun u task => ?_⟩
    by_cases hu : u = v
    · rw [hu]
      exact hself task
    · rw [hothers u hu]
      exact h.notifying u task
  | begins howner => simp [h.owner] at howner
  | locks howner hmx => simp [h.owner] at howner
  | sets howner => simp [h.owner] at howner
  | notifiesAll howner => simp [h.owner] at howner
  | ends howner hexited => simpa [h.waiting] using hexited w
  | _ => cases ha

/-- One for a worker that is about to notify. -/
def Place.notifies : Place Task → ℕ
  | notifying _ => 1
  | _ => 0

theorem notifies_ne_zero {place : Place Task} :
    place.notifies ≠ 0 ↔ ∃ task, place = .notifying task := by
  cases place <;> simp [Place.notifies]

/-- With nobody asleep, those about to notify have nobody to wake. -/
theorem calm_run (maxSize : ℕ) (hnone : ∀ v, s.workers v ≠ .waiting) :
    ∃ as s', (∀ a ∈ as, Act.isQuiet a = true) ∧ run (step maxSize) s as = .ok s' ∧
      s' = { s with workers := s'.workers } ∧ (∀ v task, s'.workers v ≠ .notifying task) ∧
      ∀ v, s'.workers v = s.workers v ∨ ∃ task, s.workers v = .notifying task := by
  induction hk : total Place.notifies s.workers generalizing s with
  | zero =>
    refine ⟨[], s, by simp, rfl, rfl, fun v task hv => ?_, fun v => .inl rfl⟩
    have hle : (s.workers v).notifies ≤ total Place.notifies s.workers := le_total v
    rw [hk, hv] at hle
    cases hle
  | succ k ih =>
    obtain ⟨v, hv⟩ := total_pos (hk.trans_ne (Nat.succ_ne_zero k))
    obtain ⟨task, htask⟩ := notifies_ne_zero.mp hv
    have hwaiting : ∀ u, (s.workers u).isWaiting = false := fun u =>
      Bool.eq_false_iff.mpr fun hu => hnone u (isWaiting_iff.mp hu)
    have hstep : step maxSize s (.worker v none) = .ok (s.goto v (.running task)) := by
      simp [step, workerStep, htask, Pool.notifyOne, hwaiting]
    have htotal := total_update Place.notifies s.workers v (.running task)
    have hless : total Place.notifies (s.goto v (.running task)).workers = k := by
      rw [htask, hk] at htotal
      exact Nat.succ.inj htotal
    have hnone' : ∀ u, (s.goto v (.running task)).workers u ≠ .waiting := by
      intro u
      by_cases hu : u = v
      · simp [hu]
      · simpa [Function.update_of_ne hu] using hnone u
    obtain ⟨as, s', has, hr, hrest, hcalm, hplaces⟩ := ih hnone' hless
    refine ⟨.worker v none :: as, s', ?_, by rw [run_cons_ok _ hstep, hr], hrest, hcalm, fun u => ?_⟩
    · simpa [Act.isQuiet] using has
    · by_cases hu : u = v
      · rw [hu]
        exact .inr ⟨task, htask⟩
      · have hplace := hplaces u
        rwa [goto_workers, Function.update_of_ne hu] at hplace

theorem hangs_of_sleeping {w : Fin n} (hsound : Sound s) (hw : s.workers w = .sleeping)
    (howner : s.owner = .notifying) : Hangs maxSize s := by
  have hfits := hsound w
  rw [hw] at hfits
  have hall : step maxSize s .join =
      .ok { s with workers := fun w => (s.workers w).wake, owner := .joining } := by
    simp [step, joinStep, howner]
  have hnone : ∀ v, (s.workers v).wake ≠ .waiting := by
    intro v
    cases s.workers v <;> simp [Place.wake]
  obtain ⟨as, t, has, hr, hrest, hcalm, hplaces⟩ :=
    calm_run (s := { s with workers := fun w => (s.workers w).wake, owner := .joining }) maxSize
      hnone
  have hsleeping : t.workers w = .sleeping := by
    rcases hplaces w with hsame | ⟨task, htask⟩
    · simpa [hw, Place.wake] using hsame
    · simp [hw, Place.wake] at htask
  have hblock : step maxSize t (.worker w none) = .ok (t.unlock w .waiting) := by
    simp [step, workerStep, hsleeping]
  have hrun : run (step maxSize) s (.join :: (as ++ [.worker w none])) =
      .ok (t.unlock w .waiting) := by
    rw [run_cons_ok _ hall, run_append _ hr, run_cons_ok _ hblock, run_nil]
  have hasleep : Asleep w (t.unlock w .waiting) := by
    refine ⟨by simp, ?_, ?_, fun v task => ?_⟩
    · rw [unlock_ring, hrest]
      exact hfits.2.1
    · rw [unlock_owner, hrest]
    · by_cases hv : v = w
      · simp [hv]
      · simpa [Function.update_of_ne hv] using hcalm v task
  refine ⟨_, _, ?_, hrun, w, fun bs u hbs hu => ?_⟩
  · simpa [Act.isQuiet, or_imp, forall_and] using has
  · have hsound' := run_invariant Sound (fun _ _ _ => step_sound) hsound hrun
    let kept (s : Pool n C Task) : Prop := Sound s ∧ Asleep w s
    refine (run_keeps kept ?_ ⟨hsound', hasleep⟩ hu).2.waiting
    exact fun b hb s s' h hs => ⟨step_sound h.1 hs, h.2.quiet h.1 (hbs b hb) hs⟩

/-- In every interleaving, when the owner has set the flag and nothing is pushed any more, a worker
can be left asleep for good, so that `join()` does not return, if, and only if, some worker has seen
no reason to go on and is about to sleep. -/
theorem hangs_iff (p : Setting) (acts : List (Act n C Task)) :
    Each (step p.maxSize) (fun s a => s.owner = .setting → a = .join → ∀ s',
        step p.maxSize s a = .ok s' → (Hangs p.maxSize s' ↔ ∃ w, s.workers w = .sleeping))
      (start p) acts := by
  refine each_of_prefixes fun past a s _ hr howner ha s' hs => ?_
  have hsound := run_invariant Sound (fun _ _ _ => step_sound) (start_sound p) hr
  subst ha
  have hset : s' = { s with join := true, owner := .notifying } := by
    simpa [step, joinStep, howner] using hs.symm
  subst hset
  constructor
  · intro hhangs
    by_contra hnone
    rw [not_exists] at hnone
    refine Closing.not_hangs ?_ hhangs
    exact ⟨rfl, .inl rfl, hnone, fun howner => absurd rfl howner⟩
  · rintro ⟨w, hw⟩
    exact hangs_of_sleeping (step_sound hsound hs) hw rfl

end Hanging

section Returning

variable {g : History Task}

/-- How many steps at most lead from here to the next task, or out. -/
def Place.steps : Place Task → ℕ
  | taken _ => 9
  | notifying _ => 8
  | running _ => 7
  | returned => 6
  | top => 5
  | locking | woken => 4
  | checking | testing => 3
  | deciding => 2
  | taking => 1
  | sleeping | waiting | exited => 0

/-- A bound on the steps that are left when nobody pushes. -/
def remaining (s : Pool n C Task) : ℕ :=
  total Place.steps s.workers + 9 * s.ring.count + if s.owner = .joined then 0 else 1

theorem steps_le (place : Place Task) : place.steps ≤ 9 := by
  cases place <;> simp [Place.steps]

theorem remaining_le (s : Pool n C Task) : remaining s ≤ 9 * (n + s.ring.count) + 1 := by
  have htotal : total Place.steps s.workers ≤ 9 * Fintype.card (Fin n) := total_le steps_le
  rw [Fintype.card_fin] at htotal
  unfold remaining
  split <;> omega

/-- What holds from `notify_all` on when nobody pushes. -/
structure Finishing (maxSize : ℕ) (r : History Task × Pool n C Task) : Prop where
  sound : Sound r.2
  lined : Lined maxSize r
  handled : Handled r
  closing : Closing r.2
  notified : r.2.owner ≠ .notifying
  pushing : ∀ caller, r.2.pushing caller = none

theorem Notified.nobody_waiting (h : Notified s s') (hnone : ∀ v, s.workers v ≠ .waiting) :
    s' = s := by
  cases h with
  | nobody => rfl
  | woken hv => exact absurd hv (hnone _)

theorem remaining_lt {w : Fin n} {place : Place Task}
    (hworkers : s'.workers = Function.update s.workers w place) (howner : s'.owner = s.owner)
    (hless : place.steps + 9 * s'.ring.count < (s.workers w).steps + 9 * s.ring.count) :
    remaining s' < remaining s := by
  have htotal := total_update Place.steps s.workers w place
  rw [remaining, remaining, hworkers, howner]
  omega

/-- A worker comes closer to its end with each step, and a task taken pays for its run. -/
theorem Move.remaining_lt {w : Fin n} (hmove : Move maxSize w s (s.workers w) s')
    (hsound : Sound s) (h : Closing s) (howner : s.owner ≠ .notifying) :
    remaining s' < remaining s := by
  have hw := hsound w
  have hidle := h.idle
  generalize hplace : s.workers w = place at hmove hw
  cases hmove with
  | takes htake =>
    have hcount := (take_sizes htake).1
    have hpos := hw.2.1
    refine WorkerPool.remaining_lt rfl rfl ?_
    simp only [hplace, Place.steps, unlock_ring]
    omega
  | notifies hnotified =>
    obtain rfl := hnotified.nobody_waiting (h.woken howner)
    exact WorkerPool.remaining_lt rfl rfl (by simp [hplace, Place.steps])
  | sleeps => exact absurd hplace (h.awake w)
  | checksIdle hs => simp [hidle] at hs
  | testsIdle hs => simp [hidle] at hs
  | _ => exact WorkerPool.remaining_lt rfl rfl (by simp [hplace, Place.steps])

variable [DecidableEq C]

theorem step_finishing {r : History Task × Pool n C Task} {a : Act n C Task}
    (h : Finishing maxSize r) (ha : a.isQuiet = true) (hs : step maxSize r.2 a = .ok s') :
    Finishing maxSize (note r.1 r.2 a s', s') ∧ remaining s' < remaining r.2 := by
  have hsafe : StoresSafely r.2 a := by
    cases a with
    | store caller => cases ha
    | _ => trivial
  have hclosing := step_closing h.closing hs
  have hsound := step_sound h.sound hs
  have hlined := (step_lined_iff h.sound h.lined a).mp hsafe s' hs
  have hhandled := step_handled h.handled hs
  have hrest : s'.owner ≠ .notifying ∧ s'.pushing = r.2.pushing ∧
      remaining s' < remaining r.2 := by
    have hnot := h.notified
    cases step_steps hs with
    | worker hmove =>
      exact ⟨hmove.apart.owner ▸ hnot, hmove.apart.pushing,
        hmove.remaining_lt h.sound h.closing hnot⟩
    | begins howner => simpa [howner] using h.closing.owner
    | locks howner hmx => simpa [howner] using h.closing.owner
    | sets howner => simpa [howner] using h.closing.owner
    | notifiesAll howner => exact absurd howner hnot
    | ends howner hexited => exact ⟨by simp, rfl, by simp [remaining, howner]⟩
    | _ => cases ha
  exact ⟨⟨hsound, hlined, hhandled, hclosing, hrest.1, fun c => hrest.2.1 ▸ h.pushing c⟩, hrest.2.2⟩

omit [DecidableEq C] in
/-- A task in the hands of a worker is one that was stored. -/
theorem Finishing.stored {r : History Task × Pool n C Task} (h : Finishing maxSize r) {w : Fin n}
    {task : Option Task} (hw : task ∈ inHand (r.2.workers w)) : ∃ t, task = some t := by
  obtain ⟨queue, -, hsplit⟩ := h.lined
  have hhand : inHand (r.2.workers w) ≤ total inHand r.2.workers :=
    Finset.single_le_sum (f := fun v => inHand (r.2.workers v)) (fun _ _ => Multiset.zero_le _)
      (Finset.mem_univ w)
  have htaken : task ∈ (r.1.taken : Multiset (Option Task)) := by
    rw [h.handled]
    exact Multiset.mem_add.mpr (.inr (Multiset.mem_of_le hhand hw))
  have hmap : task ∈ r.1.stored.map some :=
    hsplit ▸ List.mem_append_left _ (Multiset.mem_coe.mp htaken)
  obtain ⟨t, -, ht⟩ := List.mem_map.mp hmap
  exact ⟨t, ht.symm⟩

omit [DecidableEq C] in
theorem Finishing.worker_goes_on {r : History Task × Pool n C Task} (h : Finishing maxSize r)
    {w : Fin n} (hw : r.2.workers w ≠ .exited) (hmx : r.2.mx = none ∨ r.2.mx = some w) :
    ∃ s', workerStep maxSize w none r.2 = .ok s' := by
  have hfits := h.sound w
  have hfree : r.2.mx ≠ some w → r.2.mx = none := fun hne => hmx.resolve_right hne
  have hwaiting : ∀ v, (r.2.workers v).isWaiting = false := fun v =>
    Bool.eq_false_iff.mpr fun hv => h.closing.woken h.notified v (isWaiting_iff.mp hv)
  unfold workerStep
  cases hplace : r.2.workers w with
  | waiting => exact absurd hplace (h.closing.woken h.notified w)
  | exited => exact absurd hplace hw
  | locking | woken =>
    rw [hplace] at hfits
    simp [Pool.lock, hfree hfits.1]
  | deciding =>
    dsimp only
    split <;> exact ⟨_, rfl⟩
  | taking =>
    rw [hplace] at hfits
    obtain ⟨queue, hqueued, -⟩ := h.lined
    cases queue with
    | nil => exact absurd (hqueued.count_zero.mpr rfl) hfits.2.1
    | cons task queue =>
      obtain ⟨ring', htake, -⟩ := hqueued.take
      simp [htake]
  | notifying task => simp [Pool.notifyOne, hwaiting]
  | running task =>
    have hin : task ∈ inHand (r.2.workers w) := by simp [hplace, inHand]
    obtain ⟨t, rfl⟩ := h.stored hin
    simp [h.pushing]
  | _ => exact ⟨_, rfl⟩

/-- Until `join()` returns, somebody can go on. -/
theorem Finishing.goes_on {r : History Task × Pool n C Task} (h : Finishing maxSize r)
    (howner : r.2.owner ≠ .joined) :
    ∃ a s', Act.isQuiet a = true ∧ step maxSize r.2 a = .ok s' := by
  have hjoining : r.2.owner = .joining :=
    (h.closing.owner.resolve_left h.notified).resolve_right howner
  by_cases hall : ∀ w, r.2.workers w = .exited
  · refine ⟨.join, { r.2 with owner := .joined }, rfl, ?_⟩
    simp only [step, joinStep, hjoining]
    rw [if_pos fun w => isExited_iff.mpr (hall w)]
  · obtain ⟨w, hw⟩ := not_forall.mp hall
    cases hmx : r.2.mx with
    | none =>
      obtain ⟨s', hs⟩ := h.worker_goes_on hw (.inl hmx)
      exact ⟨.worker w none, s', rfl, hs⟩
    | some v =>
      have hv : r.2.workers v ≠ .exited := by
        intro hexited
        have hfits := h.sound v
        rw [hexited] at hfits
        exact hfits.1 hmx
      obtain ⟨s', hs⟩ := h.worker_goes_on hv (.inr hmx)
      exact ⟨.worker v none, s', rfl, hs⟩

/-- Every run without pushes ends, and it ends with `join()`. -/
def Returns (maxSize : ℕ) (s : Pool n C Task) : Prop :=
  ∀ as s', (∀ a ∈ as, Act.isQuiet a = true) → run (step maxSize) s as = .ok s' →
    as.length ≤ 9 * (n + s.ring.count) + 1 ∧
      ((∀ a s'', Act.isQuiet a = true → step maxSize s' a ≠ .ok s'') → s'.owner = .joined)

theorem Finishing.run {r : History Task × Pool n C Task} {as : List (Act n C Task)}
    (h : Finishing maxSize r) (has : ∀ a ∈ as, a.isQuiet = true)
    (hr : TransitionRuns.run (step maxSize) r.2 as = .ok s') :
    (∃ g, Finishing maxSize (g, s')) ∧ remaining s' + as.length ≤ remaining r.2 := by
  induction as generalizing r with
  | nil =>
    obtain rfl := Except.ok.inj hr
    exact ⟨⟨r.1, h⟩, Nat.le_refl _⟩
  | cons a as ih =>
    rw [List.forall_mem_cons] at has
    obtain ⟨s₁, hs, hr'⟩ := run_cons_eq_ok hr
    obtain ⟨h₁, hless⟩ := step_finishing h has.1 hs
    obtain ⟨hlast, hle⟩ := ih h₁ has.2 hr'
    refine ⟨hlast, ?_⟩
    rw [List.length_cons]
    exact (Nat.succ_le_succ hle).trans hless

theorem Finishing.returns {r : History Task × Pool n C Task} (h : Finishing maxSize r) :
    Returns maxSize r.2 := by
  intro as s' has hr
  obtain ⟨⟨g, hlast⟩, hle⟩ := h.run has hr
  refine ⟨(Nat.le_add_left _ _).trans (hle.trans (remaining_le r.2)), fun hstuck => ?_⟩
  by_contra howner
  obtain ⟨a, s'', ha, hs⟩ := hlast.goes_on howner
  exact hstuck a s'' ha hs

/-- Whether a worker was about to sleep when the owner set the flag. -/
def unheard (missed : Bool) (s : Pool n C Task) (a : Act n C Task) (_ : Pool n C Task) : Bool :=
  match a, s.owner with
  | .join, .setting => decide (∃ w, (s.workers w).isSleeping)
  | _, _ => missed

/-- The owner has set the flag and not returned, and nobody was about to sleep. -/
def HeardOf (r : Bool × Pool n C Task) : Prop :=
  r.1 = false → r.2.owner = .notifying ∨ r.2.owner = .joining → Closing r.2

theorem isSleeping_iff {place : Place Task} : place.isSleeping = true ↔ place = .sleeping := by
  cases place <;> simp [Place.isSleeping]

theorem step_heardOf {r : Bool × Pool n C Task} {a : Act n C Task} (h : HeardOf r)
    (hs : step maxSize r.2 a = .ok s') : HeardOf (unheard r.1 r.2 a s', s') := by
  intro hmissed howner
  have hkept : unheard r.1 r.2 a s' = r.1 → r.2.owner = .notifying ∨ r.2.owner = .joining →
      Closing s' := fun hsame hbefore => step_closing (h (hsame ▸ hmissed) hbefore) hs
  cases step_steps hs with
  | worker hmove => exact hkept rfl (hmove.apart.owner ▸ howner)
  | notify hstored hnotified =>
    obtain ⟨places, rfl, -⟩ := hnotified.places
    exact hkept rfl howner
  | stop hbefore => simp [hbefore] at howner
  | begins hbefore =>
    dsimp only at howner
    split at howner <;> simp at howner
  | locks hbefore hmx => simp at howner
  | sets hbefore =>
    have hnone : ¬ ∃ w, (r.2.workers w).isSleeping = true := by
      simpa only [unheard, hbefore, decide_eq_false_iff_not] using hmissed
    refine ⟨rfl, .inl rfl, fun w hw => hnone ⟨w, isSleeping_iff.mpr hw⟩, ?_⟩
    exact fun hnot => absurd rfl hnot
  | notifiesAll hbefore => exact hkept (by simp [unheard, hbefore]) (.inl hbefore)
  | ends hbefore hexited => simp at howner
  | _ => exact hkept rfl howner

/-- Unless a worker was about to sleep when the flag was set, `join()` returns: from `notify_all`
on every run without pushes comes to its end, within a number of steps that is linear in the
workers and the tasks, and only with all workers gone. -/
theorem join_returns (p : Setting) (acts : List (Act n C Task))
    (h : Each (step p.maxSize) StoresSafely (start p) acts) :
    Always (noted (step p.maxSize) unheard)
      (fun r => r.1 = false → r.2.owner = .joining → (∀ caller, r.2.pushing caller = none) →
        Returns p.maxSize r.2) (false, start p) acts := by
  let kept (r : Bool × Pool n C Task) : Prop :=
    HeardOf r ∧ Sound r.2 ∧ ∃ g, Lined p.maxSize (g, r.2) ∧ Handled (g, r.2)
  refine always_of_each kept (C := fun r a => StoresSafely r.2 a) ?_ ?_ ?_
    ((each_noted unheard _ _ _).mpr h)
  · rintro r ⟨hheard, hsound, g, hlined, hhandled⟩ hmissed howner hpushing
    have hfinishing : Finishing p.maxSize (g, r.2) :=
      ⟨hsound, hlined, hhandled, hheard hmissed (.inr howner), by simp [howner], hpushing⟩
    exact hfinishing.returns
  · rintro r a r' ⟨hheard, hsound, g, hlined, hhandled⟩ hsafe hs
    obtain ⟨hs', hnote⟩ := noted_ok hs
    have hheard' := step_heardOf hheard hs'
    rw [← hnote] at hheard'
    exact ⟨hheard', step_sound hsound hs', note g r.2 a r'.2,
      (step_lined_iff hsound hlined a).mp hsafe r'.2 hs', step_handled hhandled hs'⟩
  · refine ⟨fun _ howner => ?_, start_sound p, History.empty, start_lined p, start_handled p⟩
    simp [start] at howner

theorem join_returns_oneTask :
    Always (noted (step 4) unheard)
      (fun r => r.1 = false → r.2.owner = .joining → (∀ caller, r.2.pushing caller = none) →
        Returns 4 r.2) (false, (start ⟨2, 4, by decide⟩ : Pool 1 Unit ℕ)) oneTask :=
  join_returns ⟨2, 4, by decide⟩ oneTask (by decide)

end Returning

end YingSma.WorkerPool
