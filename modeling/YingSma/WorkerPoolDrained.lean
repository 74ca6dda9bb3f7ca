import YingSma.WorkerPoolTasks

/-! Pushes one at a time keep the order. A pool that is joined runs all its tasks first, and no
task is left to workers that are asleep. -/
namespace YingSma.WorkerPool
open Threadpool TransitionRuns ThreadTotals

variable {n : ℕ} {C Task : Type*} {maxSize : ℕ} {s s' : Pool n C Task}

section Sizes

variable {ring ring' : SharedState Task} {task : Task} {sz : ℕ}

theorem ringmoveFrom_length {m d off : ℕ} {dst src dst' src' : List (Option Task)}
    (h : ringmoveFrom m d off dst src = .ok (dst', src')) : dst'.length = dst.length := by
  induction m generalizing d off dst src with
  | zero =>
    obtain ⟨rfl, -⟩ := Prod.mk.inj (Except.ok.inj h)
    rfl
  | succ m ih =>
    unfold ringmoveFrom at h
    split at h
    · cases h
    · split at h
      · rw [ih h, List.length_set]
      · cases h

/-- A ring that was moved starts at the front. -/
theorem resize_sizes {len : ℕ} (h : ring.resize maxSize len = .ok ring') :
    ring'.tasks.length = len ∧ ring'.p = ring.count ∧ ring'.count = ring.count ∧
      ring'.minCapacity = ring.minCapacity := by
  have hfits := resize_fits h
  simp only [SharedState.resize, vector, if_pos hfits] at h
  split at h
  · cases h
  · next hmove =>
    obtain rfl := Except.ok.inj h
    exact ⟨by simpa using ringmoveFrom_length hmove, rfl, rfl, rfl⟩

theorem put_sizes (h : ring.put sz task = .ok ring') :
    ring'.tasks.length = ring.tasks.length ∧ ring'.count = ring.count + 1 ∧
      ring'.minCapacity = ring.minCapacity := by
  unfold SharedState.put at h
  split at h
  · obtain rfl := Except.ok.inj h
    exact ⟨List.length_set, rfl, rfl⟩
  · cases h

theorem storeSized_sizes (h : storeSized maxSize sz task ring = .ok ring') :
    ring'.count = ring.count + 1 ∧ ring'.minCapacity = ring.minCapacity ∧
      ring'.tasks.length = if ring.count = sz then sz * 2 else ring.tasks.length := by
  unfold storeSized at h
  by_cases hfull : ring.count = sz
  · rw [if_pos hfull] at h
    split at h
    · cases h
    · next hresize =>
      obtain ⟨hlength, -, hcount, hmin⟩ := resize_sizes hresize
      obtain ⟨hlength', hcount', hmin'⟩ := put_sizes h
      rw [if_pos hfull]
      exact ⟨by rw [hcount', hcount], by rw [hmin', hmin], hlength'.trans hlength⟩
  · rw [if_neg hfull] at h
    obtain ⟨hlength, hcount, hmin⟩ := put_sizes h
    rw [if_neg hfull]
    exact ⟨hcount, hmin, hlength⟩

/-- A ring shrinks only to the capacity that it had at first, with its tasks at the front. -/
theorem take_sizes {taken : Option Task} (h : ring.take maxSize = .ok (taken, ring')) :
    ring'.count = ring.count - 1 ∧ ring'.minCapacity = ring.minCapacity ∧
      (ring'.tasks.length = ring.tasks.length ∧ ring'.p = ring.p ∨
        ring'.tasks.length = ring.minCapacity ∧ ring'.p = ring'.count ∧
          ring'.p < ring.minCapacity / 2) := by
  unfold SharedState.take at h
  split at h
  · cases h
  · dsimp only at h
    split at h
    · next hlow =>
      obtain ⟨s₁, hresize, hpair⟩ := map_eq_ok h
      obtain ⟨-, rfl⟩ := Prod.mk.inj hpair
      obtain ⟨hlength, hp, hcount, hmin⟩ := resize_sizes hresize
      simp only [Bool.and_eq_true, decide_eq_true_eq] at hlow
      exact ⟨hcount, hmin, .inr ⟨hlength, hp.trans hcount.symm, hp ▸ hlow.2⟩⟩
    · obtain ⟨-, rfl⟩ := Prod.mk.inj (Except.ok.inj h)
      exact ⟨rfl, rfl, .inl ⟨List.length_set, rfl⟩⟩

/-- The size of now, or of before the ring shrank with nothing put into it since. -/
def Stable (sz : ℕ) (ring : SharedState Task) : Prop :=
  sz = ring.tasks.length ∨
    ring.tasks.length = ring.minCapacity ∧ ring.minCapacity ≤ sz ∧
      ring.count ≤ ring.p ∧ ring.p < ring.minCapacity / 2

theorem Stable.sizeFits (h : Stable sz ring) (hle : ring.count ≤ ring.tasks.length) :
    SizeFits sz ring := by
  rcases h with rfl | ⟨hlength, hsz, hcount, hp⟩
  · rcases hle.eq_or_lt with heq | hlt
    · exact .inl heq
    · exact .inr ⟨hlt, Iff.rfl⟩
  · exact .inr ⟨by omega, by omega⟩

theorem Stable.take {taken : Option Task} (h : Stable sz ring)
    (hmin : ring.minCapacity ≤ ring.tasks.length)
    (htake : ring.take maxSize = .ok (taken, ring')) : Stable sz ring' := by
  obtain ⟨hcount, hcapacity, hsizes⟩ := take_sizes htake
  rcases hsizes with ⟨hlength, hp⟩ | ⟨hlength, hp, hlow⟩
  · refine h.imp (fun h => h.trans hlength.symm) fun ⟨hlength', hsz, hle, hlow⟩ => ?_
    exact ⟨by omega, by omega, by omega, by omega⟩
  · right
    refine ⟨by omega, ?_, by omega, by omega⟩
    rcases h with rfl | ⟨-, hsz, -, -⟩ <;> omega

end Sizes

section Serial

/-- At most one push is between the reading of the size and its critical section. -/
structure Alone (s : Pool n C Task) : Prop where
  pos : 0 < s.ring.minCapacity
  min_le : s.ring.minCapacity ≤ s.ring.tasks.length
  count_le : s.ring.count ≤ s.ring.tasks.length
  stable : ∀ caller sz task, s.pushing caller = some (.sized sz task) → Stable sz s.ring
  unique : ∀ caller sz task caller' sz' task', s.pushing caller = some (.sized sz task) →
    s.pushing caller' = some (.sized sz' task') → caller' = caller

def isSized : Option (Push Task) → Bool
  | some (.sized ..) => true
  | _ => false

/-- A push begins only when no other one is on its way to its critical section. -/
def Serial (s : Pool n C Task) : Act n C Task → Prop
  | .readSize _ _ => ∀ caller, isSized (s.pushing caller) = false
  | _ => True

instance [Fintype C] : DecidablePred (Serial s)
  | .readSize .. => inferInstanceAs (Decidable (∀ _, _))
  | .worker .. | .spurious _ | .store _ | .notify .. | .stop | .join => isTrue trivial

theorem start_alone (p : Setting) : Alone (start p : Pool n C Task) where
  pos := capacity_pos p.minCapacity
  min_le := by simp [start]
  count_le := Nat.zero_le _
  stable := by simp [start]
  unique := by simp [start]

theorem Alone.same (h : Alone s) (hring : s'.ring = s.ring) (hpushing : s'.pushing = s.pushing) :
    Alone s' := by
  obtain ⟨hpos, hmin, hle, hstable, hunique⟩ := h
  rw [← hring] at hpos hmin hle hstable
  rw [← hpushing] at hstable hunique
  exact ⟨hpos, hmin, hle, hstable, hunique⟩

variable [DecidableEq C]

theorem sized_of_update {caller c : Fin n ⊕ C} {push : Option (Push Task)} {sz : ℕ} {task : Task}
    (h : Function.update s.pushing caller push c = some (.sized sz task)) :
    c = caller ∧ push = some (.sized sz task) ∨ s.pushing c = some (.sized sz task) := by
  by_cases hc : c = caller
  · subst hc
    rw [Function.update_self] at h
    exact .inl ⟨rfl, h⟩
  · rw [Function.update_of_ne hc] at h
    exact .inr h

/-- A push that is past its critical section does not count any more. -/
theorem Alone.pushes {caller : Fin n ⊕ C} {push : Option (Push Task)} (h : Alone s)
    (hring : s'.ring = s.ring) (hpushing : s'.pushing = Function.update s.pushing caller push)
    (hpush : ∀ sz task, push ≠ some (.sized sz task)) : Alone s' := by
  have hsized : ∀ {c sz task}, s'.pushing c = some (.sized sz task) →
      s.pushing c = some (.sized sz task) := by
    intro c sz task hc
    rw [hpushing] at hc
    exact (sized_of_update hc).resolve_left fun h => hpush sz task h.2
  refine ⟨hring ▸ h.pos, hring ▸ h.min_le, hring ▸ h.count_le, fun c sz task hc => ?_, ?_⟩
  · rw [hring]
    exact h.stable c sz task (hsized hc)
  · intro c sz task c' sz' task' hc hc'
    exact h.unique c sz task c' sz' task' (hsized hc) (hsized hc')

theorem step_alone {a : Act n C Task} (h : Alone s) (hserial : Serial s a)
    (hs : step maxSize s a = .ok s') : Alone s' := by
  cases step_steps hs with
  | @worker w wake s' hmove =>
    generalize s.workers w = place at hmove
    cases hmove with
    | takes htake =>
      obtain ⟨hcount, hcapacity, hsizes⟩ := take_sizes htake
      have hmin := h.min_le
      have hle := h.count_le
      refine ⟨hcapacity ▸ h.pos, ?_, ?_, fun caller sz task hsized => ?_, h.unique⟩
      · simp only [unlock_ring]
        omega
      · simp only [unlock_ring]
        omega
      · exact (h.stable caller sz task hsized).take hmin htake
    | notifies hnotified =>
      obtain ⟨places, rfl, -⟩ := hnotified.places
      exact h.same rfl rfl
    | _ => exact h.same rfl rfl
  | @readSize caller task hmay hnone =>
    -- the size read is that of now, and nobody else has read one
    have hown : ∀ {c sz task'},
        (s.pushes caller (some (.sized s.ring.tasks.length task))).pushing c =
          some (.sized sz task') → c = caller ∧ sz = s.ring.tasks.length := by
      intro c sz task' hc
      rcases sized_of_update hc with ⟨hcaller, hpush⟩ | hc
      · cases hpush
        exact ⟨hcaller, rfl⟩
      · have hnone := hserial c
        rw [hc] at hnone
        cases hnone
    refine ⟨h.pos, h.min_le, h.count_le, fun c sz task' hc => .inl (hown hc).2, ?_⟩
    intro c sz task' c' sz' task'' hc hc'
    rw [(hown hc).1, (hown hc').1]
  | @store caller sz task ring hsized hmx hstore =>
    have hstable := h.stable caller sz task hsized
    obtain ⟨hcount, hcapacity, hlength⟩ := storeSized_sizes hstore
    have hpos := h.pos
    have hmin := h.min_le
    have hle := h.count_le
    have hnone : ∀ {c sz' task'}, ({ s with ring := ring }.pushes caller (some .stored)).pushing c ≠
        some (.sized sz' task') := by
      intro c sz' task' hc
      rcases sized_of_update hc with ⟨-, hpush⟩ | hc
      · cases hpush
      · have hcaller := h.unique caller sz task c sz' task' hsized hc
        subst hcaller
        simp at hc
    have hroom : ring.minCapacity ≤ ring.tasks.length ∧ ring.count ≤ ring.tasks.length := by
      have hsz : s.ring.minCapacity ≤ sz := by
        rcases hstable with rfl | ⟨-, hsz, -, -⟩
        · exact hmin
        · exact hsz
      rcases hstable.sizeFits hle with hfull | ⟨hlt, -⟩
      · rw [hlength, if_pos hfull]
        omega
      · rw [hlength]
        split <;> omega
    exact ⟨hcapacity ▸ hpos, hroom.1, hroom.2, fun c sz' task' hc => absurd hc hnone,
      fun c sz' task' _ _ _ hc => absurd hc hnone⟩
  | @notify caller wake s₁ hstored hnotified =>
    obtain ⟨places, rfl, -⟩ := hnotified.places
    exact h.pushes rfl rfl fun _ _ hpush => by cases hpush
  | _ => exact h.same rfl rfl

omit [DecidableEq C] in
theorem Alone.storesSafely (h : Alone s) (a : Act n C Task) : StoresSafely s a := by
  cases a with
  | store caller =>
    intro _
    rcases hsized : s.pushing caller with _ | (⟨sz, task⟩ | _)
    · trivial
    · exact (h.stable caller sz task hsized).sizeFits h.count_le
    · trivial
  | _ => trivial

/-- Pushes that do not overlap keep the tasks in order, whatever the workers do meanwhile. -/
theorem serial_lined (p : Setting) (acts : List (Act n C Task))
    (h : Each (step p.maxSize) Serial (start p) acts) :
    Always (noted (step p.maxSize) note) (Lined p.maxSize) (History.empty, start p) acts := by
  let kept (r : History Task × Pool n C Task) : Prop :=
    Alone r.2 ∧ Sound r.2 ∧ Lined p.maxSize r
  refine always_of_each kept (C := fun r a => Serial r.2 a) (fun r hr => hr.2.2) ?_
    ⟨start_alone p, start_sound p, start_lined p⟩ ((each_noted note _ _ _).mpr h)
  rintro r a r' ⟨halone, hsound, hlined⟩ ha hs
  obtain ⟨hs', hnote⟩ := noted_ok hs
  have hlined' := (step_lined_iff hsound hlined a).mp (halone.storesSafely a) r'.2 hs'
  rw [← hnote] at hlined'
  exact ⟨step_alone halone ha hs', step_sound hsound hs', hlined'⟩

/-- Three tasks, for which the ring grows, a worker that takes them, after which it shrinks, and
another task then. -/
def fourTasks : List (Act 1 Unit ℕ) :=
  let push (task : ℕ) : List (Act 1 Unit ℕ) :=
    [.readSize (.inr ()) task, .store (.inr ()), .notify (.inr ()) none]
  [7, 8, 9].flatMap push ++ List.replicate 24 (.worker 0 none) ++ push 10

theorem serial_lined_fourTasks :
    Always (noted (step 4) note) (Lined 4)
      (History.empty, (start ⟨2, 4, by decide⟩ : Pool 1 Unit ℕ)) fourTasks :=
  serial_lined ⟨2, 4, by decide⟩ fourTasks (by decide +kernel)

/-- One worker, and a task that comes from outside of the pool before it is joined. -/
def oneTask : List (Act 1 Unit ℕ) :=
  [.readSize (.inr ()) 7, .store (.inr ()), .notify (.inr ()) none] ++
    List.replicate 8 (.worker 0 none) ++ List.replicate 4 .join ++
    List.replicate 4 (.worker 0 none) ++ [.join]

end Serial

section Others

/-- What a worker's step leaves alone. -/
structure Apart (w : Fin n) (s s' : Pool n C Task) : Prop where
  stop : s'.stop = s.stop
  join : s'.join = s.join
  owner : s'.owner = s.owner
  pushing : s'.pushing = s.pushing
  places : ∀ v, v ≠ w →
    s'.workers v = s.workers v ∨ s.workers v = .waiting ∧ s'.workers v = .woken

theorem Move.apart {w : Fin n} {place : Place Task} (hmove : Move maxSize w s place s') :
    Apart w s s' := by
  cases hmove with
  | notifies hnotified =>
    obtain ⟨places, rfl, hplaces⟩ := hnotified.places
    refine ⟨rfl, rfl, rfl, rfl, fun v hv => ?_⟩
    rw [goto_workers, Function.update_of_ne hv]
    exact hplaces v
  | _ => exact ⟨rfl, rfl, rfl, rfl, fun v hv => .inl (Function.update_of_ne hv _ _)⟩

theorem exited_of_places {place place' : Place Task}
    (h : place' = place ∨ place = .waiting ∧ place' = .woken) :
    place' = .exited ↔ place = .exited := by
  rcases h with rfl | ⟨rfl, rfl⟩ <;> simp

/-- Without a stop, a worker leaves only when it sees no task. -/
theorem Move.exits {w : Fin n} {place : Place Task} (hmove : Move maxSize w s place s')
    (hstop : s.stop = false) :
    s'.workers w ≠ .exited ∨ s.join = true ∧ s'.ring.count = 0 := by
  cases hmove with
  | stops hs => simp [hstop] at hs
  | leaves hleave =>
    rcases hleave with hs | ⟨hcount, hjoin⟩
    · simp [hstop] at hs
    · exact .inr ⟨hjoin, hcount⟩
  | drains hjoin hcount => exact .inr ⟨hjoin, hcount⟩
  | _ => simp

theorem Move.not_exited {w : Fin n} {place : Place Task} (hmove : Move maxSize w s place s') :
    place ≠ .exited := by
  cases hmove <;> simp

end Others

section Drained

variable {g : History Task}

/-- The task a worker has taken and not run to its end. -/
def inHand : Place Task → Multiset (Option Task)
  | .taken task | .notifying task | .running task => {task}
  | _ => 0

/-- A task that was taken is in the hands of a worker, or has been run. -/
def Handled (r : History Task × Pool n C Task) : Prop :=
  (r.1.taken : Multiset (Option Task)) = r.1.returned + total inHand r.2.workers

theorem start_handled (p : Setting) : Handled (History.empty, (start p : Pool n C Task)) := by
  have hnobody : total inHand (start p : Pool n C Task).workers = 0 := total_zero fun _ => rfl
  rw [Handled, hnobody]
  rfl

theorem total_inHand_of_places {places : Fin n → Place Task}
    (h : ∀ v, places v = s.workers v ∨ s.workers v = .waiting ∧ places v = .woken) :
    total inHand places = total inHand s.workers := by
  refine total_congr fun v => ?_
  rcases h v with hsame | ⟨hwaiting, hwoken⟩
  · rw [hsame]
  · rw [hwaiting, hwoken]
    rfl

/-- What was taken and not yet in hand, `x`, and what was in hand and has been run, `y`. -/
theorem Handled.goto {g' : History Task} {w : Fin n} {place : Place Task}
    {x y : Multiset (Option Task)} (h : Handled (g, s))
    (hworkers : s'.workers = Function.update s.workers w place)
    (htaken : (g'.taken : Multiset (Option Task)) = g.taken + x)
    (hreturned : (g'.returned : Multiset (Option Task)) = g.returned + y)
    (hbalance : x + inHand (s.workers w) = y + inHand place) : Handled (g', s') := by
  have htotal := total_update inHand s.workers w place
  rw [Handled] at h
  have hsum : (g'.taken : Multiset (Option Task)) + inHand (s.workers w) =
      g'.returned + total inHand s'.workers + inHand (s.workers w) := by
    calc (g'.taken : Multiset (Option Task)) + inHand (s.workers w)
        = g.taken + (x + inHand (s.workers w)) := by rw [htaken, add_assoc]
      _ = g.returned + total inHand s.workers + (y + inHand place) := by rw [hbalance, h]
      _ = g.returned + y + (total inHand s.workers + inHand place) := by ac_rfl
      _ = g'.returned + total inHand s'.workers + inHand (s.workers w) := by
        rw [← htotal, hreturned, hworkers, ← add_assoc]
  exact add_right_cancel hsum

theorem move_handled {w : Fin n} {wake : Option (Fin n)} (h : Handled (g, s))
    (hmove : Move maxSize w s (s.workers w) s') :
    Handled (note g s (.worker w wake) s', s') := by
  generalize hplace : s.workers w = place at hmove
  cases hmove with
  | @takes task ring htake =>
    refine h.goto (x := {task}) (y := 0) rfl ?_ ?_ ?_
    · simp only [note, hplace, unlock_workers, Function.update_self]
      exact (Multiset.coe_add _ _).symm
    · simp [note, hplace]
    · simp [hplace, inHand]
  | @returns task hpushing =>
    refine h.goto (x := 0) (y := {some task}) rfl ?_ ?_ ?_
    · simp [note, hplace]
    · simp only [note, hplace, goto_workers, Function.update_self]
      exact (Multiset.coe_add _ _).symm
    · simp [hplace, inHand]
  | notifies hnotified =>
    obtain ⟨places, rfl, hplaces⟩ := hnotified.places
    have h₁ : Handled (g, { s with workers := places }) := by
      rw [Handled, total_inHand_of_places hplaces]
      exact h
    have hw : places w = s.workers w := (hplaces w).resolve_right fun hwaiting => by
      rw [hplace] at hwaiting
      cases hwaiting.1
    refine h₁.goto (x := 0) (y := 0) rfl ?_ ?_ ?_
    · simp [note, hplace]
    · simp [note, hplace]
    · simp [hw, hplace, inHand]
  | _ =>
    refine h.goto (x := 0) (y := 0) rfl ?_ ?_ ?_
    · simp [note, hplace]
    · simp [note, hplace]
    · simp [hplace, inHand]

variable [DecidableEq C]

theorem step_handled {a : Act n C Task} (h : Handled (g, s)) (hs : step maxSize s a = .ok s') :
    Handled (note g s a s', s') := by
  cases step_steps hs with
  | worker hmove => exact move_handled h hmove
  | @spurious w hw =>
    refine h.goto (x := 0) (y := 0) rfl ?_ ?_ ?_
    · simp [note]
    · simp [note]
    · simp [hw, inHand]
  | store hsized hmx hstore =>
    simpa [Handled, note, hsized] using h
  | notify hstored hnotified =>
    obtain ⟨places, rfl, hplaces⟩ := hnotified.places
    rw [Handled, pushes_workers, total_inHand_of_places hplaces]
    exact h
  | notifiesAll howner =>
    have hwake : ∀ place : Place Task, inHand place.wake = inHand place := by
      intro place
      cases place <;> rfl
    rw [Handled, total_congr fun v => hwake (s.workers v)]
    exact h
  | _ => exact h

/-- Nobody stops the pool, a push finds a ring that its size fits, and the threads outside of the
pool do not push once it is joined. -/
def Orderly (s : Pool n C Task) : Act n C Task → Prop
  | .store caller => StoresSafely s (.store caller) ∧ (caller.isRight → s.join = false)
  | .stop => False
  | _ => True

instance : DecidablePred (Orderly s)
  | .store _ => inferInstanceAs (Decidable (_ ∧ _))
  | .stop => isFalse id
  | .worker .. | .spurious _ | .readSize .. | .notify .. | .join => isTrue trivial

omit [DecidableEq C] in
theorem Orderly.storesSafely {a : Act n C Task} (h : Orderly s a) : StoresSafely s a := by
  cases a with
  | store caller => exact h.1
  | _ => trivial

/-- There are workers for all tasks. -/
structure Staffed (s : Pool n C Task) : Prop where
  stop : s.stop = false
  opened : s.join = false → ∀ w, s.workers w ≠ .exited
  staffed : s.ring.count ≠ 0 → ∃ w, s.workers w ≠ .exited
  joined : s.owner = .joined → ∀ w, s.workers w = .exited

omit [DecidableEq C] in
theorem start_staffed (p : Setting) : Staffed (start p : Pool n C Task) where
  stop := rfl
  opened := by simp [start]
  staffed := by simp [start]
  joined := by simp [start]

omit [DecidableEq C] in
/-- Nobody leaves or comes. -/
theorem Staffed.same (h : Staffed s) (hstop : s'.stop = s.stop) (hjoin : s'.join = s.join)
    (hring : s'.ring = s.ring) (howner : s'.owner = .joined → s.owner = .joined)
    (hexited : ∀ v, s'.workers v = .exited ↔ s.workers v = .exited) : Staffed s' where
  stop := hstop.trans h.stop
  opened hopen v hv := h.opened (hjoin ▸ hopen) v ((hexited v).mp hv)
  staffed hcount := by
    obtain ⟨v, hv⟩ := h.staffed (hring ▸ hcount)
    exact ⟨v, fun h => hv ((hexited v).mp h)⟩
  joined hjoined v := (hexited v).mpr (h.joined (howner hjoined) v)

omit [DecidableEq C] in
theorem move_staffed {w : Fin n} (h : Staffed s) (hmove : Move maxSize w s (s.workers w) s') :
    Staffed s' := by
  have hapart := hmove.apart
  have hexits := hmove.exits h.stop
  refine ⟨hapart.stop.trans h.stop, fun hjoin v => ?_, fun hcount => ?_, fun howner => ?_⟩
  · rw [hapart.join] at hjoin
    by_cases hv : v = w
    · subst hv
      exact hexits.resolve_right fun h => by simp [hjoin] at h
    · exact fun hexited => h.opened hjoin v ((exited_of_places (hapart.places v hv)).mp hexited)
  · exact ⟨w, hexits.resolve_right fun h => hcount h.2⟩
  · exact absurd (h.joined (hapart.owner ▸ howner) w) hmove.not_exited

theorem step_staffed {s s' : Pool (n + 1) C Task} {a : Act (n + 1) C Task} (hsound : Sound s)
    (h : Staffed s) (ha : Orderly s a) (hs : step maxSize s a = .ok s') : Staffed s' := by
  cases step_steps hs with
  | worker hmove => exact move_staffed h hmove
  | @spurious w hw =>
    refine h.same rfl rfl rfl id fun v => exited_of_places ?_
    obtain ⟨places, hplaces, hsame⟩ := (Notified.woken hw).places
    rw [hplaces]
    exact hsame v
  | readSize hmay hnone => exact h.same rfl rfl rfl id fun v => Iff.rfl
  | @store caller sz task ring hsized hmx hstore =>
    refine ⟨h.stop, h.opened, fun _ => ?_, h.joined⟩
    cases caller with
    | inl w =>
      obtain ⟨task, htask⟩ := hsound.running hsized
      exact ⟨w, by simp [htask]⟩
    | inr c => exact ⟨0, h.opened (ha.2 rfl) 0⟩
  | notify hstored hnotified =>
    obtain ⟨places, rfl, hplaces⟩ := hnotified.places
    exact h.same rfl rfl rfl id fun v => exited_of_places (hplaces v)
  | stop howner => exact ha.elim
  | begins howner => exact h.same rfl rfl rfl (by simp) fun v => Iff.rfl
  | locks howner hmx => exact h.same rfl rfl rfl (by simp) fun v => Iff.rfl
  | sets howner => exact ⟨h.stop, by simp, h.staffed, by simp⟩
  | notifiesAll howner =>
    refine h.same rfl rfl rfl (by simp) fun v => ?_
    show (s.workers v).wake = .exited ↔ s.workers v = .exited
    cases s.workers v <;> simp [Place.wake]
  | ends howner hexited => exact ⟨h.stop, h.opened, h.staffed, fun _ => hexited⟩

/-- What `join()` may leave behind. -/
def Drained (r : History Task × Pool n C Task) : Prop :=
  r.2.owner = .joined →
    r.2.ring.count = 0 ∧ r.1.returned.Perm (r.1.stored.map some) ∧
      r.1.taken = r.1.stored.map some

omit [DecidableEq C] in
theorem drained_of_staffed {r : History Task × Pool n C Task} (hlined : Lined maxSize r)
    (hhandled : Handled r) (h : Staffed r.2) : Drained r := by
  intro hjoined
  have hexited := h.joined hjoined
  have hcount : r.2.ring.count = 0 := by
    by_contra hcount
    obtain ⟨w, hw⟩ := h.staffed hcount
    exact hw (hexited w)
  obtain ⟨queue, hqueued, hsplit⟩ := hlined
  obtain rfl := hqueued.count_zero.mp hcount
  have htaken : r.1.taken = r.1.stored.map some := by simpa using hsplit
  have hnobody : total inHand r.2.workers = 0 := total_zero fun w => by simp [hexited w, inHand]
  rw [Handled, hnobody, add_zero, htaken] at hhandled
  exact ⟨hcount, (Multiset.coe_eq_coe.mp hhandled).symm, htaken⟩

/-- In every interleaving in which nobody stops a pool that has workers, tasks that push included,
once `join()` has returned each task that was stored has been taken in its turn and run to its end,
once. -/
theorem join_drains (p : Setting) (acts : List (Act (n + 1) C Task))
    (h : Each (step p.maxSize) Orderly (start p) acts) :
    Always (noted (step p.maxSize) note) Drained (History.empty, start p) acts := by
  let kept (r : History Task × Pool (n + 1) C Task) : Prop :=
    Sound r.2 ∧ Lined p.maxSize r ∧ Handled r ∧ Staffed r.2
  refine always_of_each kept (C := fun r a => Orderly r.2 a)
    (fun r hr => drained_of_staffed hr.2.1 hr.2.2.1 hr.2.2.2) ?_ ?_ ((each_noted note _ _ _).mpr h)
  · rintro r a r' ⟨hsound, hlined, hhandled, hstaffed⟩ ha hs
    obtain ⟨hs', hnote⟩ := noted_ok hs
    have hlined' := (step_lined_iff hsound hlined a).mp ha.storesSafely r'.2 hs'
    have hhandled' := step_handled hhandled hs'
    rw [← hnote] at hlined' hhandled'
    exact ⟨step_sound hsound hs', hlined', hhandled', step_staffed hsound hstaffed ha hs'⟩
  · exact ⟨start_sound p, start_lined p, start_handled p, start_staffed p⟩

theorem join_drains_oneTask :
    Always (noted (step 4) note) Drained
      (History.empty, (start ⟨2, 4, by decide⟩ : Pool 1 Unit ℕ)) oneTask :=
  join_drains ⟨2, 4, by decide⟩ oneTask (by decide)

end Drained

section Awake

variable [DecidableEq C]

/-- A worker that is neither asleep nor gone. -/
def Place.isAwake : Place Task → Bool
  | waiting | exited => false
  | _ => true

/-- Where there is a task there is a worker to see it, or somebody who is about to wake one. -/
def Attended (s : Pool n C Task) : Prop :=
  s.stop = false → s.ring.count ≠ 0 →
    (∃ w, (s.workers w).isAwake = true) ∨ (∃ caller, s.pushing caller = some .stored) ∨
      ∀ w, s.workers w = .exited

omit [DecidableEq C] in
theorem move_attended {w : Fin n} (hsound : Sound s)
    (hmove : Move maxSize w s (s.workers w) s') : Attended s' := by
  intro hstop hcount
  left
  have hw := hsound w
  generalize s.workers w = place at hmove hw
  refine ⟨w, ?_⟩
  cases hmove with
  | stops hs => simp_all
  | sleeps => exact absurd hw.2.1 hcount
  | leaves hleave => simp_all
  | drains hjoin hzero => exact absurd hzero hcount
  | _ => simp [Place.isAwake]

theorem step_attended {a : Act n C Task} (hsound : Sound s) (h : Attended s)
    (hs : step maxSize s a = .ok s') : Attended s' := by
  cases step_steps hs with
  | worker hmove => exact move_attended hsound hmove
  | @spurious w hw => exact fun _ _ => .inl ⟨w, by simp [Place.isAwake]⟩
  | @readSize caller task hmay hnone =>
    intro hstop hcount
    refine (h hstop hcount).imp_right (Or.imp_left ?_)
    rintro ⟨c, hc⟩
    refine ⟨c, ?_⟩
    rw [pushes_pushing, Function.update_of_ne ?_]
    · exact hc
    · rintro rfl
      rw [hnone] at hc
      cases hc
  | @store caller sz task ring hsized hmx hstore =>
    exact fun _ _ => .inr (.inl ⟨caller, by simp⟩)
  | @notify caller wake s₁ hstored hnotified =>
    intro hstop hcount
    cases hnotified with
    | @woken v hv => exact .inl ⟨v, by simp [Place.isAwake]⟩
    | nobody hnone =>
      by_cases hexited : ∀ w, s.workers w = .exited
      · exact .inr (.inr hexited)
      · obtain ⟨w, hw⟩ := not_forall.mp hexited
        refine .inl ⟨w, ?_⟩
        have hawake := hnone w
        rw [pushes_workers]
        cases hplace : s.workers w <;> simp_all [Place.isAwake]
  | stop howner => exact fun hstop => absurd hstop (by simp)
  | notifiesAll howner =>
    intro hstop hcount
    rcases h hstop hcount with ⟨w, hw⟩ | hstored | hexited
    · refine .inl ⟨w, ?_⟩
      show (s.workers w).wake.isAwake = true
      cases hplace : s.workers w <;> simp_all [Place.isAwake, Place.wake]
    · exact .inr (.inl hstored)
    · refine .inr (.inr fun w => ?_)
      show (s.workers w).wake = .exited
      rw [hexited w]
      rfl
  | _ => exact h

/-- In every interleaving, spurious wakeups included, no task is left in the ring with all the
workers that remain asleep and no notification on its way. -/
theorem always_attended (p : Setting) (acts : List (Act n C Task)) :
    Always (step p.maxSize) Attended (start p) acts := by
  let kept (s : Pool n C Task) : Prop := Sound s ∧ Attended s
  refine always_of_run fun s past hr => (run_invariant kept ?_ ?_ hr).2
  · exact fun s a s' h hs => ⟨step_sound h.1 hs, step_attended h.1 h.2 hs⟩
  · exact ⟨start_sound p, fun _ hcount => absurd rfl hcount⟩

end Awake

end YingSma.WorkerPool
