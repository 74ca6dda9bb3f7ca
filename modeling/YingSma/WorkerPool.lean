import YingSma.ThreadTotals
import YingSma.Threadpool

/-! The threads of a `threadpool`, in any interleaving: the workers in `thread_body`, the callers
of `push_back`, and the thread that owns the pool, in `join()` or in the destructor. A condition
on the flags is read in one step, as they only ever go up. -/
namespace YingSma.WorkerPool
open Threadpool TransitionRuns

/-- Where a worker stands in `thread_body`. -/
inductive Place (Task : Type*)
  | top
  | locking
  | checking
  | testing
  | sleeping
  | waiting
  | woken
  | deciding
  | taking
  | taken (task : Option Task)
  | notifying (task : Option Task)
  | running (task : Option Task)
  | returned
  | exited

namespace Place

variable {Task : Type*}

/-- The worker owns the lock. -/
def holds : Place Task → Bool
  | checking | testing | sleeping | deciding | taking => true
  | _ => false

def isWaiting : Place Task → Bool
  | waiting => true
  | _ => false

def isSleeping : Place Task → Bool
  | sleeping => true
  | _ => false

def isExited : Place Task → Bool
  | exited => true
  | _ => false

def isRunning : Place Task → Bool
  | running _ => true
  | _ => false

/-- What `notify_all` does to a worker. -/
def wake : Place Task → Place Task
  | waiting => woken
  | place => place

end Place

/-- Where a caller of `push_back` stands: the size is read before the lock is taken. -/
inductive Push (Task : Type*)
  | sized (sz : ℕ) (task : Task)
  | stored

/-- Where the owner stands in `join()`. The guard there is a temporary, so that the lock is free
again when the flag is set. -/
inductive Owner
  | outside
  | locking
  | setting
  | notifying
  | joining
  | joined
  deriving DecidableEq

/-- Why a step cannot be taken. -/
inductive Stuck
  | blocked
  | fault (f : Fault)
  | badFunctionCall
  deriving DecidableEq

/-- A pool of `n` workers, and other threads `C` that have tasks for it. -/
structure Pool (n : ℕ) (C Task : Type*) where
  ring : SharedState Task
  stop : Bool
  join : Bool
  mx : Option (Fin n)
  workers : Fin n → Place Task
  pushing : Fin n ⊕ C → Option (Push Task)
  owner : Owner

/-- The loop that shifts finds the highest bit, so that this rounds down. -/
def powerOfTwo (minCapacity : ℕ) : ℕ :=
  if minCapacity &&& (minCapacity - 1) ≠ 0 then 1 <<< minCapacity.log2 else minCapacity

/-- What the constructor makes of the capacity it is given. -/
def capacity (minCapacity : ℕ) : ℕ := powerOfTwo (if minCapacity = 0 then 16 else minCapacity)

/-- Arguments for which the constructor does not throw. -/
structure Setting where
  minCapacity : ℕ
  maxSize : ℕ
  fits : capacity minCapacity ≤ maxSize

variable {n : ℕ} {C Task : Type*}

def start (p : Setting) : Pool n C Task where
  ring := ⟨capacity p.minCapacity, List.replicate (capacity p.minCapacity) none, 0, 0, 0, false⟩
  stop := false
  join := false
  mx := none
  workers _ := .top
  pushing _ := none
  owner := .outside

/-- The critical section of `push_back`, with the size that was read before. -/
def storeSized (maxSize sz : ℕ) (task : Task) (s : SharedState Task) :
    Except Fault (SharedState Task) :=
  if s.count = sz then
    match s.resize maxSize (sz * 2) with
    | .error e => .error e
    | .ok s => { s with scaled := true }.put (sz * 2) task
  else s.put sz task

/-- A step of a thread. `notify_one` wakes a thread of its choice. -/
inductive Act (n : ℕ) (C Task : Type*)
  | worker (w : Fin n) (wake : Option (Fin n))
  | spurious (w : Fin n)
  | readSize (caller : Fin n ⊕ C) (task : Task)
  | store (caller : Fin n ⊕ C)
  | notify (caller : Fin n ⊕ C) (wake : Option (Fin n))
  | stop
  | join

namespace Pool

def goto (w : Fin n) (place : Place Task) (s : Pool n C Task) : Pool n C Task :=
  { s with workers := Function.update s.workers w place }

/-- Nothing to do, and no reason to leave. -/
def idle (s : Pool n C Task) : Bool := !s.stop && !s.join && s.ring.count = 0

def notifyOne (wake : Option (Fin n)) (s : Pool n C Task) : Except Stuck (Pool n C Task) :=
  match wake with
  | some v => if (s.workers v).isWaiting then .ok (s.goto v .woken) else .error .blocked
  | none => if ∀ v, !(s.workers v).isWaiting then .ok s else .error .blocked

def lock (w : Fin n) (place : Place Task) (s : Pool n C Task) : Except Stuck (Pool n C Task) :=
  if s.mx.isNone then .ok ({ s with mx := some w }.goto w place) else .error .blocked

def unlock (w : Fin n) (place : Place Task) (s : Pool n C Task) : Pool n C Task :=
  { s with mx := none }.goto w place

end Pool

/-- The next step of a worker. What its task does is left open: it may push, or return. -/
def workerStep (maxSize : ℕ) (w : Fin n) (wake : Option (Fin n)) (s : Pool n C Task) :
    Except Stuck (Pool n C Task) :=
  match s.workers w with
  | .top => .ok (s.goto w (if s.stop then .exited else .locking))
  | .locking => s.lock w .checking
  | .checking => .ok (s.goto w (if s.idle then .testing else .deciding))
  | .testing => .ok (s.goto w (if s.idle then .sleeping else .deciding))
  | .sleeping => .ok (s.unlock w .waiting)
  | .waiting => .error .blocked
  | .woken => s.lock w .testing
  | .deciding =>
      if s.stop || s.ring.count = 0 && s.join then .ok (s.unlock w .exited)
      else .ok (s.goto w .taking)
  | .taking =>
      match s.ring.take maxSize with
      | .error e => .error (.fault e)
      | .ok (task, ring) => .ok ({ s with ring := ring }.unlock w (.taken task))
  | .taken task => .ok (s.goto w (if s.ring.count ≠ 0 then .notifying task else .running task))
  | .notifying task =>
      match s.notifyOne wake with
      | .error e => .error e
      | .ok s => .ok (s.goto w (.running task))
  | .running none => .error .badFunctionCall
  | .running (some _) =>
      if (s.pushing (.inl w)).isNone then .ok (s.goto w .returned) else .error .blocked
  | .returned => .ok (s.goto w (if s.join && s.ring.count = 0 then .exited else .top))
  | .exited => .error .blocked

/-- The next step of the owner in `join()`. -/
def joinStep (s : Pool n C Task) : Except Stuck (Pool n C Task) :=
  match s.owner with
  | .outside => .ok { s with owner := if n = 0 then .joined else .locking }
  | .locking => if s.mx.isNone then .ok { s with owner := .setting } else .error .blocked
  | .setting => .ok { s with join := true, owner := .notifying }
  | .notifying => .ok { s with workers := fun w => (s.workers w).wake, owner := .joining }
  | .joining =>
      if ∀ w, (s.workers w).isExited then .ok { s with owner := .joined } else .error .blocked
  | .joined => .error .blocked

section Fields

variable (s : Pool n C Task) (w : Fin n) (place : Place Task)

@[simp] theorem goto_ring : (s.goto w place).ring = s.ring := rfl

@[simp] theorem goto_stop : (s.goto w place).stop = s.stop := rfl

@[simp] theorem goto_join : (s.goto w place).join = s.join := rfl

@[simp] theorem goto_mx : (s.goto w place).mx = s.mx := rfl

@[simp] theorem goto_pushing : (s.goto w place).pushing = s.pushing := rfl

@[simp] theorem goto_owner : (s.goto w place).owner = s.owner := rfl

@[simp] theorem goto_workers :
    (s.goto w place).workers = Function.update s.workers w place := rfl

@[simp] theorem unlock_ring : (s.unlock w place).ring = s.ring := rfl

@[simp] theorem unlock_stop : (s.unlock w place).stop = s.stop := rfl

@[simp] theorem unlock_join : (s.unlock w place).join = s.join := rfl

@[simp] theorem unlock_mx : (s.unlock w place).mx = none := rfl

@[simp] theorem unlock_pushing : (s.unlock w place).pushing = s.pushing := rfl

@[simp] theorem unlock_owner : (s.unlock w place).owner = s.owner := rfl

@[simp] theorem unlock_workers :
    (s.unlock w place).workers = Function.update s.workers w place := rfl

end Fields

section Moves

variable {maxSize : ℕ} {s s' : Pool n C Task} {w : Fin n} {wake : Option (Fin n)}

/-- What `notify_one` can do. -/
inductive Notified (s : Pool n C Task) : Pool n C Task → Prop
  | woken {v : Fin n} (hv : s.workers v = .waiting) : Notified s (s.goto v .woken)
  | nobody (hnone : ∀ v, s.workers v ≠ .waiting) : Notified s s

theorem isWaiting_iff {place : Place Task} : place.isWaiting = true ↔ place = .waiting := by
  cases place <;> simp [Place.isWaiting]

theorem notifyOne_ok (h : s.notifyOne wake = .ok s') : Notified s s' := by
  unfold Pool.notifyOne at h
  split at h
  · split at h
    · next v hv =>
      obtain rfl := Except.ok.inj h
      exact .woken (isWaiting_iff.mp hv)
    · cases h
  · split at h
    · next hnone =>
      obtain rfl := Except.ok.inj h
      refine .nobody fun v hv => ?_
      simpa [hv, Place.isWaiting] using hnone v
    · cases h

/-- What a worker can do, by the place where it stands. -/
inductive Move (maxSize : ℕ) (w : Fin n) (s : Pool n C Task) : Place Task → Pool n C Task → Prop
  | stops (hstop : s.stop = true) : Move maxSize w s .top (s.goto w .exited)
  | enters (hstop : s.stop = false) : Move maxSize w s .top (s.goto w .locking)
  | locks (hmx : s.mx = none) :
      Move maxSize w s .locking ({ s with mx := some w }.goto w .checking)
  | checksIdle (hidle : s.idle = true) : Move maxSize w s .checking (s.goto w .testing)
  | checksBusy (hidle : s.idle = false) : Move maxSize w s .checking (s.goto w .deciding)
  | testsIdle (hidle : s.idle = true) : Move maxSize w s .testing (s.goto w .sleeping)
  | testsBusy (hidle : s.idle = false) : Move maxSize w s .testing (s.goto w .deciding)
  | sleeps : Move maxSize w s .sleeping (s.unlock w .waiting)
  | relocks (hmx : s.mx = none) :
      Move maxSize w s .woken ({ s with mx := some w }.goto w .testing)
  | leaves (hleave : s.stop = true ∨ s.ring.count = 0 ∧ s.join = true) :
      Move maxSize w s .deciding (s.unlock w .exited)
  | stays (hstop : s.stop = false) (hjoin : s.ring.count = 0 → s.join = false) :
      Move maxSize w s .deciding (s.goto w .taking)
  | takes {task : Option Task} {ring : SharedState Task}
      (htake : s.ring.take maxSize = .ok (task, ring)) :
      Move maxSize w s .taking ({ s with ring := ring }.unlock w (.taken task))
  | passes {task : Option Task} (hcount : s.ring.count ≠ 0) :
      Move maxSize w s (.taken task) (s.goto w (.notifying task))
  | calls {task : Option Task} (hcount : s.ring.count = 0) :
      Move maxSize w s (.taken task) (s.goto w (.running task))
  | notifies {task : Option Task} {s₁ : Pool n C Task} (hnotified : Notified s s₁) :
      Move maxSize w s (.notifying task) (s₁.goto w (.running task))
  | returns {task : Task} (hpushing : s.pushing (.inl w) = none) :
      Move maxSize w s (.running (some task)) (s.goto w .returned)
  | drains (hjoin : s.join = true) (hcount : s.ring.count = 0) :
      Move maxSize w s .returned (s.goto w .exited)
  | again (hjoin : s.join = true → s.ring.count ≠ 0) : Move maxSize w s .returned (s.goto w .top)

theorem lock_ok {place : Place Task} (h : s.lock w place = .ok s') :
    s.mx = none ∧ { s with mx := some w }.goto w place = s' := by
  unfold Pool.lock at h
  split at h
  · next hmx => exact ⟨Option.isNone_iff_eq_none.mp hmx, Except.ok.inj h⟩
  · cases h

theorem workerStep_move (h : workerStep maxSize w wake s = .ok s') :
    Move maxSize w s (s.workers w) s' := by
  unfold workerStep at h
  generalize s.workers w = place at h ⊢
  cases place with
  | top =>
    obtain rfl := Except.ok.inj h
    cases hstop : s.stop
    · exact .enters hstop
    · exact .stops hstop
  | locking =>
    obtain ⟨hmx, rfl⟩ := lock_ok h
    exact .locks hmx
  | checking =>
    obtain rfl := Except.ok.inj h
    cases hidle : s.idle
    · exact .checksBusy hidle
    · exact .checksIdle hidle
  | testing =>
    obtain rfl := Except.ok.inj h
    cases hidle : s.idle
    · exact .testsBusy hidle
    · exact .testsIdle hidle
  | sleeping =>
    obtain rfl := Except.ok.inj h
    exact .sleeps
  | waiting => cases h
  | woken =>
    obtain ⟨hmx, rfl⟩ := lock_ok h
    exact .relocks hmx
  | deciding =>
    dsimp only at h
    split at h
    · next hleave =>
      obtain rfl := Except.ok.inj h
      exact .leaves (by simpa using hleave)
    · next hstay =>
      obtain rfl := Except.ok.inj h
      simp only [Bool.or_eq_true, Bool.and_eq_true, decide_eq_true_eq, not_or, not_and,
        Bool.not_eq_true] at hstay
      exact .stays hstay.1 hstay.2
  | taking =>
    dsimp only at h
    split at h
    · cases h
    · next htake =>
      obtain rfl := Except.ok.inj h
      exact .takes htake
  | taken task =>
    obtain rfl := Except.ok.inj h
    by_cases hcount : s.ring.count = 0
    · have hmove : Move maxSize w s (.taken task) _ := .calls hcount
      simpa [hcount] using hmove
    · have hmove : Move maxSize w s (.taken task) _ := .passes hcount
      simpa [hcount] using hmove
  | notifying task =>
    dsimp only at h
    split at h
    · cases h
    · next hnotify =>
      obtain rfl := Except.ok.inj h
      exact .notifies (notifyOne_ok hnotify)
  | running task =>
    cases task with
    | none => cases h
    | some task =>
      dsimp only at h
      split at h
      · next hpushing =>
        obtain rfl := Except.ok.inj h
        exact .returns (Option.isNone_iff_eq_none.mp hpushing)
      · cases h
  | returned =>
    obtain rfl := Except.ok.inj h
    by_cases hleave : s.join = true ∧ s.ring.count = 0
    · have hmove : Move maxSize w s .returned _ := .drains hleave.1 hleave.2
      simpa [hleave] using hmove
    · have hmove : Move maxSize w s .returned _ :=
        .again fun hjoin hcount => hleave ⟨hjoin, hcount⟩
      simpa [hleave] using hmove
  | exited => cases h

end Moves

variable [DecidableEq C]

def Pool.pushes (caller : Fin n ⊕ C) (push : Option (Push Task)) (s : Pool n C Task) :
    Pool n C Task :=
  { s with pushing := Function.update s.pushing caller push }

/-- The caller is not a worker, or it is one in the middle of a task. -/
def Pool.mayPush (s : Pool n C Task) : Fin n ⊕ C → Bool
  | .inl w => (s.workers w).isRunning
  | .inr _ => true

def step (maxSize : ℕ) (s : Pool n C Task) : Act n C Task → Except Stuck (Pool n C Task)
  | .worker w wake => workerStep maxSize w wake s
  | .spurious w => if (s.workers w).isWaiting then .ok (s.goto w .woken) else .error .blocked
  | .readSize caller task =>
      if s.mayPush caller && (s.pushing caller).isNone then
        .ok (s.pushes caller (some (.sized s.ring.tasks.length task)))
      else .error .blocked
  | .store caller =>
      match s.pushing caller with
      | some (.sized sz task) =>
          if s.mx.isNone then
            match storeSized maxSize sz task s.ring with
            | .error e => .error (.fault e)
            | .ok ring => .ok ({ s with ring := ring }.pushes caller (some .stored))
          else .error .blocked
      | _ => .error .blocked
  | .notify caller wake =>
      match s.pushing caller with
      | some .stored =>
          match s.notifyOne wake with
          | .error e => .error e
          | .ok s => .ok (s.pushes caller none)
      | _ => .error .blocked
  | .stop => if s.owner = .outside then .ok { s with stop := true } else .error .blocked
  | .join => joinStep s

section Pushes

variable (s : Pool n C Task) (caller : Fin n ⊕ C) (push : Option (Push Task))

@[simp] theorem pushes_ring : (s.pushes caller push).ring = s.ring := rfl

@[simp] theorem pushes_stop : (s.pushes caller push).stop = s.stop := rfl

@[simp] theorem pushes_join : (s.pushes caller push).join = s.join := rfl

@[simp] theorem pushes_mx : (s.pushes caller push).mx = s.mx := rfl

@[simp] theorem pushes_workers : (s.pushes caller push).workers = s.workers := rfl

@[simp] theorem pushes_owner : (s.pushes caller push).owner = s.owner := rfl

@[simp] theorem pushes_pushing :
    (s.pushes caller push).pushing = Function.update s.pushing caller push := rfl

end Pushes

section Steps

variable {maxSize : ℕ} {s s' : Pool n C Task}

/-- What a step can do. -/
inductive Steps (maxSize : ℕ) (s : Pool n C Task) : Act n C Task → Pool n C Task → Prop
  | worker {w : Fin n} {wake : Option (Fin n)} {s' : Pool n C Task}
      (hmove : Move maxSize w s (s.workers w) s') : Steps maxSize s (.worker w wake) s'
  | spurious {w : Fin n} (hw : s.workers w = .waiting) :
      Steps maxSize s (.spurious w) (s.goto w .woken)
  | readSize {caller : Fin n ⊕ C} {task : Task} (hmay : s.mayPush caller = true)
      (hnone : s.pushing caller = none) :
      Steps maxSize s (.readSize caller task)
        (s.pushes caller (some (.sized s.ring.tasks.length task)))
  | store {caller : Fin n ⊕ C} {sz : ℕ} {task : Task} {ring : SharedState Task}
      (hsized : s.pushing caller = some (.sized sz task)) (hmx : s.mx = none)
      (hstore : storeSized maxSize sz task s.ring = .ok ring) :
      Steps maxSize s (.store caller) ({ s with ring := ring }.pushes caller (some .stored))
  | notify {caller : Fin n ⊕ C} {wake : Option (Fin n)} {s₁ : Pool n C Task}
      (hstored : s.pushing caller = some .stored) (hnotified : Notified s s₁) :
      Steps maxSize s (.notify caller wake) (s₁.pushes caller none)
  | stop (howner : s.owner = .outside) : Steps maxSize s .stop { s with stop := true }
  | begins (howner : s.owner = .outside) :
      Steps maxSize s .join { s with owner := if n = 0 then .joined else .locking }
  | locks (howner : s.owner = .locking) (hmx : s.mx = none) :
      Steps maxSize s .join { s with owner := .setting }
  | sets (howner : s.owner = .setting) :
      Steps maxSize s .join { s with join := true, owner := .notifying }
  | notifiesAll (howner : s.owner = .notifying) :
      Steps maxSize s .join
        { s with workers := fun w => (s.workers w).wake, owner := .joining }
  | ends (howner : s.owner = .joining) (hexited : ∀ w, s.workers w = .exited) :
      Steps maxSize s .join { s with owner := .joined }

theorem isExited_iff {place : Place Task} : place.isExited = true ↔ place = .exited := by
  cases place <;> simp [Place.isExited]

theorem joinStep_steps (h : joinStep s = .ok s') : Steps maxSize s .join s' := by
  unfold joinStep at h
  split at h
  · next howner =>
    obtain rfl := Except.ok.inj h
    exact .begins howner
  · next howner =>
    split at h
    · next hmx =>
      obtain rfl := Except.ok.inj h
      exact .locks howner (Option.isNone_iff_eq_none.mp hmx)
    · cases h
  · next howner =>
    obtain rfl := Except.ok.inj h
    exact .sets howner
  · next howner =>
    obtain rfl := Except.ok.inj h
    exact .notifiesAll howner
  · next howner =>
    split at h
    · next hexited =>
      obtain rfl := Except.ok.inj h
      exact .ends howner fun w => isExited_iff.mp (hexited w)
    · cases h
  · cases h

theorem step_steps {a : Act n C Task} (h : step maxSize s a = .ok s') :
    Steps maxSize s a s' := by
  cases a with
  | worker w wake => exact .worker (workerStep_move h)
  | spurious w =>
    simp only [step] at h
    split at h
    · next hw =>
      obtain rfl := Except.ok.inj h
      exact .spurious (isWaiting_iff.mp hw)
    · cases h
  | readSize caller task =>
    simp only [step] at h
    split at h
    · next hmay =>
      obtain rfl := Except.ok.inj h
      rw [Bool.and_eq_true] at hmay
      exact .readSize hmay.1 (Option.isNone_iff_eq_none.mp hmay.2)
    · cases h
  | store caller =>
    simp only [step] at h
    split at h
    · next hsized =>
      split at h
      · next hmx =>
        split at h
        · cases h
        · next hstore =>
          obtain rfl := Except.ok.inj h
          exact .store hsized (Option.isNone_iff_eq_none.mp hmx) hstore
      · cases h
    · cases h
  | notify caller wake =>
    simp only [step] at h
    split at h
    · next hstored =>
      split at h
      · cases h
      · next hnotify =>
        obtain rfl := Except.ok.inj h
        exact .notify hstored (notifyOne_ok hnotify)
    · cases h
  | stop =>
    simp only [step] at h
    split at h
    · next howner =>
      obtain rfl := Except.ok.inj h
      exact .stop howner
    · cases h
  | join => exact joinStep_steps h

end Steps

end YingSma.WorkerPool
