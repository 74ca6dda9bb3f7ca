import YingSma.PriorityQueue

/-! `delay_queue`: entries that wait until they are due, and threads that wait for an entry. -/
namespace YingSma
open PriorityQueue TransitionRuns

structure Wrapper (E : Type*) where
  entry : E
  delayUntil : TimePoint

namespace Wrapper

variable {E : Type*}

/-- The constructor, with `project_future`. -/
def new (now : TimePoint) (entry : E) (delay : ℤ) : Wrapper E := ⟨entry, now + delay⟩

def delay (now : TimePoint) (w : Wrapper E) : ℤ := w.delayUntil - now

/-- `operator<`, with the clock read once for both sides: the source reads it for each of them, and
what has been read in between is taken to be the same. -/
def lt (now : TimePoint) (w rhs : Wrapper E) : Bool := w.delay now < rhs.delay now

def expired (now : TimePoint) (w : Wrapper E) : Bool := w.delay now ≤ 0

end Wrapper

structure DelayQueue (E : Type*) where
  q : PriorityQueue (Wrapper E)
  interrupted : Bool
  nrWaiting : ℕ

/-- How a turn of the loop of `pop` ends: with an exception, with a wait, perhaps for some time
only, or with the entry that is returned. -/
inductive Turn (E : Type*)
  | interrupted
  | waits (delay : Option ℤ)
  | returned (entry : E) (notified : Bool)

namespace DelayQueue

variable {E : Type*}

def new : DelayQueue E := ⟨⟨#[]⟩, false, 0⟩

/-- The private `push`, and whether it notifies the waiting threads. The pointer `first` is to the
first element of the vector, and is followed after the insertion. -/
def push (now : TimePoint) (delayed : Wrapper E) (d : DelayQueue E) : Bool × DelayQueue E :=
  let first : Option ℕ := if d.q.v.isEmpty then none else some 0
  let q := d.q.push (Wrapper.lt now) delayed
  let notified := match first with
    | none => true
    | some slot => q.v[slot]?.any fun head => delayed.lt now head
  (notified, { d with q := q })

/-- One turn of the loop of `pop`, under the lock. -/
def popTurn (now : TimePoint) (d : DelayQueue E) : Except Fault (Turn E × DelayQueue E) :=
  if d.interrupted then .ok (.interrupted, { d with interrupted := d.nrWaiting ≠ 0 })
  else if d.q.v.isEmpty then .ok (.waits none, { d with nrWaiting := d.nrWaiting + 1 })
  else
    match d.q.top with
    | .error e => .error e
    | .ok first =>
        if !first.expired now then
          .ok (.waits (some (first.delay now)), { d with nrWaiting := d.nrWaiting + 1 })
        else
          (d.q.pop (Wrapper.lt now)).map fun (actual, q) =>
            (.returned actual.entry (!q.v.isEmpty), { d with q := q })

/-- A wait of `pop` is over, for whatever reason. -/
def awake (d : DelayQueue E) : DelayQueue E := { d with nrWaiting := d.nrWaiting - 1 }

def interrupt (d : DelayQueue E) : DelayQueue E :=
  if d.nrWaiting > 0 then { d with interrupted := true } else d

inductive Call (E : Type*)
  | push (now : TimePoint) (entry : E) (delay : ℤ)
  | popTurn (now : TimePoint)
  | awake
  | interrupt

def step (d : DelayQueue E) : Call E → Except Fault (DelayQueue E)
  | .push now entry delay => .ok (d.push now (Wrapper.new now entry delay)).2
  | .popTurn now => (d.popTurn now).map Prod.snd
  | .awake => .ok d.awake
  | .interrupt => .ok d.interrupt

/-- The push notifies exactly if the new element is due before all others. -/
def NotifiesSooner (d : DelayQueue E) (now : TimePoint) (delayed : Wrapper E) : Prop :=
  (d.push now delayed).1 ↔
    d.q.v.isEmpty ∨ ∀ w ∈ d.q.v, delayed.delayUntil < w.delayUntil

/-- The queue is empty, or something in it is due no later than the new element. -/
def NoSooner (d : DelayQueue E) (delayed : Wrapper E) : Prop :=
  d.q.v.isEmpty ∨ ∃ w ∈ d.q.v, w.delayUntil ≤ delayed.delayUntil

/-- A condition on the pushes among the calls. -/
def OnPush (P : DelayQueue E → TimePoint → Wrapper E → Prop) (d : DelayQueue E) : Call E → Prop
  | .push now entry delay => P d now (Wrapper.new now entry delay)
  | _ => True

/-- What is due sooner. -/
def sooner (w rhs : Wrapper E) : Bool := w.delayUntil < rhs.delayUntil

theorem lt_eq_sooner (now : TimePoint) : @Wrapper.lt E now = sooner := by
  funext w rhs
  simp [Wrapper.lt, Wrapper.delay, sooner]

theorem sooner_strictWeak : StrictWeak (@sooner E) := by
  have h : IsStrictWeakOrder TimePoint (· < ·) := isStrictWeakOrder_of_isOrderConnected
  simp only [StrictWeak, sooner, decide_eq_true_eq]
  exact { irrefl := fun w => lt_irrefl w.delayUntil, trans := fun _ _ _ => lt_trans
          incomp_trans := fun a b c => h.incomp_trans a.delayUntil b.delayUntil c.delayUntil }

theorem popTurn_heap {d d' : DelayQueue E} {now : TimePoint} {turn : Turn E}
    (hd : Heap sooner d.q) (h : d.popTurn now = .ok (turn, d')) : Heap sooner d'.q := by
  unfold popTurn at h
  split at h
  · cases h
    exact hd
  · split at h
    · cases h
      exact hd
    · split at h
      · cases h
      · split at h
        · cases h
          exact hd
        · obtain ⟨⟨actual, q⟩, hpop, hturn⟩ := map_eq_ok h
          cases hturn
          rw [lt_eq_sooner] at hpop
          refine PriorityQueue.step_heap sooner_strictWeak d.q .pop q hd ?_
          simp only [PriorityQueue.step, hpop, Except.map]

/-- At all times the vector is in heap order. -/
theorem step_heap (d : DelayQueue E) (call : Call E) (d' : DelayQueue E) (hd : Heap sooner d.q)
    (h : step d call = .ok d') : Heap sooner d'.q := by
  cases call with
  | push now entry delay =>
    obtain rfl := Except.ok.inj h
    simp only [push, lt_eq_sooner]
    exact push_heap sooner_strictWeak hd _
  | popTurn now =>
    obtain ⟨turn, hturn⟩ := map_snd_ok h
    exact popTurn_heap hd hturn
  | awake =>
    obtain rfl := Except.ok.inj h
    exact hd
  | interrupt =>
    obtain rfl := Except.ok.inj h
    unfold interrupt
    split
    · exact hd
    · exact hd

/-- After an insertion nothing is due before the first element of the vector, so that only the
push to an empty queue notifies. -/
theorem push_notified {d : DelayQueue E} (hd : Heap sooner d.q) (now : TimePoint)
    (delayed : Wrapper E) : (d.push now delayed).1 = d.q.v.isEmpty := by
  simp only [push, lt_eq_sooner]
  cases hempty : d.q.v.isEmpty with
  | true => simp
  | false =>
    have hmem : delayed ∈ (d.q.push sooner delayed).v :=
      Array.mem_toList_iff.mp ((push_perm delayed).mem_iff.mpr List.mem_cons_self)
    have hsize := Array.size_pos_of_mem hmem
    have hfirst := heap_first sooner_strictWeak (push_heap sooner_strictWeak hd delayed) hmem hsize
    simpa [Array.getElem?_eq_getElem hsize] using hfirst

theorem notifiesSooner_iff {d : DelayQueue E} (hd : Heap sooner d.q) (now : TimePoint)
    (delayed : Wrapper E) : NotifiesSooner d now delayed ↔ NoSooner d delayed := by
  rw [NotifiesSooner, NoSooner, push_notified hd]
  cases d.q.v.isEmpty with
  | true => simp
  | false => simp

theorem heap_new : Heap sooner (@new E).q := heap_empty

/-- A push to a queue with entries is right exactly if one of these is due no later than the new
one; so are all pushes of a run. -/
theorem run_notifiesSooner (calls : List (Call E)) :
    Each step (fun d call => OnPush NotifiesSooner d call ↔ OnPush (fun d _ => NoSooner d) d call)
        new calls ∧
      (Each step (OnPush NotifiesSooner) new calls ↔
        Each step (OnPush fun d _ => NoSooner d) new calls) := by
  have hpush : ∀ (d : DelayQueue E) (call : Call E), Heap sooner d.q →
      (OnPush NotifiesSooner d call ↔ OnPush (fun d _ => NoSooner d) d call) := by
    intro d call hd
    cases call with
    | push now entry delay => exact notifiesSooner_iff hd now _
    | popTurn now => exact Iff.rfl
    | awake => exact Iff.rfl
    | interrupt => exact Iff.rfl
  constructor
  · exact each_of_prefixes fun past call d _ hr =>
      hpush d call (run_invariant (fun d => Heap sooner d.q) step_heap heap_new hr)
  · exact each_congr (fun d => Heap sooner d.q) (fun d call _ d' hd _ => step_heap d call d' hd)
      (fun d call _ => hpush d call) heap_new

/-- One of two entries has been returned, so that the vector has room for another one. -/
theorem run_room : run step (new : DelayQueue ℕ) [.push 0 0 10, .push 0 1 20, .popTurn 10] =
    .ok ⟨⟨#[⟨1, 20⟩]⟩, false, 0⟩ := by
  simp [run, step, popTurn, push, new, Wrapper.new, PriorityQueue.push, siftUp, siftDown, parent,
    Wrapper.lt, Wrapper.delay, PriorityQueue.top, PriorityQueue.pop, Wrapper.expired, Except.map]

/-- A sooner task for a popper that waits for a later one, and nobody is notified. -/
theorem sooner_not_notified :
    ¬ ∀ calls : List (Call ℕ), Each step (OnPush NotifiesSooner) new calls := by
  intro h
  have hrun := h ([.push 0 0 10, .push 0 1 20, .popTurn 10] ++ [.push 10 2 5])
  have hnot := (((each_append _ _ _).mp hrun).2 _ run_room).1
  revert hnot
  simp [OnPush, NotifiesSooner, push, Wrapper.new, PriorityQueue.push, siftUp, parent, Wrapper.lt,
    Wrapper.delay]

end DelayQueue

end YingSma
