import YingSma.DelayQueue
import YingSma.ThreadTotals

/-! The threads that wait in `pop()` of a `delay_queue`, in any interleaving with pushes and
interrupts. What a thread does from getting the lock to letting it go is one step. -/
namespace YingSma.DelayQueueThreads
open DelayQueue PriorityQueue ThreadTotals TransitionRuns

/-- Where a thread stands in `pop()`, or how it left it the last time. -/
inductive Place (E : Type*)
  | outside
  | popping
  | waiting (limit : Option TimePoint)
  | woken
  | returned (entry : E)
  | thrown

namespace Place

variable {E : Type*}

/-- What `notify_all` does to a thread. -/
def wake : Place E → Place E
  | waiting _ => woken
  | place => place

def isWaiting : Place E → Bool
  | waiting _ => true
  | _ => false

/-- A thread that `nr_waiting` counts: it has not got the lock back. -/
def inWait : Place E → ℕ
  | waiting _ | woken => 1
  | _ => 0

def isOutside : Place E → Bool
  | outside | returned _ | thrown => true
  | _ => false

end Place

/-- Why a step cannot be taken. -/
inductive Stuck
  | blocked
  | fault (f : Fault)

structure Shared (E T : Type*) where
  queue : DelayQueue E
  places : T → Place E

inductive Act (E T : Type*)
  | push (now : TimePoint) (entry : E) (delay : ℤ)
  | pop (t : T)
  | turn (t : T) (now : TimePoint)
  | wakeUp (t : T)
  | interrupt

variable {E T : Type*}

def Shared.notifyAll (s : Shared E T) : Shared E T := { s with places := fun t => (s.places t).wake }

def new : Shared E T := ⟨DelayQueue.new, fun _ => .outside⟩

variable [DecidableEq T]

def Shared.goto (t : T) (place : Place E) (s : Shared E T) : Shared E T :=
  { s with places := Function.update s.places t place }

/-- A turn of the loop of `pop` that finds the queue `d`. -/
def turnOn (d : DelayQueue E) (t : T) (now : TimePoint) (s : Shared E T) :
    Except Stuck (Shared E T) :=
  match d.popTurn now with
  | .error e => .error (.fault e)
  | .ok (.interrupted, d) => .ok ({ s with queue := d }.goto t .thrown)
  | .ok (.waits delay, d) =>
      .ok ({ s with queue := d }.goto t (.waiting (delay.map fun delay => now + delay)))
  | .ok (.returned entry notified, d) =>
      let s := { s with queue := d }.goto t (.returned entry)
      .ok (if notified then s.notifyAll else s)

/-- A wait ends with a notification, when its time is up, or for no reason. -/
def step (s : Shared E T) : Act E T → Except Stuck (Shared E T)
  | .push now entry delay =>
      let out := s.queue.push now (Wrapper.new now entry delay)
      let s := { s with queue := out.2 }
      .ok (if out.1 then s.notifyAll else s)
  | .pop t => if (s.places t).isOutside then .ok (s.goto t .popping) else .error .blocked
  | .turn t now =>
      match s.places t with
      | .popping => turnOn s.queue t now s
      | .woken => turnOn s.queue.awake t now s
      | _ => .error .blocked
  | .wakeUp t => if (s.places t).isWaiting then .ok (s.goto t .woken) else .error .blocked
  | .interrupt =>
      let s' := { s with queue := s.queue.interrupt }
      .ok (if s.queue.nrWaiting > 0 then s'.notifyAll else s')

section Turns

variable {d d' : DelayQueue E} {now : TimePoint} {turn : Turn E}

/-- What a turn can do. -/
inductive Turned (d : DelayQueue E) (now : TimePoint) : Turn E → DelayQueue E → Prop
  | interrupted (h : d.interrupted = true) :
      Turned d now .interrupted { d with interrupted := d.nrWaiting ≠ 0 }
  | waits (h : d.interrupted = false) (hempty : d.q.v = #[]) :
      Turned d now (.waits none) { d with nrWaiting := d.nrWaiting + 1 }
  | waitsFor (h : d.interrupted = false) {w : Wrapper E} (hmem : w ∈ d.q.v)
      (hlate : now < w.delayUntil) (hfirst : ∀ x ∈ d.q.v, w.delayUntil ≤ x.delayUntil) :
      Turned d now (.waits (some (w.delay now))) { d with nrWaiting := d.nrWaiting + 1 }
  | returned (h : d.interrupted = false) {w : Wrapper E} {q : PriorityQueue (Wrapper E)}
      (hhead : d.q.v[0]? = some w) (hdue : w.delayUntil ≤ now) (hperm : d.q.v.toList.Perm (w :: q.v.toList))
      (hfirst : ∀ x ∈ q.v, w.delayUntil ≤ x.delayUntil) :
      Turned d now (.returned w.entry (!q.v.isEmpty)) { d with q := q }

theorem popTurn_turned (hd : Heap sooner d.q) (h : d.popTurn now = .ok (turn, d')) :
    Turned d now turn d' := by
  unfold popTurn at h
  cases hinterrupted : d.interrupted with
  | true =>
    rw [if_pos hinterrupted] at h
    obtain ⟨rfl, rfl⟩ := Prod.mk.inj (Except.ok.inj h)
    exact .interrupted hinterrupted
  | false =>
    rw [if_neg (by simp [hinterrupted])] at h
    split at h
    · next hempty =>
      obtain ⟨rfl, rfl⟩ := Prod.mk.inj (Except.ok.inj h)
      exact .waits hinterrupted (Array.isEmpty_iff.mp hempty)
    · next hempty =>
      have hsize : 0 < d.q.v.size := by
        rw [Array.isEmpty_iff_size_eq_zero] at hempty
        omega
      obtain ⟨q', htop, hpop, -, hperm⟩ := pop_spec sooner_strictWeak hd hsize
      have hfirst : ∀ x ∈ d.q.v, d.q.v[0].delayUntil ≤ x.delayUntil := fun x hx => by
        simpa [sooner] using heap_first sooner_strictWeak hd hx hsize
      rw [htop] at h
      dsimp only at h
      split at h
      · next hlate =>
        obtain ⟨rfl, rfl⟩ := Prod.mk.inj (Except.ok.inj h)
        refine .waitsFor hinterrupted (Array.getElem_mem hsize) ?_ hfirst
        simpa [Wrapper.expired, Wrapper.delay] using hlate
      · next hdue =>
        rw [lt_eq_sooner, hpop] at h
        obtain ⟨rfl, rfl⟩ := Prod.mk.inj (Except.ok.inj h)
        refine .returned hinterrupted (Array.getElem?_eq_getElem hsize) ?_ hperm fun x hx => ?_
        · simpa [Wrapper.expired, Wrapper.delay] using hdue
        · have hmem : x ∈ d.q.v.toList :=
            hperm.mem_iff.mpr (List.mem_cons_of_mem _ (Array.mem_toList_iff.mpr hx))
          exact hfirst x (Array.mem_toList_iff.mp hmem)

end Turns

section Counting

variable [Fintype T] {s s' : Shared E T} {t : T} {now : TimePoint}

/-- The counter is exact. An interrupt is only on while there are threads to interrupt, all of
them woken. While there is an entry nobody waits without a limit. -/
structure Sound (s : Shared E T) : Prop where
  heap : Heap sooner s.queue.q
  exact : s.queue.nrWaiting = total Place.inWait s.places
  interrupted : s.queue.interrupted = true →
    0 < s.queue.nrWaiting ∧ ∀ t, (s.places t).isWaiting = false
  limited : s.queue.q.v ≠ #[] → ∀ t, s.places t ≠ .waiting none

omit [DecidableEq T] in
theorem new_sound : Sound (new : Shared E T) where
  heap := heap_new
  exact := (total_zero fun _ => rfl).symm
  interrupted h := by cases h
  limited h := absurd rfl h

@[simp] theorem isWaiting_wake (place : Place E) : place.wake.isWaiting = false := by
  cases place <;> rfl

@[simp] theorem inWait_wake (place : Place E) : place.wake.inWait = place.inWait := by
  cases place <;> rfl

theorem wake_ne (place : Place E) (limit : Option TimePoint) : place.wake ≠ .waiting limit := by
  cases place <;> simp [Place.wake]

omit [DecidableEq T] in
@[simp] theorem total_notifyAll (s : Shared E T) :
    total Place.inWait s.notifyAll.places = total Place.inWait s.places :=
  total_congr fun t => inWait_wake (s.places t)

omit [DecidableEq T] in
/-- A notification of all, whatever else it comes with. -/
theorem Sound.notifyAll (h : Sound s) : Sound s.notifyAll where
  heap := h.heap
  exact := h.exact.trans (total_notifyAll s).symm
  interrupted hon := ⟨(h.interrupted hon).1, fun t => isWaiting_wake (s.places t)⟩
  limited _ t := wake_ne (s.places t) none

/-- The queue as the thread `t` finds it when it has the lock and is not counted itself. -/
structure Found (d : DelayQueue E) (t : T) (s : Shared E T) : Prop where
  heap : Heap sooner d.q
  exact : d.nrWaiting = total Place.inWait (Function.update s.places t .popping)
  interrupted : d.interrupted = true → ∀ u, (s.places u).isWaiting = false
  limited : d.q.v ≠ #[] → ∀ u, s.places u ≠ .waiting none

theorem Sound.found_popping (h : Sound s) (ht : s.places t = .popping) : Found s.queue t s where
  heap := h.heap
  exact := by
    rw [← ht, Function.update_eq_self]
    exact h.exact
  interrupted hon := (h.interrupted hon).2
  limited := h.limited

theorem Sound.found_woken (h : Sound s) (ht : s.places t = .woken) :
    Found s.queue.awake t s where
  heap := h.heap
  exact := by
    have htotal := total_update Place.inWait s.places t .popping
    rw [ht, ← h.exact] at htotal
    exact Nat.sub_eq_of_eq_add htotal.symm
  interrupted hon := (h.interrupted hon).2
  limited := h.limited

/-- The thread goes to a place where it is counted as it should be. -/
theorem Found.total {d : DelayQueue E} (h : Found d t s) (place : Place E) :
    total Place.inWait (Function.update s.places t place) = d.nrWaiting + place.inWait := by
  have htotal := total_update Place.inWait (Function.update s.places t .popping) t place
  rw [Function.update_idem, Function.update_self, ← h.exact] at htotal
  exact htotal

/-- What a thread can do that has the lock. -/
inductive TurnedOn (d : DelayQueue E) (t : T) (now : TimePoint) (s : Shared E T) :
    Shared E T → Prop
  | throws (h : d.interrupted = true) :
      TurnedOn d t now s
        ({ s with queue := { d with interrupted := d.nrWaiting ≠ 0 } }.goto t .thrown)
  | waits (h : d.interrupted = false) {limit : Option TimePoint}
      (hlimit : d.q.v = #[] ∨ limit ≠ none) :
      TurnedOn d t now s
        ({ s with queue := { d with nrWaiting := d.nrWaiting + 1 } }.goto t (.waiting limit))
  | returns (h : d.interrupted = false) {w : Wrapper E} {q : PriorityQueue (Wrapper E)}
      (hhead : d.q.v[0]? = some w) (hdue : w.delayUntil ≤ now) (hperm : d.q.v.toList.Perm (w :: q.v.toList))
      (hfirst : ∀ x ∈ q.v, w.delayUntil ≤ x.delayUntil) (hheap : Heap sooner q)
      {s' : Shared E T}
      (hs : s' = { s with queue := { d with q := q } }.goto t (.returned w.entry)) :
      TurnedOn d t now s (if q.v.isEmpty then s' else s'.notifyAll)

omit [Fintype T] in
theorem turnOn_turned {d : DelayQueue E} (h : Heap sooner d.q) (hs : turnOn d t now s = .ok s') :
    TurnedOn d t now s s' := by
  unfold turnOn at hs
  cases hturn : d.popTurn now with
  | error e => simp [hturn] at hs
  | ok out =>
    obtain ⟨turn, d'⟩ := out
    have hheap := popTurn_heap h hturn
    rw [hturn] at hs
    cases popTurn_turned h hturn with
    | interrupted hon =>
      obtain rfl := Except.ok.inj hs
      exact .throws hon
    | waits hoff hempty =>
      obtain rfl := Except.ok.inj hs
      exact .waits hoff (.inl hempty)
    | waitsFor hoff hmem hlate hfirst =>
      obtain rfl := Except.ok.inj hs
      exact .waits hoff (.inr (by simp))
    | @returned hoff w q hhead hdue hperm hfirst =>
      obtain rfl := Except.ok.inj hs
      have hturned := TurnedOn.returns (s := s) (t := t) hoff hhead hdue hperm hfirst hheap rfl
      cases hempty : q.v.isEmpty <;> simpa [hempty] using hturned

theorem turnedOn_sound {d : DelayQueue E} (h : Found d t s) (hs : TurnedOn d t now s s') :
    Sound s' := by
  cases hs with
  | throws hon =>
    refine ⟨h.heap, (h.total .thrown).symm, fun hstill => ⟨?_, fun u => ?_⟩, fun hne u => ?_⟩
    · exact Nat.pos_of_ne_zero (of_decide_eq_true hstill)
    · by_cases hu : u = t
      · simp [Shared.goto, hu, Place.isWaiting]
      · simpa [Shared.goto, hu] using h.interrupted hon u
    · by_cases hu : u = t
      · simp [Shared.goto, hu]
      · simpa [Shared.goto, hu] using h.limited hne u
  | @waits hoff limit hlimit =>
    refine ⟨h.heap, (h.total (.waiting limit)).symm, fun hon => ?_, fun hne u => ?_⟩
    · simp [Shared.goto, hoff] at hon
    · by_cases hu : u = t
      · simpa [Shared.goto, hu] using hlimit.resolve_left hne
      · simpa [Shared.goto, hu] using h.limited hne u
  | @returns hoff w q hhead hdue hperm hfirst hheap s' hs =>
    have hexact : s'.queue.nrWaiting = total Place.inWait s'.places := by
      rw [hs]
      exact (h.total (.returned w.entry)).symm
    have hoff' : s'.queue.interrupted = false := by rw [hs]; exact hoff
    have hheap' : Heap sooner s'.queue.q := by rw [hs]; exact hheap
    have hq : s'.queue.q = q := by rw [hs]; rfl
    cases hempty : q.v.isEmpty with
    | true =>
      refine ⟨hheap', hexact, fun hon => ?_, fun hne => absurd ?_ hne⟩
      · simp [hoff'] at hon
      · simpa [hq] using hempty
    | false =>
      refine ⟨hheap', hexact.trans (total_notifyAll s').symm, fun hon => ?_, fun _ u => ?_⟩
      · simp [Shared.notifyAll, hoff'] at hon
      · exact wake_ne _ _

/-- A thread that goes where it is counted as before. -/
theorem Sound.goto {place : Place E} (h : Sound s) (hcount : place.inWait = (s.places t).inWait)
    (hwaiting : place.isWaiting = false) : Sound (s.goto t place) := by
  have htotal := total_update Place.inWait s.places t place
  rw [hcount, ← h.exact] at htotal
  refine ⟨h.heap, (Nat.add_right_cancel htotal).symm, fun hon => ⟨(h.interrupted hon).1, ?_⟩, ?_⟩
  · intro u
    by_cases hu : u = t
    · simpa [Shared.goto, hu] using hwaiting
    · simpa [Shared.goto, hu] using (h.interrupted hon).2 u
  · intro hne u
    by_cases hu : u = t
    · have hself : (s.goto t place).places t = place := Function.update_self _ _ _
      rw [hu, hself]
      rintro rfl
      cases hwaiting
    · simpa [Shared.goto, hu] using h.limited hne u

omit [DecidableEq T] in
theorem push_sound (h : Sound s) {out : Bool × DelayQueue E} {w : Wrapper E}
    (hout : out = s.queue.push now w) :
    Sound (if out.1 then ({ s with queue := out.2 } : Shared E T).notifyAll
      else { s with queue := out.2 }) := by
  have hnotified : out.1 = s.queue.q.v.isEmpty := by rw [hout, push_notified h.heap]
  have hheap : Heap sooner out.2.q := by
    rw [hout]
    simp only [DelayQueue.push, lt_eq_sooner]
    exact push_heap sooner_strictWeak h.heap w
  have hcount : out.2.nrWaiting = s.queue.nrWaiting := by rw [hout]; rfl
  have hflag : out.2.interrupted = s.queue.interrupted := by rw [hout]; rfl
  cases hempty : s.queue.q.v.isEmpty with
  | true =>
    rw [hnotified, hempty, if_pos rfl]
    refine ⟨hheap, ?_, fun hon => ⟨?_, fun u => isWaiting_wake _⟩, fun _ u => wake_ne _ _⟩
    · exact hcount.trans (h.exact.trans (total_notifyAll s).symm)
    · exact hcount ▸ (h.interrupted (hflag ▸ hon)).1
  | false =>
    rw [hnotified, hempty, if_neg Bool.false_ne_true]
    refine ⟨hheap, hcount.trans h.exact, fun hon => ?_, fun _ => h.limited ?_⟩
    · exact ⟨hcount ▸ (h.interrupted (hflag ▸ hon)).1, (h.interrupted (hflag ▸ hon)).2⟩
    · intro hnil
      simp [hnil] at hempty

omit [DecidableEq T] in
theorem interrupt_sound (h : Sound s) :
    Sound (if s.queue.nrWaiting > 0 then ({ s with queue := s.queue.interrupt } : Shared E T).notifyAll
      else { s with queue := s.queue.interrupt }) := by
  unfold interrupt
  split
  · next hpos =>
    refine ⟨h.heap, h.exact.trans (total_notifyAll s).symm, fun _ => ⟨hpos, fun u => ?_⟩, fun _ u => ?_⟩
    · exact isWaiting_wake _
    · exact wake_ne _ _
  · exact h

theorem step_sound {a : Act E T} (h : Sound s) (hs : step s a = .ok s') : Sound s' := by
  cases a with
  | push now entry delay =>
    obtain rfl := Except.ok.inj hs
    exact push_sound h rfl
  | pop t =>
    simp only [step] at hs
    split at hs
    · next houtside =>
      obtain rfl := Except.ok.inj hs
      refine h.goto ?_ rfl
      cases hplace : s.places t <;> simp_all [Place.inWait, Place.isOutside]
    · cases hs
  | turn t now =>
    simp only [step] at hs
    split at hs
    · next ht => exact turnedOn_sound (h.found_popping ht) (turnOn_turned h.heap hs)
    · next ht =>
      have hfound := h.found_woken ht
      exact turnedOn_sound hfound (turnOn_turned hfound.heap hs)
    · cases hs
  | wakeUp t =>
    simp only [step] at hs
    split at hs
    · next hwaiting =>
      obtain rfl := Except.ok.inj hs
      refine h.goto ?_ rfl
      cases hplace : s.places t <;> simp_all [Place.inWait, Place.isWaiting]
    · cases hs
  | interrupt =>
    obtain rfl := Except.ok.inj hs
    exact interrupt_sound h

/-- In every interleaving of pops, pushes and interrupts the counter is exact, an interrupt is on
only while all threads it is for are awake, and while there is an entry nobody waits for good. -/
theorem always_counted (acts : List (Act E T)) : Always step Sound (new : Shared E T) acts :=
  always_of_run fun _ _ hr => run_invariant Sound (fun _ _ _ => step_sound) new_sound hr

end Counting

section Interrupting

variable [Fintype T] {s s' : Shared E T} {called : T → Bool}

/-- The threads that an interrupt has found in a wait and that have not had a turn since. -/
def calls (called : T → Bool) (s : Shared E T) (a : Act E T) (_ : Shared E T) : T → Bool :=
  match a with
  | .interrupt => fun t => decide ((s.places t).inWait = 1)
  | .turn t _ => Function.update called t false
  | _ => called

/-- The interrupt is on for the threads that it was called for, and for all that are woken. -/
structure Heard (called : T → Bool) (s : Shared E T) : Prop where
  woken : ∀ t, called t = true → s.places t = .woken
  on : s.queue.interrupted = true → ∀ t, s.places t = .woken → called t = true
  off : s.queue.interrupted = false → ∀ t, called t = false

omit [DecidableEq T] [Fintype T] in
/-- When the interrupt is over, nobody is called. -/
theorem Heard.of_off (hoff : s.queue.interrupted = false) (hnone : ∀ t, called t = false) :
    Heard called s where
  woken t ht := by simp [hnone t] at ht
  on hon := by simp [hoff] at hon
  off _ := hnone

/-- A turn during an interrupt ends with the exception, and the last one ends the interrupt. -/
theorem turnedOn_heard {d : DelayQueue E} {t : T} {now : TimePoint} (h : Heard called s)
    (hfound : Found d t s) (hflag : d.interrupted = s.queue.interrupted)
    (hs : TurnedOn d t now s s') : Heard (Function.update called t false) s' := by
  have hnone : d.interrupted = false → ∀ u, Function.update called t false u = false := by
    intro hoff u
    by_cases hu : u = t
    · simp [hu]
    · simpa [Function.update_of_ne hu] using h.off (hflag ▸ hoff) u
  cases hs with
  | throws hon =>
    refine ⟨fun u hu => ?_, fun _ u hu => ?_, fun hover u => ?_⟩
    · by_cases hut : u = t
      · simp [hut] at hu
      · rw [Function.update_of_ne hut] at hu
        simpa [Shared.goto, hut] using h.woken u hu
    · by_cases hut : u = t
      · simp [Shared.goto, hut] at hu
      · rw [Function.update_of_ne hut]
        exact h.on (hflag ▸ hon) u (by simpa [Shared.goto, hut] using hu)
    · by_cases hut : u = t
      · simp [hut]
      · rw [Function.update_of_ne hut]
        by_contra hcalled
        have hwoken := h.woken u (by simpa using hcalled)
        have hzero : d.nrWaiting = 0 := by simpa [Shared.goto] using hover
        have hle : (Function.update s.places t .popping u).inWait ≤ _ := le_total u
        rw [← hfound.exact, hzero, Function.update_of_ne hut, hwoken] at hle
        cases hle
  | waits hoff hlimit => exact .of_off hoff (hnone hoff)
  | @returns hoff w q hhead hdue hperm hfirst hheap s' hs =>
    refine .of_off ?_ (hnone hoff)
    split <;> rw [hs] <;> exact hoff

omit [DecidableEq T] in
/-- A notification wakes nobody during an interrupt. -/
theorem Heard.notifyAll (hsound : Sound s) (h : Heard called s)
    (hplaces : s'.places = fun t => (s.places t).wake)
    (hflag : s'.queue.interrupted = s.queue.interrupted) : Heard called s' := by
  refine ⟨fun t ht => ?_, fun hon t ht => ?_, fun hoff => h.off (hflag ▸ hoff)⟩
  · rw [hplaces]
    simp only [h.woken t ht]
    rfl
  · rw [hflag] at hon
    have hnot := (hsound.interrupted hon).2 t
    refine h.on hon t ?_
    rw [hplaces] at ht
    cases hplace : s.places t <;> simp_all [Place.wake, Place.isWaiting]

theorem interrupt_heard (hsound : Sound s) :
    Heard (fun t => decide ((s.places t).inWait = 1))
      (if s.queue.nrWaiting > 0 then
        ({ s with queue := s.queue.interrupt } : Shared E T).notifyAll
      else { s with queue := s.queue.interrupt }) := by
  unfold interrupt
  split
  · refine ⟨fun t ht => ?_, fun _ t ht => ?_, fun hoff => by cases hoff⟩
    · rw [decide_eq_true_eq] at ht
      show (s.places t).wake = .woken
      cases hplace : s.places t <;> simp_all [Place.wake, Place.inWait]
    · rw [decide_eq_true_eq]
      change (s.places t).wake = .woken at ht
      cases hplace : s.places t <;> simp_all [Place.wake, Place.inWait]
  · next hzero =>
    refine .of_off ?_ fun t => ?_
    · by_contra hon
      exact hzero (hsound.interrupted (by simpa using hon)).1
    · have hle : (s.places t).inWait ≤ total Place.inWait s.places := le_total t
      rw [← hsound.exact] at hle
      rw [decide_eq_false_iff_not]
      omega

/-- A turn ends with the exception as long as some thread is called. -/
theorem turnedOn_thrown {d : DelayQueue E} {t : T} {now : TimePoint} (hsound : Sound s)
    (h : Heard called s) (hflag : d.interrupted = s.queue.interrupted)
    (hs : TurnedOn d t now s s') : s'.places t = .thrown ↔ ∃ u, called u = true := by
  have hoff : d.interrupted = false → ¬ ∃ u, called u = true := by
    rintro hoff ⟨u, hu⟩
    simp [h.off (hflag ▸ hoff) u] at hu
  cases hs with
  | throws hon =>
    refine iff_of_true (by simp [Shared.goto]) ?_
    obtain ⟨hpos, hnot⟩ := hsound.interrupted (hflag ▸ hon)
    obtain ⟨u, hu⟩ := total_pos (hsound.exact ▸ hpos.ne')
    have hnone := hnot u
    refine ⟨u, h.on (hflag ▸ hon) u ?_⟩
    cases hplace : s.places u <;> simp_all [Place.inWait, Place.isWaiting]
  | waits hnone hlimit => exact iff_of_false (by simp [Shared.goto]) (hoff hnone)
  | @returns hnone w q hhead hdue hperm hfirst hheap s' hs =>
    refine iff_of_false ?_ (hoff hnone)
    have hplace : s'.places t = .returned w.entry := by rw [hs]; simp [Shared.goto]
    split
    · simp [hplace]
    · simp [Shared.notifyAll, hplace, Place.wake]

theorem step_heard {a : Act E T} (hsound : Sound s) (h : Heard called s)
    (hs : step s a = .ok s') : Heard (calls called s a s') s' := by
  cases a with
  | push now entry delay =>
    obtain rfl := Except.ok.inj hs
    split
    · exact h.notifyAll hsound rfl rfl
    · exact ⟨h.woken, h.on, h.off⟩
  | pop t =>
    simp only [step] at hs
    split at hs
    · next houtside =>
      obtain rfl := Except.ok.inj hs
      have hnot : s.places t ≠ .woken := by
        intro hwoken
        simp [hwoken, Place.isOutside] at houtside
      refine ⟨fun u hu => ?_, fun hon u hu => ?_, h.off⟩
      · have hwoken := h.woken u hu
        by_cases hut : u = t
        · exact absurd (hut ▸ hwoken) hnot
        · simpa [Shared.goto, hut] using hwoken
      · by_cases hut : u = t
        · simp [Shared.goto, hut] at hu
        · exact h.on hon u (by simpa [Shared.goto, hut] using hu)
    · cases hs
  | turn t now =>
    simp only [step] at hs
    split at hs
    · next ht =>
      exact turnedOn_heard h (hsound.found_popping ht) rfl (turnOn_turned hsound.heap hs)
    · next ht =>
      have hfound := hsound.found_woken ht
      exact turnedOn_heard h hfound rfl (turnOn_turned hfound.heap hs)
    · cases hs
  | wakeUp t =>
    simp only [step] at hs
    split at hs
    · next hwaiting =>
      obtain rfl := Except.ok.inj hs
      have hoff : s.queue.interrupted = false := by
        by_contra hon
        have hnot := (hsound.interrupted (by simpa using hon)).2 t
        simp [hwaiting] at hnot
      exact .of_off hoff (h.off hoff)
    · cases hs
  | interrupt =>
    obtain rfl := Except.ok.inj hs
    exact interrupt_heard hsound

/-- A thread that an interrupt has found in a wait stays woken until its turn, and a turn ends with
the exception if, and only if, some thread that was found so has not had its turn yet. -/
theorem interrupt_reaches (acts : List (Act E T)) :
    Each (noted step calls) (fun r a => (∀ t, r.1 t = true → r.2.places t = .woken) ∧
        ∀ t now s', a = .turn t now → step r.2 a = .ok s' →
          (s'.places t = .thrown ↔ ∃ u, r.1 u = true))
      (fun _ => false, (new : Shared E T)) acts := by
  let kept (r : (T → Bool) × Shared E T) : Prop := Sound r.2 ∧ Heard r.1 r.2
  refine each_of_prefixes fun past a r _ hr => ?_
  have h : kept r := by
    refine run_invariant kept (fun r a r' h hs => ?_) ⟨new_sound, ?_⟩ hr
    · obtain ⟨hs', hnote⟩ := noted_ok hs
      have hheard := step_heard h.1 h.2 hs'
      rw [← hnote] at hheard
      exact ⟨step_sound h.1 hs', hheard⟩
    · exact .of_off rfl fun _ => rfl
  refine ⟨h.2.woken, fun t now s' ha hs => ?_⟩
  subst ha
  simp only [step] at hs
  split at hs
  · exact turnedOn_thrown h.1 h.2 rfl (turnOn_turned h.1.heap hs)
  · next ht =>
    have hfound := h.1.found_woken ht
    have hflag : r.2.queue.awake.interrupted = r.2.queue.interrupted := rfl
    exact turnedOn_thrown h.1 h.2 hflag (turnOn_turned hfound.heap hs)
  · cases hs

end Interrupting

section Delivery

variable [Fintype T] {s s' : Shared E T}

/-- What has been pushed, and what `pop()` has returned and when. -/
structure History (E : Type*) where
  pushed : List (Wrapper E)
  popped : List (TimePoint × E)

def note (h : History E) (_ : Shared E T) (a : Act E T) (s' : Shared E T) : History E :=
  match a with
  | .push now entry delay => { h with pushed := h.pushed ++ [Wrapper.new now entry delay] }
  | .turn t now =>
      match s'.places t with
      | .returned entry => { h with popped := h.popped ++ [(now, entry)] }
      | _ => h
  | _ => h

/-- The entry is the one of this element, and this is due. -/
def DueEntry (p : TimePoint × E) (w : Wrapper E) : Prop := w.entry = p.2 ∧ w.delayUntil ≤ p.1

/-- Each element that was pushed is in the queue, or its entry has been returned, once, when it
was due. -/
def Kept (r : History E × Shared E T) : Prop :=
  ∃ ws, List.Forall₂ DueEntry r.1.popped ws ∧ r.1.pushed.Perm (ws ++ r.2.queue.q.v.toList)

/-- What a turn returns is the entry of the one element that it takes out of the queue. This is
due, and nothing that was due before it stays behind. -/
def InTurn (s : Shared E T) (a : Act E T) : Prop :=
  ∀ t now s' entry, a = .turn t now → step s a = .ok s' → s'.places t = .returned entry →
    ∃ w, DueEntry (now, entry) w ∧ s.queue.q.v.toList.Perm (w :: s'.queue.q.v.toList) ∧
      ∀ x ∈ s'.queue.q.v, w.delayUntil ≤ x.delayUntil

omit [DecidableEq T] [Fintype T] in
/-- A notification leaves alone the queue and those who have left. -/
theorem notified_returned {t : T} {entry : E} (hplace : s.places t = .returned entry) (last : Bool) :
    (if last then s else s.notifyAll).places t = .returned entry ∧
      (if last then s else s.notifyAll).queue = s.queue := by
  cases last with
  | true => exact ⟨hplace, rfl⟩
  | false => exact ⟨by simp [Shared.notifyAll, hplace, Place.wake], rfl⟩

/-- A turn that returns takes out its element; any other leaves the queue as it is. -/
inductive Takes (t : T) (now : TimePoint) (s s' : Shared E T) : Prop
  | entry (w : Wrapper E) (hplace : s'.places t = .returned w.entry) (hdue : w.delayUntil ≤ now)
      (hperm : s.queue.q.v.toList.Perm (w :: s'.queue.q.v.toList))
      (hfirst : ∀ x ∈ s'.queue.q.v, w.delayUntil ≤ x.delayUntil)
  | nothing (hplace : ∀ entry, s'.places t ≠ .returned entry) (hsame : s'.queue.q = s.queue.q)

omit [Fintype T] in
theorem turnedOn_takes {d : DelayQueue E} {t : T} {now : TimePoint} (hq : d.q = s.queue.q)
    (hs : TurnedOn d t now s s') : Takes t now s s' := by
  cases hs with
  | throws hon => exact .nothing (fun entry => by simp [Shared.goto]) hq
  | waits hoff hlimit => exact .nothing (fun entry => by simp [Shared.goto]) hq
  | @returns hoff w q hhead hdue hperm hfirst hheap s' hs =>
    obtain ⟨hplace, hqueue⟩ := notified_returned (s := s') (t := t)
      (show s'.places t = .returned w.entry by simp [hs, Shared.goto]) q.v.isEmpty
    have hafter : (if q.v.isEmpty then s' else s'.notifyAll).queue.q = q := by
      rw [hqueue, hs]
      rfl
    refine .entry w hplace hdue ?_ ?_
    · rw [hafter, ← hq]
      exact hperm
    · rw [hafter]
      exact hfirst

/-- A turn of `pop`, whichever way the thread has got to it. -/
theorem step_turn_takes {t : T} {now : TimePoint} (hsound : Sound s)
    (hs : step s (.turn t now) = .ok s') : Takes t now s s' := by
  simp only [step] at hs
  split at hs
  · exact turnedOn_takes rfl (turnOn_turned hsound.heap hs)
  · next ht =>
    have hq : s.queue.awake.q = s.queue.q := rfl
    exact turnedOn_takes hq (turnOn_turned (hsound.found_woken ht).heap hs)
  · cases hs

theorem step_kept {g : History E} {a : Act E T} (hsound : Sound s) (h : Kept (g, s))
    (hs : step s a = .ok s') : Kept (note g s a s', s') := by
  obtain ⟨ws, hdue, hconserved⟩ := h
  cases a with
  | push now entry delay =>
    obtain rfl := Except.ok.inj hs
    have hpush : (g.pushed ++ [Wrapper.new now entry delay]).Perm (ws ++
        (s.queue.push now (Wrapper.new now entry delay)).2.q.v.toList) := by
      have hperm : (s.queue.push now (Wrapper.new now entry delay)).2.q.v.toList.Perm
          (Wrapper.new now entry delay :: s.queue.q.v.toList) := push_perm _
      refine (List.perm_append_singleton _ _).trans ((hconserved.cons _).trans ?_)
      exact List.perm_middle.symm.trans (hperm.symm.append_left _)
    split <;> exact ⟨ws, hdue, hpush⟩
  | turn t now =>
    cases step_turn_takes hsound hs with
    | entry w hplace hready hperm _ =>
      have hnote : note g s (.turn t now) s' =
          { g with popped := g.popped ++ [(now, w.entry)] } := by
        simp only [note, hplace]
      rw [hnote]
      refine ⟨ws ++ [w], List.rel_append hdue (.cons ⟨rfl, hready⟩ .nil), ?_⟩
      simpa using hconserved.trans (hperm.append_left ws)
    | nothing hnot hqueue =>
      have hnote : note g s (.turn t now) s' = g := by
        cases hplace : s'.places t with
        | returned entry => exact absurd hplace (hnot entry)
        | _ => simp only [note, hplace]
      rw [hnote]
      exact ⟨ws, hdue, hqueue ▸ hconserved⟩
  | pop t | wakeUp t =>
    simp only [step] at hs
    split at hs
    · obtain rfl := Except.ok.inj hs
      exact ⟨ws, hdue, hconserved⟩
    · cases hs
  | interrupt =>
    obtain rfl := Except.ok.inj hs
    unfold interrupt
    split <;> exact ⟨ws, hdue, hconserved⟩

theorem kept_of_run {r : History E × Shared E T} {acts : List (Act E T)}
    (hr : run (noted step note) (⟨[], []⟩, (new : Shared E T)) acts = .ok r) :
    Sound r.2 ∧ Kept r := by
  let kept (r : History E × Shared E T) : Prop := Sound r.2 ∧ Kept r
  refine run_invariant kept (fun r a r' h hs => ?_) ⟨new_sound, [], .nil, ?_⟩ hr
  · obtain ⟨hs', hnote⟩ := noted_ok hs
    have hkept := step_kept h.1 h.2 hs'
    rw [← hnote] at hkept
    exact ⟨step_sound h.1 hs', hkept⟩
  · simp [new, DelayQueue.new]

/-- In every interleaving each entry that is pushed is returned at most once, not before it is due
and not after one that is due later and was there. -/
theorem delivers (acts : List (Act E T)) :
    Always (noted step note) Kept (⟨[], []⟩, (new : Shared E T)) acts ∧
      Each step InTurn (new : Shared E T) acts := by
  refine ⟨always_of_run fun r past hr => (kept_of_run hr).2,
    each_of_prefixes fun past a s _ hr t now s' entry ha hs hplace => ?_⟩
  have hsound : Sound s := run_invariant Sound (fun _ _ _ => step_sound) new_sound hr
  subst ha
  cases step_turn_takes hsound hs with
  | entry w hreturned hready hperm hfirst =>
    exact ⟨w, ⟨Place.returned.inj (hreturned.symm.trans hplace), hready⟩, hperm, hfirst⟩
  | nothing hnot _ => exact absurd hplace (hnot entry)

end Delivery

end YingSma.DelayQueueThreads
