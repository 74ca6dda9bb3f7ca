import YingSma.Messages
import YingSma.RingWindow
import YingSma.TransitionRuns

/-! The tasks of a `threadpool`: a ring that grows when it is full and shrinks again when the load
is low. What a thread does while it holds the lock is one step. -/
namespace YingSma.Threadpool
open RingWindow TransitionRuns

/-- The ring of `shared_state`. A task that was moved out of its place, or never put there, is
`none`. -/
structure SharedState (Task : Type*) where
  minCapacity : ℕ
  tasks : List (Option Task)
  p : ℕ
  t : ℕ
  count : ℕ
  scaled : Bool

variable {Task : Type*} (maxSize : ℕ)

/-- `std::vector<Task>(len)`, which throws beyond `max_size()`. -/
def vector (Task : Type*) (len : ℕ) : Except Fault (List (Option Task)) :=
  if len ≤ maxSize then .ok (List.replicate len none) else .error .lengthError

/-- The loop of `ringmove` from `d` on, with `n` more tasks to move. -/
def ringmoveFrom : ℕ → ℕ → ℕ → List (Option Task) → List (Option Task) →
    Except Fault (List (Option Task) × List (Option Task))
  | 0, _, _, dst, src => .ok (dst, src)
  | n + 1, d, off, dst, src =>
      match src[off]? with
      | none => .error .outOfBounds
      | some task =>
          if d < dst.length then
            ringmoveFrom n (d + 1) (if off + 1 = src.length then 0 else off + 1) (dst.set d task)
              (src.set off none)
          else .error .outOfBounds

def ringmove (dst src : List (Option Task)) (off len : ℕ) :
    Except Fault (List (Option Task) × List (Option Task)) :=
  ringmoveFrom len 0 off dst src

namespace SharedState

def new (minCapacity : ℕ) : Except Fault (SharedState Task) :=
  (vector maxSize Task minCapacity).map fun tasks => ⟨minCapacity, tasks, 0, 0, 0, false⟩

def resize (len : ℕ) (s : SharedState Task) : Except Fault (SharedState Task) :=
  match vector maxSize Task len with
  | .error e => .error e
  | .ok tNew =>
      match ringmove tNew s.tasks s.t s.count with
      | .error e => .error e
      | .ok (tNew, _) => .ok { s with tasks := tNew, t := 0, p := s.count }

/-- `push_back` once it knows the size `sz` of a ring with room in it. -/
def put (sz : ℕ) (task : Task) (s : SharedState Task) : Except Fault (SharedState Task) :=
  if s.p < s.tasks.length then
    .ok { s with
      tasks := s.tasks.set s.p (some task)
      p := if s.p + 1 = sz then 0 else s.p + 1
      count := s.count + 1 }
  else .error .outOfBounds

def pushBack (task : Task) (s : SharedState Task) : Except Fault (SharedState Task) :=
  let sz := s.tasks.length
  if s.count = sz then
    match s.resize maxSize (sz * 2) with
    | .error e => .error e
    | .ok s => { s with scaled := true }.put (sz * 2) task
  else s.put sz task

/-- What a thread does with the ring in `thread_body`, when it is not empty. -/
def take (s : SharedState Task) : Except Fault (Option Task × SharedState Task) :=
  match s.tasks[s.t]? with
  | none => .error .outOfBounds
  | some task =>
      let s := { s with
        tasks := s.tasks.set s.t none
        t := if s.t + 1 = s.tasks.length then 0 else s.t + 1
        count := s.count - 1 }
      if s.scaled && s.count < s.minCapacity / 2 then
        (s.resize maxSize s.minCapacity).map fun s => (task, { s with scaled := false })
      else .ok (task, s)

end SharedState

inductive Call (Task : Type*)
  | pushBack (task : Task)
  | take

/-- The steps of the ring, with the tasks taken so far. A thread that finds no task waits. -/
def step : List (Option Task) × SharedState Task → Call Task →
    Except Fault (List (Option Task) × SharedState Task)
  | (taken, s), .pushBack task => (s.pushBack maxSize task).map fun s => (taken, s)
  | (taken, s), .take =>
      if s.count = 0 then .ok (taken, s)
      else (s.take maxSize).map fun (task, s) => (taken ++ [task], s)

/-- What the calls make of a new pool. -/
def ran (minCapacity : ℕ) (calls : List (Call Task)) :
    Except Fault (List (Option Task) × SharedState Task) :=
  match SharedState.new maxSize minCapacity with
  | .error e => .error e
  | .ok s => run (step maxSize) ([], s) calls

def pushes (calls : List (Call Task)) : List Task :=
  calls.filterMap fun
    | .pushBack task => some task
    | .take => none

/-- A queue that notes the tasks it has given out. -/
def serve : List Task × List Task → Call Task → List Task × List Task
  | (taken, queue), .pushBack task => (taken, queue ++ [task])
  | (taken, []), .take => (taken, [])
  | (taken, task :: queue), .take => (taken ++ [task], queue)

/-- What a queue has given out, and what is left in it, after the calls. -/
def served (calls : List (Call Task)) : List Task × List Task := calls.foldl serve ([], [])

/-- The ring is a queue of the tasks. -/
structure Queued (s : SharedState Task) (queue : List Task) : Prop where
  count_le : s.count ≤ s.tasks.length
  p_eq : s.p = (s.t + s.count) % s.tasks.length
  t_lt : s.t < s.tasks.length
  minCapacity_pos : 0 < s.minCapacity
  fits : s.minCapacity ≤ maxSize
  count_eq : s.count = queue.length
  holds : Holds s.tasks s.t (queue.map some)

section Moves

/-- One step round a ring. -/
theorem next_eq_mod {i n : ℕ} (hi : i < n) : (if i + 1 = n then 0 else i + 1) = (i + 1) % n := by
  split
  · rename_i heq
    rw [heq, Nat.mod_self]
  · rw [Nat.mod_eq_of_lt (by omega)]

/-- The loop moves a queue to the places from `d` on. -/
theorem ringmoveFrom_eq {queue : List Task} {d off : ℕ} {dst src : List (Option Task)}
    (hqueue : queue.length ≤ src.length) (hoff : off < src.length)
    (hdst : d + queue.length ≤ dst.length) (hholds : Holds src off (queue.map some)) :
    (ringmoveFrom queue.length d off dst src).map Prod.fst =
      .ok (dst.take d ++ queue.map some ++ dst.drop (d + queue.length)) := by
  induction queue generalizing d off dst src with
  | nil => simp [ringmoveFrom, Except.map]
  | cons task queue ih =>
    rw [List.length_cons] at hqueue hdst
    rw [List.map_cons] at hholds
    obtain ⟨htask, -⟩ := holds_cons.mp hholds
    have hrest := hholds.pop (by rw [List.length_map]; omega) none
    rw [Nat.mod_eq_of_lt hoff] at htask hrest
    rw [List.length_cons, ringmoveFrom, htask]
    simp only [if_pos (show d < dst.length by omega), next_eq_mod hoff]
    rw [ih]
    · have htake : (dst.set d (some task)).take (d + 1) = dst.take d ++ [some task] := by
        rw [List.set_eq_take_append_cons_drop, if_pos (by omega), List.take_append]
        simp [show d ≤ dst.length by omega]
      rw [htake, List.drop_set_of_lt (by omega), Nat.add_right_comm, Nat.add_assoc]
      simp
    · rw [List.length_set]
      omega
    · rw [List.length_set]
      exact Nat.mod_lt _ (by omega)
    · rw [List.length_set]
      omega
    · have := holds_mod.mpr hrest
      rwa [List.length_set] at this

theorem ringmove_eq {queue : List Task} {off : ℕ} {dst src : List (Option Task)}
    (hqueue : queue.length ≤ src.length) (hoff : off < src.length)
    (hdst : queue.length ≤ dst.length) (hholds : Holds src off (queue.map some)) :
    (ringmove dst src off queue.length).map Prod.fst =
      .ok (queue.map some ++ dst.drop queue.length) := by
  have hmove := ringmoveFrom_eq hqueue hoff (by rwa [Nat.zero_add]) hholds
  simpa [ringmove] using hmove

end Moves

variable {maxSize} {s : SharedState Task} {queue : List Task}

namespace Queued

theorem count_zero (h : Queued maxSize s queue) : s.count = 0 ↔ queue = [] := by
  rw [h.count_eq, List.length_eq_zero_iff]

theorem scale (h : Queued maxSize s queue) (scaled : Bool) :
    Queued maxSize { s with scaled := scaled } queue :=
  ⟨h.count_le, h.p_eq, h.t_lt, h.minCapacity_pos, h.fits, h.count_eq, h.holds⟩

/-- The ring is moved to the front of a larger or a smaller vector that has room for it. -/
theorem resize (h : Queued maxSize s queue) {len : ℕ} (hlen : s.count < len)
    (hmax : len ≤ maxSize) :
    ∃ s', s.resize maxSize len = .ok s' ∧ Queued maxSize s' queue ∧ s'.tasks.length = len ∧
      s'.count = s.count := by
  have hroom : queue.length < len := h.count_eq ▸ hlen
  have hmove := @ringmove_eq _ queue s.t (List.replicate len none) s.tasks (h.count_eq ▸ h.count_le)
    h.t_lt (by rw [List.length_replicate]; exact hroom.le) h.holds
  obtain ⟨⟨tNew, src⟩, hmove, htasks⟩ := map_eq_ok hmove
  rw [← h.count_eq] at hmove
  have hlength : tNew.length = len := by
    rw [show tNew = _ from htasks]
    simp only [List.length_append, List.length_map, List.drop_replicate, List.length_replicate]
    omega
  refine ⟨{ s with tasks := tNew, t := 0, p := s.count }, ?_, ?_, hlength, rfl⟩
  · simp only [SharedState.resize, vector, if_pos hmax, hmove]
  · exact
      { count_le := hlen.le.trans hlength.ge
        p_eq := by rw [hlength, Nat.zero_add, Nat.mod_eq_of_lt hlen]
        t_lt := by rw [hlength]; exact Nat.zero_lt_of_lt hlen
        minCapacity_pos := h.minCapacity_pos
        fits := h.fits
        count_eq := h.count_eq
        holds := by
          rw [show tNew = _ from htasks]
          exact holds_front _ _ }

theorem put (h : Queued maxSize s queue) (hroom : s.count < s.tasks.length) (task : Task) :
    ∃ s', s.put s.tasks.length task = .ok s' ∧ Queued maxSize s' (queue ++ [task]) := by
  have hp : s.p < s.tasks.length := by
    rw [h.p_eq]
    exact Nat.mod_lt _ (by omega)
  refine ⟨_, if_pos hp, ?_⟩
  have hpush := h.holds.push (by rw [List.length_map, ← h.count_eq]; exact hroom) (some task)
  exact
    { count_le := by
        rw [List.length_set]
        exact hroom
      p_eq := by
        rw [List.length_set, next_eq_mod hp, h.p_eq, Nat.mod_add_mod, Nat.add_assoc]
      t_lt := by
        rw [List.length_set]
        exact h.t_lt
      minCapacity_pos := h.minCapacity_pos
      fits := h.fits
      count_eq := by rw [List.length_append, h.count_eq, List.length_singleton]
      holds := by
        rw [h.p_eq, List.map_append, h.count_eq, ← @List.length_map _ _ queue some]
        exact hpush }

theorem pushBack (h : Queued maxSize s queue) (task : Task) :
    (∃ s', s.pushBack maxSize task = .ok s' ∧ Queued maxSize s' (queue ++ [task])) ∨
      s.pushBack maxSize task = .error .lengthError ∧ maxSize < 2 * queue.length := by
  by_cases hfull : s.count = s.tasks.length
  · by_cases hmax : s.tasks.length * 2 ≤ maxSize
    · have ht := h.t_lt
      obtain ⟨s', hs, hqueued, hlength, hcount⟩ :=
        h.resize (show s.count < s.tasks.length * 2 by omega) hmax
      have hput := (hqueued.scale true).put (by simp only [hcount, hlength]; omega) task
      left
      simpa only [SharedState.pushBack, if_pos hfull, hs, hlength] using hput
    · right
      rw [← h.count_eq, hfull]
      refine ⟨?_, by omega⟩
      simp only [SharedState.pushBack, if_pos hfull, SharedState.resize, vector, if_neg hmax]
  · left
    have hput := h.put (lt_of_le_of_ne h.count_le hfull) task
    simpa only [SharedState.pushBack, if_neg hfull] using hput

theorem take {task : Task} (h : Queued maxSize s (task :: queue)) :
    ∃ s', s.take maxSize = .ok (some task, s') ∧ Queued maxSize s' queue := by
  have hholds := h.holds
  rw [List.map_cons] at hholds
  have htask := (holds_cons.mp hholds).1
  rw [Nat.mod_eq_of_lt h.t_lt] at htask
  have hcount : s.count = queue.length + 1 := h.count_eq
  have hle := h.count_le
  have hqueued : Queued maxSize
      { s with
        tasks := s.tasks.set s.t none
        t := if s.t + 1 = s.tasks.length then 0 else s.t + 1
        count := s.count - 1 } queue :=
    { count_le := by
        rw [List.length_set]
        exact (Nat.sub_le _ _).trans hle
      p_eq := by
        rw [List.length_set, next_eq_mod h.t_lt, h.p_eq, Nat.mod_add_mod]
        congr 1
        show s.t + s.count = s.t + 1 + (s.count - 1)
        omega
      t_lt := by
        rw [List.length_set, next_eq_mod h.t_lt]
        exact Nat.mod_lt _ (by omega)
      minCapacity_pos := h.minCapacity_pos
      fits := h.fits
      count_eq := by
        show s.count - 1 = queue.length
        omega
      holds := by
        have hpop := holds_mod.mpr (hholds.pop (by rw [List.length_map]; omega) none)
        rw [next_eq_mod h.t_lt]
        rwa [List.length_set, Nat.mod_eq_of_lt h.t_lt] at hpop }
  simp only [SharedState.take, htask]
  split
  · rename_i hshrink
    have hlow := (Bool.and_eq_true_iff.mp hshrink).2
    rw [decide_eq_true_eq] at hlow
    obtain ⟨s', hs, hqueued', -, -⟩ :=
      hqueued.resize (hlow.trans_le (Nat.div_le_self _ _)) h.fits
    rw [hs]
    exact ⟨_, rfl, hqueued'.scale false⟩
  · exact ⟨_, rfl, hqueued⟩

end Queued

theorem new_queued {minCapacity : ℕ} (hpos : 0 < minCapacity)
    (h : SharedState.new maxSize minCapacity = .ok s) : Queued maxSize s [] := by
  obtain ⟨tasks, hvector, rfl⟩ := map_eq_ok h
  unfold vector at hvector
  split at hvector
  case isTrue hfits =>
    obtain rfl := Except.ok.inj hvector
    exact
      { count_le := Nat.zero_le _
        p_eq := by simp
        t_lt := by simpa using hpos
        minCapacity_pos := hpos
        fits := hfits
        count_eq := rfl
        holds := holds_nil _ _ }
  case isFalse => cases hvector

theorem new_error {minCapacity : ℕ} {e : Fault}
    (h : @SharedState.new Task maxSize minCapacity = .error e) :
    e = .lengthError ∧ maxSize < minCapacity := by
  unfold SharedState.new vector at h
  split at h
  case isTrue => cases h
  case isFalse hlong => exact ⟨(Except.error.inj h).symm, not_le.mp hlong⟩

/-- A step of the ring is one of the queue it stands for. -/
theorem step_queued (h : Queued maxSize s queue) (taken : List Task) (call : Call Task) :
    (∃ s', step maxSize (taken.map some, s) call =
          .ok ((serve (taken, queue) call).1.map some, s') ∧
        Queued maxSize s' (serve (taken, queue) call).2) ∨
      step maxSize (taken.map some, s) call = .error .lengthError ∧
        maxSize < 2 * queue.length := by
  cases call with
  | pushBack task =>
    rcases h.pushBack task with ⟨s', hs, hqueued⟩ | ⟨hs, hmax⟩
    · exact Or.inl ⟨s', by simp only [step, hs, Except.map, serve], hqueued⟩
    · exact Or.inr ⟨by simp only [step, hs, Except.map], hmax⟩
  | take =>
    left
    cases queue with
    | nil => exact ⟨s, if_pos (h.count_zero.mpr rfl), h⟩
    | cons task queue =>
      have hcount : s.count ≠ 0 := fun hzero => List.cons_ne_nil _ _ (h.count_zero.mp hzero)
      obtain ⟨s', hs, hqueued⟩ := h.take
      refine ⟨s', ?_, hqueued⟩
      simp only [step, if_neg hcount, hs, Except.map, serve, List.map_append, List.map_cons,
        List.map_nil]

theorem pushes_cons (call : Call Task) (calls : List (Call Task)) :
    pushes (call :: calls) = pushes [call] ++ pushes calls := by
  cases call <;> rfl

/-- A call neither loses nor repeats a task. -/
theorem serve_pushes (r : List Task × List Task) (call : Call Task) :
    (serve r call).1 ++ (serve r call).2 = r.1 ++ r.2 ++ pushes [call] := by
  obtain ⟨taken, queue⟩ := r
  cases call with
  | pushBack task => simp [serve, pushes]
  | take => cases queue <;> simp [serve, pushes]

theorem foldl_serve_pushes (r : List Task × List Task) (calls : List (Call Task)) :
    (calls.foldl serve r).1 ++ (calls.foldl serve r).2 = r.1 ++ r.2 ++ pushes calls := by
  induction calls generalizing r with
  | nil => simp [pushes]
  | cons call calls ih =>
    rw [List.foldl_cons, ih, serve_pushes, pushes_cons call calls, List.append_assoc]

theorem served_pushes (calls : List (Call Task)) :
    pushes calls = (served calls).1 ++ (served calls).2 :=
  (foldl_serve_pushes ([], []) calls).symm

theorem run_queued (h : Queued maxSize s queue) (taken : List Task) (calls : List (Call Task)) :
    (∃ s', run (step maxSize) (taken.map some, s) calls =
          .ok ((calls.foldl serve (taken, queue)).1.map some, s') ∧
        Queued maxSize s' (calls.foldl serve (taken, queue)).2) ∨
      run (step maxSize) (taken.map some, s) calls = .error .lengthError ∧
        maxSize < 2 * (taken.length + queue.length + (pushes calls).length) := by
  induction calls generalizing taken s queue with
  | nil => exact Or.inl ⟨s, rfl, h⟩
  | cons call calls ih =>
    rw [pushes_cons call calls, List.foldl_cons]
    rcases step_queued h taken call with ⟨s₁, hs, hqueued⟩ | ⟨hs, hmax⟩
    · rw [run_cons_ok calls hs]
      refine (ih hqueued (serve (taken, queue) call).1).imp id fun ⟨hrun, hmax⟩ => ⟨hrun, ?_⟩
      have hlength := congrArg List.length (serve_pushes (taken, queue) call)
      simp only [List.length_append] at hlength ⊢
      omega
    · refine Or.inr ⟨run_cons_error calls hs, hmax.trans_le ?_⟩
      simp only [List.length_append]
      omega

/-- Whatever is pushed and taken, each take from a ring that is not empty gives the oldest task in
it, the ring has room for those it holds, and no call fails except for a vector that would be too
long. -/
theorem ran_inOrder {minCapacity : ℕ} (hpos : 0 < minCapacity) (calls : List (Call Task)) :
    pushes calls = (served calls).1 ++ (served calls).2 ∧
      ((∃ s, ran maxSize minCapacity calls = .ok ((served calls).1.map some, s) ∧
          s.count = (served calls).2.length ∧ Holds s.tasks s.t ((served calls).2.map some) ∧
          s.count ≤ s.tasks.length ∧ s.p = (s.t + s.count) % s.tasks.length) ∨
        ran maxSize minCapacity calls = .error .lengthError ∧
          (maxSize < minCapacity ∨ maxSize < 2 * (pushes calls).length)) := by
  refine ⟨served_pushes calls, ?_⟩
  cases hnew : @SharedState.new Task maxSize minCapacity with
  | error e =>
    obtain ⟨rfl, hlong⟩ := new_error hnew
    exact Or.inr ⟨by simp only [ran, hnew], Or.inl hlong⟩
  | ok s =>
    simp only [ran, hnew]
    rcases run_queued (new_queued hpos hnew) [] calls with ⟨s', hrun, hqueued⟩ | ⟨hrun, hmax⟩
    · exact Or.inl ⟨s', hrun, hqueued.count_eq, hqueued.holds, hqueued.count_le, hqueued.p_eq⟩
    · exact Or.inr ⟨hrun, Or.inr (by simpa using hmax)⟩

/-- A ring for two that has grown and shrunk again. -/
theorem ran_inOrder_two :
    [1, 2, 3, 4] = [1, 2, 3, 4] ++ [] ∧
      ((∃ s, ran 8 2 [.pushBack 1, .take, .pushBack 2, .pushBack 3, .pushBack 4, .take, .take,
            .take] = .ok ([some 1, some 2, some 3, some 4], s) ∧
          s.count = 0 ∧ Holds s.tasks s.t [] ∧
          s.count ≤ s.tasks.length ∧ s.p = (s.t + s.count) % s.tasks.length) ∨
        ran 8 2 [.pushBack 1, .take, .pushBack 2, .pushBack 3, .pushBack 4, .take, .take, .take] =
          .error .lengthError ∧ (8 < 2 ∨ 8 < 2 * 4)) :=
  ran_inOrder (by decide) [.pushBack 1, .take, .pushBack 2, .pushBack 3, .pushBack 4, .take, .take,
    .take]

end YingSma.Threadpool
