import YingSma.ThreadTotals
import YingSma.TransitionRuns

/-! `RwsMutex`: readers and writers that spin on atomic counters, in any interleaving. -/
namespace YingSma.RwsMutex
open ThreadTotals TransitionRuns

/-- Where a thread stands in the constructors and destructors of `WriterLock` and `ReaderLock`. -/
inductive Place
  | outside
  | announced
  | passed
  | counted
  | joining
  | spinning (stage : ℕ)
  | writing
  | cleared
  | looking
  | seen
  | locked
  | reading
  deriving DecidableEq

/-- A loop that goes round is no step. -/
inductive Spins
  | spins
  deriving DecidableEq

structure Mutex (T : Type*) where
  ww : ℕ
  w : ℕ
  r : ℕ
  f : Bool
  places : T → Place

inductive Act (T : Type*)
  | writerLock (t : T)
  | readerLock (t : T)
  | next (t : T)

variable {T : Type*} [DecidableEq T]

def Mutex.new : Mutex T := ⟨0, 0, 0, false, fun _ => .outside⟩

def Mutex.goto (t : T) (place : Place) (m : Mutex T) : Mutex T :=
  { m with places := Function.update m.places t place }

def step (m : Mutex T) : Act T → Except Spins (Mutex T)
  | .writerLock t =>
      if m.places t = .outside then .ok ({ m with ww := m.ww + 1 }.goto t .announced)
      else .error .spins
  | .readerLock t =>
      if m.places t = .outside then .ok (m.goto t .looking) else .error .spins
  | .next t =>
      match m.places t with
      | .outside => .error .spins
      | .announced => if m.r = 0 then .ok (m.goto t .passed) else .error .spins
      | .passed => .ok ({ m with w := m.w + 1 }.goto t .counted)
      | .counted => .ok ({ m with ww := m.ww - 1 }.goto t .joining)
      | .joining => .ok (m.goto t (.spinning (if m.ww = 0 then 1 else 0)))
      | .spinning _ =>
          if m.f then .error .spins else .ok ({ m with f := true }.goto t .writing)
      | .writing => .ok ({ m with f := false }.goto t .cleared)
      | .cleared => .ok ({ m with w := m.w - 1 }.goto t .outside)
      | .looking => if m.ww = 0 then .ok (m.goto t .seen) else .error .spins
      | .seen => .ok ({ m with r := m.r + 1 }.goto t .locked)
      | .locked => if m.w = 0 then .ok (m.goto t .reading) else .error .spins
      | .reading => .ok ({ m with r := m.r - 1 }.goto t .outside)

/-- What a thread can do, by the place where it stands. -/
inductive Move (t : T) (m : Mutex T) : Place → Mutex T → Prop
  | announces : Move t m .outside ({ m with ww := m.ww + 1 }.goto t .announced)
  | looks : Move t m .outside (m.goto t .looking)
  | passes (hr : m.r = 0) : Move t m .announced (m.goto t .passed)
  | counts : Move t m .passed ({ m with w := m.w + 1 }.goto t .counted)
  | joins : Move t m .counted ({ m with ww := m.ww - 1 }.goto t .joining)
  | spins {stage : ℕ} : Move t m .joining (m.goto t (.spinning stage))
  | writes {stage : ℕ} (hf : m.f = false) :
      Move t m (.spinning stage) ({ m with f := true }.goto t .writing)
  | clears : Move t m .writing ({ m with f := false }.goto t .cleared)
  | ends : Move t m .cleared ({ m with w := m.w - 1 }.goto t .outside)
  | sees (hww : m.ww = 0) : Move t m .looking (m.goto t .seen)
  | locks : Move t m .seen ({ m with r := m.r + 1 }.goto t .locked)
  | reads (hw : m.w = 0) : Move t m .locked (m.goto t .reading)
  | unlocks : Move t m .reading ({ m with r := m.r - 1 }.goto t .outside)

variable {m m' : Mutex T}

def Act.thread : Act T → T
  | writerLock t | readerLock t | next t => t

theorem step_move {a : Act T} (hs : step m a = .ok m') :
    Move a.thread m (m.places a.thread) m' := by
  cases a with
  | writerLock t =>
    simp only [step] at hs
    split at hs
    · next houtside =>
      obtain rfl := Except.ok.inj hs
      exact houtside ▸ .announces
    · cases hs
  | readerLock t =>
    simp only [step] at hs
    split at hs
    · next houtside =>
      obtain rfl := Except.ok.inj hs
      exact houtside ▸ .looks
    · cases hs
  | next t =>
    simp only [step] at hs
    show Move t m (m.places t) m'
    cases hplace : m.places t <;> simp only [hplace] at hs
    case outside => cases hs
    case announced =>
      split at hs
      · next hr =>
        obtain rfl := Except.ok.inj hs
        exact .passes hr
      · cases hs
    case spinning =>
      split at hs
      · cases hs
      · next hf =>
        obtain rfl := Except.ok.inj hs
        exact .writes (Bool.eq_false_iff.mpr hf)
    case looking =>
      split at hs
      · next hww =>
        obtain rfl := Except.ok.inj hs
        exact .sees hww
      · cases hs
    case locked =>
      split at hs
      · next hw =>
        obtain rfl := Except.ok.inj hs
        exact .reads hw
      · cases hs
    all_goals obtain rfl := Except.ok.inj hs
    case passed => exact .counts
    case counted => exact .joins
    case joining => exact .spins
    case writing => exact .clears
    case cleared => exact .ends
    case seen => exact .locks
    case reading => exact .unlocks

/-- What the counters count. -/
def Place.inWw : Place → ℕ
  | announced | passed | counted => 1
  | _ => 0

def Place.inW : Place → ℕ
  | counted | joining | spinning _ | writing | cleared => 1
  | _ => 0

def Place.inR : Place → ℕ
  | locked | reading => 1
  | _ => 0

def Place.inF : Place → ℕ
  | writing => 1
  | _ => 0

variable [Fintype T]

structure Exact (m : Mutex T) : Prop where
  ww : m.ww = total Place.inWw m.places
  w : m.w = total Place.inW m.places
  r : m.r = total Place.inR m.places
  f : m.f.toNat = total Place.inF m.places

omit [DecidableEq T] in
theorem new_exact : Exact (Mutex.new : Mutex T) where
  ww := (total_zero fun _ => rfl).symm
  w := (total_zero fun _ => rfl).symm
  r := (total_zero fun _ => rfl).symm
  f := (total_zero fun _ => rfl).symm

/-- A thread that goes on, with the counters brought up to date. -/
theorem Exact.goto {t : T} {place : Place} (h : Exact m)
    (hplaces : m'.places = Function.update m.places t place)
    (hww : m'.ww + (m.places t).inWw = m.ww + place.inWw)
    (hw : m'.w + (m.places t).inW = m.w + place.inW)
    (hr : m'.r + (m.places t).inR = m.r + place.inR)
    (hf : m'.f.toNat + (m.places t).inF = m.f.toNat + place.inF) : Exact m' := by
  have htww := total_update Place.inWw m.places t place
  have htw := total_update Place.inW m.places t place
  have htr := total_update Place.inR m.places t place
  have htf := total_update Place.inF m.places t place
  rw [← h.ww, ← hplaces] at htww
  rw [← h.w, ← hplaces] at htw
  rw [← h.r, ← hplaces] at htr
  rw [← h.f, ← hplaces] at htf
  exact ⟨by omega, by omega, by omega, by omega⟩

theorem move_exact {t : T} (h : Exact m) (hmove : Move t m (m.places t) m') : Exact m' := by
  have hww : (m.places t).inWw ≤ m.ww := h.ww ▸ le_total t
  have hw : (m.places t).inW ≤ m.w := h.w ▸ le_total t
  have hr : (m.places t).inR ≤ m.r := h.r ▸ le_total t
  have hf : (m.places t).inF ≤ m.f.toNat := h.f ▸ le_total t
  have hbit := Bool.toNat_le m.f
  generalize hplace : m.places t = place at hmove hww hw hr hf
  cases hmove with
  | clears =>
    refine h.goto rfl ?_ ?_ ?_ ?_ <;> rw [hplace]
    · simp [Mutex.goto, Place.inWw]
    · simp [Mutex.goto, Place.inW]
    · simp [Mutex.goto, Place.inR]
    · exact hf.antisymm hbit
  | _ =>
    refine h.goto rfl ?_ ?_ ?_ ?_ <;>
      simp_all [Mutex.goto, Place.inWw, Place.inW, Place.inR, Place.inF]

theorem step_exact {a : Act T} (h : Exact m) (hs : step m a = .ok m') : Exact m' :=
  move_exact h (step_move hs)

section Progress

omit [Fintype T] in
/-- Where a thread stands that cannot go on. -/
theorem place_of_stuck {t : T} (h : ∀ m', step m (.next t) ≠ .ok m') :
    m.places t = .outside ∨ m.places t = .announced ∧ m.r ≠ 0 ∨
      (∃ stage, m.places t = .spinning stage) ∧ m.f = true ∨
      m.places t = .looking ∧ m.ww ≠ 0 ∨ m.places t = .locked ∧ m.w ≠ 0 := by
  simp only [step] at h
  cases hplace : m.places t <;> simp only [hplace] at h <;> simp_all
  all_goals
    by_contra hfree
    simp [hfree] at h

/-- The threads are not all held up by each other. -/
theorem Exact.goes_on (h : Exact m) (hbusy : ∃ t, m.places t ≠ .outside) :
    ∃ t m', step m (.next t) = .ok m' := by
  by_contra hstuck
  push Not at hstuck
  have hplace := fun t => place_of_stuck (hstuck t)
  have hf : m.f = false := by
    by_contra hset
    rw [Bool.not_eq_false] at hset
    have hone : total Place.inF m.places ≠ 0 := by simp [← h.f, hset]
    obtain ⟨t, ht⟩ := total_pos hone
    rcases hplace t with hp | ⟨hp, -⟩ | ⟨⟨_, hp⟩, -⟩ | ⟨hp, -⟩ | ⟨hp, -⟩ <;> simp [hp, Place.inF] at ht
  have hw : m.w = 0 := by
    refine h.w.trans (total_zero fun t => ?_)
    rcases hplace t with hp | ⟨hp, -⟩ | ⟨-, hset⟩ | ⟨hp, -⟩ | ⟨hp, -⟩ <;> simp_all [Place.inW]
  have hr : m.r = 0 := by
    refine h.r.trans (total_zero fun t => ?_)
    rcases hplace t with hp | ⟨hp, -⟩ | ⟨-, hset⟩ | ⟨hp, -⟩ | ⟨hp, hne⟩ <;> simp_all [Place.inR]
  have hww : m.ww = 0 := by
    refine h.ww.trans (total_zero fun t => ?_)
    rcases hplace t with hp | ⟨hp, hne⟩ | ⟨-, hset⟩ | ⟨hp, -⟩ | ⟨hp, hne⟩ <;> simp_all [Place.inWw]
  obtain ⟨t, ht⟩ := hbusy
  rcases hplace t with hp | ⟨-, hne⟩ | ⟨-, hset⟩ | ⟨-, hne⟩ | ⟨-, hne⟩ <;> simp_all

end Progress

section Exclusion

/-- At most one thread writes, the counters are those of the threads, and some thread can go on
unless all are outside. -/
structure Orderly (m : Mutex T) : Prop where
  exact : Exact m
  writing : ∀ t t', m.places t = .writing → m.places t' = .writing → t = t'
  goes_on : (∃ t, m.places t ≠ .outside) → ∃ t m', step m (.next t) = .ok m'

theorem Exact.one_writing (h : Exact m) {t t' : T} (ht : m.places t = .writing)
    (ht' : m.places t' = .writing) : t = t' := by
  by_contra hne
  have hone : total Place.inF m.places ≤ 1 := h.f ▸ Bool.toNat_le m.f
  have htwo := total_update Place.inF m.places t .outside
  have hrest : (Function.update m.places t .outside t').inF ≤ _ := le_total t'
  rw [Function.update_of_ne (Ne.symm hne), ht'] at hrest
  rw [ht] at htwo
  simp only [Place.inF] at hrest htwo
  omega

theorem always_orderly (acts : List (Act T)) :
    Always step Orderly (Mutex.new : Mutex T) acts := by
  refine always_of_run fun m past hr => ?_
  have h := run_invariant Exact (fun _ _ _ => step_exact) new_exact hr
  exact ⟨h, fun t t' => h.one_writing, h.goes_on⟩

/-- A reader reads and a writer writes. -/
def Overlap (m : Mutex T) : Prop :=
  ∃ t u, m.places t = .reading ∧ m.places u = .writing

/-- A reader goes in while some writer has seen no readers and is not counted yet. -/
def Slips (m : Mutex T) : Act T → Prop
  | .next t => m.places t = .locked ∧ m.w = 0 ∧ ∃ u, m.places u = .passed
  | _ => False

instance : DecidablePred (Slips m)
  | .next _ => inferInstanceAs (Decidable (_ ∧ _))
  | .writerLock _ | .readerLock _ => isFalse id

/-- A writer that has seen no readers. -/
def Place.pastReaders : Place → Bool
  | passed | counted | joining | spinning _ | writing | cleared => true
  | _ => false

/-- While somebody reads, no writer is past the readers. -/
def Excluded (m : Mutex T) : Prop :=
  ∀ t u, m.places t = .reading → (m.places u).pastReaders = false

omit [Fintype T] in
/-- A thread that goes on within what it is doing. -/
theorem Excluded.goto {t : T} {place : Place} (h : Excluded m)
    (hplaces : m'.places = Function.update m.places t place) (hreading : place ≠ .reading)
    (hpast : place.pastReaders = true → (m.places t).pastReaders = true) : Excluded m' := by
  intro t' u ht'
  rw [hplaces] at ht' ⊢
  have hne : t' ≠ t := by
    rintro rfl
    exact hreading (by simpa using ht')
  rw [Function.update_of_ne hne] at ht'
  by_cases hu : u = t
  · subst hu
    rw [Function.update_self]
    by_contra hplace
    have hbefore := h t' u ht'
    simp [hpast (by simpa using hplace)] at hbefore
  · rw [Function.update_of_ne hu]
    exact h t' u ht'

/-- The first reader: no writer is past the readers. -/
theorem Exact.excluded {t : T} (h : Exact m) (hw : m.w = 0)
    (hpassed : ∀ u, m.places u ≠ .passed) : Excluded (m.goto t .reading) := by
  intro t' u _
  have hu : (m.places u).inW ≤ total Place.inW m.places := le_total u
  rw [← h.w, hw] at hu
  by_cases hut : u = t
  · simp [Mutex.goto, hut, Place.pastReaders]
  · have hnot := hpassed u
    simp only [Mutex.goto, Function.update_of_ne hut]
    cases hp : m.places u <;> simp_all [Place.pastReaders, Place.inW]

/-- A writer passes: nobody reads. -/
theorem Exact.nobody_reads {t : T} (h : Exact m) (hr : m.r = 0) : m.places t ≠ .reading := by
  intro ht
  have hle : (m.places t).inR ≤ total Place.inR m.places := le_total t
  rw [← h.r, hr, ht] at hle
  cases hle

theorem step_excluded {a : Act T} (hexact : Exact m) (h : Excluded m) (ha : ¬ Slips m a)
    (hs : step m a = .ok m') : Excluded m' := by
  have hmove := step_move hs
  generalize hplace : m.places a.thread = place at hmove
  cases hmove with
  | reads hw =>
    refine hexact.excluded hw fun u hu => ?_
    cases a with
    | next t => exact ha ⟨hplace, hw, u, hu⟩
    | writerLock t | readerLock t =>
      have houtside : m.places t ≠ .outside := by simp [show m.places t = .locked from hplace]
      simp [step, houtside] at hs
  | passes hr =>
    intro t' u ht'
    simp only [Mutex.goto] at ht'
    by_cases hne : t' = a.thread
    · simp [hne] at ht'
    · rw [Function.update_of_ne hne] at ht'
      exact absurd ht' (hexact.nobody_reads hr)
  | _ => exact h.goto rfl (by simp) (by simp [hplace, Place.pastReaders])

/-- Readers and writers exclude each other in every interleaving in which no reader slips in. -/
theorem excludes (acts : List (Act T))
    (h : Each step (fun m a => ¬ Slips m a) (Mutex.new : Mutex T) acts) :
    Always step (fun m => ¬ Overlap m) (Mutex.new : Mutex T) acts := by
  let kept (m : Mutex T) : Prop := Exact m ∧ Excluded m
  refine always_of_each kept ?_ (fun m a m' hm ha hs => ?_) ⟨new_exact, ?_⟩ h
  · rintro m ⟨-, hexcluded⟩ ⟨t, u, ht, hu⟩
    have hpast := hexcluded t u ht
    rw [hu] at hpast
    cases hpast
  · exact ⟨step_exact hm.1 hs, step_excluded hm.1 hm.2 ha hs⟩
  · intro t u ht
    cases ht

/-- A reader waits for a writer that it meets on its way. -/
theorem excludes_waiting : Always step (fun m => ¬ Overlap m) (Mutex.new : Mutex Bool)
    ([.readerLock true, .next true, .writerLock false, .next false, .next true] ++
      List.replicate 6 (.next false) ++ List.replicate 2 (.next true)) :=
  excludes _ (by decide)

/-- Only a writer that is counted holds the flag. -/
theorem Exact.free (h : Exact m) (hw : m.w = 0) : m.f = false := by
  by_contra hset
  have hone : total Place.inF m.places ≠ 0 := by simp [← h.f, hset]
  obtain ⟨v, hv⟩ := total_pos hone
  have hle : (m.places v).inW ≤ total Place.inW m.places := le_total v
  rw [← h.w, hw] at hle
  cases hp : m.places v <;> simp_all [Place.inF, Place.inW]

omit [Fintype T] in
/-- A writer that has seen no readers does not look again. -/
theorem run_writer {u : T} (hu : m.places u = .passed) (hf : m.f = false) :
    ∃ m', run step m (List.replicate 4 (.next u)) = .ok m' ∧
      m'.places = Function.update m.places u .writing := by
  refine ⟨{ m with w := m.w + 1, ww := m.ww - 1, f := true }.goto u .writing, ?_, rfl⟩
  simp [List.replicate, run, step, Mutex.goto, hu, hf]

/-- And whenever a reader goes in past such a writer, the writer's own next four steps bring it in
as well. -/
theorem slip_overlaps (acts : List (Act T)) :
    Each step (fun m a => ∀ t u, a = .next t → m.places t = .locked → m.places u = .passed →
      ∀ m', step m a = .ok m' → ∃ m'', run step m' (List.replicate 4 (.next u)) = .ok m'' ∧
        m''.places t = .reading ∧ m''.places u = .writing) (Mutex.new : Mutex T) acts := by
  refine each_of_prefixes fun past a m _ hr t u ha ht hu m' hs => ?_
  have hexact := run_invariant Exact (fun _ _ _ => step_exact) new_exact hr
  subst ha
  have hw : m.w = 0 := by
    by_contra hw
    simp [step, ht, hw] at hs
  have hread : m' = m.goto t .reading := by
    simpa [step, ht, hw] using hs.symm
  subst hread
  have hne : t ≠ u := by
    rintro rfl
    simp [ht] at hu
  have hpassed : (m.goto t .reading).places u = .passed := by
    simpa [Mutex.goto, Function.update_of_ne hne.symm] using hu
  obtain ⟨m'', hrun, hplaces⟩ := run_writer hpassed (hexact.free hw)
  refine ⟨m'', hrun, ?_, ?_⟩
  · simp [hplaces, Function.update_of_ne hne, Mutex.goto]
  · simp [hplaces]

end Exclusion

end YingSma.RwsMutex
