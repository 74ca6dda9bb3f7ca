import YingSma.RingBuffer
import YingSma.TransitionRuns

/-! `RingBuffer` as a queue of the entries that were acquired, read in this order. -/
namespace YingSma.RingSession
open RingBuffer TransitionRuns

/-- The entries that were acquired for writing, by their numbers, each with its slot and, once it
was released, with what was written to it. The first `popped` of them have been read. -/
structure Fifo where
  written : ℕ
  popped : ℕ
  slot : ℕ → UInt64
  frame : ℕ → Option (List UInt8)

namespace Fifo

def new : Fifo := ⟨0, 0, fun _ => 0, fun _ => none⟩

/-- How many entries are unread. -/
def unread (q : Fifo) : ℕ := q.written - q.popped

/-- The entry was released by its writer, and has not been popped. -/
def Released (q : Fifo) (i : ℕ) : Prop := q.popped ≤ i ∧ i < q.written ∧ (q.frame i).isSome

def acquired (slot : UInt64) (q : Fifo) : Fifo :=
  { q with written := q.written + 1, slot := Function.update q.slot q.written slot }

def committed (writer : ℕ) (frame : List UInt8) (q : Fifo) : Fifo :=
  { q with frame := Function.update q.frame writer (some frame) }

def next (q : Fifo) : Fifo := { q with popped := q.popped + 1 }

end Fifo

variable {Size : UInt64}

/-- What the calls do to the queue, as far as the buffer lets them. -/
def noteFifo (q : Fifo) (s : RingSession Size) (c : Call Size) (_ : RingSession Size) : Fifo :=
  match c with
  | .acquire =>
      match s.ring.acquire with
      | .ok (some slot, _) => q.acquired slot
      | _ => q
  | .commit writer frame =>
      match s.writers[writer]? with
      | some (some _) => q.committed writer frame.1
      | _ => q
  | .tryPop =>
      match s.ring.tryPop.1 with
      | some _ => q.next
      | none => q
  | .release _ => q

/-- `acquire` returns, and does not overwrite an unread entry unless it throws. -/
def AcquireExact (q : Fifo) (s : RingSession Size) : Prop :=
  ∃ acquired ring, s.ring.acquire = .ok (acquired, ring) ∧
    ∀ slot, acquired = some slot → ∀ i, q.popped ≤ i → i < q.written → slot ≠ q.slot i

/-- `try_pop` acquires the oldest entry that was released and not popped, with what was written to
it, or none if there is none. Then it leaves no readers behind. -/
def PopExact (q : Fifo) (s : RingSession Size) : Prop :=
  match s.ring.tryPop with
  | (some slot, ring) => ∃ i frame, q.Released i ∧ (∀ j, q.Released j → i ≤ j) ∧
      q.frame i = some frame ∧ slot = q.slot i ∧ (ring.entries slot).bytes = frame ∧
      (ring.entries slot).size.toNat = frame.length
  | (none, ring) => (∀ i, ¬ q.Released i) ∧
      ∀ slot, (ring.entries slot).readers = (s.ring.entries slot).readers

/-- The call is one of a queue. -/
def QueueLike (r : Fifo × RingSession Size) (c : Call Size) : Prop :=
  (match c with
    | .acquire => AcquireExact r.1 r.2
    | .tryPop => PopExact r.1 r.2
    | _ => True) ∧
  ∀ s', step r.2 c = .ok s' → s'.ring.size.toNat = (noteFifo r.1 r.2 c s').unread

/-- There is an entry for the call. A writer needs one that is neither unread nor locked by a reader,
a reader one that was released. -/
def Available (r : Fifo × RingSession Size) (c : Call Size) : Prop :=
  match c with
  | .acquire => r.1.written < r.1.popped + r.2.ring.count ∧
      ∀ i, i + r.2.ring.count = r.1.written → ∀ slot, r.2.readers[i]? ≠ some (some slot)
  | .tryPop => r.1.Released r.1.popped
  | _ => True

/-- How the buffer and its locks stand for the queue. -/
structure Tracks (k : ℕ) (q : Fifo) (s : RingSession Size) : Prop where
  small : k < 64
  mask : s.ring.idxMask.toNat + 1 = 2 ^ k
  nextWrite : s.ring.nextWrite = UInt64.ofNat (q.written + 1)
  nextRead : s.ring.nextRead = UInt64.ofNat q.popped
  le : q.popped ≤ q.written
  room : q.written ≤ q.popped + 2 ^ k
  slot : ∀ i, i < q.written → q.slot i = slotOf s.ring.idxMask i
  unwritten : ∀ i, q.written ≤ i → q.frame i = none
  length_writers : s.writers.length = q.written
  writer : ∀ i slot, s.writers[i]? = some (some slot) ↔
    q.popped ≤ i ∧ i < q.written ∧ q.frame i = none ∧ slot = slotOf s.ring.idxMask i
  length_readers : s.readers.length = q.popped
  reader : ∀ i slot, s.readers[i]? = some (some slot) →
    slot = slotOf s.ring.idxMask i ∧ q.written ≤ i + 2 ^ k
  writing : ∀ slot, (s.ring.entries slot).writing = true ↔ some slot ∈ s.writers
  readers : ∀ slot, (s.ring.entries slot).readers = s.readers.count (some slot)
  bytes : ∀ i frame, q.popped ≤ i → i < q.written → q.frame i = some frame →
    (s.ring.entries (slotOf s.ring.idxMask i)).bytes = frame ∧
      (s.ring.entries (slotOf s.ring.idxMask i)).size.toNat = frame.length

section Operations

variable {b b' : RingBuffer Size} {mask : UInt64} {k n p : ℕ}

theorem ofNat_succ_sub (n : ℕ) : UInt64.ofNat (n + 1) - 1 = UInt64.ofNat n := by
  rw [UInt64.ofNat_add]
  exact UInt64.add_sub_cancel _ _

theorem toNat_size (hwrite : b.nextWrite = UInt64.ofNat (n + 1))
    (hread : b.nextRead = UInt64.ofNat p) (hle : p ≤ n) (hlt : n - p < 2 ^ 64) :
    b.size.toNat = n - p := by
  rw [RingBuffer.size, hwrite, hread, UInt64.toNat_sub, UInt64.toNat_sub, UInt64.toNat_ofNat',
    UInt64.toNat_ofNat', UInt64.toNat_one]
  omega

/-- The loop of `acquire` ends at once at an entry that nobody writes to. -/
theorem acquire_free (hfree : (b.entries b.nextSlot).writing = false) :
    b.acquire =
      .ok (if (b.entries b.nextSlot).readers ≠ 0 then none else some b.nextSlot, b.claim) := by
  rw [acquire, RingBuffer.count, acquireFrom]
  simp only [hfree, Bool.false_eq_true, if_false]
  split_ifs <;> rfl

/-- Wherever the loop ends, it is at a slot of the ring, and if it throws, at one with readers. -/
theorem acquireFrom_ok {tries : ℕ} {acquired : Option UInt64}
    (h : acquireFrom tries b = .ok (acquired, b')) :
    (∀ slot, acquired = some slot → ∃ n, slot = slotOf b.idxMask n) ∧
      (acquired = none → ∃ slot, (b.entries slot).readers ≠ 0) := by
  induction tries generalizing b with
  | zero => cases h
  | succ tries ih =>
    rw [acquireFrom] at h
    split at h
    · obtain ⟨hslot, hnone⟩ := ih h
      refine ⟨hslot, fun hthrows => ?_⟩
      obtain ⟨slot, hreaders⟩ := hnone hthrows
      exact ⟨slot, by simpa using hreaders⟩
    · split at h
      · rename_i hreaders
        cases h
        exact ⟨fun slot hslot => (by cases hslot), fun _ => ⟨_, hreaders⟩⟩
      · cases h
        refine ⟨fun slot hslot => ⟨(b.nextWrite - 1).toNat, ?_⟩, fun hnone => (by cases hnone)⟩
        rw [slotOf, UInt64.ofNat_toNat]
        exact (Option.some.inj hslot).symm

end Operations

namespace Tracks

variable {k : ℕ} {q : Fifo} {s : RingSession Size}

theorem not_writing (h : Tracks k q s) {n : ℕ}
    (hother : ∀ i, q.popped ≤ i → i < q.written → q.frame i = none →
      slotOf s.ring.idxMask i ≠ slotOf s.ring.idxMask n) :
    (s.ring.entries (slotOf s.ring.idxMask n)).writing = false := by
  rw [Bool.eq_false_iff, Ne, h.writing]
  intro hmem
  obtain ⟨i, hi⟩ := List.mem_iff_getElem?.mp hmem
  obtain ⟨hpopped, hwritten, hframe, hslot⟩ := (h.writer i _).mp hi
  exact hother i hpopped hwritten hframe hslot.symm

theorem no_readers (h : Tracks k q s) {slot : UInt64}
    (hother : ∀ i : ℕ, s.readers[i]? ≠ some (some slot)) : (s.ring.entries slot).readers = 0 := by
  rw [h.readers, List.count_eq_zero]
  intro hmem
  obtain ⟨i, hi⟩ := List.mem_iff_getElem?.mp hmem
  exact hother i hi

theorem count_eq (h : Tracks k q s) : s.ring.count = 2 ^ k := h.mask

theorem count_le (h : Tracks k q s) : 2 ^ k ≤ 2 ^ 63 :=
  Nat.pow_le_pow_right (by decide) (Nat.le_of_lt_succ h.small)

theorem nextSlot (h : Tracks k q s) : s.ring.nextSlot = slotOf s.ring.idxMask q.written := by
  rw [RingBuffer.nextSlot, h.nextWrite, ofNat_succ_sub]
  rfl

/-- Unread entries are in other slots than the next one, as long as there is room for it. -/
theorem slot_ne_next (h : Tracks k q s) (hroom : q.written < q.popped + 2 ^ k) {i : ℕ}
    (hpopped : q.popped ≤ i) (hi : i < q.written) :
    slotOf s.ring.idxMask i ≠ slotOf s.ring.idxMask q.written := by
  rw [Ne, slotOf_inj h.mask hi.le (by omega)]
  exact hi.ne

/-- A reader in the next slot has the entry of a turn before. -/
theorem reader_next (h : Tracks k q s) {i : ℕ}
    (hi : s.readers[i]? = some (some (slotOf s.ring.idxMask q.written))) :
    i + 2 ^ k = q.written := by
  obtain ⟨hslot, hturn⟩ := h.reader i _ hi
  have hlt : i < q.popped := by
    rw [← h.length_readers]
    exact (List.getElem?_eq_some_iff.mp hi).1
  rcases Nat.lt_or_eq_of_le hturn with hless | heq
  · rw [eq_comm, slotOf_inj h.mask (by have := h.le; omega) hless] at hslot
    have := h.le
    omega
  · exact heq.symm

theorem size (h : Tracks k q s) : s.ring.size.toNat = q.unread :=
  toNat_size h.nextWrite h.nextRead h.le (by have := h.room; have := h.count_le; omega)

/-- With an entry available `acquire` returns it. -/
theorem acquire_eq (h : Tracks k q s) (havailable : Available (q, s) .acquire) :
    s.ring.acquire = .ok (some (slotOf s.ring.idxMask q.written), s.ring.claim) := by
  obtain ⟨hroom, hreader⟩ := havailable
  rw [h.count_eq] at hroom hreader
  have hfree := h.not_writing fun i hpopped hi _ => h.slot_ne_next hroom hpopped hi
  have hreaders := h.no_readers fun i hi => hreader i (h.reader_next hi) _ hi
  rw [← h.nextSlot] at hfree hreaders
  rw [acquire_free hfree, if_neg (not_not.mpr hreaders), h.nextSlot]

theorem acquired (h : Tracks k q s) (havailable : Available (q, s) .acquire) :
    Tracks k (q.acquired (slotOf s.ring.idxMask q.written))
      ⟨s.ring.claim, s.writers ++ [some (slotOf s.ring.idxMask q.written)], s.readers⟩ := by
  obtain ⟨hroom, hreader⟩ := havailable
  rw [h.count_eq] at hroom hreader
  constructor
  case small => exact h.small
  case mask => exact h.mask
  case nextWrite =>
    show s.ring.nextWrite + 1 = _
    rw [h.nextWrite]
    exact (UInt64.ofNat_add (q.written + 1) 1).symm
  case nextRead => exact h.nextRead
  case le => exact h.le.trans (Nat.le_succ _)
  case room => exact hroom
  case slot =>
    intro i hi
    rcases Nat.lt_succ_iff_lt_or_eq.mp hi with hold | rfl
    · exact (Function.update_of_ne hold.ne _ _).trans (h.slot i hold)
    · exact Function.update_self _ _ _
  case unwritten => exact fun i hi => h.unwritten i (Nat.le_of_succ_le hi)
  case length_writers => simp [h.length_writers, Fifo.acquired]
  case writer =>
    intro i slot
    show (s.writers ++ [some (slotOf s.ring.idxMask q.written)])[i]? = _ ↔
      q.popped ≤ i ∧ i < q.written + 1 ∧ q.frame i = none ∧ slot = slotOf s.ring.idxMask i
    rcases lt_trichotomy i q.written with hold | rfl | hbeyond
    · rw [List.getElem?_append_left (by rwa [h.length_writers]), h.writer]
      simp [hold, Nat.lt_succ_of_lt hold]
    · rw [← h.length_writers, List.getElem?_concat_length, h.length_writers]
      simp [h.le, h.unwritten _ le_rfl, eq_comm]
    · rw [List.getElem?_eq_none (by simp [h.length_writers]; omega)]
      simp
      omega
  case length_readers => exact h.length_readers
  case reader =>
    intro i slot hi
    obtain ⟨hslot, hturn⟩ := h.reader i slot hi
    exact ⟨hslot, lt_of_le_of_ne hturn fun heq => hreader i heq.symm slot hi⟩
  case writing =>
    intro slot
    by_cases hslot : slot = slotOf s.ring.idxMask q.written
    · simp [claim, setEntry, h.nextSlot, hslot]
    · simpa [claim, setEntry, h.nextSlot, hslot] using h.writing slot
  case readers =>
    intro slot
    simpa using h.readers slot
  case bytes =>
    intro i frame hpopped hi hframe
    rcases Nat.lt_succ_iff_lt_or_eq.mp hi with hold | rfl
    · have hbytes := h.bytes i frame hpopped hold hframe
      simpa [claim, setEntry, h.nextSlot, h.slot_ne_next hroom hpopped hold] using hbytes
    · cases (h.unwritten _ le_rfl).symm.trans hframe

/-- Unread entries are in different slots. -/
theorem slot_inj (h : Tracks k q s) {i j : ℕ} (hi : q.popped ≤ i) (hi' : i < q.written)
    (hj : q.popped ≤ j) (hj' : j < q.written)
    (heq : slotOf s.ring.idxMask i = slotOf s.ring.idxMask j) : i = j := by
  have hroom := h.room
  rcases le_total i j with hle | hle
  · exact (slotOf_inj h.mask hle (by omega)).mp heq
  · exact ((slotOf_inj h.mask hle (by omega)).mp heq.symm).symm

theorem mem_set_writers (h : Tracks k q s) {i : ℕ} {slot x : UInt64}
    (hi : s.writers[i]? = some (some slot)) :
    some x ∈ s.writers.set i none ↔ some x ∈ s.writers ∧ x ≠ slot := by
  obtain ⟨hpopped, hwritten, -, hslot⟩ := (h.writer i slot).mp hi
  constructor
  · intro hmem
    obtain ⟨j, hj⟩ := List.mem_iff_getElem?.mp hmem
    have hne : j ≠ i := by
      rintro rfl
      rw [List.getElem?_set_self (by rwa [h.length_writers])] at hj
      cases hj
    rw [List.getElem?_set_ne hne.symm] at hj
    refine ⟨List.mem_of_getElem? hj, ?_⟩
    rintro rfl
    obtain ⟨hpopped', hwritten', -, hslot'⟩ := (h.writer j x).mp hj
    exact hne (h.slot_inj hpopped' hwritten' hpopped hwritten (hslot'.symm.trans hslot))
  · rintro ⟨hmem, hne⟩
    obtain ⟨j, hj⟩ := List.mem_iff_getElem?.mp hmem
    have hne' : i ≠ j := by
      rintro rfl
      exact hne (Option.some.inj (Option.some.inj (hj.symm.trans hi)))
    exact List.mem_of_getElem? ((List.getElem?_set_ne hne').trans hj)

theorem committed (h : Tracks k q s) {i : ℕ} {slot : UInt64}
    (hi : s.writers[i]? = some (some slot)) (frame : Frame Size) :
    Tracks k (q.committed i frame.1)
      ⟨s.ring.commit slot frame, s.writers.set i none, s.readers⟩ := by
  obtain ⟨hpopped, hwritten, hframe, hslot⟩ := (h.writer i slot).mp hi
  constructor
  case small => exact h.small
  case mask => exact h.mask
  case nextWrite => exact h.nextWrite
  case nextRead => exact h.nextRead
  case le => exact h.le
  case room => exact h.room
  case slot => exact h.slot
  case unwritten =>
    intro j hj
    have hne : j ≠ i := fun heq => absurd hj (by subst heq; exact hwritten.not_ge)
    exact (Function.update_of_ne hne _ _).trans (h.unwritten j hj)
  case length_writers => simp [h.length_writers, Fifo.committed]
  case writer =>
    intro j x
    show (s.writers.set i none)[j]? = _ ↔ q.popped ≤ j ∧ j < q.written ∧
      Function.update q.frame i (some frame.1) j = none ∧ x = slotOf s.ring.idxMask j
    by_cases hj : j = i
    · subst hj
      rw [List.getElem?_set_self (by rwa [h.length_writers]), Function.update_self]
      simp
    · rw [List.getElem?_set_ne (Ne.symm hj), Function.update_of_ne hj]
      exact h.writer j x
  case length_readers => exact h.length_readers
  case reader => exact h.reader
  case writing =>
    intro x
    rw [h.mem_set_writers hi]
    by_cases hx : x = slot
    · simp [commit, setEntry, hx]
    · simpa [commit, setEntry, hx] using h.writing x
  case readers =>
    intro x
    simpa using h.readers x
  case bytes =>
    intro j bytes hj hj' hbytes
    by_cases hsame : j = i
    · subst hsame
      have hnew : Function.update q.frame j (some frame.1) j = some bytes := hbytes
      rw [Function.update_self] at hnew
      obtain rfl := Option.some.inj hnew
      have hlength : (UInt64.ofNat frame.1.length).toNat = frame.1.length := by
        rw [UInt64.toNat_ofNat']
        exact Nat.mod_eq_of_lt (frame.2.trans_lt Size.toNat_lt)
      simp [commit, setEntry, ← hslot, RingEntry.bytes, hlength]
    · have hold := h.bytes j bytes hj hj' ((Function.update_of_ne hsame _ _).symm.trans hbytes)
      have hne : slotOf s.ring.idxMask j ≠ slot := fun heq =>
        hsame (h.slot_inj hj hj' hpopped hwritten (heq.trans hslot))
      simpa [commit, setEntry, hne] using hold

theorem readSlot (h : Tracks k q s) : s.ring.readSlot = slotOf s.ring.idxMask q.popped := by
  rw [RingBuffer.readSlot, h.nextRead]
  rfl

/-- Once the oldest unread entry has been released `try_pop` acquires it. -/
theorem tryPop_eq (h : Tracks k q s) (hreleased : q.Released q.popped) :
    s.ring.tryPop = (some (slotOf s.ring.idxMask q.popped), s.ring.advance) := by
  obtain ⟨-, hwritten, hframe⟩ := hreleased
  have hfree := h.not_writing fun i hpopped hi hnone heq => by
    obtain rfl := h.slot_inj hpopped hi le_rfl hwritten heq
    simp [hnone] at hframe
  rw [tryPop, h.readSlot, hfree]
  rfl

theorem next (h : Tracks k q s) (hreleased : q.Released q.popped) :
    Tracks k q.next
      ⟨s.ring.advance, s.writers, s.readers ++ [some (slotOf s.ring.idxMask q.popped)]⟩ := by
  obtain ⟨-, hwritten, hframe⟩ := hreleased
  constructor
  case small => exact h.small
  case mask => exact h.mask
  case nextWrite => exact h.nextWrite
  case nextRead =>
    show s.ring.nextRead + 1 = _
    rw [h.nextRead]
    exact (UInt64.ofNat_add q.popped 1).symm
  case le => exact hwritten
  case room => exact h.room.trans (by show q.popped + _ ≤ q.popped + 1 + _; omega)
  case slot => exact h.slot
  case unwritten => exact h.unwritten
  case length_writers => exact h.length_writers
  case writer =>
    intro i slot
    show s.writers[i]? = _ ↔ q.popped + 1 ≤ i ∧ i < q.written ∧ q.frame i = none ∧
      slot = slotOf s.ring.idxMask i
    rw [h.writer]
    refine ⟨fun ⟨hpopped, hi⟩ => ⟨?_, hi⟩, fun ⟨hpopped, hi⟩ => ⟨by omega, hi⟩⟩
    refine lt_of_le_of_ne hpopped ?_
    rintro rfl
    simp [hi.2.1] at hframe
  case length_readers => simp [h.length_readers, Fifo.next]
  case reader =>
    intro i slot hi
    have hi : (s.readers ++ [some (slotOf s.ring.idxMask q.popped)])[i]? = some (some slot) := hi
    rcases lt_trichotomy i q.popped with hold | rfl | hbeyond
    · rw [List.getElem?_append_left (by rwa [h.length_readers])] at hi
      exact h.reader i slot hi
    · rw [← h.length_readers, List.getElem?_concat_length, h.length_readers] at hi
      exact ⟨(Option.some.inj (Option.some.inj hi)).symm, h.room⟩
    · rw [List.getElem?_eq_none (by simp [h.length_readers]; omega)] at hi
      cases hi
  case writing =>
    intro slot
    simpa using h.writing slot
  case readers =>
    intro slot
    by_cases hslot : slot = slotOf s.ring.idxMask q.popped
    · simpa [advance, lock, setEntry, h.readSlot, hslot] using
        h.readers (slotOf s.ring.idxMask q.popped)
    · simpa [advance, lock, setEntry, h.readSlot, hslot, Ne.symm hslot] using h.readers slot
  case bytes =>
    intro i frame hpopped hi hbytes
    rw [advance_bytes, advance_size]
    exact h.bytes i frame (Nat.le_of_succ_le hpopped) hi hbytes

theorem released (h : Tracks k q s) {i : ℕ} {slot : UInt64}
    (hi : s.readers[i]? = some (some slot)) :
    Tracks k q ⟨s.ring.release slot, s.writers, s.readers.set i none⟩ := by
  obtain ⟨hlt, hget⟩ := List.getElem?_eq_some_iff.mp hi
  constructor
  case small => exact h.small
  case mask => exact h.mask
  case nextWrite => exact h.nextWrite
  case nextRead => exact h.nextRead
  case le => exact h.le
  case room => exact h.room
  case slot => exact h.slot
  case unwritten => exact h.unwritten
  case length_writers => exact h.length_writers
  case writer => exact h.writer
  case length_readers => simp [h.length_readers]
  case reader =>
    intro j x hj
    have hj : (s.readers.set i none)[j]? = some (some x) := hj
    by_cases hsame : j = i
    · subst hsame
      rw [List.getElem?_set_self hlt] at hj
      cases hj
    · rw [List.getElem?_set_ne (Ne.symm hsame)] at hj
      exact h.reader j x hj
  case writing =>
    intro x
    simpa using h.writing x
  case readers =>
    intro x
    show _ = (s.readers.set i none).count (some x)
    rw [List.count_set hlt, hget]
    by_cases hx : x = slot
    · simpa [release, setEntry, hx] using congrArg (· - 1) (h.readers slot)
    · simpa [release, setEntry, hx, Ne.symm hx] using h.readers x
  case bytes =>
    intro j frame hpopped hj hbytes
    rw [release_bytes, release_size]
    exact h.bytes j frame hpopped hj hbytes

/-- A call that finds an entry keeps the buffer in step with the queue. -/
theorem step (h : Tracks k q s) {c : Call Size} (havailable : Available (q, s) c)
    {s' : RingSession Size} (hs : RingSession.step s c = .ok s') :
    Tracks k (noteFifo q s c s') s' := by
  cases c with
  | acquire =>
    have hacquire := h.acquire_eq havailable
    simp only [RingSession.step, hacquire, Except.map] at hs
    obtain rfl := Except.ok.inj hs
    simp only [noteFifo, hacquire]
    exact h.acquired havailable
  | commit writer frame =>
    rcases hwriter : s.writers[writer]? with _ | _ | slot <;>
      simp only [RingSession.step, hwriter] at hs <;> obtain rfl := Except.ok.inj hs <;>
      simp only [noteFifo, hwriter]
    · exact h
    · exact h
    · exact h.committed hwriter frame
  | tryPop =>
    have hpop := h.tryPop_eq havailable
    simp only [RingSession.step, hpop] at hs
    obtain rfl := Except.ok.inj hs
    simp only [noteFifo, hpop]
    exact h.next havailable
  | release reader =>
    rcases hreader : s.readers[reader]? with _ | _ | slot <;>
      simp only [RingSession.step, hreader] at hs <;> obtain rfl := Except.ok.inj hs
    · exact h
    · exact h
    · exact h.released hreader

/-- In a full ring every slot has an unread entry. -/
theorem exists_unread (h : Tracks k q s) (hfull : q.written = q.popped + 2 ^ k) (n : ℕ) :
    ∃ i, q.popped ≤ i ∧ i < q.written ∧ q.slot i = slotOf s.ring.idxMask n := by
  have hpos : 0 < 2 ^ k := Nat.two_pow_pos k
  have hle : q.popped ≤ 2 ^ k * q.popped := Nat.le_mul_of_pos_left _ hpos
  have hlt := Nat.mod_lt (n + 2 ^ k * q.popped - q.popped) hpos
  refine ⟨q.popped + (n + 2 ^ k * q.popped - q.popped) % 2 ^ k, Nat.le_add_right _ _, by omega, ?_⟩
  rw [h.slot _ (by omega)]
  apply UInt64.toNat_inj.mp
  rw [toNat_slotOf h.mask, toNat_slotOf h.mask, Nat.add_mod_mod,
    show q.popped + (n + 2 ^ k * q.popped - q.popped) = n + 2 ^ k * q.popped by omega,
    Nat.add_mul_mod_self_left]

/-- A full ring does not throw, and every entry it has is unread. -/
theorem not_acquireExact (h : Tracks k q s) (hfull : q.written = q.popped + 2 ^ k) :
    ¬ AcquireExact q s := by
  rintro ⟨acquired, ring, hacquire, hunread⟩
  obtain ⟨hslot, hthrows⟩ := acquireFrom_ok hacquire
  cases acquired with
  | none =>
    obtain ⟨slot, hreaders⟩ := hthrows rfl
    refine hreaders (h.no_readers fun i hi => ?_)
    have hlt := (List.getElem?_eq_some_iff.mp hi).1
    have hturn := (h.reader i slot hi).2
    rw [h.length_readers] at hlt
    omega
  | some slot =>
    obtain ⟨n, rfl⟩ := hslot slot rfl
    obtain ⟨i, hpopped, hi, heq⟩ := h.exists_unread hfull n
    exact hunread _ rfl i hpopped hi heq.symm

/-- With a reader in the next slot `acquire` throws, and its claim is counted all the same. -/
theorem size_overrun (h : Tracks k q s) (hroom : q.written < q.popped + 2 ^ k) {i : ℕ}
    (hturn : i + 2 ^ k = q.written) {slot : UInt64} (hi : s.readers[i]? = some (some slot)) :
    ∃ s', RingSession.step s .acquire = .ok s' ∧
      s'.ring.size.toNat ≠ (noteFifo q s .acquire s').unread := by
  have hfree := h.not_writing fun j hpopped hj _ => h.slot_ne_next hroom hpopped hj
  have hslot : slot = slotOf s.ring.idxMask q.written := by
    rw [(h.reader i slot hi).1, ← hturn, slotOf_turn h.mask]
  have hreaders : (s.ring.entries (slotOf s.ring.idxMask q.written)).readers ≠ 0 := by
    rw [h.readers, ← hslot]
    exact (List.count_pos_iff.mpr (List.mem_of_getElem? hi)).ne'
  rw [← h.nextSlot] at hfree hreaders
  have hacquire := acquire_free hfree
  rw [if_pos hreaders] at hacquire
  refine ⟨{ s with ring := s.ring.claim }, ?_, ?_⟩
  · simp only [RingSession.step, hacquire, Except.map]
  have hle := h.le
  have hcount := h.count_le
  have hsize : s.ring.claim.size.toNat = q.written + 1 - q.popped := by
    refine toNat_size ?_ h.nextRead (by omega) (by omega)
    show s.ring.nextWrite + 1 = _
    rw [h.nextWrite]
    exact (UInt64.ofNat_add (q.written + 1) 1).symm
  simp only [noteFifo, hacquire, hsize, Fifo.unread]
  omega

/-- Where no entry has been released `try_pop` acquires one, or leaves a reader behind. -/
theorem not_popExact (h : Tracks k q s) (hnone : ¬ q.Released q.popped) : ¬ PopExact q s := by
  have hle := h.le
  rw [PopExact]
  rcases Nat.lt_or_eq_of_le h.le with hlt | heq
  · have hframe : q.frame q.popped = none := by
      by_contra hsome
      exact hnone ⟨le_rfl, hlt, Option.isSome_iff_ne_none.mpr hsome⟩
    have hwriting : (s.ring.entries s.ring.readSlot).writing = true := by
      rw [h.writing, h.readSlot]
      exact List.mem_of_getElem? ((h.writer q.popped _).mpr ⟨le_rfl, hlt, hframe, rfl⟩)
    rw [tryPop, if_pos hwriting]
    rintro ⟨-, hreaders⟩
    have hleft := hreaders s.ring.readSlot
    simp [lock, setEntry] at hleft
  · have hfree := h.not_writing (n := q.popped) fun i hpopped hi => by omega
    rw [← h.readSlot] at hfree
    rw [tryPop, if_neg (by simp [hfree])]
    rintro ⟨i, frame, ⟨hpopped, hi, -⟩, -⟩
    omega

theorem acquireExact (h : Tracks k q s) (havailable : Available (q, s) .acquire) :
    AcquireExact q s := by
  refine ⟨_, _, h.acquire_eq havailable, fun slot hslot i hpopped hi => ?_⟩
  have hroom := havailable.1
  rw [h.count_eq] at hroom
  rw [← Option.some.inj hslot, h.slot i hi]
  exact (h.slot_ne_next hroom hpopped hi).symm

theorem popExact (h : Tracks k q s) (hreleased : q.Released q.popped) : PopExact q s := by
  obtain ⟨frame, hframe⟩ := Option.isSome_iff_exists.mp hreleased.2.2
  have hbytes := h.bytes q.popped frame le_rfl hreleased.2.1 hframe
  rw [PopExact, h.tryPop_eq hreleased]
  refine ⟨q.popped, frame, hreleased, fun j hj => hj.1, hframe, (h.slot _ hreleased.2.1).symm, ?_⟩
  simpa using hbytes

theorem queueLike_iff (h : Tracks k q s) (c : Call Size) :
    QueueLike (q, s) c ↔ Available (q, s) c := by
  constructor
  · rintro ⟨hexact, hsize⟩
    cases c with
    | acquire =>
      have hroom : q.written < q.popped + 2 ^ k := by
        refine lt_of_le_of_ne h.room fun hfull => h.not_acquireExact hfull hexact
      refine ⟨by rwa [h.count_eq], fun i hturn slot hi => ?_⟩
      rw [h.count_eq] at hturn
      obtain ⟨s', hs, hne⟩ := h.size_overrun hroom hturn hi
      exact hne (hsize s' hs)
    | commit writer frame => trivial
    | tryPop =>
      by_contra hnone
      exact h.not_popExact hnone hexact
    | release reader => trivial
  · intro havailable
    refine ⟨?_, fun s' hs => (h.step havailable hs).size⟩
    cases c with
    | acquire => exact h.acquireExact havailable
    | commit writer frame => trivial
    | tryPop => exact h.popExact havailable
    | release reader => trivial

end Tracks

theorem tracks_new {size : UInt64} {ring : RingBuffer Size}
    (h : RingBuffer.new Size size = .ok ring) : ∃ k, Tracks k Fifo.new (new ring) := by
  obtain ⟨k, hsize, hmask, hring⟩ := new_ok h
  have hsmall : k < 64 := by
    have hlt := size.toNat_lt
    rw [hsize] at hlt
    exact (Nat.pow_lt_pow_iff_right (by decide)).mp hlt
  refine ⟨k, ?_⟩
  rw [hring]
  exact
    { small := hsmall
      mask := hmask
      nextWrite := rfl
      nextRead := rfl
      le := le_rfl
      room := Nat.zero_le _
      slot := fun i hi => absurd hi (Nat.not_lt_zero i)
      unwritten := fun _ _ => rfl
      length_writers := rfl
      writer := by simp [new, Fifo.new]
      length_readers := rfl
      reader := by simp [new]
      writing := by simp [new]
      readers := by simp [new]
      bytes := fun i _ _ hi => absurd hi (Nat.not_lt_zero i) }

/-- A buffer behaves as a queue exactly as long as every writer has room for its entry, and every
reader comes after a released one. -/
theorem run_queueLike {size : UInt64} {ring : RingBuffer Size}
    (h : RingBuffer.new Size size = .ok ring) (calls : List (Call Size)) :
    Each (noted RingSession.step noteFifo) QueueLike (Fifo.new, new ring) calls ↔
      Each (noted RingSession.step noteFifo) Available (Fifo.new, new ring) calls := by
  obtain ⟨k, htracks⟩ := tracks_new h
  refine each_congr (fun r : Fifo × RingSession Size => Tracks k r.1 r.2) ?_
    (fun r c _ hr => hr.queueLike_iff c) htracks
  intro r c _ r' hr havailable hs
  obtain ⟨hstep, hnote⟩ := noted_ok hs
  rw [hnote]
  exact hr.step havailable hstep

/-- An entry of two bytes is written and read. -/
theorem run_queueLike_once : ∃ ring, RingBuffer.new 8 2 = .ok ring ∧
    (Each (noted RingSession.step noteFifo) QueueLike (Fifo.new, new ring)
        [.acquire, .commit 0 ⟨[1, 2], by decide⟩, .tryPop, .release 0] ↔
      Each (noted RingSession.step noteFifo) Available (Fifo.new, new ring)
        [.acquire, .commit 0 ⟨[1, 2], by decide⟩, .tryPop, .release 0]) :=
  ⟨_, rfl, @run_queueLike 8 2 _ rfl [.acquire, .commit 0 ⟨[1, 2], by decide⟩, .tryPop, .release 0]⟩

/-- A reader of a new buffer acquires an entry that was never written. -/
theorem empty_not_queueLike :
    ¬ ∀ (size : UInt64) (ring : RingBuffer 8), RingBuffer.new 8 size = .ok ring →
      ∀ calls, Each (noted RingSession.step noteFifo) QueueLike (Fifo.new, new ring) calls := by
  intro h
  obtain ⟨⟨hexact, -⟩, -⟩ := h 2 _ rfl [.tryPop]
  obtain ⟨i, frame, ⟨-, hi, -⟩, -⟩ := hexact
  exact absurd hi (Nat.not_lt_zero i)

end YingSma.RingSession
