import Mathlib.Logic.Function.Basic
import YingSma.Messages

/-! `RingBuffer`: entries that are claimed by two counters, one for the writers and one for the
readers. The calls come one after another, so that no exchange of a counter fails. -/
namespace YingSma

/-- An entry of `Size` bytes, of which the first `size` count. -/
structure RingEntry where
  data : List UInt8
  size : UInt64
  readers : ℕ
  writing : Bool

/-- The bytes of an entry, as a reader sees them. -/
def RingEntry.bytes (entry : RingEntry) : List UInt8 := entry.data.take entry.size.toNat

/-- The entries are found by their index, of which `idxMask` keeps the bits. -/
structure RingBuffer (Size : UInt64) where
  entries : UInt64 → RingEntry
  idxMask : UInt64
  nextWrite : UInt64
  nextRead : UInt64

/-- `acquire` waits for an entry, and all are being written to. -/
inductive BusyLoop
  | acquire
  deriving DecidableEq

/-- What is written to an entry. -/
abbrev Frame (Size : UInt64) := {bytes : List UInt8 // bytes.length ≤ Size.toNat}

namespace RingBuffer

variable {Size : UInt64}

def new (Size size : UInt64) : Except Fault (RingBuffer Size) :=
  if size ≠ 0 ∧ size &&& (size - 1) = 0 then
    .ok
      { entries := fun _ => ⟨List.replicate Size.toNat 0, 0, 0, false⟩
        idxMask := size - 1
        nextWrite := 1
        nextRead := 0 }
  else .error (.assertFailed "size != 0 && ((size & (size - 1)) == 0)")

def size (b : RingBuffer Size) : UInt64 := b.nextWrite - b.nextRead - 1

def setEntry (slot : UInt64) (entry : RingEntry) (b : RingBuffer Size) : RingBuffer Size :=
  { b with entries := Function.update b.entries slot entry }

/-- The slot of the next sequence number, which is one more than that of an index. -/
def nextSlot (b : RingBuffer Size) : UInt64 := (b.nextWrite - 1) &&& b.idxMask

/-- `acquire` claims the next sequence number and sets the flag of its entry. -/
def claim (b : RingBuffer Size) : RingBuffer Size :=
  { b with nextWrite := b.nextWrite + 1 }.setEntry b.nextSlot
    { b.entries b.nextSlot with writing := true }

/-- The loop of `acquire`, with as many more turns as there are entries to look at. The slot is
`none` when it throws, the buffer being overrun. -/
def acquireFrom : ℕ → RingBuffer Size → Except BusyLoop (Option UInt64 × RingBuffer Size)
  | 0, _ => .error .acquire
  | tries + 1, b =>
      let entry := b.entries b.nextSlot
      if entry.writing then acquireFrom tries b.claim
      else if entry.readers ≠ 0 then .ok (none, b.claim)
      else .ok (some b.nextSlot, b.claim)

/-- The number of entries. -/
def count (b : RingBuffer Size) : ℕ := b.idxMask.toNat + 1

/-- Past as many entries as there are, all of them are being written to. -/
def acquire (b : RingBuffer Size) : Except BusyLoop (Option UInt64 × RingBuffer Size) :=
  acquireFrom b.count b

/-- The entry behind a `WritableEntry` is filled and released. -/
def commit (slot : UInt64) (frame : Frame Size) (b : RingBuffer Size) : RingBuffer Size :=
  let entry := b.entries slot
  b.setEntry slot
    { entry with
      data := frame.1 ++ entry.data.drop frame.1.length
      size := UInt64.ofNat frame.1.length
      writing := false }

def readSlot (b : RingBuffer Size) : UInt64 := b.nextRead &&& b.idxMask

/-- One more reader of the next entry to be read. -/
def lock (b : RingBuffer Size) : RingBuffer Size :=
  b.setEntry b.readSlot
    { b.entries b.readSlot with readers := (b.entries b.readSlot).readers + 1 }

/-- The next position is read, and locked. -/
def advance (b : RingBuffer Size) : RingBuffer Size := { b.lock with nextRead := b.nextRead + 1 }

/-- The slot is `none` when no entry is acquired. -/
def tryPop (b : RingBuffer Size) : Option UInt64 × RingBuffer Size :=
  if (b.entries b.readSlot).writing then (none, b.lock) else (some b.readSlot, b.advance)

/-- `~ReadableEntry` -/
def release (slot : UInt64) (b : RingBuffer Size) : RingBuffer Size :=
  let entry := b.entries slot
  b.setEntry slot { entry with readers := entry.readers - 1 }

/-- The slot of the `n`-th entry to be written. -/
def slotOf (mask : UInt64) (n : ℕ) : UInt64 := UInt64.ofNat n &&& mask

section Entries

variable {b : RingBuffer Size} {slot x : UInt64} {entry : RingEntry}

/-- What the new entry has in common with the old one stays the same everywhere. -/
theorem setEntry_congr {β : Type*} (f : RingEntry → β) (h : f entry = f (b.entries slot))
    (x : UInt64) : f ((b.setEntry slot entry).entries x) = f (b.entries x) := by
  by_cases hx : x = slot
  · subst hx
    simpa [setEntry] using h
  · simp [setEntry, hx]

@[simp] theorem claim_readers : (b.claim.entries x).readers = (b.entries x).readers :=
  setEntry_congr RingEntry.readers (by rfl) x

@[simp] theorem commit_readers {frame : Frame Size} :
    ((b.commit slot frame).entries x).readers = (b.entries x).readers :=
  setEntry_congr RingEntry.readers (by rfl) x

@[simp] theorem advance_writing : (b.advance.entries x).writing = (b.entries x).writing :=
  setEntry_congr RingEntry.writing (by rfl) x

@[simp] theorem advance_bytes : (b.advance.entries x).bytes = (b.entries x).bytes :=
  setEntry_congr RingEntry.bytes (by rfl) x

@[simp] theorem advance_size : (b.advance.entries x).size = (b.entries x).size :=
  setEntry_congr RingEntry.size (by rfl) x

@[simp] theorem release_writing : ((b.release slot).entries x).writing = (b.entries x).writing :=
  setEntry_congr RingEntry.writing (by rfl) x

@[simp] theorem release_bytes : ((b.release slot).entries x).bytes = (b.entries x).bytes :=
  setEntry_congr RingEntry.bytes (by rfl) x

@[simp] theorem release_size : ((b.release slot).entries x).size = (b.entries x).size :=
  setEntry_congr RingEntry.size (by rfl) x

end Entries

end RingBuffer

/-- A buffer and the locks on its entries, in the order in which they were acquired. A lock that was
released is `none`. -/
structure RingSession (Size : UInt64) where
  ring : RingBuffer Size
  writers : List (Option UInt64)
  readers : List (Option UInt64)

namespace RingSession

variable {Size : UInt64}

def new (ring : RingBuffer Size) : RingSession Size := ⟨ring, [], []⟩

inductive Call (Size : UInt64)
  | acquire
  | commit (writer : ℕ) (frame : Frame Size)
  | tryPop
  | release (reader : ℕ)

/-- A lock is released only once. -/
def step (s : RingSession Size) : Call Size → Except BusyLoop (RingSession Size)
  | .acquire =>
      s.ring.acquire.map fun (acquired, ring) =>
        { s with
          ring := ring
          writers := match acquired with
            | some slot => s.writers ++ [some slot]
            | none => s.writers }
  | .commit writer frame =>
      match s.writers[writer]? with
      | some (some slot) =>
          .ok { s with
            ring := s.ring.commit slot frame
            writers := s.writers.set writer none }
      | _ => .ok s
  | .tryPop =>
      let (acquired, ring) := s.ring.tryPop
      .ok { s with
        ring := ring
        readers := match acquired with
          | some slot => s.readers ++ [some slot]
          | none => s.readers }
  | .release reader =>
      match s.readers[reader]? with
      | some (some slot) =>
          .ok { s with
            ring := s.ring.release slot
            readers := s.readers.set reader none }
      | _ => .ok s

end RingSession

namespace RingBuffer

section Counters

variable {mask : UInt64} {k : ℕ}

/-- What the assertion of the constructor asks for. -/
theorem new_ok {Size size : UInt64} {b : RingBuffer Size} (h : new Size size = .ok b) :
    ∃ k, size.toNat = 2 ^ k ∧ b.idxMask.toNat + 1 = 2 ^ k ∧
      b = ⟨fun _ => ⟨List.replicate Size.toNat 0, 0, 0, false⟩, b.idxMask, 1, 0⟩ := by
  unfold new at h
  split at h
  case isTrue hsize =>
    obtain rfl := Except.ok.inj h
    obtain ⟨hne, hand⟩ := hsize
    have hpos : size.toNat ≠ 0 := fun hzero => hne (UInt64.toNat_inj.mp hzero)
    have hsub : (size - 1).toNat = size.toNat - 1 := by
      rw [UInt64.toNat_sub_of_le]
      · rfl
      · rw [UInt64.le_iff_toNat_le]
        exact Nat.one_le_iff_ne_zero.mpr hpos
    have hpow : size.toNat &&& (size.toNat - 1) = 0 := by
      rw [← hsub, ← UInt64.toNat_and, hand]
      rfl
    obtain ⟨k, hk⟩ := (Nat.and_sub_one_eq_zero_iff_isPowerOfTwo hpos).mp hpow
    exact ⟨k, hk, by rw [hsub]; omega, rfl⟩
  case isFalse => cases h

theorem toNat_slotOf (hmask : mask.toNat + 1 = 2 ^ k) (n : ℕ) :
    (slotOf mask n).toNat = n % 2 ^ k := by
  have hle : 2 ^ k ≤ 2 ^ 64 := by
    have := mask.toNat_lt
    omega
  have hdvd : 2 ^ k ∣ 2 ^ 64 := Nat.pow_dvd_pow 2 ((Nat.pow_le_pow_iff_right (by decide)).mp hle)
  rw [slotOf, UInt64.toNat_and, show mask.toNat = 2 ^ k - 1 by omega,
    Nat.and_two_pow_sub_one_eq_mod, UInt64.toNat_ofNat', Nat.mod_mod_of_dvd _ hdvd]

/-- Less than a turn apart, only the same entry is in the same slot. -/
theorem slotOf_inj (hmask : mask.toNat + 1 = 2 ^ k) {i j : ℕ} (hle : i ≤ j) (hlt : j < i + 2 ^ k) :
    slotOf mask i = slotOf mask j ↔ i = j := by
  refine ⟨fun h => ?_, congrArg _⟩
  have hmod := congrArg UInt64.toNat h
  rw [toNat_slotOf hmask, toNat_slotOf hmask] at hmod
  have hdiff : (j - i) % 2 ^ k = 0 := Nat.sub_mod_eq_zero_of_mod_eq hmod.symm
  rw [Nat.mod_eq_of_lt (by omega)] at hdiff
  omega

/-- A turn later comes the same slot. -/
theorem slotOf_turn (hmask : mask.toNat + 1 = 2 ^ k) (n : ℕ) :
    slotOf mask (n + 2 ^ k) = slotOf mask n := by
  apply UInt64.toNat_inj.mp
  rw [toNat_slotOf hmask, toNat_slotOf hmask, Nat.add_mod_right]

end Counters

end RingBuffer

end YingSma
