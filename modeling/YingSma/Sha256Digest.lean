import YingSma.Sha256Compression
import YingSma.TransitionRuns

/-! Every run of calls of a `SHA256`: a digest is that of all the bytes added since the last
reset, however they were cut into calls and whatever digests were taken in between. -/
namespace YingSma.SHA256

open MerkleDamgard (absorb)
open Sha256Standard (compress initialHash pad padding sha256)

variable (order : ByteOrder) {s s' : SHA256} {front tail xs extra buf : List UInt8}

/-- The blocks of `front` are in the hash, `tail` is in the buffer. -/
structure Holds (s : SHA256) (front tail : List UInt8) : Prop where
  hash : s.hash = absorb compress blockSize initialHash front
  dvd : blockSize ∣ front.length
  numBytes : s.numBytes = BitVec.ofNat 64 front.length
  bufferSize : s.bufferSize = tail.length
  length_buffer : s.buffer.length = blockSize
  buffer : s.buffer.take tail.length = tail

/-- Between two calls less than one block is in the buffer. -/
def Fed (s : SHA256) (fed : List UInt8) : Prop :=
  ∃ front tail, front ++ tail = fed ∧ Holds s front tail ∧ tail.length < blockSize

theorem reset_fed (h : buf.length = blockSize) : Fed (reset buf) [] :=
  ⟨[], [], rfl, ⟨reset_hash buf, dvd_zero _, rfl, rfl, h, rfl⟩, by decide⟩

theorem Holds.length_tail (h : Holds s front tail) : tail.length ≤ blockSize := by
  have hlength := congrArg List.length h.buffer
  rw [List.length_take, h.length_buffer] at hlength
  omega

/-- One more byte in the buffer. -/
theorem Holds.push (h : Holds s front tail) (hlt : tail.length < blockSize) (x : UInt8) :
    ∃ s', push s x = .ok s' ∧ Holds s' front (tail ++ [x]) := by
  have hput : put s.buffer s.bufferSize x = .ok (s.buffer.set tail.length x) := by
    rw [put, h.bufferSize, if_pos (by rw [h.length_buffer]; exact hlt)]
  refine ⟨{ s with buffer := s.buffer.set tail.length x, bufferSize := s.bufferSize + 1 }, ?_,
    h.hash, h.dvd, h.numBytes, ?_, ?_, ?_⟩
  · rw [SHA256.push, hput]
    rfl
  · simp [h.bufferSize]
  · simp [h.length_buffer]
  · have hset : tail.length < (s.buffer.set tail.length x).length := by
      simp [h.length_buffer, hlt]
    rw [List.length_append, List.length_singleton, List.take_succ_eq_append_getElem hset,
      List.take_set_of_le (Nat.le_refl _), h.buffer, List.getElem_set_self]

theorem Holds.keep (h : Holds s front tail) (hlength : tail.length + xs.length ≤ blockSize) :
    ∃ s', keep s xs = .ok s' ∧ Holds s' front (tail ++ xs) := by
  induction xs generalizing s tail with
  | nil => exact ⟨s, rfl, by simpa using h⟩
  | cons x xs ih =>
    simp only [List.length_cons] at hlength
    obtain ⟨s₁, hpush, h₁⟩ := h.push (by omega) x
    obtain ⟨s', hkeep, h'⟩ := ih h₁ (by simp; omega)
    exact ⟨s', by rw [SHA256.keep, hpush]; exact hkeep, by simpa using h'⟩

/-- The buffer takes bytes until it is full. -/
theorem Holds.fill (h : Holds s front tail) (xs : List UInt8) :
    ∃ s', fill s xs = .ok (s', xs.drop (blockSize - tail.length)) ∧
      Holds s' front (tail ++ xs.take (blockSize - tail.length)) := by
  induction xs generalizing s tail with
  | nil => exact ⟨s, by simp [SHA256.fill], by simpa using h⟩
  | cons x xs ih =>
    by_cases hlt : tail.length < blockSize
    · obtain ⟨s₁, hpush, h₁⟩ := h.push hlt x
      obtain ⟨s', hfill, h'⟩ := ih h₁
      have hroom : blockSize - tail.length = blockSize - (tail.length + 1) + 1 := by omega
      refine ⟨s', ?_, ?_⟩
      · rw [SHA256.fill, if_pos (by rw [h.bufferSize]; exact hlt), hpush, hroom]
        simpa using hfill
      · rw [hroom]
        simpa using h'
    · have hroom : blockSize - tail.length = 0 := by omega
      refine ⟨s, ?_, by simpa [hroom] using h⟩
      rw [SHA256.fill, if_neg (by rw [h.bufferSize]; exact hlt), hroom, List.drop_zero]

/-- A block more in the hash. -/
theorem absorb_block_append (h : blockSize ∣ front.length) (hxs : xs.length = blockSize)
    (iv : Registers) : absorb compress blockSize iv (front ++ xs) =
      compress (absorb compress blockSize iv front) xs := by
  rw [MerkleDamgard.absorb_append_of_dvd (by decide) h, MerkleDamgard.absorb_block (by decide) hxs]

theorem ofNat_add_blockSize (n : ℕ) :
    (BitVec.ofNat 64 n + 64 : BitVec 64) = BitVec.ofNat 64 (n + blockSize) := by
  rw [BitVec.ofNat_add]
  rfl

theorem Holds.flush (h : Holds s front tail) (hfull : tail.length = blockSize) :
    Holds (flush order s) (front ++ tail) [] := by
  have hbuffer : s.buffer = tail := by
    rw [← h.buffer, hfull, ← h.length_buffer, List.take_length]
  rw [SHA256.flush, if_pos (by rw [h.bufferSize, hfull])]
  constructor
  · simp only [processBlock_eq_compress, hbuffer, h.hash]
    exact (absorb_block_append h.dvd hfull _).symm
  · rw [List.length_append, hfull]
    exact Nat.dvd_add_self_right.mpr h.dvd
  · simp only [h.numBytes, List.length_append, hfull, ofNat_add_blockSize]
  · rfl
  · exact h.length_buffer
  · rfl

theorem Holds.flush_of_lt (h : Holds s front tail) (hlt : tail.length < blockSize) :
    SHA256.flush order s = s := by
  rw [SHA256.flush, if_neg (by rw [h.bufferSize]; omega)]

/-- With an empty buffer whole blocks go into the hash as they stand. -/
theorem Holds.processBlocks (h : Holds s front []) {fuel : ℕ} (hfuel : xs.length ≤ fuel) :
    ∃ s' whole rest, processBlocks order fuel s xs = (s', rest) ∧ whole ++ rest = xs ∧
      Holds s' (front ++ whole) [] ∧ rest.length < blockSize := by
  induction fuel generalizing s front xs with
  | zero =>
    have hnil : xs = [] := by simpa using hfuel
    subst hnil
    exact ⟨s, [], [], rfl, rfl, by simpa using h, by decide⟩
  | succ fuel ih =>
    by_cases hle : blockSize ≤ xs.length
    · have htake : (xs.take blockSize).length = blockSize := by
        rw [List.length_take, Nat.min_eq_left hle]
      have hblock : Holds
          { s with
            hash := processBlock order s.hash (xs.take blockSize)
            numBytes := s.numBytes + 64 } (front ++ xs.take blockSize) [] := by
        refine ⟨?_, ?_, ?_, h.bufferSize, h.length_buffer, h.buffer⟩
        · simp only [processBlock_eq_compress, h.hash]
          exact (absorb_block_append h.dvd htake _).symm
        · rw [List.length_append, htake]
          exact Nat.dvd_add_self_right.mpr h.dvd
        · simp only [h.numBytes, List.length_append, htake, ofNat_add_blockSize]
      have hdrop : (xs.drop blockSize).length ≤ fuel := by
        rw [List.length_drop]
        have hpos : 0 < blockSize := by decide
        omega
      obtain ⟨s', whole, rest, hrun, happend, h', hrest⟩ := ih hblock hdrop
      refine ⟨s', xs.take blockSize ++ whole, rest, ?_, ?_, by simpa using h', hrest⟩
      · rw [SHA256.processBlocks, if_pos hle]
        exact hrun
      · rw [List.append_assoc, happend, List.take_append_drop]
    · refine ⟨s, [], xs, ?_, rfl, by simpa using h, by omega⟩
      rw [SHA256.processBlocks, if_neg hle]

/-- What `add` does once the buffer is empty. -/
theorem Holds.add_rest (h : Holds s front []) (xs : List UInt8) :
    ∃ s', SHA256.keep (SHA256.processBlocks order xs.length s xs).1
        (SHA256.processBlocks order xs.length s xs).2 = .ok s' ∧ Fed s' (front ++ xs) := by
  obtain ⟨s₁, whole, rest, hrun, happend, h₁, hrest⟩ :=
    h.processBlocks order (Nat.le_refl xs.length)
  have hroom : ([] : List UInt8).length + rest.length ≤ blockSize := by simpa using hrest.le
  obtain ⟨s', hkeep, h'⟩ := h₁.keep hroom
  rw [hrun]
  exact ⟨s', hkeep, front ++ whole, rest, by rw [List.append_assoc, happend], h', hrest⟩

/-- After its first loop `add` has read all bytes, or the buffer is empty or full. -/
theorem Holds.fillStarted (h : Holds s front tail) (xs : List UInt8) :
    ∃ s' tail' rest, fillStarted s xs = .ok (s', rest) ∧ tail' ++ rest = tail ++ xs ∧
      Holds s' front tail' ∧ (rest ≠ [] → tail' = [] ∨ tail'.length = blockSize) := by
  by_cases hpos : s.bufferSize > 0
  · obtain ⟨s', hfill, h'⟩ := h.fill xs
    refine ⟨s', _, _, by rw [SHA256.fillStarted, if_pos hpos, hfill], by simp, h', ?_⟩
    intro hrest
    have hlength := h.length_tail
    have hlt : blockSize - tail.length < xs.length := by
      by_contra hle
      exact hrest (List.drop_eq_nil_of_le (by omega))
    right
    rw [List.length_append, List.length_take]
    omega
  · have hnil : tail = [] := by
      rw [h.bufferSize] at hpos
      exact List.length_eq_zero_iff.mp (by omega)
    exact ⟨s, tail, xs, by rw [SHA256.fillStarted, if_neg hpos], rfl, h, fun _ => .inl hnil⟩

/-- `add` takes all the bytes and writes nowhere outside of the buffer. -/
theorem Fed.add {fed : List UInt8} (h : Fed s fed) (xs : List UInt8) :
    ∃ s', add order s xs = .ok s' ∧ Fed s' (fed ++ xs) := by
  obtain ⟨front, tail, rfl, h, hlt⟩ := h
  obtain ⟨s₁, tail₁, rest, hfill, happend, h₁, hrest⟩ := h.fillStarted xs
  rw [List.append_assoc, ← happend, ← List.append_assoc]
  simp only [SHA256.add, hfill, Except.bind, Bind.bind]
  by_cases hfull : tail₁.length = blockSize
  · have h₂ := h₁.flush order hfull
    split
    · next hnil => exact ⟨_, rfl, _, [], by rw [hnil], h₂, by decide⟩
    · exact h₂.add_rest order rest
  · have hle := h₁.length_tail
    rw [h₁.flush_of_lt order (by omega)]
    split
    · next hnil => exact ⟨_, rfl, front, tail₁, by simp [hnil], h₁, by omega⟩
    · next hne =>
      have hnil : tail₁ = [] := (hrest hne).resolve_right hfull
      subst hnil
      simpa using h₁.add_rest order rest

section Padding

theorem put_append {x y : UInt8} {front back : List UInt8} :
    put (front ++ x :: back) front.length y = .ok (front ++ y :: back) := by
  rw [put, if_pos (by simp), List.set_append_right _ _ (Nat.le_refl _)]
  simp

/-- Bytes written one after another replace those that were there. -/
theorem putAll_append (byte : ℕ → UInt8) (front mid back : List UInt8) :
    putAll (front ++ mid ++ back) front.length mid.length byte =
      .ok (front ++ (List.range mid.length).map byte ++ back) := by
  induction mid using List.reverseRecOn generalizing back with
  | nil => simp [putAll, pure, Except.pure]
  | append_singleton mid x ih =>
    have hput := @put_append x (byte mid.length) (front ++ (List.range mid.length).map byte) back
    rw [List.length_append, List.length_map, List.length_range] at hput
    specialize ih (x :: back)
    rw [putAll] at ih ⊢
    rw [List.length_append, List.length_singleton, List.range_succ, List.foldlM_append,
      show front ++ (mid ++ [x]) ++ back = front ++ mid ++ x :: back by simp, ih]
    simp only [List.foldlM_cons, List.foldlM_nil, Bind.bind, Except.bind, pure, Except.pure, hput]
    simp

/-- The length is written as the standard has it. -/
theorem lengthByte_eq (len : ℕ) {k : ℕ} (hk : k < 8) :
    lengthByte (BitVec.ofNat 64 (8 * len)) k = UInt8.ofNat (8 * len / 256 ^ (7 - k)) := by
  apply UInt8.toNat_inj.mp
  simp only [lengthByte, UInt8.toNat_ofBitVec, BitVec.toNat_setWidth, BitVec.toNat_ushiftRight,
    BitVec.toNat_ofNat, UInt8.toNat_ofNat', Nat.shiftRight_eq_div_pow]
  interval_cases k <;> omega

theorem lengthBytes_eq (len : ℕ) :
    (List.range 8).map (lengthByte (BitVec.ofNat 64 (8 * len))) =
      Sha256Standard.lengthBytes len := by
  apply List.map_congr_left
  intro k hk
  exact lengthByte_eq len (List.mem_range.mp hk)

theorem paddedLength_of_lt {n : ℕ} (h : n < 56) : paddedLength n = 56 := by
  interval_cases n <;> rfl

theorem paddedLength_of_ge {n : ℕ} (h : 56 ≤ n) (hlt : n < 64) : paddedLength n = 120 := by
  interval_cases n <;> rfl

/-- The length in bits of all that was added. -/
theorem Holds.msgBits (h : Holds s front tail) :
    8 * (s.numBytes + BitVec.ofNat 64 tail.length) =
      BitVec.ofNat 64 (8 * (front ++ tail).length) := by
  rw [h.numBytes, ← BitVec.ofNat_add, List.length_append, BitVec.ofNat_mul]
  rfl

theorem Holds.putOne (h : Holds s front tail) (hlt : tail.length < blockSize)
    (extra : List UInt8) :
    ∃ back, putOne extra s = .ok (tail ++ 128 :: back, extra) ∧
      tail.length + 1 + back.length = blockSize := by
  have hsplit : s.buffer = tail ++ s.buffer.drop tail.length := by
    conv_lhs => rw [← List.take_append_drop tail.length s.buffer, h.buffer]
  have hlength := h.length_buffer
  cases hback : s.buffer.drop tail.length with
  | nil =>
    rw [hback, List.append_nil] at hsplit
    rw [hsplit] at hlength
    omega
  | cons x back =>
    rw [hback] at hsplit
    rw [hsplit, List.length_append, List.length_cons] at hlength
    refine ⟨back, ?_, by omega⟩
    rw [SHA256.putOne, h.bufferSize, if_pos hlt, hsplit, put_append]
    rfl

theorem putAll_zeros (front mid back : List UInt8) :
    putAll (front ++ mid ++ back) front.length mid.length (fun _ => 0) =
      .ok (front ++ List.replicate mid.length 0 ++ back) := by
  rw [putAll_append, List.map_const', List.length_range]

theorem pad_eq (len : ℕ) :
    pad len = 128 :: List.replicate ((119 - len % 64) % 64) 0 ++ Sha256Standard.lengthBytes len :=
  rfl

/-- What the two buffers hold of the padded message. -/
structure Padded (buffer extra tail : List UInt8) (len : ℕ) : Prop where
  length_buffer : buffer.length = blockSize
  front : buffer.take tail.length = tail
  short : paddedLength tail.length ≤ blockSize → buffer = tail ++ pad len
  long : paddedLength tail.length > blockSize →
    extra.length = blockSize ∧ buffer ++ extra = tail ++ pad len

theorem putLength_short (mid extra : List UInt8) (hmid : (tail ++ mid).length = 56)
    (back : List UInt8) (hback : back.length = 8) (len : ℕ) :
    putLength (tail ++ mid ++ back) extra 56 (BitVec.ofNat 64 (8 * len)) =
      .ok (tail ++ mid ++ Sha256Standard.lengthBytes len, extra) := by
  have hput := putAll_append (lengthByte (BitVec.ofNat 64 (8 * len))) (tail ++ mid) back []
  rw [hmid, hback, lengthBytes_eq, List.append_nil, List.append_nil] at hput
  rw [putLength, if_pos (by decide), hput]
  rfl

theorem putLength_long (buffer front back : List UInt8) (hfront : front.length = 56)
    (hback : back.length = 8) (len : ℕ) :
    putLength buffer (front ++ back) 120 (BitVec.ofNat 64 (8 * len)) =
      .ok (buffer, front ++ Sha256Standard.lengthBytes len) := by
  have hput := putAll_append (lengthByte (BitVec.ofNat 64 (8 * len))) front back []
  rw [hfront, hback, lengthBytes_eq, List.append_nil, List.append_nil] at hput
  rw [putLength, if_neg (by decide), show 120 - blockSize = 56 from rfl, hput]
  rfl

/-- A tail that leaves room for the length is completed in the buffer. -/
theorem padded_short (extra : List UInt8) {len : ℕ} (hmod : len % 64 = tail.length)
    (hshort : tail.length < 56) :
    putLength (tail ++ 128 :: List.replicate (63 - tail.length) 0) extra 56
        (BitVec.ofNat 64 (8 * len)) = .ok (tail ++ pad len, extra) := by
  have hzeros : 63 - tail.length = (55 - tail.length) + 8 := by omega
  have hpad : (119 - len % 64) % 64 = 55 - tail.length := by omega
  have hput := @putLength_short tail (128 :: List.replicate (55 - tail.length) 0) extra
    (by simp; omega) (List.replicate 8 0) (by simp) len
  rw [hzeros, List.replicate_add, pad_eq, hpad]
  simpa using hput

/-- Any other tail needs `extra`. -/
theorem padded_long {rest : List UInt8} (hrest : rest.length = 8) {len : ℕ}
    (hmod : len % 64 = tail.length) (hlong : 56 ≤ tail.length) :
    ∃ extra', putLength (tail ++ 128 :: List.replicate (63 - tail.length) 0)
        (List.replicate 56 0 ++ rest) 120 (BitVec.ofNat 64 (8 * len)) =
          .ok (tail ++ 128 :: List.replicate (63 - tail.length) 0, extra') ∧
      extra'.length = blockSize ∧
      tail ++ 128 :: List.replicate (63 - tail.length) 0 ++ extra' = tail ++ pad len := by
  have hpad : (119 - len % 64) % 64 = (63 - tail.length) + 56 := by omega
  refine ⟨_, putLength_long _ _ rest (by simp) hrest len, by simp [blockSize], ?_⟩
  rw [pad_eq, hpad, List.replicate_add]
  simp

theorem Holds.padBuffers (h : Holds s front tail) (hlt : tail.length < blockSize)
    (hextra : extra.length = blockSize) :
    ∃ buffer' extra', padBuffers extra s = .ok (buffer', extra') ∧
      Padded buffer' extra' tail (front ++ tail).length := by
  obtain ⟨back, hone, hback⟩ := h.putOne hlt extra
  have hmod : (front ++ tail).length % 64 = tail.length := by
    obtain ⟨k, hk⟩ := h.dvd
    rw [List.length_append, hk, blockSize]
    rw [blockSize] at hlt
    omega
  have hcount : blockSize - (tail.length + 1) = back.length := by omega
  have hmax : max (tail.length + 1) blockSize = blockSize := by omega
  rw [blockSize] at hback hextra hlt
  have hzeros : back.length = 63 - tail.length := by omega
  have hbuffer := putAll_zeros (tail ++ [128]) back []
  rw [List.length_append, List.length_singleton, List.append_nil, List.append_assoc,
    List.singleton_append, List.append_nil, hzeros] at hbuffer
  simp only [SHA256.padBuffers, hone, h.bufferSize, h.msgBits, hcount, hzeros, hmax, Bind.bind,
    Except.bind, Nat.sub_self]
  rw [show tail ++ [128] ++ List.replicate (63 - tail.length) 0 =
    tail ++ 128 :: List.replicate (63 - tail.length) (0 : UInt8) by simp] at hbuffer
  rw [hbuffer]
  by_cases hshort : tail.length < 56
  · have hpadded := paddedLength_of_lt hshort
    have hnothing := putAll_zeros [] [] extra
    rw [hpadded]
    refine ⟨tail ++ pad (front ++ tail).length, extra, ?_, ?_⟩
    · exact padded_short extra hmod hshort
    · constructor
      · rw [List.length_append, Sha256Standard.length_pad, hmod, blockSize]
        omega
      · simp
      · exact fun _ => rfl
      · intro hlong
        rw [hpadded] at hlong
        exact absurd hlong (by decide)
  · have hpadded := paddedLength_of_ge (by omega) hlt
    have hzeros' := putAll_zeros [] (extra.take 56) (extra.drop 56)
    rw [List.nil_append, List.take_append_drop, List.length_take_of_le (by omega)] at hzeros'
    have hrest : (extra.drop 56).length = 8 := by simp [hextra]
    obtain ⟨extra', hput, hlength, happend⟩ := padded_long hrest hmod (by omega)
    refine ⟨tail ++ 128 :: List.replicate (63 - tail.length) 0, extra', ?_, ?_⟩
    · rw [hpadded]
      rw [List.length_nil, List.nil_append] at hzeros'
      simpa only [show 120 - blockSize = 56 from rfl, hzeros'] using hput
    · constructor
      · simp [blockSize]
        omega
      · simp
      · intro hle
        rw [hpadded] at hle
        exact absurd hle (by decide)
      · exact fun _ => ⟨hlength, happend⟩

end Padding

/-- With the padding processed `m_hash` is the hash of all that was added, and the buffer still
holds the bytes that are not. -/
theorem Fed.processBuffer {fed : List UInt8} (h : Fed s fed) (hextra : extra.length = blockSize) :
    ∃ s', processBuffer order extra s = .ok s' ∧
      s'.hash = padding.hash compress initialHash fed ∧ Fed { s' with hash := s.hash } fed := by
  obtain ⟨front, tail, rfl, h, hlt⟩ := h
  obtain ⟨buffer', extra', hpad, hpadded⟩ := h.padBuffers hlt hextra
  have hhash : padding.hash compress initialHash (front ++ tail) =
      absorb compress blockSize s.hash (tail ++ pad (front ++ tail).length) := by
    rw [MerkleDamgard.Padding.hash_eq_absorb, List.append_assoc, h.hash]
    exact MerkleDamgard.absorb_append_of_dvd (by decide) h.dvd
  simp only [SHA256.processBuffer, hpad, Bind.bind, Except.bind, processBlock_eq_compress]
  refine ⟨_, rfl, ?_, front, tail, rfl, ?_, hlt⟩
  · rw [hhash, h.bufferSize]
    by_cases hlong : paddedLength tail.length > blockSize
    · obtain ⟨hlength, happend⟩ := hpadded.long hlong
      rw [if_pos hlong, ← happend, MerkleDamgard.absorb_append (by decide) hpadded.length_buffer,
        MerkleDamgard.absorb_block (by decide) hlength]
    · rw [if_neg hlong, ← hpadded.short (by omega),
        MerkleDamgard.absorb_block (by decide) hpadded.length_buffer]
  · exact ⟨h.hash, h.dvd, h.numBytes, h.bufferSize, hpadded.length_buffer, hpadded.front⟩

theorem Fed.getHash {fed : List UInt8} (h : Fed s fed) (hextra : extra.length = blockSize) :
    ∃ s', getHash order extra s = .ok (Sha256Standard.digest fed, s') ∧ Fed s' fed := by
  obtain ⟨s', hrun, hhash, h'⟩ := h.processBuffer order hextra
  refine ⟨{ s' with hash := s.hash }, ?_, h'⟩
  simp only [SHA256.getHash, hrun, Bind.bind, Except.bind, hhash]
  rfl

section Strings

/-- Two hexadecimal digits for each byte. -/
theorem leftpad_toDigits : ∀ n < 256,
    (Nat.toDigits 16 n).leftpad 2 '0' = [dec2hex.getD (n / 16) '0', dec2hex.getD (n % 16) '0'] := by
  decide +kernel

theorem hexDigit_high (w : Word) (k : ℕ) :
    (w >>> (k + 4) &&& 15).toNat = (UInt8.ofBitVec ((w >>> k).setWidth 8)).toNat / 16 := by
  have hmask : (15 : Word).toNat = 2 ^ 4 - 1 := rfl
  rw [BitVec.toNat_and, hmask, Nat.and_two_pow_sub_one_eq_mod, UInt8.toNat_ofBitVec,
    BitVec.toNat_setWidth, BitVec.toNat_ushiftRight, BitVec.toNat_ushiftRight,
    Nat.shiftRight_add]
  simp only [Nat.shiftRight_eq_div_pow]
  omega

theorem hexDigit_low (w : Word) (k : ℕ) :
    (w >>> k &&& 15).toNat = (UInt8.ofBitVec ((w >>> k).setWidth 8)).toNat % 16 := by
  have hmask : (15 : Word).toNat = 2 ^ 4 - 1 := rfl
  rw [BitVec.toNat_and, hmask, Nat.and_two_pow_sub_one_eq_mod, UInt8.toNat_ofBitVec,
    BitVec.toNat_setWidth, BitVec.toNat_ushiftRight]
  omega

theorem byteChars (w : Word) (k : ℕ) :
    (Nat.toDigits 16 (UInt8.ofBitVec ((w >>> k).setWidth 8)).toNat).leftpad 2 '0' =
      [dec2hex.getD (w >>> (k + 4) &&& 15).toNat '0', dec2hex.getD (w >>> k &&& 15).toNat '0'] := by
  rw [leftpad_toDigits _ (UInt8.toNat_lt _), hexDigit_high, hexDigit_low]

/-- `getHash()` writes the characters that `operator std::string` gives for the bytes. -/
theorem hexChars_eq (r : Registers) :
    hexChars r = (hashBytes r).flatMap fun x => (Nat.toDigits 16 x.toNat).leftpad 2 '0' := by
  rw [hexChars, hashBytes, List.flatMap_assoc]
  congr 1
  funext w
  simp only [List.map_cons, List.map_nil, List.flatMap_cons, List.flatMap_nil, byteChars,
    List.cons_append, List.nil_append, List.append_nil]

theorem Fed.getHashString {fed : List UInt8} (h : Fed s fed) (hextra : extra.length = blockSize) :
    ∃ s', getHashString order extra s = .ok ((Sha256Standard.digest fed).toString, s') ∧
      Fed s' fed := by
  obtain ⟨s', hrun, hhash, h'⟩ := h.processBuffer order hextra
  refine ⟨{ s' with hash := s.hash }, ?_, h'⟩
  simp only [SHA256.getHashString, hrun, Bind.bind, Except.bind, hhash, hexChars_eq]
  rfl

end Strings

section Runs

/-- A call of a member function. `extra` is what happens to be on the stack. -/
inductive Call where
  | reset
  | add (data : List UInt8)
  | getHash (extra : Vector UInt8 blockSize)
  | getHashString (extra : Vector UInt8 blockSize)

/-- A call, with all that the calls have returned. -/
def step (order : ByteOrder) (r : List (Hash ⊕ String) × SHA256) :
    Call → Except Fault (List (Hash ⊕ String) × SHA256)
  | .reset => .ok (r.1, SHA256.reset r.2.buffer)
  | .add data => (SHA256.add order r.2 data).map fun s => (r.1, s)
  | .getHash extra =>
      (SHA256.getHash order extra.toList r.2).map fun hs => (r.1 ++ [.inl hs.1], hs.2)
  | .getHashString extra =>
      (SHA256.getHashString order extra.toList r.2).map fun hs => (r.1 ++ [.inr hs.1], hs.2)

/-- What the calls return when every digest is computed from the message, the bytes added since
the last reset. -/
def answers : List UInt8 → List Call → List (Hash ⊕ String)
  | _, [] => []
  | _, .reset :: calls => answers [] calls
  | message, .add data :: calls => answers (message ++ data) calls
  | message, .getHash _ :: calls => .inl (Sha256Standard.digest message) :: answers message calls
  | message, .getHashString _ :: calls =>
      .inr (Sha256Standard.digest message).toString :: answers message calls

theorem run_answers {fed : List UInt8} (h : Fed s fed) (past : List (Hash ⊕ String))
    (calls : List Call) :
    ∃ s', TransitionRuns.run (step order) (past, s) calls = .ok (past ++ answers fed calls, s') := by
  induction calls generalizing s fed past with
  | nil => exact ⟨s, by simp [TransitionRuns.run, answers]⟩
  | cons call calls ih =>
    cases call with
    | reset =>
      obtain ⟨front, tail, -, hholds, -⟩ := h
      exact ih (reset_fed hholds.length_buffer) past
    | add data =>
      obtain ⟨s₁, hadd, h₁⟩ := h.add order data
      have hstep : step order (past, s) (.add data) = .ok (past, s₁) := by
        rw [step, hadd]
        rfl
      rw [TransitionRuns.run_cons_ok _ hstep]
      exact ih h₁ past
    | getHash extra =>
      obtain ⟨s₁, hget, h₁⟩ := h.getHash order extra.length_toList
      have hstep : step order (past, s) (.getHash extra) =
          .ok (past ++ [.inl (Sha256Standard.digest fed)], s₁) := by
        rw [step, hget]
        rfl
      rw [TransitionRuns.run_cons_ok _ hstep]
      have hrun := ih h₁ (past ++ [.inl (Sha256Standard.digest fed)])
      rwa [List.append_assoc] at hrun
    | getHashString extra =>
      obtain ⟨s₁, hget, h₁⟩ := h.getHashString order extra.length_toList
      have hstep : step order (past, s) (.getHashString extra) =
          .ok (past ++ [.inr (Sha256Standard.digest fed).toString], s₁) := by
        rw [step, hget]
        rfl
      rw [TransitionRuns.run_cons_ok _ hstep]
      have hrun := ih h₁ (past ++ [.inr (Sha256Standard.digest fed).toString])
      rwa [List.append_assoc] at hrun

/-- In any run of calls every digest is the SHA-256 digest of the bytes added since the last
reset, whatever the byte order and the old contents of the arrays. -/
theorem run_digests (order : ByteOrder) (buffer : Vector UInt8 blockSize) (calls : List Call) :
    ∃ s', TransitionRuns.run (step order) ([], SHA256.reset buffer.toList) calls =
      .ok (answers [] calls, s') :=
  run_answers order (reset_fed buffer.length_toList) [] calls

end Runs

section Collisions

theorem wordBytes_inj {w w' : Word} (h : Sha256Standard.wordBytes w = Sha256Standard.wordBytes w') :
    w = w' := by
  simp only [Sha256Standard.wordBytes, List.cons.injEq, ← UInt8.toNat_inj, UInt8.toNat_ofBitVec,
    BitVec.extractLsb'_toNat, Nat.shiftRight_eq_div_pow] at h
  apply BitVec.eq_of_toNat_eq
  have hw := w.isLt
  have hw' := w'.isLt
  omega

/-- Equal digests are digests of equal words. -/
theorem words_inj {r r' : Registers}
    (h : r.words.flatMap Sha256Standard.wordBytes = r'.words.flatMap Sha256Standard.wordBytes) :
    r = r' := by
  have hword : ∀ {w w' : Word} {ws ws' : List UInt8},
      Sha256Standard.wordBytes w ++ ws = Sha256Standard.wordBytes w' ++ ws' → w = w' ∧ ws = ws' := by
    intro w w' ws ws' happend
    obtain ⟨hhead, htail⟩ := List.append_inj happend rfl
    exact ⟨wordBytes_inj hhead, htail⟩
  simp only [Registers.words, List.flatMap_cons, List.flatMap_nil] at h
  obtain ⟨ha, h⟩ := hword h
  obtain ⟨hb, h⟩ := hword h
  obtain ⟨hc, h⟩ := hword h
  obtain ⟨hd, h⟩ := hword h
  obtain ⟨he, h⟩ := hword h
  obtain ⟨hf, h⟩ := hword h
  obtain ⟨hg, h⟩ := hword h
  obtain ⟨hh, -⟩ := hword h
  exact Registers.ext ha hb hc hd he hf hg hh

theorem hasher_digest (order : ByteOrder) (buffer extra : Vector UInt8 blockSize)
    (message : List UInt8) :
    Hasher.digest order buffer.toList extra.toList message =
      .ok (Sha256Standard.digest message) := by
  obtain ⟨s₁, hadd, h₁⟩ := (reset_fed buffer.length_toList).add order message
  obtain ⟨s₂, hget, -⟩ := h₁.getHash order extra.length_toList
  simp only [Hasher.digest, hadd, hget, Bind.bind, Except.bind]
  rfl

/-- The calls of `processBlock` for a message, in order. -/
def blockCalls (order : ByteOrder) (message : List UInt8) : List (Registers × List UInt8) :=
  MerkleDamgard.calls (processBlock order) (reset []).hash (padding.padded message)

/-- The calls of `processBlock` in the loop of `add` over the full blocks. -/
def processBlocksCalls (order : ByteOrder) :
    ℕ → SHA256 → List UInt8 → List (Registers × List UInt8)
  | 0, _, _ => []
  | fuel + 1, s, data =>
      if blockSize ≤ data.length then
        let hash := processBlock order s.hash (data.take blockSize)
        (s.hash, data.take blockSize) ::
          processBlocksCalls order fuel { s with hash := hash, numBytes := s.numBytes + 64 }
            (data.drop blockSize)
      else []

/-- The calls of `processBlock` that `add` makes. -/
def addCalls (order : ByteOrder) (s : SHA256) (data : List UInt8) : List (Registers × List UInt8) :=
  match fillStarted s data with
  | .error _ => []
  | .ok (s, data) =>
      (if s.bufferSize = blockSize then [(s.hash, s.buffer)] else []) ++
        if data = [] then [] else processBlocksCalls order data.length (flush order s) data

/-- The calls of `processBlock` that `getHash` makes. -/
def getHashCalls (order : ByteOrder) (extra : List UInt8) (s : SHA256) :
    List (Registers × List UInt8) :=
  match padBuffers extra s with
  | .error _ => []
  | .ok (buffer, extra) =>
      (s.hash, buffer) ::
        if paddedLength s.bufferSize > blockSize then [(processBlock order s.hash buffer, extra)]
        else []

theorem processBlocksCalls_eq {fuel : ℕ} (hfuel : xs.length ≤ fuel) :
    processBlocksCalls order fuel s xs =
      MerkleDamgard.calls (processBlock order) s.hash (MerkleDamgard.blocks blockSize xs) := by
  induction fuel generalizing s xs with
  | zero =>
    obtain rfl := List.length_eq_zero_iff.mp (Nat.le_zero.mp hfuel)
    rfl
  | succ fuel ih =>
    rw [processBlocksCalls]
    split_ifs with hle
    · have htake : (xs.take blockSize).length = blockSize := by
        rw [List.length_take, Nat.min_eq_left hle]
      have hdrop : (xs.drop blockSize).length ≤ fuel := by
        rw [List.length_drop]
        have hpos : 0 < blockSize := by decide
        omega
      have hblocks := MerkleDamgard.blocks_append (by decide) htake (xs.drop blockSize)
      rw [List.take_append_drop] at hblocks
      dsimp only
      rw [hblocks, MerkleDamgard.calls, ih hdrop]
    · rw [MerkleDamgard.blocks_of_lt (not_le.mp hle), MerkleDamgard.calls]

/-- From an empty buffer `add` calls `processBlock` for the whole blocks. -/
theorem addCalls_reset (buffer message : List UInt8) :
    addCalls order (reset buffer) message = MerkleDamgard.calls (processBlock order)
      (reset buffer).hash (MerkleDamgard.blocks blockSize message) := by
  have hfill : fillStarted (reset buffer) message = .ok (reset buffer, message) := rfl
  have hflush : SHA256.flush order (reset buffer) = reset buffer := rfl
  have hempty : (reset buffer).bufferSize ≠ blockSize := Nat.zero_ne_add_one 63
  simp only [addCalls, hfill, hflush, if_neg hempty, List.nil_append]
  split_ifs with hnil
  · rw [hnil]
    rfl
  · exact processBlocksCalls_eq order (Nat.le_refl _)

/-- `getHash` calls it for what is in the buffer and the padding. -/
theorem Holds.getHashCalls (h : Holds s front tail) (hlt : tail.length < blockSize)
    (hextra : extra.length = blockSize) : getHashCalls order extra s =
      MerkleDamgard.calls (processBlock order) s.hash
        (MerkleDamgard.blocks blockSize (tail ++ pad (front ++ tail).length)) := by
  obtain ⟨buffer', extra', hpad, hpadded⟩ := h.padBuffers hlt hextra
  simp only [SHA256.getHashCalls, hpad, h.bufferSize]
  split_ifs with hlong
  · obtain ⟨hlength, happend⟩ := hpadded.long hlong
    rw [← happend, MerkleDamgard.blocks_append (by decide) hpadded.length_buffer,
      MerkleDamgard.blocks_block (by decide) hlength]
    rfl
  · rw [← hpadded.short (not_lt.mp hlong),
      MerkleDamgard.blocks_block (by decide) hpadded.length_buffer]
    rfl

/-- These are the calls that `add` and `getHash` make for a digest. -/
theorem hasher_calls (buffer extra : Vector UInt8 blockSize) (message : List UInt8) :
    ∃ s, add order (reset buffer.toList) message = .ok s ∧
      addCalls order (reset buffer.toList) message ++ getHashCalls order extra.toList s =
        blockCalls order message := by
  obtain ⟨s, hadd, front, tail, hmessage, h, hlt⟩ :=
    (reset_fed buffer.length_toList).add order message
  rw [List.nil_append] at hmessage
  have hwhole : MerkleDamgard.blocks blockSize message = MerkleDamgard.blocks blockSize front := by
    rw [← hmessage, MerkleDamgard.blocks_append_of_dvd (by decide) h.dvd,
      MerkleDamgard.blocks_of_lt hlt, List.append_nil]
  have hpadded : padding.padded message = MerkleDamgard.blocks blockSize front ++
      MerkleDamgard.blocks blockSize (tail ++ pad message.length) := by
    rw [MerkleDamgard.Padding.padded, ← hmessage, List.append_assoc]
    exact MerkleDamgard.blocks_append_of_dvd (by decide) h.dvd _
  have hcompress : processBlock order = compress := by
    funext hash block
    exact processBlock_eq_compress order hash block
  refine ⟨s, hadd, ?_⟩
  rw [addCalls_reset, h.getHashCalls order hlt extra.length_toList, hwhole, hmessage, blockCalls,
    hpadded, MerkleDamgard.calls_append, h.hash, hcompress, reset_hash, reset_hash]
  rfl

/-- Two messages have different digests, or they are equal, or two of the calls of
`processBlock` for them collide, or their lengths differ by a multiple of `2 ^ 61` bytes. -/
theorem digest_collision (order : ByteOrder) (buffer extra : Vector UInt8 blockSize)
    (m m' : List UInt8) :
    Hasher.digest order buffer.toList extra.toList m ≠
        Hasher.digest order buffer.toList extra.toList m' ∨
      m = m' ∨
      MerkleDamgard.Collide (processBlock order) (blockCalls order m) (blockCalls order m') ∨
      m.length ≠ m'.length ∧ m.length ≡ m'.length [MOD 2 ^ 61] := by
  have hcompress : processBlock order = compress := by
    funext hash block
    exact processBlock_eq_compress order hash block
  by_cases hdigest : Sha256Standard.digest m = Sha256Standard.digest m'
  · right
    by_cases hne : m = m'
    · exact .inl hne
    · right
      have hhash := words_inj (congrArg Hash.data hdigest)
      rw [blockCalls, blockCalls, hcompress, reset_hash]
      exact padding.collide_of_hash_eq (by decide) hne hhash
  · left
    rw [hasher_digest, hasher_digest]
    exact fun h => hdigest (Except.ok.inj h)

end Collisions

end YingSma.SHA256
