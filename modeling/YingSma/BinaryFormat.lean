import YingSma.Messages
import YingSma.SerialFormat

/-! `BinaryOutput` and `BinaryInput`: big-endian integers, strings with a prefix of one
or two bytes, vectors with a prefix of one byte. -/
namespace YingSma
open SerialFormat

namespace BinaryOutput

abbrev Put := SerialFormat.Put Fault

def write (src : List UInt8) : Put := append (.assertFailed "remaining() >= size") src

def putUInt8 (t : UInt8) : Put := append (.assertFailed "cur != end") [t]

def putBool (t : Bool) : Put := append (.assertFailed "cur != end") [if t then 1 else 0]

def putUInt16 (t : UInt16) : Put := write (bigEndian 2 t.toNat)

def putUInt32 (t : UInt32) : Put := write (bigEndian 4 t.toNat)

def putUInt64 (t : UInt64) : Put := write (bigEndian 8 t.toNat)

def putString (t : List UInt8) : Put :=
  let size := t.length
  if size ≤ 32767 then
    putAll [if size ≥ 127 then putUInt16 (UInt16.ofNat (size ||| 1 <<< 15))
      else putUInt8 (UInt8.ofNat size), write t]
  else fun _ => .error (.assertFailed "size <= 32767")

def putVector {α : Type} (put : α → Put) (v : List α) : Put :=
  if v.length ≤ 255 then putAll (putUInt8 (UInt8.ofNat v.length) :: v.map put)
  else fun _ => .error
    (.assertFailed "v.size() <= std::numeric_limits<std::uint8_t>::max()")

/-- The assertions of `BinaryOutput`. -/
def faults : List Fault :=
  [.assertFailed "remaining() >= size", .assertFailed "cur != end", .assertFailed "size <= 32767",
    .assertFailed "v.size() <= std::numeric_limits<std::uint8_t>::max()"]

end BinaryOutput

namespace BinaryInput

abbrev Get := SerialFormat.Get Fault

def read (size : ℕ) : Get {bytes : List UInt8 // bytes.length = size} :=
  take (.assertFailed "remaining() >= size") size

/-- Compares with `!=`, so that the byte 1 reads as `false`. -/
def getBool : Get Bool := do
  let buf ← read 1
  pure (buf.1.headD 0 != 1)

def getUInt8 : Get UInt8 := do
  let buf ← take (.assertFailed "src != end") 1
  pure (buf.1.headD 0)

def getUInt16 : Get UInt16 := do
  let buf ← read 2
  pure (UInt16.ofNat (ofBigEndian buf.1))

def getUInt32 : Get UInt32 := do
  let buf ← read 4
  pure (UInt32.ofNat (ofBigEndian buf.1))

def getUInt64 : Get UInt64 := do
  let buf ← read 8
  pure (UInt64.ofNat (ofBigEndian buf.1))

/-- The prefix of a string. A high bit in the first byte announces a second one. -/
def getStringSize : Get UInt16 := do
  let first ← getUInt8
  let size := first.toUInt16
  if size &&& 0x80 ≠ 0 then
    let low ← getUInt8
    pure ((size &&& ~~~0x80) <<< 8 ||| low.toUInt16)
  else pure size

def getString : Get (List UInt8) := do
  let size ← getStringSize
  let s ← read size.toNat
  pure s.1

/-- `Reader::fill` -/
def getVector {α : Type} (get : Get α) : Get (List α) := do
  let size ← getUInt8
  getMany get size.toNat

end BinaryInput

section Primitives

open BinaryOutput BinaryInput

/-- The prefix a string of `size` bytes is written with. -/
def wireStringSize (size : ℕ) : List UInt8 :=
  if size ≥ 127 then bigEndian 2 (size + 32768) else [UInt8.ofNat size]

def wireString (t : List UInt8) : List UInt8 := wireStringSize t.length ++ t

def wireVector {α : Type} (wire : α → List UInt8) (v : List α) : List UInt8 :=
  UInt8.ofNat v.length :: v.flatMap wire

theorem write_emits (src : List UInt8) : Emits (write src) src := append_emits _ src

theorem write_appends (src : List UInt8) : Appends (write src) src := append_appends _ src

theorem putUInt8_emits (t : UInt8) : Emits (putUInt8 t) [t] := append_emits _ [t]

/-- The prefix is written in one go, whichever of its two forms it has. -/
theorem putStringSize_eq {size : ℕ} (h : size ≤ 32767) :
    ∃ e ∈ faults, (if size ≥ 127 then putUInt16 (UInt16.ofNat (size ||| 1 <<< 15))
      else putUInt8 (UInt8.ofNat size)) = append e (wireStringSize size) := by
  unfold wireStringSize
  split_ifs
  · have hor : size ||| 1 <<< 15 = size + 32768 := by
      rw [Nat.or_comm, ← Nat.shiftLeft_add_eq_or_of_lt (by omega)]
      omega
    have hnat : (UInt16.ofNat (size ||| 1 <<< 15)).toNat = size + 32768 := by
      rw [hor, UInt16.toNat_ofNat', Nat.mod_eq_of_lt (by omega)]
    rw [putUInt16, hnat]
    exact ⟨_, by decide, rfl⟩
  · exact ⟨_, by decide, rfl⟩

theorem putString_emits {t : List UInt8} (h : t.length ≤ 32767) :
    Emits (putString t) (wireString t) := by
  obtain ⟨e, -, hsize⟩ := putStringSize_eq h
  have hall := putAll_emits (.cons (append_emits e (wireStringSize t.length))
    (.cons (write_emits t) .nil))
  simp only [putString, h, if_true, hsize]
  simpa [wireString] using hall

/-- A string too long for a prefix is not written at all. -/
theorem putString_appends (t : List UInt8) : Appends (putString t) (wireString t) := by
  intro out out' hrun
  unfold putString at hrun
  by_cases h : t.length ≤ 32767
  · obtain ⟨e, -, hsize⟩ := putStringSize_eq h
    have hall := putAll_appends (.cons (append_appends e (wireStringSize t.length))
      (.cons (write_appends t) .nil))
    rw [if_pos h, hsize] at hrun
    have hwritten := hall out out' hrun
    simpa [wireString] using hwritten
  · rw [if_neg h] at hrun
    cases hrun

theorem putVector_emits {α : Type} {put : α → Put} {wire : α → List UInt8} {v : List α}
    (hlen : v.length ≤ 255) (h : ∀ a ∈ v, Emits (put a) (wire a)) :
    Emits (putVector put v) (wireVector wire v) := by
  have hrest : List.Forall₂ Emits (v.map put) (v.map wire) := by
    simpa [List.forall₂_map_left_iff, List.forall₂_map_right_iff, List.forall₂_same] using h
  have hall := putAll_emits (.cons (putUInt8_emits (UInt8.ofNat v.length)) hrest)
  simp only [putVector, hlen, if_true]
  simpa [wireVector, List.flatMap_def] using hall

theorem read_parses {size : ℕ} (bytes : {bytes : List UInt8 // bytes.length = size}) :
    Parses (read size) bytes.1 bytes := take_parses _ bytes

theorem getUInt8_parses (t : UInt8) : Parses getUInt8 [t] t := fun _ => rfl

/-- Reading back a big-endian integer of `n` bytes. -/
theorem read_bigEndian_parses {α : Type} (n x : ℕ) (f : ℕ → α) :
    Parses (read n >>= fun buf => pure (f (ofBigEndian buf.1))) (bigEndian n x)
      (f (x % 2 ^ (8 * n))) := by
  have h : Parses (read n >>= fun buf => pure (f (ofBigEndian buf.1))) (bigEndian n x ++ [])
      (f (ofBigEndian (bigEndian n x))) :=
    (read_parses ⟨bigEndian n x, length_bigEndian n x⟩).bind (pure_parses _)
  rwa [List.append_nil, ofBigEndian_bigEndian] at h

theorem getUInt16_parses (t : UInt16) : Parses getUInt16 (bigEndian 2 t.toNat) t := by
  have h := read_bigEndian_parses 2 t.toNat UInt16.ofNat
  rwa [Nat.mod_eq_of_lt (t.toNat_lt), UInt16.ofNat_toNat] at h

theorem getUInt32_parses (t : UInt32) : Parses getUInt32 (bigEndian 4 t.toNat) t := by
  have h := read_bigEndian_parses 4 t.toNat UInt32.ofNat
  rwa [Nat.mod_eq_of_lt (t.toNat_lt), UInt32.ofNat_toNat] at h

theorem getUInt64_parses (t : UInt64) : Parses getUInt64 (bigEndian 8 t.toNat) t := by
  have h := read_bigEndian_parses 8 t.toNat UInt64.ofNat
  rwa [Nat.mod_eq_of_lt (t.toNat_lt), UInt64.ofNat_toNat] at h

/-- The first byte of a short prefix has no high bit, that of a long one has it set above
the high part of the size. -/
theorem stringSize_bits :
    (∀ n < 127, (UInt8.ofNat n).toUInt16 &&& 0x80 = 0) ∧
      ∀ n < 128, (UInt8.ofNat (n + 128)).toUInt16 &&& 0x80 ≠ 0 ∧
        (UInt8.ofNat (n + 128)).toUInt16 &&& ~~~0x80 = UInt16.ofNat n := by
  decide

theorem getStringSize_parses {size : ℕ} (h : size ≤ 32767) :
    Parses getStringSize (wireStringSize size) (UInt16.ofNat size) := by
  unfold wireStringSize
  split_ifs with hlong
  · -- Two bytes: the high part with the flag, then the low part.
    have hhigh : (size + 32768) >>> (8 * 1) = size / 256 + 128 := by
      rw [Nat.shiftRight_eq_div_pow]
      omega
    have hbits := stringSize_bits.2 (size / 256) (by omega)
    have hsize : UInt16.ofNat (size / 256) <<< 8 ||| (UInt8.ofNat (size + 32768)).toUInt16 =
        UInt16.ofNat size := by
      apply UInt16.toNat_inj.mp
      simp only [UInt16.toNat_or, UInt16.toNat_shiftLeft, UInt16.toNat_ofNat', UInt8.toNat_toUInt16,
        UInt8.toNat_ofNat']
      have hlt : (size + 32768) % 2 ^ 8 < 2 ^ 8 := Nat.mod_lt _ (by decide)
      have hshift : (size / 256 % 2 ^ 16) <<< (UInt16.toNat 8 % 16) % 2 ^ 16 =
          (size / 256) <<< 8 := by
        rw [show UInt16.toNat 8 % 16 = 8 from rfl, Nat.shiftLeft_eq, Nat.shiftLeft_eq]
        omega
      rw [hshift, ← Nat.shiftLeft_add_eq_or_of_lt hlt, Nat.shiftLeft_eq]
      omega
    have hlow : Parses (getUInt8 >>= fun low : UInt8 =>
        pure (UInt16.ofNat (size / 256) <<< 8 ||| low.toUInt16)) [UInt8.ofNat (size + 32768)]
        (UInt16.ofNat (size / 256) <<< 8 ||| (UInt8.ofNat (size + 32768)).toUInt16) :=
      (getUInt8_parses _).bind (pure_parses _)
    simp only [bigEndian, hhigh, Nat.mul_zero, Nat.shiftRight_zero]
    apply (getUInt8_parses (UInt8.ofNat (size / 256 + 128))).bind
    rw [if_pos hbits.1, hbits.2, ← hsize]
    exact hlow
  · have hbits := stringSize_bits.1 size (by omega)
    have hsize : (UInt8.ofNat size).toUInt16 = UInt16.ofNat size := by
      apply UInt16.toNat_inj.mp
      simp only [UInt8.toNat_toUInt16, UInt8.toNat_ofNat', UInt16.toNat_ofNat']
      omega
    rw [← List.append_nil [_]]
    apply (getUInt8_parses (UInt8.ofNat size)).bind
    rw [if_neg (not_not.mpr hbits), hsize]
    exact pure_parses _

theorem getString_parses {t : List UInt8} (h : t.length ≤ 32767) :
    Parses getString (wireString t) t := by
  have hsize : t.length = (UInt16.ofNat t.length).toNat := by
    rw [UInt16.toNat_ofNat', Nat.mod_eq_of_lt (by omega)]
  have hread : Parses (read (UInt16.ofNat t.length).toNat >>= fun s => pure s.1) (t ++ []) t :=
    (read_parses ⟨t, hsize⟩).bind (pure_parses _)
  rw [List.append_nil] at hread
  exact (getStringSize_parses h).bind hread

theorem getVector_parses {α β : Type} {get : Get β} {wire : α → List UInt8} {f : α → β}
    {v : List α} (hlen : v.length ≤ 255) (h : ∀ a ∈ v, Parses get (wire a) (f a)) :
    Parses (getVector get) (wireVector wire v) (v.map f) := by
  have hsize : (UInt8.ofNat v.length).toNat = v.length := by
    rw [UInt8.toNat_ofNat', Nat.mod_eq_of_lt (by omega)]
  have hmany := getMany_parses h
  rw [← hsize] at hmany
  exact (getUInt8_parses (UInt8.ofNat v.length)).bind hmany

theorem getVector_parses_self {α : Type} {get : Get α} {wire : α → List UInt8} {v : List α}
    (hlen : v.length ≤ 255) (h : ∀ a ∈ v, Parses get (wire a) a) :
    Parses (getVector get) (wireVector wire v) v := by
  have hmap : Parses (getVector get) (wireVector wire v) (v.map id) := getVector_parses hlen h
  rwa [List.map_id] at hmap

theorem putUInt8_returns (t : UInt8) : Returns (putUInt8 t) getUInt8 t :=
  (append_appends _ [t]).returns (getUInt8_parses t)

theorem putUInt16_returns (t : UInt16) : Returns (putUInt16 t) getUInt16 t :=
  (write_appends _).returns (getUInt16_parses t)

theorem putUInt32_returns (t : UInt32) : Returns (putUInt32 t) getUInt32 t :=
  (write_appends _).returns (getUInt32_parses t)

theorem putUInt64_returns (t : UInt64) : Returns (putUInt64 t) getUInt64 t :=
  (write_appends _).returns (getUInt64_parses t)

/-- A string that could be written has a prefix. -/
theorem putString_returns (t : List UInt8) : Returns (putString t) getString t := by
  intro out out' hrun
  by_cases h : t.length ≤ 32767
  · exact (putString_appends t).returns (getString_parses h) out out' hrun
  · unfold putString at hrun
    rw [if_neg h] at hrun
    cases hrun

theorem putVector_returns {α β : Type} {put : α → Put} {get : Get β} {f : α → β} {v : List α}
    (h : ∀ a ∈ v, Returns (put a) get (f a)) :
    Returns (putVector put v) (getVector get) (v.map f) := by
  intro out out' hrun
  unfold putVector at hrun
  by_cases hlen : v.length ≤ 255
  · rw [if_pos hlen] at hrun
    have hsize : (UInt8.ofNat v.length).toNat = v.length := by
      rw [UInt8.toNat_ofNat', Nat.mod_eq_of_lt (by omega)]
    have hmany := getMany_returns h
    rw [← hsize] at hmany
    exact (putUInt8_returns _).cons hmany out out' hrun
  · rw [if_neg hlen] at hrun
    cases hrun

theorem putVector_returns_self {α : Type} {put : α → Put} {get : Get α} {v : List α}
    (h : ∀ a ∈ v, Returns (put a) get a) : Returns (putVector put v) (getVector get) v := by
  have hmap : Returns (putVector put v) (getVector get) (v.map id) := putVector_returns h
  rwa [List.map_id] at hmap

end Primitives

end YingSma
