import Mathlib.Data.Nat.NthRoot.Defs
import YingSma.MerkleDamgard
import YingSma.Sha256

/-! SHA-256 as the standard defines it: the constants are fractional parts of roots of primes,
the message schedule is a recurrence, every step is the same round, and the message is padded
before it is cut into blocks. -/
namespace YingSma.Sha256Standard

/-- The first 64 primes. -/
def primes : List ℕ := (List.range 312).filter Nat.Prime

/-- The first 32 bits of the fractional part of the `k`-th root of `p`. -/
def fractionalRoot (k p : ℕ) : Word := BitVec.ofNat 32 (Nat.nthRoot k (p * 2 ^ (32 * k)))

/-- `K_t` -/
def roundConstant (t : ℕ) : Word := fractionalRoot 3 (primes.getD t 0)

def initialHash : Registers :=
  let root := fun t => fractionalRoot 2 (primes.getD t 0)
  ⟨root 0, root 1, root 2, root 3, root 4, root 5, root 6, root 7⟩

def ch (x y z : Word) : Word := (x &&& y) ^^^ (~~~x &&& z)

def maj (x y z : Word) : Word := (x &&& y) ^^^ (x &&& z) ^^^ (y &&& z)

def bigSigma0 (x : Word) : Word := x.rotateRight 2 ^^^ x.rotateRight 13 ^^^ x.rotateRight 22

def bigSigma1 (x : Word) : Word := x.rotateRight 6 ^^^ x.rotateRight 11 ^^^ x.rotateRight 25

def smallSigma0 (x : Word) : Word := x.rotateRight 7 ^^^ x.rotateRight 18 ^^^ x >>> 3

def smallSigma1 (x : Word) : Word := x.rotateRight 17 ^^^ x.rotateRight 19 ^^^ x >>> 10

/-- The `t`-th word of a block, most significant byte first. -/
def blockWord (block : List UInt8) (t : ℕ) : Word :=
  let byte := fun k => (block.getD (4 * t + k) 0).toBitVec
  byte 0 ++ byte 1 ++ byte 2 ++ byte 3

/-- `W_t` -/
def schedule (block : List UInt8) (t : ℕ) : Word :=
  if t < 16 then blockWord block t
  else
    smallSigma1 (schedule block (t - 2)) + schedule block (t - 7) +
      smallSigma0 (schedule block (t - 15)) + schedule block (t - 16)

/-- One of the 64 steps, with the round constant and the word of the schedule. -/
def round (k w : Word) (r : Registers) : Registers :=
  let t1 := r.h + bigSigma1 r.e + ch r.e r.f r.g + k + w
  let t2 := bigSigma0 r.a + maj r.a r.b r.c
  ⟨t1 + t2, r.a, r.b, r.c, r.d + t1, r.e, r.f, r.g⟩

/-- The working variables after the first `n` steps. -/
def rounds (block : List UInt8) (r : Registers) : ℕ → Registers
  | 0 => r
  | t + 1 => round (roundConstant t) (schedule block t) (rounds block r t)

def compress (hash : Registers) (block : List UInt8) : Registers :=
  let r := rounds block hash 64
  ⟨hash.a + r.a, hash.b + r.b, hash.c + r.c, hash.d + r.d, hash.e + r.e, hash.f + r.f,
    hash.g + r.g, hash.h + r.h⟩

/-- A word as bytes, the most significant first. -/
def wordBytes (w : Word) : List UInt8 :=
  [UInt8.ofBitVec (w.extractLsb' 24 8), UInt8.ofBitVec (w.extractLsb' 16 8),
    UInt8.ofBitVec (w.extractLsb' 8 8), UInt8.ofBitVec (w.extractLsb' 0 8)]

/-- The length of a message in bits, in 64 bits, the most significant byte first. -/
def lengthBytes (len : ℕ) : List UInt8 :=
  (List.range 8).map fun i => UInt8.ofNat (8 * len / 256 ^ (7 - i))

/-- What follows a message of `len` bytes. -/
def pad (len : ℕ) : List UInt8 :=
  128 :: List.replicate ((119 - len % 64) % 64) 0 ++ lengthBytes len

/-- The number that some bytes are, the most significant first. -/
def bigEndian (bytes : List UInt8) : ℕ := bytes.foldl (fun n x => 256 * n + x.toNat) 0

@[simp] theorem length_lengthBytes (len : ℕ) : (lengthBytes len).length = 8 := by
  simp [lengthBytes]

@[simp] theorem length_pad (len : ℕ) : (pad len).length = 9 + (119 - len % 64) % 64 := by
  simp [pad]
  omega

theorem bigEndian_lengthBytes (len : ℕ) : bigEndian (lengthBytes len) = 8 * len % 2 ^ 64 := by
  simp [bigEndian, lengthBytes, List.range_succ]
  omega

theorem dvd_length_pad (len : ℕ) : 64 ∣ len + (pad len).length := by
  rw [length_pad]
  omega

theorem pad_ne_nil (len : ℕ) : pad len ≠ [] := by
  simp [pad]

/-- The length stands at the end of the last block. -/
theorem bigEndian_last (xs front last : List UInt8) (hlast : last.length = 64)
    (h : front ++ last = xs ++ pad xs.length) :
    bigEndian (last.drop 56) / 8 = xs.length % 2 ^ 61 := by
  have hpad : xs ++ pad xs.length =
      (xs ++ 128 :: List.replicate ((119 - xs.length % 64) % 64) 0) ++ lengthBytes xs.length := by
    simp [pad]
  have hfront : front ++ last = (front ++ last.take 56) ++ last.drop 56 := by
    simp
  rw [hfront, hpad] at h
  have hdrop : last.drop 56 = lengthBytes xs.length := List.append_inj_right' h (by simp [hlast])
  rw [hdrop, bigEndian_lengthBytes]
  omega

/-- The padding ends a block, and the last block tells the length up to `2 ^ 61` bytes. -/
def padding : MerkleDamgard.Padding UInt8 64 where
  pad := pad
  dvd := dvd_length_pad
  lengthOf := fun block => bigEndian (block.drop 56) / 8
  modulus := 2 ^ 61
  lengthOf_last := bigEndian_last
  nonempty := pad_ne_nil

/-- The digest of a message. -/
def sha256 (message : List UInt8) : List UInt8 :=
  (padding.hash compress initialHash message).words.flatMap wordBytes

theorem length_sha256 (message : List UInt8) : (sha256 message).length = hashLength := rfl

def digest (message : List UInt8) : Hash := ⟨sha256 message, length_sha256 message⟩

end YingSma.Sha256Standard
