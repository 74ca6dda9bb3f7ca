import YingSma.Messages

/-! `SHA256`, the streaming hash behind `Hasher`. A write outside of an array is an error. -/
namespace YingSma

abbrev Word := BitVec 32

/-- The eight working variables of `processBlock`, and `m_hash` in their order. -/
@[ext] structure Registers where
  (a b c d e f g h : Word)
  deriving DecidableEq

def Registers.words (r : Registers) : List Word := [r.a, r.b, r.c, r.d, r.e, r.f, r.g, r.h]

/-- `__BYTE_ORDER` -/
inductive ByteOrder where
  | littleEndian
  | bigEndian

structure SHA256 where
  numBytes : BitVec 64
  bufferSize : ℕ
  buffer : List UInt8
  hash : Registers
  deriving DecidableEq

namespace SHA256

/-- `BlockSize` -/
def blockSize : ℕ := 64

/-- `reset()`, with `buffer` the old contents of `m_buffer`. -/
def reset (buffer : List UInt8) : SHA256 where
  numBytes := 0
  bufferSize := 0
  buffer := buffer
  hash :=
    ⟨0x6a09e667, 0xbb67ae85, 0x3c6ef372, 0xa54ff53a, 0x510e527f, 0x9b05688c, 0x1f83d9ab,
      0x5be0cd19⟩

def rotate (a : Word) (c : ℕ) : Word := a >>> c ||| a <<< (32 - c)

def swap (x : Word) : Word :=
  x >>> 24 ||| x >>> 8 &&& 0x0000FF00 ||| x <<< 8 &&& 0x00FF0000 ||| x <<< 24

def f1 (e f g : Word) : Word :=
  let term1 := rotate e 6 ^^^ rotate e 11 ^^^ rotate e 25
  let term2 := (e &&& f) ^^^ (~~~e &&& g)
  term1 + term2

def f2 (a b c : Word) : Word :=
  let term1 := rotate a 2 ^^^ rotate a 13 ^^^ rotate a 22
  let term2 := (a ||| b) &&& c ||| a &&& b
  term1 + term2

/-- `input[i]`, the four bytes read as a word of the machine. -/
def input (order : ByteOrder) (data : List UInt8) (i : ℕ) : Word :=
  let byte := fun k => (data.getD (4 * i + k) 0).toBitVec.setWidth 32
  match order with
  | .littleEndian => byte 0 ||| byte 1 <<< 8 ||| byte 2 <<< 16 ||| byte 3 <<< 24
  | .bigEndian => byte 0 <<< 24 ||| byte 1 <<< 16 ||| byte 2 <<< 8 ||| byte 3

/-- The first 16 words, converted to big endian. -/
def firstWords (order : ByteOrder) (data : List UInt8) : List Word :=
  (List.range 16).map fun i =>
    match order with
    | .littleEndian => swap (input order data i)
    | .bigEndian => input order data i

/-- The body of the loops that extend the words, with `i` the number of words so far. -/
def extend (words : List Word) : List Word :=
  let back := fun k => words.getD (words.length - k) 0
  words ++ [back 16 + (rotate (back 15) 7 ^^^ rotate (back 15) 18 ^^^ back 15 >>> 3) + back 7 +
    (rotate (back 2) 17 ^^^ rotate (back 2) 19 ^^^ back 2 >>> 10)]

/-- The loop that extends to `n` words. -/
def extendTo (n : ℕ) (words : List Word) : List Word := extend^[n - words.length] words

/-- The constants of the lines of the rounds, in order. -/
def constants : List Word :=
  [0x428a2f98, 0x71374491, 0xb5c0fbcf, 0xe9b5dba5,
   0x3956c25b, 0x59f111f1, 0x923f82a4, 0xab1c5ed5,
   0xd807aa98, 0x12835b01, 0x243185be, 0x550c7dc3,
   0x72be5d74, 0x80deb1fe, 0x9bdc06a7, 0xc19bf174,
   0xe49b69c1, 0xefbe4786, 0x0fc19dc6, 0x240ca1cc,
   0x2de92c6f, 0x4a7484aa, 0x5cb0a9dc, 0x76f988da,
   0x983e5152, 0xa831c66d, 0xb00327c8, 0xbf597fc7,
   0xc6e00bf3, 0xd5a79147, 0x06ca6351, 0x14292967,
   0x27b70a85, 0x2e1b2138, 0x4d2c6dfc, 0x53380d13,
   0x650a7354, 0x766a0abb, 0x81c2c92e, 0x92722c85,
   0xa2bfe8a1, 0xa81a664b, 0xc24b8b70, 0xc76c51a3,
   0xd192e819, 0xd6990624, 0xf40e3585, 0x106aa070,
   0x19a4c116, 0x1e376c08, 0x2748774c, 0x34b0bcb5,
   0x391c0cb3, 0x4ed8aa4a, 0x5b9cca4f, 0x682e6ff3,
   0x748f82ee, 0x78a5636f, 0x84c87814, 0x8cc70208,
   0x90befffa, 0xa4506ceb, 0xbef9a3f7, 0xc67178f2]

/-- One line of a round: what becomes of the fourth and of the eighth variable. -/
def mix (a b c d e f g h k word : Word) : Word × Word :=
  let x := h + f1 e f g + k + word
  let y := f2 a b c
  (d + x, x + y)

/-- The eight lines of the round that starts with `words[i]`. -/
def round (words : List Word) (i : ℕ) (r : Registers) : Registers :=
  let k := fun j => constants.getD (i + j) 0
  let w := fun j => words.getD (i + j) 0
  let ⟨a, b, c, d, e, f, g, h⟩ := r
  let (d, h) := mix a b c d e f g h (k 0) (w 0)
  let (c, g) := mix h a b c d e f g (k 1) (w 1)
  let (b, f) := mix g h a b c d e f (k 2) (w 2)
  let (a, e) := mix f g h a b c d e (k 3) (w 3)
  let (h, d) := mix e f g h a b c d (k 4) (w 4)
  let (g, c) := mix d e f g h a b c (k 5) (w 5)
  let (f, b) := mix c d e f g h a b (k 6) (w 6)
  let (e, a) := mix b c d e f g h a (k 7) (w 7)
  ⟨a, b, c, d, e, f, g, h⟩

/-- The additions at the end of `processBlock`. -/
def update (hash r : Registers) : Registers :=
  ⟨hash.a + r.a, hash.b + r.b, hash.c + r.c, hash.d + r.d, hash.e + r.e, hash.f + r.f,
    hash.g + r.g, hash.h + r.h⟩

/-- `processBlock(data)`, on `m_hash` alone. -/
def processBlock (order : ByteOrder) (hash : Registers) (data : List UInt8) : Registers :=
  let words := firstWords order data
  let r := round words 0 hash
  let r := round words 8 r
  let words := extendTo 24 words
  let r := round words 16 r
  let words := extendTo 32 words
  let r := round words 24 r
  let words := extendTo 40 words
  let r := round words 32 r
  let words := extendTo 48 words
  let r := round words 40 r
  let words := extendTo 56 words
  let r := round words 48 r
  let words := extendTo 64 words
  let r := round words 56 r
  update hash r

/-- `buf[i] = x` -/
def put (buf : List UInt8) (i : ℕ) (x : UInt8) : Except Fault (List UInt8) :=
  if i < buf.length then .ok (buf.set i x) else .error .outOfBounds

/-- `m_buffer[m_bufferSize++] = x` -/
def push (s : SHA256) (x : UInt8) : Except Fault SHA256 :=
  (put s.buffer s.bufferSize x).map fun buffer =>
    { s with buffer := buffer, bufferSize := s.bufferSize + 1 }

/-- The loop of `add` that fills up the buffer. The result has the bytes it leaves. -/
def fill : SHA256 → List UInt8 → Except Fault (SHA256 × List UInt8)
  | s, [] => .ok (s, [])
  | s, x :: xs =>
      if s.bufferSize < blockSize then
        match push s x with
        | .ok s => fill s xs
        | .error e => .error e
      else .ok (s, x :: xs)

/-- What `add` does when the buffer is not empty at the start. -/
def fillStarted (s : SHA256) (data : List UInt8) : Except Fault (SHA256 × List UInt8) :=
  if s.bufferSize > 0 then fill s data else .ok (s, data)

/-- The loop of `add` over the full blocks of `data`, which ends after at most one pass for
each byte. The result has the bytes it leaves. -/
def processBlocks (order : ByteOrder) : ℕ → SHA256 → List UInt8 → SHA256 × List UInt8
  | 0, s, data => (s, data)
  | fuel + 1, s, data =>
      if blockSize ≤ data.length then
        let hash := processBlock order s.hash (data.take blockSize)
        processBlocks order fuel { s with hash := hash, numBytes := s.numBytes + 64 }
          (data.drop blockSize)
      else (s, data)

/-- The last loop of `add`. -/
def keep : SHA256 → List UInt8 → Except Fault SHA256
  | s, [] => .ok s
  | s, x :: xs =>
      match push s x with
      | .ok s => keep s xs
      | .error e => .error e

/-- What `add` does with a full buffer. -/
def flush (order : ByteOrder) (s : SHA256) : SHA256 :=
  if s.bufferSize = blockSize then
    { s with
      hash := processBlock order s.hash s.buffer
      numBytes := s.numBytes + 64
      bufferSize := 0 }
  else s

/-- `add(data, numBytes)` -/
def add (order : ByteOrder) (s : SHA256) (data : List UInt8) : Except Fault SHA256 := do
  let (s, data) ← fillStarted s data
  let s := flush order s
  if data = [] then .ok s
  else
    let (s, data) := processBlocks order data.length s data
    keep s data

/-- `paddedLength`, in bytes. -/
def paddedLength (bufferSize : ℕ) : ℕ :=
  let paddedLength := bufferSize * 8 + 1
  let lower11Bits := paddedLength &&& 511
  let paddedLength :=
    if lower11Bits ≤ 448 then paddedLength + (448 - lower11Bits)
    else paddedLength + (512 + 448 - lower11Bits)
  paddedLength / 8

/-- The loops that write `count` bytes from the place `first` on. -/
def putAll (buf : List UInt8) (first count : ℕ) (byte : ℕ → UInt8) : Except Fault (List UInt8) :=
  (List.range count).foldlM (fun buf k => put buf (first + k) (byte k)) buf

/-- The length as it is written to `addLength`, the most significant byte first. -/
def lengthByte (msgBits : BitVec 64) (k : ℕ) : UInt8 :=
  UInt8.ofBitVec ((msgBits >>> (56 - 8 * k)).setWidth 8)

/-- The bit behind the message, in `m_buffer` or in `extra`. -/
def putOne (extra : List UInt8) (s : SHA256) : Except Fault (List UInt8 × List UInt8) :=
  if s.bufferSize < blockSize then
    (put s.buffer s.bufferSize 128).map fun buffer => (buffer, extra)
  else (put extra 0 128).map fun extra => (s.buffer, extra)

/-- The length, in `m_buffer` or in `extra`. -/
def putLength (buffer extra : List UInt8) (paddedLength : ℕ) (msgBits : BitVec 64) :
    Except Fault (List UInt8 × List UInt8) :=
  if paddedLength < blockSize then
    (putAll buffer paddedLength 8 (lengthByte msgBits)).map fun buffer => (buffer, extra)
  else
    (putAll extra (paddedLength - blockSize) 8 (lengthByte msgBits)).map fun extra =>
      (buffer, extra)

/-- `m_buffer` and `extra` with the padding. Before, `extra` is not initialized. -/
def padBuffers (extra : List UInt8) (s : SHA256) : Except Fault (List UInt8 × List UInt8) := do
  let (buffer, extra) ← putOne extra s
  let i := s.bufferSize + 1
  let buffer ← putAll buffer i (blockSize - i) fun _ => 0
  let i := max i blockSize
  let extra ← putAll extra (i - blockSize) (paddedLength s.bufferSize - i) fun _ => 0
  putLength buffer extra (paddedLength s.bufferSize)
    (8 * (s.numBytes + BitVec.ofNat 64 s.bufferSize))

/-- `processBuffer()` -/
def processBuffer (order : ByteOrder) (extra : List UInt8) (s : SHA256) :
    Except Fault SHA256 := do
  let (buffer, extra) ← padBuffers extra s
  let hash := processBlock order s.hash buffer
  let hash :=
    if paddedLength s.bufferSize > blockSize then processBlock order hash extra else hash
  .ok { s with buffer := buffer, hash := hash }

/-- The bytes that `getHash(dst)` writes. -/
def hashBytes (r : Registers) : List UInt8 :=
  r.words.flatMap fun w => [24, 16, 8, 0].map fun k => UInt8.ofBitVec ((w >>> k).setWidth 8)

theorem length_hashBytes (r : Registers) : (hashBytes r).length = hashLength := rfl

/-- `getHash(dst)`, with `dst` the data of a `Hash`. The old hash is restored. -/
def getHash (order : ByteOrder) (extra : List UInt8) (s : SHA256) :
    Except Fault (Hash × SHA256) := do
  let s' ← processBuffer order extra s
  .ok (⟨hashBytes s'.hash, length_hashBytes _⟩, { s' with hash := s.hash })

def dec2hex : List Char := "0123456789abcdef".toList

/-- The characters that `getHash()` writes. -/
def hexChars (r : Registers) : List Char :=
  r.words.flatMap fun w =>
    [28, 24, 20, 16, 12, 8, 4, 0].map fun k => dec2hex.getD (w >>> k &&& 15).toNat '0'

/-- `getHash()` -/
def getHashString (order : ByteOrder) (extra : List UInt8) (s : SHA256) :
    Except Fault (String × SHA256) := do
  let s' ← processBuffer order extra s
  .ok (String.ofList (hexChars s'.hash), { s' with hash := s.hash })

end SHA256

/-- `operator std::string`: the bytes in hexadecimal, with width 2 and `'0'` to fill. -/
def Hash.toString (h : Hash) : String :=
  String.ofList (h.data.flatMap fun x => (Nat.toDigits 16 x.toNat).leftpad 2 '0')

namespace Hasher

/-- `Hasher(src, size).digest()`. The member arrays and `extra` start with any contents. -/
def digest (order : ByteOrder) (buffer extra : List UInt8) (src : List UInt8) :
    Except Fault Hash := do
  let sha ← SHA256.add order (SHA256.reset buffer) src
  let (hash, _) ← SHA256.getHash order extra sha
  .ok hash

end Hasher

end YingSma
