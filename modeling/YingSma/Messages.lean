import Mathlib.Tactic

/-! The identifiers of the network and the messages its nodes exchange. Machine
integers keep their widths, strings are lists of bytes, floating-point numbers
are their bit patterns and a time point counts the nanoseconds of `system_clock`. -/
namespace YingSma

/-- The ways a call of the program ends without returning: a failed `assert` (the
build type is Debug), a list iterator moved beyond `end()`, a read or write outside
its buffer, an integer division by zero, and a vector asked for too many elements. -/
inductive Fault
  | assertFailed (text : String)
  | pastEnd
  | outOfBounds
  | divisionByZero
  | lengthError
  deriving DecidableEq, Repr

abbrev TimePoint := ℤ

/-- Nanoseconds in one millisecond. -/
def milli : ℤ := 1000000

/-- A number is not made larger by being narrowed. -/
theorem toNat_ofInt_le {x : ℤ} (hx : 0 ≤ x) : ((UInt32.ofInt x).toNat : ℤ) ≤ x := by
  rw [UInt32.ofInt, UInt32.toNat_ofNat']
  omega

structure NodeId where
  value : UInt16
  deriving DecidableEq, Repr

abbrev BlockIndex := UInt16

/-- `Hash::LENGTH` -/
def hashLength : ℕ := 32

structure Hash where
  data : List UInt8
  length_data : data.length = hashLength
  deriving DecidableEq

instance : Inhabited Hash := ⟨List.replicate hashLength 0, List.length_replicate⟩

@[ext] structure BlockRef where
  hash : Hash
  index : BlockIndex
  deriving DecidableEq

/-- The two doubles of a position, as bit patterns. -/
structure Vec2d where
  x : UInt64
  y : UInt64
  deriving DecidableEq, Repr

structure ContentType where
  value : List UInt8
  deriving DecidableEq, Repr

structure ContentName where
  value : List UInt8
  deriving DecidableEq, Repr

structure ContentMetadata where
  hash : Hash
  size : UInt32
  blockSize : UInt32
  types : List ContentType
  name : ContentName
  origin : Vec2d
  publisher : NodeId
  publishTimeMs : UInt64
  hops : UInt8
  /-- Transient; the wire carries the remaining time instead. -/
  expiryTime : TimePoint
  deriving DecidableEq

namespace ContentMetadata

/-- `block_count`, computed with the 32-bit arithmetic of its operands. -/
def blockCount (m : ContentMetadata) : Except Fault ℕ :=
  if m.blockSize = 0 then .error .divisionByZero
  else .ok (1 + (m.size - 1) / m.blockSize).toNat

def expired (m : ContentMetadata) (now : TimePoint) : Bool := now ≥ m.expiryTime

/-- `ttl<milliseconds>().count()`, before it is narrowed to 32 bits. -/
def ttl (m : ContentMetadata) (now : TimePoint) : ℤ :=
  if now ≥ m.expiryTime then 0 else (m.expiryTime - now) / milli

end ContentMetadata

structure Interest where
  type : ContentType
  ttlMs : UInt32
  hops : UInt8
  /-- Transient; the epoch in a decoded interest. -/
  expiryTime : TimePoint
  deriving DecidableEq

/-- The serialized fields of the `BlockRequestArgs` struct. -/
structure BlockRequestArgs where
  block : BlockRef
  utility : UInt32
  ttlMs : UInt32
  requester : NodeId
  requesterPosition : Vec2d
  hopsFromBlock : UInt8
  deriving DecidableEq

/-- A `BlockRequestArgs` built at this node, with its transient flags. A decoded one
leaves the two flags uninitialised, so that only this type has them. -/
structure LocalRequestArgs extends BlockRequestArgs where
  keepOnArrival : Bool
  localOnly : Bool
  deriving DecidableEq

structure MessageHeader where
  sender : NodeId
  recipients : List NodeId
  deriving DecidableEq

structure Beacon where
  position : Vec2d
  isResponse : Bool
  deriving DecidableEq

/-- `data` owns `size` bytes. -/
structure InterestAnn where
  count : UInt8
  size : UInt16
  data : List UInt8
  length_data : data.length = size.toNat
  deriving DecidableEq

structure ContentAnn where
  metadata : List ContentMetadata
  deriving DecidableEq

structure BlockRequest where
  requests : List BlockRequestArgs
  deriving DecidableEq

/-- `data` owns `size` bytes. -/
structure BlockResponse where
  block : BlockRef
  size : UInt32
  data : List UInt8
  length_data : data.length = size.toNat
  deriving DecidableEq

/-- The mapped types of `MessageTypes`. -/
inductive Message
  | beacon (msg : Beacon)
  | interestAnn (msg : InterestAnn)
  | contentAnn (msg : ContentAnn)
  | blockRequest (msg : BlockRequest)
  | blockResponse (msg : BlockResponse)
  deriving DecidableEq

end YingSma
