import YingSma.BinaryFormat

/-! The serialized fields of each message and of its parts, in the order in which
`write_fields` puts and the deserializing constructor gets them. -/
namespace YingSma
open SerialFormat BinaryOutput BinaryInput

namespace NodeId

def writeFields (id : NodeId) : Put := putAll [putUInt16 id.value]

def read : Get NodeId := do
  let value ← getUInt16
  pure { value }

end NodeId

namespace Hash

def writeFields (h : Hash) : Put := write h.data

def read : Get Hash := do
  let data ← BinaryInput.read hashLength
  pure ⟨data.1, data.2⟩

end Hash

namespace BlockRef

def writeFields (ref : BlockRef) : Put := putAll [ref.hash.writeFields, putUInt16 ref.index]

def read : Get BlockRef := do
  let hash ← Hash.read
  let index ← getUInt16
  pure { hash, index }

end BlockRef

namespace Vec2d

def writeFields (v : Vec2d) : Put := putAll [putUInt64 v.x, putUInt64 v.y]

def read : Get Vec2d := do
  let x ← getUInt64
  let y ← getUInt64
  pure { x, y }

end Vec2d

namespace ContentType

def writeFields (t : ContentType) : Put := putAll [putString t.value]

def read : Get ContentType := do
  let value ← getString
  pure { value }

end ContentType

namespace ContentName

def writeFields (n : ContentName) : Put := putAll [putString n.value]

def read : Get ContentName := do
  let value ← getString
  pure { value }

end ContentName

namespace Interest

def writeFields (i : Interest) : Put :=
  putAll [i.type.writeFields, putUInt32 i.ttlMs, putUInt8 i.hops]

def read : Get Interest := do
  let type ← ContentType.read
  let ttlMs ← getUInt32
  let hops ← getUInt8
  pure { type, ttlMs, hops, expiryTime := 0 }

end Interest

namespace ContentMetadata

/-- The remaining time is narrowed to 32 bits. -/
def writeFields (now : TimePoint) (m : ContentMetadata) : Put :=
  putAll [m.hash.writeFields, putUInt32 m.size, putUInt32 m.blockSize,
    putVector ContentType.writeFields m.types, m.name.writeFields, m.origin.writeFields,
    m.publisher.writeFields, putUInt64 m.publishTimeMs, putUInt8 m.hops,
    putUInt32 (UInt32.ofNat (m.ttl now).toNat)]

def read (now : TimePoint) : Get ContentMetadata := do
  let hash ← Hash.read
  let size ← getUInt32
  let blockSize ← getUInt32
  let types ← getVector ContentType.read
  let name ← ContentName.read
  let origin ← Vec2d.read
  let publisher ← NodeId.read
  let publishTimeMs ← getUInt64
  let hops ← getUInt8
  let ttlMs ← getUInt32
  pure { hash, size, blockSize, types, name, origin, publisher, publishTimeMs, hops,
         expiryTime := now + ttlMs.toNat * milli }

end ContentMetadata

namespace BlockRequestArgs

def writeFields (a : BlockRequestArgs) : Put :=
  putAll [a.block.writeFields, putUInt32 a.utility, putUInt32 a.ttlMs, a.requester.writeFields,
    a.requesterPosition.writeFields, putUInt8 a.hopsFromBlock]

def read : Get BlockRequestArgs := do
  let block ← BlockRef.read
  let utility ← getUInt32
  let ttlMs ← getUInt32
  let requester ← NodeId.read
  let requesterPosition ← Vec2d.read
  let hopsFromBlock ← getUInt8
  pure { block, utility, ttlMs, requester, requesterPosition, hopsFromBlock }

end BlockRequestArgs

namespace MessageHeader

def writeFields (h : MessageHeader) : Put :=
  putAll [h.sender.writeFields, putVector NodeId.writeFields h.recipients]

def read : Get MessageHeader := do
  let sender ← NodeId.read
  let recipients ← getVector NodeId.read
  pure { sender, recipients }

end MessageHeader

namespace Beacon

def writeFields (b : Beacon) : Put := putAll [b.position.writeFields, putBool b.isResponse]

def read : Get Beacon := do
  let position ← Vec2d.read
  let isResponse ← getBool
  pure { position, isResponse }

end Beacon

namespace InterestAnn

def writeFields (a : InterestAnn) : Put :=
  putAll [putUInt8 a.count, putUInt16 a.size, write a.data]

def read : Get InterestAnn := do
  let count ← getUInt8
  let size ← getUInt16
  let data ← BinaryInput.read size.toNat
  pure { count, size, data := data.1, length_data := data.2 }

end InterestAnn

namespace ContentAnn

def writeFields (now : TimePoint) (a : ContentAnn) : Put :=
  putAll [putVector (ContentMetadata.writeFields now) a.metadata]

def read (now : TimePoint) : Get ContentAnn := do
  let metadata ← getVector (ContentMetadata.read now)
  pure { metadata }

end ContentAnn

namespace BlockRequest

def writeFields (r : BlockRequest) : Put := putAll [putVector BlockRequestArgs.writeFields r.requests]

def read : Get BlockRequest := do
  let requests ← getVector BlockRequestArgs.read
  pure { requests }

end BlockRequest

namespace BlockResponse

def writeFields (r : BlockResponse) : Put :=
  putAll [r.block.writeFields, putUInt32 r.size, write r.data]

def read : Get BlockResponse := do
  let block ← BlockRef.read
  let size ← getUInt32
  let data ← BinaryInput.read size.toNat
  pure { block, size, data := data.1, length_data := data.2 }

end BlockResponse

namespace Message

/-- `MessageTypes::typecode` -/
def typecode : Message → UInt8
  | beacon _ => 0
  | interestAnn _ => 16
  | contentAnn _ => 17
  | blockRequest _ => 18
  | blockResponse _ => 19

def writeFields (now : TimePoint) : Message → Put
  | beacon msg => msg.writeFields
  | interestAnn msg => msg.writeFields
  | contentAnn msg => msg.writeFields now
  | blockRequest msg => msg.writeFields
  | blockResponse msg => msg.writeFields

/-- `MessageTypes::apply`, which asks the type mapped last first. -/
def apply (now : TimePoint) (typecode : UInt8) : Option (Get Message) :=
  if typecode = 19 then some (blockResponse <$> BlockResponse.read)
  else if typecode = 18 then some (blockRequest <$> BlockRequest.read)
  else if typecode = 17 then some (contentAnn <$> ContentAnn.read now)
  else if typecode = 16 then some (interestAnn <$> InterestAnn.read)
  else if typecode = 0 then some (beacon <$> Beacon.read)
  else none

/-- The typecode and the message it announces; `none` for an unknown typecode. -/
def unmarshal (now : TimePoint) : Get (Option Message) := do
  let typecode ← getUInt8
  match apply now typecode with
  | some get => some <$> get
  | none => pure none

end Message

/-- `MessageBuffer<Size>::replace` -/
def MessageBuffer.replace (size : ℕ) (now : TimePoint) (header : MessageHeader) (msg : Message) :
    Except Fault (List UInt8) :=
  match putAll [header.writeFields, putUInt8 msg.typecode, msg.writeFields now] (Out.empty size) with
  | .ok out => .ok out.written
  | .error e => .error e

/-- The buffer size of `CcnNode::post` and of `LinkLayerImpl`. -/
def bufferSize : ℕ := 20000

/-- The header and the message of a packet. -/
def decodePacket (now : TimePoint) : Get (MessageHeader × Option Message) := do
  let header ← MessageHeader.read
  let msg ← Message.unmarshal now
  pure (header, msg)

end YingSma
