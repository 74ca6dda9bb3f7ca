import YingSma.MessageFormat

/-! The bytes each message is written as, and that reading them gives the message back. -/
namespace YingSma
open SerialFormat BinaryOutput BinaryInput

namespace NodeId

def wire (id : NodeId) : List UInt8 := [bigEndian 2 id.value.toNat].flatten

theorem emits (id : NodeId) : Emits id.writeFields id.wire :=
  putAll_emits (.cons (write_emits _) .nil)

theorem parses (id : NodeId) : Parses read id.wire id :=
  (getUInt16_parses id.value).bind (pure_parses id)

end NodeId

namespace Hash

theorem emits (h : Hash) : Emits h.writeFields h.data := write_emits h.data

theorem parses (h : Hash) : Parses read h.data h := by
  rw [← List.append_nil h.data]
  exact (read_parses ⟨h.data, h.length_data⟩).bind (pure_parses h)

end Hash

namespace BlockRef

def wire (ref : BlockRef) : List UInt8 := [ref.hash.data, bigEndian 2 ref.index.toNat].flatten

theorem emits (ref : BlockRef) : Emits ref.writeFields ref.wire :=
  putAll_emits (.cons ref.hash.emits (.cons (write_emits _) .nil))

theorem parses (ref : BlockRef) : Parses read ref.wire ref :=
  ref.hash.parses.bind ((getUInt16_parses ref.index).bind (pure_parses ref))

end BlockRef

namespace Vec2d

def wire (v : Vec2d) : List UInt8 := [bigEndian 8 v.x.toNat, bigEndian 8 v.y.toNat].flatten

theorem emits (v : Vec2d) : Emits v.writeFields v.wire :=
  putAll_emits (.cons (write_emits _) (.cons (write_emits _) .nil))

theorem parses (v : Vec2d) : Parses read v.wire v :=
  (getUInt64_parses v.x).bind ((getUInt64_parses v.y).bind (pure_parses v))

end Vec2d

/-- The longest string the format has a prefix for. -/
def maxString : ℕ := 32767

namespace ContentType

def wire (t : ContentType) : List UInt8 := [wireString t.value].flatten

theorem emits {t : ContentType} (h : t.value.length ≤ maxString) : Emits t.writeFields t.wire :=
  putAll_emits (.cons (putString_emits h) .nil)

theorem parses {t : ContentType} (h : t.value.length ≤ maxString) : Parses read t.wire t :=
  (getString_parses h).bind (pure_parses t)

end ContentType

namespace ContentName

def wire (n : ContentName) : List UInt8 := [wireString n.value].flatten

theorem emits {n : ContentName} (h : n.value.length ≤ maxString) : Emits n.writeFields n.wire :=
  putAll_emits (.cons (putString_emits h) .nil)

theorem parses {n : ContentName} (h : n.value.length ≤ maxString) : Parses read n.wire n :=
  (getString_parses h).bind (pure_parses n)

end ContentName

namespace Interest

def wire (i : Interest) : List UInt8 :=
  [i.type.wire, bigEndian 4 i.ttlMs.toNat, [i.hops]].flatten

theorem emits {i : Interest} (h : i.type.value.length ≤ maxString) :
    Emits i.writeFields i.wire :=
  putAll_emits (.cons (ContentType.emits h) (.cons (write_emits _) (.cons (putUInt8_emits _) .nil)))

/-- The transient expiry time is not on the wire. -/
theorem parses {i : Interest} (h : i.type.value.length ≤ maxString) :
    Parses read i.wire { i with expiryTime := 0 } :=
  (ContentType.parses h).bind ((getUInt32_parses i.ttlMs).bind
    ((getUInt8_parses i.hops).bind (pure_parses _)))

end Interest

namespace ContentMetadata

structure Encodable (m : ContentMetadata) : Prop where
  types : m.types.length ≤ 255
  type : ∀ t ∈ m.types, t.value.length ≤ maxString
  name : m.name.value.length ≤ maxString

def wire (now : TimePoint) (m : ContentMetadata) : List UInt8 :=
  [m.hash.data, bigEndian 4 m.size.toNat, bigEndian 4 m.blockSize.toNat,
    wireVector ContentType.wire m.types, m.name.wire, m.origin.wire, m.publisher.wire,
    bigEndian 8 m.publishTimeMs.toNat, [m.hops],
    bigEndian 4 (UInt32.ofNat (m.ttl now).toNat).toNat].flatten

/-- The metadata as they arrive: what was left of the time to live when they were sent
starts again when they are read. -/
def received (sent read : TimePoint) (m : ContentMetadata) : ContentMetadata :=
  { m with expiryTime := read + m.ttl sent * milli }

theorem emits {m : ContentMetadata} (h : m.Encodable) (now : TimePoint) :
    Emits (m.writeFields now) (m.wire now) :=
  putAll_emits (.cons m.hash.emits (.cons (write_emits _) (.cons (write_emits _)
    (.cons (putVector_emits h.types fun t ht => ContentType.emits (h.type t ht))
    (.cons (ContentName.emits h.name) (.cons m.origin.emits (.cons m.publisher.emits
    (.cons (write_emits _) (.cons (putUInt8_emits _) (.cons (write_emits _) .nil))))))))))

theorem ttl_nonneg (m : ContentMetadata) (now : TimePoint) : 0 ≤ m.ttl now := by
  unfold ttl milli
  split_ifs with h
  · exact le_refl 0
  · exact Int.ediv_nonneg (sub_nonneg.mpr (le_of_lt (not_le.mp h))) (by decide)

theorem parses {m : ContentMetadata} (h : m.Encodable) {sent : TimePoint}
    (httl : m.ttl sent < 2 ^ 32) (now : TimePoint) :
    Parses (read now) (m.wire sent) (m.received sent now) := by
  have hms : ((UInt32.ofNat (m.ttl sent).toNat).toNat : ℤ) = m.ttl sent := by
    have hpos := m.ttl_nonneg sent
    rw [UInt32.toNat_ofNat', Nat.mod_eq_of_lt (by omega)]
    omega
  unfold received
  rw [← hms]
  exact m.hash.parses.bind ((getUInt32_parses _).bind ((getUInt32_parses _).bind
    ((getVector_parses_self h.types fun t ht => ContentType.parses (h.type t ht)).bind
    ((ContentName.parses h.name).bind (m.origin.parses.bind (m.publisher.parses.bind
    ((getUInt64_parses _).bind ((getUInt8_parses _).bind ((getUInt32_parses _).bind
    (pure_parses _))))))))))

end ContentMetadata

namespace BlockRequestArgs

def wire (a : BlockRequestArgs) : List UInt8 :=
  [a.block.wire, bigEndian 4 a.utility.toNat, bigEndian 4 a.ttlMs.toNat, a.requester.wire,
    a.requesterPosition.wire, [a.hopsFromBlock]].flatten

theorem emits (a : BlockRequestArgs) : Emits a.writeFields a.wire :=
  putAll_emits (.cons a.block.emits (.cons (write_emits _) (.cons (write_emits _)
    (.cons a.requester.emits (.cons a.requesterPosition.emits (.cons (putUInt8_emits _) .nil))))))

theorem parses (a : BlockRequestArgs) : Parses read a.wire a :=
  a.block.parses.bind ((getUInt32_parses _).bind ((getUInt32_parses _).bind
    (a.requester.parses.bind (a.requesterPosition.parses.bind ((getUInt8_parses _).bind
    (pure_parses a))))))

end BlockRequestArgs

namespace MessageHeader

def wire (h : MessageHeader) : List UInt8 :=
  [h.sender.wire, wireVector NodeId.wire h.recipients].flatten

theorem emits {h : MessageHeader} (hlen : h.recipients.length ≤ 255) :
    Emits h.writeFields h.wire :=
  putAll_emits (.cons h.sender.emits (.cons (putVector_emits hlen fun id _ => id.emits) .nil))

theorem parses {h : MessageHeader} (hlen : h.recipients.length ≤ 255) : Parses read h.wire h :=
  h.sender.parses.bind ((getVector_parses_self hlen fun id _ => id.parses).bind (pure_parses h))

end MessageHeader

namespace InterestAnn

def wire (a : InterestAnn) : List UInt8 := [[a.count], bigEndian 2 a.size.toNat, a.data].flatten

theorem emits (a : InterestAnn) : Emits a.writeFields a.wire :=
  putAll_emits (.cons (putUInt8_emits _) (.cons (write_emits _) (.cons (write_emits _) .nil)))

theorem parses (a : InterestAnn) : Parses read a.wire a :=
  (getUInt8_parses _).bind ((getUInt16_parses _).bind
    ((read_parses ⟨a.data, a.length_data⟩).bind (pure_parses a)))

end InterestAnn

namespace ContentAnn

structure Encodable (a : ContentAnn) : Prop where
  metadata : a.metadata.length ≤ 255
  each : ∀ m ∈ a.metadata, m.Encodable

def wire (now : TimePoint) (a : ContentAnn) : List UInt8 :=
  [wireVector (ContentMetadata.wire now) a.metadata].flatten

def received (sent read : TimePoint) (a : ContentAnn) : ContentAnn :=
  { metadata := a.metadata.map (ContentMetadata.received sent read) }

theorem emits {a : ContentAnn} (h : a.Encodable) (now : TimePoint) :
    Emits (a.writeFields now) (a.wire now) :=
  putAll_emits (.cons (putVector_emits h.metadata fun m hm =>
    ContentMetadata.emits (h.each m hm) now) .nil)

theorem parses {a : ContentAnn} (h : a.Encodable) {sent : TimePoint}
    (httl : ∀ m ∈ a.metadata, m.ttl sent < 2 ^ 32) (now : TimePoint) :
    Parses (read now) (a.wire sent) (a.received sent now) :=
  (getVector_parses h.metadata fun m hm =>
    ContentMetadata.parses (h.each m hm) (httl m hm) now).bind (pure_parses _)

end ContentAnn

namespace BlockRequest

def wire (r : BlockRequest) : List UInt8 := [wireVector BlockRequestArgs.wire r.requests].flatten

theorem emits {r : BlockRequest} (hlen : r.requests.length ≤ 255) : Emits r.writeFields r.wire :=
  putAll_emits (.cons (putVector_emits hlen fun a _ => a.emits) .nil)

theorem parses {r : BlockRequest} (hlen : r.requests.length ≤ 255) : Parses read r.wire r :=
  (getVector_parses_self hlen fun a _ => a.parses).bind (pure_parses r)

end BlockRequest

namespace BlockResponse

def wire (r : BlockResponse) : List UInt8 :=
  [r.block.wire, bigEndian 4 r.size.toNat, r.data].flatten

theorem emits (r : BlockResponse) : Emits r.writeFields r.wire :=
  putAll_emits (.cons r.block.emits (.cons (write_emits _) (.cons (write_emits _) .nil)))

theorem parses (r : BlockResponse) : Parses read r.wire r :=
  r.block.parses.bind ((getUInt32_parses _).bind
    ((read_parses ⟨r.data, r.length_data⟩).bind (pure_parses r)))

end BlockResponse

namespace Beacon

def wire (b : Beacon) : List UInt8 :=
  [b.position.wire, [if b.isResponse then 1 else 0]].flatten

theorem emits (b : Beacon) : Emits b.writeFields b.wire :=
  putAll_emits (.cons b.position.emits (.cons (append_emits _ _) .nil))

/-- `get<bool>` turns the flag round. -/
theorem parses (b : Beacon) : Parses read b.wire { b with isResponse := !b.isResponse } := by
  have hbool : Parses getBool [if b.isResponse then 1 else 0] (!b.isResponse) := by
    intro rest
    cases b.isResponse <;> rfl
  exact b.position.parses.bind (hbool.bind (pure_parses _))

end Beacon

namespace Message

/-- The vectors have at most 255 elements and the strings at most 32767 bytes. -/
def Encodable : Message → Prop
  | contentAnn msg => msg.Encodable
  | blockRequest msg => msg.requests.length ≤ 255
  | _ => True

/-- The remaining time of all metadata, in milliseconds, has 32 bits. -/
def TtlFits (sent : TimePoint) : Message → Prop
  | contentAnn msg => ∀ m ∈ msg.metadata, m.ttl sent < 2 ^ 32
  | _ => True

def wire (now : TimePoint) : Message → List UInt8
  | beacon msg => msg.wire
  | interestAnn msg => msg.wire
  | contentAnn msg => msg.wire now
  | blockRequest msg => msg.wire
  | blockResponse msg => msg.wire

/-- The message as it arrives when it was encoded at `sent` and is decoded at `read`. -/
def received (sent read : TimePoint) : Message → Message
  | beacon msg => beacon { msg with isResponse := !msg.isResponse }
  | contentAnn msg => contentAnn (msg.received sent read)
  | msg => msg

theorem emits {msg : Message} (h : msg.Encodable) (now : TimePoint) :
    Emits (msg.writeFields now) (msg.wire now) := by
  cases msg with
  | beacon msg => exact msg.emits
  | interestAnn msg => exact msg.emits
  | contentAnn msg => exact ContentAnn.emits h now
  | blockRequest msg => exact BlockRequest.emits h
  | blockResponse msg => exact msg.emits

/-- Each typecode leads back to the reader of its own message type. -/
theorem apply_typecode {msg : Message} (h : msg.Encodable) {sent : TimePoint}
    (httl : msg.TtlFits sent) (now : TimePoint) :
    ∃ get, apply now msg.typecode = some get ∧
      Parses get (msg.wire sent) (msg.received sent now) := by
  cases msg with
  | beacon msg => exact ⟨_, rfl, msg.parses.map beacon⟩
  | interestAnn msg => exact ⟨_, rfl, msg.parses.map interestAnn⟩
  | contentAnn msg => exact ⟨_, rfl, (ContentAnn.parses h httl now).map contentAnn⟩
  | blockRequest msg => exact ⟨_, rfl, (BlockRequest.parses h).map blockRequest⟩
  | blockResponse msg => exact ⟨_, rfl, msg.parses.map blockResponse⟩

theorem unmarshal_parses {msg : Message} (h : msg.Encodable) {sent : TimePoint}
    (httl : msg.TtlFits sent) (now : TimePoint) :
    Parses (unmarshal now) (msg.typecode :: msg.wire sent) (some (msg.received sent now)) := by
  obtain ⟨get, happly, hget⟩ := apply_typecode h httl now
  apply (getUInt8_parses msg.typecode).bind
  rw [happly]
  exact hget.map some

end Message

/-- The bytes of a whole packet. -/
def wirePacket (now : TimePoint) (header : MessageHeader) (msg : Message) : List UInt8 :=
  header.wire ++ (msg.typecode :: msg.wire now)

theorem replace_ok {size : ℕ} {now : TimePoint} {header : MessageHeader} {msg : Message}
    (hheader : header.recipients.length ≤ 255) (hmsg : msg.Encodable)
    (hsize : (wirePacket now header msg).length ≤ size) :
    MessageBuffer.replace size now header msg = .ok (wirePacket now header msg) := by
  have hall := putAll_emits (.cons (MessageHeader.emits hheader)
    (.cons (putUInt8_emits msg.typecode) (.cons (msg.emits hmsg now) .nil)))
  have hwire : [header.wire, [msg.typecode], msg.wire now].flatten = wirePacket now header msg := by
    simp [wirePacket]
  rw [hwire] at hall
  simp only [MessageBuffer.replace, hall (Out.empty size) (by simpa [Out.empty] using hsize)]
  rfl

theorem decodePacket_parses {header : MessageHeader} {msg : Message} {sent : TimePoint}
    (hheader : header.recipients.length ≤ 255) (hmsg : msg.Encodable) (httl : msg.TtlFits sent)
    (now : TimePoint) :
    Parses (decodePacket now) (wirePacket sent header msg)
      (header, some (msg.received sent now)) := by
  have hrest : Parses (Message.unmarshal now >>= fun msg => pure (header, msg))
      ((msg.typecode :: msg.wire sent) ++ []) (header, some (msg.received sent now)) :=
    (Message.unmarshal_parses hmsg httl now).bind (pure_parses _)
  rw [List.append_nil] at hrest
  exact (MessageHeader.parses hheader).bind hrest

/-- A packet the format can express and the buffer can hold is written, dispatched to the
type of its message and read back, with nothing left over. -/
theorem message_round_trip {header : MessageHeader} {msg : Message} {sent : TimePoint}
    (hheader : header.recipients.length ≤ 255) (hmsg : msg.Encodable) (httl : msg.TtlFits sent)
    (hsize : (wirePacket sent header msg).length ≤ bufferSize) (now : TimePoint) :
    ∃ packet, MessageBuffer.replace bufferSize sent header msg = .ok packet ∧
      decodePacket now packet = .ok ((header, some (msg.received sent now)), []) := by
  refine ⟨_, replace_ok hheader hmsg hsize, ?_⟩
  have hparse := decodePacket_parses hheader hmsg httl now []
  rwa [List.append_nil] at hparse

/-- Metadata sent 7 ms and 5 ns before they expire. -/
theorem message_round_trip_metadata :
    let m : ContentMetadata :=
      { hash := default, size := 3000, blockSize := 1024, types := [⟨[97, 98]⟩], name := ⟨[99]⟩,
        origin := ⟨1, 2⟩, publisher := ⟨3⟩, publishTimeMs := 4, hops := 1, expiryTime := 7000105 }
    ∃ packet,
      MessageBuffer.replace bufferSize 100 ⟨⟨3⟩, [⟨4⟩]⟩ (.contentAnn ⟨[m]⟩) = .ok packet ∧
      decodePacket 500 packet =
        .ok ((⟨⟨3⟩, [⟨4⟩]⟩, some (.contentAnn ⟨[{ m with expiryTime := 7000500 }]⟩)), []) := by
  intro m
  have hheader : (⟨⟨3⟩, [⟨4⟩]⟩ : MessageHeader).recipients.length ≤ 255 := by decide
  have hm : m.Encodable := ⟨by decide, by decide, by decide⟩
  have hmsg : (Message.contentAnn ⟨[m]⟩).Encodable := ⟨by decide, by simpa using hm⟩
  have httl : (Message.contentAnn ⟨[m]⟩).TtlFits 100 := by
    intro m' hm'
    obtain rfl := List.mem_singleton.mp hm'
    decide
  exact message_round_trip hheader hmsg httl (by decide +kernel) 500

end YingSma
