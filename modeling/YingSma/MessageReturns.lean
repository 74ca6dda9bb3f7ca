import YingSma.MessageRoundTrip

/-! What a node decodes of an announcement of metadata that was written without a failed
assertion. Nothing is asked of the message itself. -/
namespace YingSma
open SerialFormat BinaryOutput BinaryInput

theorem NodeId.returns (id : NodeId) : Returns id.writeFields NodeId.read id :=
  (putUInt16_returns id.value).cons (returns_nil id)

theorem Hash.returns (h : Hash) : Returns h.writeFields Hash.read h :=
  (write_appends h.data).returns h.parses

theorem Vec2d.returns (v : Vec2d) : Returns v.writeFields Vec2d.read v :=
  (putUInt64_returns v.x).cons ((putUInt64_returns v.y).cons (returns_nil v))

theorem ContentType.returns (t : ContentType) : Returns t.writeFields ContentType.read t :=
  (putString_returns t.value).cons (returns_nil t)

theorem ContentName.returns (n : ContentName) : Returns n.writeFields ContentName.read n :=
  (putString_returns n.value).cons (returns_nil n)

theorem MessageHeader.returns (h : MessageHeader) : Returns h.writeFields MessageHeader.read h :=
  h.sender.returns.cons ((putVector_returns_self fun id _ => id.returns).cons (returns_nil h))

namespace ContentMetadata

/-- The metadata as they arrive, with the remaining time in the 32 bits of its field. -/
def decoded (sent read : TimePoint) (m : ContentMetadata) : ContentMetadata :=
  { m with expiryTime := read + (UInt32.ofNat (m.ttl sent).toNat).toNat * milli }

theorem returns (m : ContentMetadata) (sent now : TimePoint) :
    Returns (m.writeFields sent) (read now) (m.decoded sent now) :=
  m.hash.returns.cons ((putUInt32_returns _).cons ((putUInt32_returns _).cons
    ((putVector_returns_self fun t _ => t.returns).cons (m.name.returns.cons
    (m.origin.returns.cons (m.publisher.returns.cons ((putUInt64_returns _).cons
    ((putUInt8_returns _).cons ((putUInt32_returns _).cons (returns_nil _))))))))))

end ContentMetadata

namespace ContentAnn

def decoded (sent read : TimePoint) (a : ContentAnn) : ContentAnn :=
  { metadata := a.metadata.map (ContentMetadata.decoded sent read) }

theorem returns (a : ContentAnn) (sent now : TimePoint) :
    Returns (a.writeFields sent) (read now) (a.decoded sent now) :=
  (putVector_returns fun m _ => m.returns sent now).cons (returns_nil _)

end ContentAnn

/-- A packet that was written is decoded, with nothing left over. -/
theorem packet_returns {size : ℕ} {sent : TimePoint} {header : MessageHeader} {a : ContentAnn}
    {packet : List UInt8} (hsent : MessageBuffer.replace size sent header (.contentAnn a) = .ok packet)
    (now : TimePoint) :
    decodePacket now packet = .ok ((header, some (.contentAnn (a.decoded sent now))), []) := by
  have hmsg : Returns (Message.writeFields sent (.contentAnn a))
      (some <$> Message.contentAnn <$> ContentAnn.read now)
      (some (Message.contentAnn (a.decoded sent now))) :=
    ((a.returns sent now).map Message.contentAnn).map some
  have hrest : Returns
      (putAll [putUInt8 (Message.contentAnn a).typecode, Message.writeFields sent (.contentAnn a)])
      (Message.unmarshal now >>= fun msg => pure (header, msg))
      (header, some (.contentAnn (a.decoded sent now))) := by
    unfold Message.unmarshal
    rw [bind_assoc]
    exact (putUInt8_returns _).cons (hmsg.cons (returns_nil _))
  have hpacket : Returns (putAll [header.writeFields, putUInt8 (Message.contentAnn a).typecode,
      Message.writeFields sent (.contentAnn a)]) (decodePacket now)
      (header, some (.contentAnn (a.decoded sent now))) := header.returns.cons hrest
  unfold MessageBuffer.replace at hsent
  cases hwrite : putAll [header.writeFields, putUInt8 (Message.contentAnn a).typecode,
      Message.writeFields sent (.contentAnn a)] (Out.empty size) with
  | error e =>
    rw [hwrite] at hsent
    cases hsent
  | ok out =>
    rw [hwrite] at hsent
    obtain rfl := Except.ok.inj hsent
    obtain ⟨bytes, hbytes, hparse⟩ := hpacket _ out hwrite
    rw [Out.empty, List.nil_append] at hbytes
    have hread := hparse []
    rwa [List.append_nil, ← hbytes] at hread

end YingSma
