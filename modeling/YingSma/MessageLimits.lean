import YingSma.MessageRoundTrip

/-! Which messages the encoder refuses: those with a vector or a string too long for its
prefix, and those that do not fit the buffer. -/
namespace YingSma
open SerialFormat BinaryOutput

/-- A writer of this format. -/
abbrev Encodes (p : Put) (bytes : List UInt8) (Q : Prop) : Prop := Checks (· ∈ faults) p bytes Q

section Primitives

theorem write_checks (src : List UInt8) : Encodes (write src) src True :=
  append_checks (by decide) src

theorem putUInt8_checks (t : UInt8) : Encodes (putUInt8 t) [t] True := append_checks (by decide) [t]

theorem putString_checks (t : List UInt8) :
    Encodes (putString t) (wireString t) (t.length ≤ maxString) := by
  have hguard : Encodes (putString t) (wireString t) (t.length ≤ 32767 ∧ True) := by
    unfold putString
    apply Checks.guard (by decide)
    intro h
    obtain ⟨e, he, hsize⟩ := putStringSize_eq h
    have hall := (append_checks he (wireStringSize t.length)).cons
      ((write_checks t).cons checks_nil)
    rw [List.append_nil] at hall
    rw [hsize]
    exact hall.congr (by simp)
  exact hguard.congr (by rw [and_true]; rfl)

theorem putVector_checks {α : Type} {put : α → Put} {wire : α → List UInt8} {C : α → Prop} {v : List α}
    (h : ∀ a ∈ v, Encodes (put a) (wire a) (C a)) :
    Encodes (putVector put v) (wireVector wire v) (v.length ≤ 255 ∧ ∀ a ∈ v, C a) := by
  apply Checks.guard (by decide)
  intro _
  exact ((putUInt8_checks _).cons (checks_map h)).congr (by simp)

end Primitives

section Parts

theorem NodeId.checks (id : NodeId) : Encodes id.writeFields id.wire True :=
  ((write_checks _).cons checks_nil).congr (by simp)

theorem BlockRef.checks (ref : BlockRef) : Encodes ref.writeFields ref.wire True :=
  ((write_checks _).cons ((write_checks _).cons checks_nil)).congr (by simp)

theorem Vec2d.checks (v : Vec2d) : Encodes v.writeFields v.wire True :=
  ((write_checks _).cons ((write_checks _).cons checks_nil)).congr (by simp)

theorem ContentType.checks (t : ContentType) :
    Encodes t.writeFields t.wire (t.value.length ≤ maxString) :=
  ((putString_checks _).cons checks_nil).congr (by simp)

theorem ContentName.checks (n : ContentName) :
    Encodes n.writeFields n.wire (n.value.length ≤ maxString) :=
  ((putString_checks _).cons checks_nil).congr (by simp)

theorem ContentMetadata.encodable_iff (m : ContentMetadata) :
    m.Encodable ↔ (m.types.length ≤ 255 ∧ ∀ t ∈ m.types, t.value.length ≤ maxString) ∧
      m.name.value.length ≤ maxString :=
  ⟨fun h => ⟨⟨h.types, h.type⟩, h.name⟩, fun h => ⟨h.1.1, h.1.2, h.2⟩⟩

theorem ContentMetadata.checks (m : ContentMetadata) (now : TimePoint) :
    Encodes (m.writeFields now) (m.wire now) m.Encodable :=
  ((write_checks _).cons ((write_checks _).cons ((write_checks _).cons
    ((putVector_checks fun t _ => t.checks).cons (m.name.checks.cons (m.origin.checks.cons
    (m.publisher.checks.cons ((write_checks _).cons ((putUInt8_checks _).cons
    ((write_checks _).cons checks_nil)))))))))).congr (by simp [encodable_iff])

theorem BlockRequestArgs.checks (a : BlockRequestArgs) : Encodes a.writeFields a.wire True :=
  (a.block.checks.cons ((write_checks _).cons ((write_checks _).cons (a.requester.checks.cons
    (a.requesterPosition.checks.cons ((putUInt8_checks _).cons checks_nil)))))).congr (by simp)

theorem MessageHeader.checks (h : MessageHeader) :
    Encodes h.writeFields h.wire (h.recipients.length ≤ 255) :=
  (h.sender.checks.cons ((putVector_checks fun id _ => id.checks).cons checks_nil)).congr (by simp)

end Parts

namespace Message

theorem checks (msg : Message) (now : TimePoint) :
    Encodes (msg.writeFields now) (msg.wire now) msg.Encodable := by
  cases msg with
  | beacon msg =>
    exact (msg.position.checks.cons ((append_checks (by decide) _).cons checks_nil)).congr
      (by simp [Encodable])
  | interestAnn msg =>
    exact ((putUInt8_checks _).cons ((write_checks _).cons ((write_checks _).cons checks_nil))).congr
      (by simp [Encodable])
  | contentAnn msg =>
    have hiff : msg.Encodable ↔ msg.metadata.length ≤ 255 ∧ ∀ m ∈ msg.metadata, m.Encodable :=
      ⟨fun h => ⟨h.metadata, h.each⟩, fun h => ⟨h.1, h.2⟩⟩
    exact ((putVector_checks fun m _ => m.checks now).cons checks_nil).congr (by simp [Encodable, hiff])
  | blockRequest msg =>
    exact ((putVector_checks fun a _ => a.checks).cons checks_nil).congr (by simp [Encodable])
  | blockResponse msg =>
    exact (msg.block.checks.cons ((write_checks _).cons ((write_checks _).cons checks_nil))).congr
      (by simp [Encodable])

end Message

/-- A packet the format cannot express or the buffer cannot hold fails an assertion. -/
theorem replace_refuses {size : ℕ} {now : TimePoint} {header : MessageHeader} {msg : Message}
    (hnot : ¬ (header.recipients.length ≤ 255 ∧ msg.Encodable ∧
      (wirePacket now header msg).length ≤ size)) :
    ∃ e ∈ faults, MessageBuffer.replace size now header msg = .error e := by
  have hpacket := header.checks.cons ((putUInt8_checks msg.typecode).cons
    ((msg.checks now).cons checks_nil))
  obtain ⟨e, he, herror⟩ := hpacket.refuses (Out.empty size) (Nat.zero_le _) (by
    rintro ⟨⟨hheader, -, hmsg, -⟩, hle⟩
    exact hnot ⟨hheader, hmsg, by simpa [wirePacket, Out.empty] using hle⟩)
  exact ⟨e, he, by simp only [MessageBuffer.replace, herror]⟩

section Broadcasts

/-- The bytes a string takes with its prefix. -/
def stringSize (t : List UInt8) : ℕ := if t.length ≥ 127 then t.length + 2 else t.length + 1

/-- The bytes of metadata in an announcement. -/
def ContentMetadata.wireSize (m : ContentMetadata) : ℕ :=
  72 + (m.types.map fun t => stringSize t.value).sum + stringSize m.name.value

/-- A message with these limits can be written to a buffer of its own for all nodes. -/
def Message.Fits (msg : Message) : Prop := msg.Encodable ∧ 4 + (msg.wire 0).length ≤ bufferSize

theorem length_wireString (t : List UInt8) : (wireString t).length = stringSize t := by
  unfold wireString wireStringSize stringSize
  split_ifs
  · rw [List.length_append, length_bigEndian, add_comm]
  · rw [List.length_append, List.length_singleton, add_comm]

theorem length_wireVector {α : Type} (wire : α → List UInt8) (v : List α) :
    (wireVector wire v).length = 1 + (v.map fun a => (wire a).length).sum := by
  rw [wireVector, List.length_cons, List.length_flatMap, add_comm]

theorem ContentMetadata.length_wire (m : ContentMetadata) (now : TimePoint) :
    (m.wire now).length = m.wireSize := by
  have hhash := m.hash.length_data
  have htype : ∀ t : ContentType, t.wire.length = stringSize t.value := fun t => by
    simp [ContentType.wire, length_wireString]
  unfold hashLength at hhash
  simp only [wire, wireSize, ContentName.wire, Vec2d.wire, NodeId.wire, List.flatten_cons,
    List.flatten_nil, List.append_nil, List.length_append, List.length_cons, List.length_nil,
    length_bigEndian, length_wireVector, length_wireString, htype, hhash]
  omega

theorem BlockRequestArgs.length_wire (a : BlockRequestArgs) : a.wire.length = 61 := by
  have hhash := a.block.hash.length_data
  unfold hashLength at hhash
  simp [wire, BlockRef.wire, NodeId.wire, Vec2d.wire, length_bigEndian, hhash]

theorem Message.length_wire (msg : Message) (now : TimePoint) :
    (msg.wire now).length = (msg.wire 0).length := by
  cases msg with
  | contentAnn msg =>
    simp [wire, ContentAnn.wire, length_wireVector, ContentMetadata.length_wire]
  | _ => rfl

theorem length_wirePacket (now : TimePoint) (sender : NodeId) (msg : Message) :
    (wirePacket now ⟨sender, []⟩ msg).length = 4 + (msg.wire 0).length := by
  simp only [wirePacket, MessageHeader.wire, NodeId.wire, List.flatten_cons, List.flatten_nil,
    List.append_nil, List.length_append, List.length_cons, List.map_nil, List.sum_nil,
    length_bigEndian, length_wireVector, msg.length_wire now]
  omega

theorem replace_fits {msg : Message} (h : msg.Fits) (now : TimePoint) (sender : NodeId) :
    MessageBuffer.replace bufferSize now ⟨sender, []⟩ msg = .ok (wirePacket now ⟨sender, []⟩ msg) :=
  replace_ok (Nat.zero_le 255) h.1 ((length_wirePacket now sender msg).trans_le h.2)

theorem replace_unfit {msg : Message} (h : ¬ msg.Fits) (now : TimePoint) (sender : NodeId) :
    ∃ e ∈ faults, MessageBuffer.replace bufferSize now ⟨sender, []⟩ msg = .error e := by
  apply replace_refuses
  rw [length_wirePacket]
  exact fun hall => h hall.2

/-- As many requests as a vector may have fit the message buffer. -/
theorem fits_blockRequest_iff (reqs : List BlockRequestArgs) :
    (Message.blockRequest ⟨reqs⟩).Fits ↔ reqs.length ≤ 255 := by
  have hlen : ((Message.blockRequest ⟨reqs⟩).wire 0).length = 1 + reqs.length * 61 := by
    simp [Message.wire, BlockRequest.wire, length_wireVector, BlockRequestArgs.length_wire]
  unfold Message.Fits
  rw [hlen, bufferSize]
  constructor
  · exact fun h => h.1
  · intro h
    exact ⟨h, by omega⟩

/-- Metadata that can be announced together. -/
structure OneMessage (ms : List ContentMetadata) : Prop where
  count : ms.length ≤ 255
  types : ∀ m ∈ ms, m.types.length ≤ 255
  bytes : (ms.map ContentMetadata.wireSize).sum ≤ 19995

theorem OneMessage.nil : OneMessage [] :=
  ⟨Nat.zero_le 255, fun _ hm => (List.not_mem_nil hm).elim, Nat.zero_le 19995⟩

theorem stringSize_gt (t : List UInt8) : t.length < stringSize t := by
  unfold stringSize
  split_ifs <;> omega

/-- A string as long as its prefix allows takes more than a whole message. -/
theorem OneMessage.encodable {ms : List ContentMetadata} (h : OneMessage ms) {m : ContentMetadata}
    (hm : m ∈ ms) : m.Encodable := by
  have hsize : m.wireSize ≤ 19995 :=
    le_trans (List.single_le_sum (fun _ _ => Nat.zero_le _) _ (List.mem_map_of_mem hm)) h.bytes
  unfold ContentMetadata.wireSize at hsize
  refine ⟨h.types m hm, fun t ht => ?_, ?_⟩
  · have htype : stringSize t.value ≤ (m.types.map fun t => stringSize t.value).sum :=
      List.single_le_sum (fun _ _ => Nat.zero_le _) _ (List.mem_map_of_mem ht)
    have hlen := stringSize_gt t.value
    unfold maxString
    omega
  · have hlen := stringSize_gt m.name.value
    unfold maxString
    omega

theorem fits_contentAnn_iff (ms : List ContentMetadata) :
    (Message.contentAnn ⟨ms⟩).Fits ↔ OneMessage ms := by
  have hlen : ((Message.contentAnn ⟨ms⟩).wire 0).length =
      1 + (ms.map ContentMetadata.wireSize).sum := by
    simp [Message.wire, ContentAnn.wire, length_wireVector, ContentMetadata.length_wire]
  unfold Message.Fits
  rw [hlen, bufferSize]
  constructor
  · rintro ⟨hmsg, hle⟩
    exact ⟨hmsg.metadata, fun m hm => (hmsg.each m hm).types, by omega⟩
  · intro h
    exact ⟨⟨h.count, fun m hm => h.encodable hm⟩, by linarith [h.bytes]⟩

end Broadcasts

end YingSma
