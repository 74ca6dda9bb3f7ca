import YingSma.MessageLimits

/-! `LinkLayerImpl`: which received packets are handed to the node. -/
namespace YingSma.LinkLayer
open SerialFormat

/-- `while (i++ < nrecp) if (recipients[i] == this_node) break;` from index `i`, with
`todo = nrecp - i` passes left. The result is the indices read and the final `i`. A read
at `nrecp` is one past the end and sees whatever is there, `beyond`. -/
def scanFrom (id beyond : NodeId) (recipients : List NodeId) : ℕ → ℕ → List ℕ × ℕ
  | 0, i => ([], i + 1)
  | todo + 1, i =>
      if recipients.getD (i + 1) beyond = id then ([i + 1], i + 1)
      else
        let out := scanFrom id beyond recipients todo (i + 1)
        ((i + 1) :: out.1, out.2)

/-- What one packet leads to: the message handed to the node, and the indices into the
recipients used on the way. -/
structure Reception where
  delivered : Option (MessageHeader × Message)
  indices : List ℕ
  deriving DecidableEq

/-- One pass of the read loop of `on_link_readable`. -/
def handlePacket (now : TimePoint) (id beyond : NodeId) (buf : List UInt8) :
    Except Fault Reception :=
  match MessageHeader.read buf with
  | .error e => .error e
  | .ok (header, reader) =>
      if header.sender = id then .ok ⟨none, []⟩
      else
        let nrecp := header.recipients.length
        let scan :=
          if header.recipients = [] then ([], nrecp + 1)
          else scanFrom id beyond header.recipients nrecp 0
        if scan.2 = nrecp then .ok ⟨none, scan.1⟩
        else
          match Message.unmarshal now reader with
          | .error e => .error e
          | .ok (msg, _) => .ok ⟨msg.map fun m => (header, m), scan.1⟩

/-- What addressed delivery asks of a packet: the node gets the message exactly when
another node sent it to everyone or to this one, and the recipients are read in range. -/
structure AddressedDelivery (id : NodeId) (header : MessageHeader) (msg : Message)
    (r : Reception) : Prop where
  delivered : r.delivered = some (header, msg) ↔
    header.sender ≠ id ∧ (header.recipients = [] ∨ id ∈ header.recipients)
  in_range : ∀ i ∈ r.indices, i < header.recipients.length

section Scan

variable {id : NodeId} (beyond : NodeId) {recipients : List NodeId} {todo i : ℕ}

/-- The scan goes on after a recipient that is another node. -/
theorem scanFrom_pass (hlt : i + 1 < recipients.length) (hother : id ≠ recipients[i + 1]) :
    scanFrom id beyond recipients (todo + 1) i =
      ((i + 1) :: (scanFrom id beyond recipients todo (i + 1)).1,
        (scanFrom id beyond recipients todo (i + 1)).2) := by
  have hget : recipients.getD (i + 1) beyond = recipients[i + 1] := by simp [hlt]
  rw [scanFrom, hget, if_neg hother.symm]

/-- A recipient after the first is found in range, and the scan stops at it. -/
theorem scanFrom_found (htodo : i + todo = recipients.length)
    (hmem : id ∈ recipients.drop (i + 1)) :
    (∀ k ∈ (scanFrom id beyond recipients todo i).1, k < recipients.length) ∧
      (scanFrom id beyond recipients todo i).2 < recipients.length := by
  induction todo generalizing i with
  | zero =>
    rw [List.drop_eq_nil_of_le (by omega)] at hmem
    cases hmem
  | succ todo ih =>
    have hlt : i + 1 < recipients.length := by
      by_contra hge
      rw [List.drop_eq_nil_of_le (by omega)] at hmem
      cases hmem
    rw [List.drop_eq_getElem_cons hlt, List.mem_cons] at hmem
    have hget : recipients.getD (i + 1) beyond = recipients[i + 1] := by simp [hlt]
    simp only [scanFrom, hget]
    split_ifs with hhere
    · simpa using hlt
    · have hrest := ih (by omega) (hmem.resolve_left fun he => hhere he.symm)
      exact ⟨List.forall_mem_cons.mpr ⟨hlt, hrest.1⟩, hrest.2⟩

/-- Without such a recipient the scan reads one past the end. -/
theorem scanFrom_missed (htodo : i + todo = recipients.length) (hi : i < recipients.length)
    (hmem : id ∉ recipients.drop (i + 1)) :
    recipients.length ∈ (scanFrom id beyond recipients todo i).1 := by
  induction todo generalizing i with
  | zero => omega
  | succ todo ih =>
    by_cases hlt : i + 1 < recipients.length
    · rw [List.drop_eq_getElem_cons hlt, List.mem_cons, not_or] at hmem
      rw [scanFrom_pass beyond hlt hmem.1]
      exact List.mem_cons_of_mem _ (ih (by omega) hlt hmem.2)
    · have hlast : i + 1 = recipients.length := by omega
      rw [scanFrom]
      split_ifs <;> simp [hlast]

/-- The search that finds nothing stops at the memory behind the recipients, or after it. -/
theorem scanFrom_beyond (htodo : i + todo = recipients.length) (hi : i < recipients.length)
    (hmem : id ∉ recipients.drop (i + 1)) :
    (scanFrom id beyond recipients todo i).2 = recipients.length ↔ beyond = id := by
  induction todo generalizing i with
  | zero => omega
  | succ todo ih =>
    by_cases hlt : i + 1 < recipients.length
    · rw [List.drop_eq_getElem_cons hlt, List.mem_cons, not_or] at hmem
      rw [scanFrom_pass beyond hlt hmem.1]
      exact ih (by omega) hlt hmem.2
    · have hlast : todo = 0 := by omega
      have hget : recipients.getD (i + 1) beyond = beyond := by
        simp [show recipients.length ≤ i + 1 by omega]
      subst hlast
      rw [scanFrom, hget]
      split_ifs with hid
      · exact iff_of_true (by dsimp only; omega) hid
      · exact iff_of_false (by dsimp only [scanFrom]; omega) hid

end Scan

theorem decodePacket_ok {now : TimePoint} {buf rest : List UInt8} {header : MessageHeader}
    {msg : Option Message} (h : decodePacket now buf = .ok ((header, msg), rest)) :
    ∃ reader, MessageHeader.read buf = .ok (header, reader) ∧
      Message.unmarshal now reader = .ok (msg, rest) := by
  simp only [decodePacket, Bind.bind, StateT.bind, Except.bind] at h
  cases hheader : MessageHeader.read buf with
  | error e => simp [hheader] at h
  | ok r =>
    obtain ⟨header', reader⟩ := r
    simp only [hheader] at h
    cases hmsg : Message.unmarshal now reader with
    | error e => simp [hmsg] at h
    | ok r =>
      obtain ⟨msg', rest'⟩ := r
      simp only [hmsg] at h
      cases h
      exact ⟨reader, rfl, hmsg⟩

/-- The first recipient is never compared and a failed search is not noticed, so that a
packet is treated as addressed only where neither matters. -/
theorem addressed_delivery_iff {now : TimePoint} {id beyond : NodeId} {buf rest : List UInt8}
    {header : MessageHeader} {msg : Message}
    (hpacket : decodePacket now buf = .ok ((header, some msg), rest)) :
    ∃ r, handlePacket now id beyond buf = .ok r ∧
      (AddressedDelivery id header msg r ↔
        header.sender = id ∨ header.recipients = [] ∨ id ∈ header.recipients.tail) := by
  obtain ⟨reader, hheader, hmsg⟩ := decodePacket_ok hpacket
  simp only [handlePacket, hheader, hmsg, Option.map_some]
  by_cases hself : header.sender = id
  · simp only [hself, if_true, true_or, iff_true]
    exact ⟨_, rfl, by simp [hself], by simp⟩
  · by_cases hall : header.recipients = []
    · simp only [hself, hall, if_true, if_false, List.length_nil, true_or, or_true, iff_true]
      exact ⟨_, rfl, by simp [hself, hall], by simp⟩
    · have hpos : 0 < header.recipients.length := List.length_pos_iff.mpr hall
      simp only [hself, hall, if_false, false_or]
      by_cases htail : id ∈ header.recipients.tail
      · have hscan := scanFrom_found beyond (Nat.zero_add header.recipients.length)
          (by simpa using htail)
        simp only [htail, iff_true, if_neg (ne_of_lt hscan.2)]
        exact ⟨_, rfl, by simp [hself, List.mem_of_mem_tail htail], hscan.1⟩
      · have hscan := scanFrom_missed beyond (Nat.zero_add header.recipients.length) hpos
          (by simpa using htail)
        have hbad : ∀ d, ¬ AddressedDelivery id header msg
            ⟨d, (scanFrom id beyond header.recipients header.recipients.length 0).1⟩ :=
          fun d h => absurd (h.in_range _ hscan) (lt_irrefl _)
        simp only [htail, iff_false]
        split_ifs
        · exact ⟨_, rfl, hbad _⟩
        · exact ⟨_, rfl, hbad _⟩

/-- A packet to the nodes 5 and 7, received by node 7. -/
theorem addressed_delivery_second :
    ∃ r, handlePacket 0 ⟨7⟩ ⟨0⟩ [0, 1, 2, 0, 5, 0, 7, 16, 0, 0, 0] = .ok r ∧
      (AddressedDelivery ⟨7⟩ ⟨⟨1⟩, [⟨5⟩, ⟨7⟩]⟩ (.interestAnn ⟨0, 0, [], rfl⟩) r ↔
        (⟨1⟩ : NodeId) = ⟨7⟩ ∨ [(⟨5⟩ : NodeId), ⟨7⟩] = [] ∨ (⟨7⟩ : NodeId) ∈ [(⟨7⟩ : NodeId)]) :=
  addressed_delivery_iff (show decodePacket 0 _ = .ok (_, []) from rfl)

/-- A packet addressed to node 5 alone is handed to node 7, after a read past the end. -/
theorem foreign_packet_delivered :
    ∃ r, handlePacket 0 ⟨7⟩ ⟨0⟩ [0, 1, 1, 0, 5, 16, 0, 0, 0] = .ok r ∧
      r.delivered = some (⟨⟨1⟩, [⟨5⟩]⟩, .interestAnn ⟨0, 0, [], rfl⟩) ∧ r.indices = [1] ∧
      ¬ AddressedDelivery ⟨7⟩ ⟨⟨1⟩, [⟨5⟩]⟩ (.interestAnn ⟨0, 0, [], rfl⟩) r := by
  refine ⟨_, rfl, rfl, rfl, fun h => ?_⟩
  have hrange := h.in_range 1 (by decide)
  revert hrange
  decide

theorem read_broadcast_header (sent : TimePoint) (sender : NodeId) (msg : Message) :
    MessageHeader.read (wirePacket sent ⟨sender, []⟩ msg) =
      .ok (⟨sender, []⟩, msg.typecode :: msg.wire sent) := by
  have hlen : (⟨sender, []⟩ : MessageHeader).recipients.length ≤ 255 := Nat.zero_le 255
  exact MessageHeader.parses hlen _

/-- What is broadcast to everyone is handed to every other node. -/
theorem handlePacket_broadcast (sent now : TimePoint) {id sender : NodeId} (beyond : NodeId)
    {msg : Message} (hne : sender ≠ id) (hmsg : msg.Encodable) (httl : msg.TtlFits sent) :
    handlePacket now id beyond (wirePacket sent ⟨sender, []⟩ msg) =
      .ok ⟨some (⟨sender, []⟩, msg.received sent now), []⟩ := by
  have hrest := Message.unmarshal_parses hmsg httl now []
  rw [List.append_nil] at hrest
  simp [handlePacket, read_broadcast_header, hne, hrest]

theorem handlePacket_own (sent now : TimePoint) (id beyond : NodeId) (msg : Message) :
    handlePacket now id beyond (wirePacket sent ⟨id, []⟩ msg) = .ok ⟨none, []⟩ := by
  simp [handlePacket, read_broadcast_header]

end YingSma.LinkLayer
