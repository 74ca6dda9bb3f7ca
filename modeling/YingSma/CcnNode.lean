import YingSma.ForwardScheduler
import YingSma.LinkLayer
import YingSma.MessageGrammar
import YingSma.NeighborTimers

/-! A node with its tables behind the read loop of the link layer: what a packet of any bytes
does to it. -/
namespace YingSma
open SerialFormat LinkLayer

/-- The helpers of a node, with all they keep. -/
structure CcnNode where
  id : NodeId
  neighbors : NeighborTimers.NeighborHelperImpl
  interests : InterestHelper
  forward : ForwardScheduler.Node

/-- A packet that is read: when, where the node is, and what lies behind the recipients of its
header in memory. -/
structure Arrival where
  now : TimePoint
  position : Vec2d
  beyond : NodeId
  packet : List UInt8

namespace CcnNode

def surroundings (n : CcnNode) (a : Arrival) : Surroundings :=
  ⟨a.now, a.position, fun types => n.interests.containsAny types⟩

def callContent (n : CcnNode) (a : Arrival) (call : ContentHelper.Action Unit) : Except Fault CcnNode :=
  (n.forward.callContent (n.surroundings a) call).map fun forward => { n with forward }

/-- `receive`, which hands the message to the helper it is for. -/
def receive (n : CcnNode) (a : Arrival) (header : MessageHeader) : Message → Except Fault CcnNode
  | .beacon msg => .ok { n with neighbors := n.neighbors.receive a.now a.position header msg }
  | .interestAnn msg => (n.interests.receive a.now msg).map fun interests => { n with interests }
  | .contentAnn msg => n.callContent a (ContentHelper.receiveContentAnn (n.surroundings a) msg)
  | .blockRequest msg =>
      n.callContent a (ContentHelper.receiveBlockRequest (n.surroundings a) header msg)
  | .blockResponse msg =>
      n.callContent a (ContentHelper.receiveBlockResponse (n.surroundings a) msg)

/-- One pass of the read loop. -/
def onPacket (n : CcnNode) (a : Arrival) : Except Fault CcnNode :=
  match handlePacket a.now n.id a.beyond a.packet with
  | .error e => .error e
  | .ok r =>
      match r.delivered with
      | none => .ok n
      | some (header, msg) => n.receive a header msg

/-- `on_link_readable`, which stops when nothing is read. -/
def onLinkReadable : CcnNode → List Arrival → Except Fault CcnNode
  | n, [] => .ok n
  | n, a :: as =>
      if a.packet = [] then .ok n
      else
        match n.onPacket a with
        | .ok n' => onLinkReadable n' as
        | .error e => .error e

end CcnNode

/-- The packet begins with a header, a known typecode and a message of that type, whose
interests can be read if it carries some. What may follow is not looked at. -/
def Complete (packet : List UInt8) : Prop :=
  ∃ (header : MessageHeader) (typecode : UInt8) (L : Language UInt8) (w : List UInt8),
    header.recipients.length ≤ 255 ∧ Words.message typecode = some L ∧ w ∈ L ∧
      header.wire ++ typecode :: w <+: packet

/-- A packet is taken apart without a read past its end or a failed assertion, and one that is not
complete leaves the node as it is and the loop goes on. -/
structure Harmless (n : CcnNode) (a : Arrival) : Prop where
  decodes : ∃ r, handlePacket a.now n.id a.beyond a.packet = .ok r ∧
    ∀ header msg, r.delivered = some (header, msg) → msg.InterestsRead
  unchanged : ¬ Complete a.packet → ∀ as, n.onLinkReadable (a :: as) = n.onLinkReadable as

/-- The packet is not looked at behind its header: it is the node's own, or it is for others and
the search for the recipient ends behind the last of them. -/
def Skipped (id beyond : NodeId) (header : MessageHeader) : Prop :=
  header.sender = id ∨ header.recipients ≠ [] ∧ id ∉ header.recipients.tail ∧ beyond = id

/-- The packet has a whole header, and behind it, unless it is skipped, a typecode that is unknown
or is followed by a whole message. -/
def Intact (id beyond : NodeId) (packet : List UInt8) : Prop :=
  ∃ (header : MessageHeader) (body : List UInt8), header.recipients.length ≤ 255 ∧
    packet = header.wire ++ body ∧
      (Skipped id beyond header ∨ ∃ typecode rest, body = typecode :: rest ∧
        ∀ L, Words.message typecode = some L → ∃ w ∈ L, w <+: rest)

section Packets

variable (now : TimePoint) {id beyond : NodeId} {packet body : List UInt8} {header : MessageHeader}

theorem handlePacket_skipped (hread : MessageHeader.read packet = .ok (header, body))
    (hskip : Skipped id beyond header) :
    ∃ is, handlePacket now id beyond packet = .ok ⟨none, is⟩ := by
  simp only [handlePacket, hread]
  by_cases hself : header.sender = id
  · exact ⟨[], if_pos hself⟩
  · obtain ⟨hne, htail, hbeyond⟩ := hskip.resolve_left hself
    have hpos : 0 < header.recipients.length := List.length_pos_iff.mpr hne
    have hscan := (scanFrom_beyond beyond (Nat.zero_add header.recipients.length) hpos
      (by simpa using htail)).mpr hbeyond
    rw [if_neg hself, if_neg hne, if_pos hscan]
    exact ⟨_, rfl⟩

/-- Any other packet is taken apart to its end. -/
theorem handlePacket_read (hread : MessageHeader.read packet = .ok (header, body))
    (hskip : ¬ Skipped id beyond header) :
    ∃ is, handlePacket now id beyond packet = (Message.unmarshal now body).map fun out =>
      ⟨out.1.map fun m => (header, m), is⟩ := by
  rw [Skipped, not_or] at hskip
  simp only [handlePacket, hread]
  rw [if_neg hskip.1]
  have hgoes : (if header.recipients = [] then (([] : List ℕ), header.recipients.length + 1)
      else scanFrom id beyond header.recipients header.recipients.length 0).2 ≠
        header.recipients.length := by
    by_cases hall : header.recipients = []
    · rw [if_pos hall]
      exact Nat.succ_ne_self _
    · rw [if_neg hall]
      by_cases htail : id ∈ header.recipients.tail
      · exact ne_of_lt (scanFrom_found beyond (Nat.zero_add header.recipients.length)
          (by simpa using htail)).2
      · intro hscan
        have hbeyond := (scanFrom_beyond beyond (Nat.zero_add header.recipients.length)
          (List.length_pos_iff.mpr hall) (by simpa using htail)).mp hscan
        exact hskip.2 ⟨hall, htail, hbeyond⟩
  rw [if_neg hgoes]
  cases Message.unmarshal now body with
  | error e => exact ⟨[], rfl⟩
  | ok out => exact ⟨_, rfl⟩

end Packets

section Arrivals

variable {n : CcnNode} {a : Arrival} {header : MessageHeader} {body : List UInt8}

/-- The loop goes on behind a packet that is for nobody here. -/
theorem onLinkReadable_undelivered {is : List ℕ} (hne : a.packet ≠ [])
    (hhandle : handlePacket a.now n.id a.beyond a.packet = .ok ⟨none, is⟩) (as : List Arrival) :
    n.onLinkReadable (a :: as) = n.onLinkReadable as := by
  simp only [CcnNode.onLinkReadable, CcnNode.onPacket, hhandle, if_neg hne]

theorem Harmless.intact (h : Harmless n a) : Intact n.id a.beyond a.packet := by
  obtain ⟨r, hok, his⟩ := h.decodes
  cases hread : MessageHeader.read a.packet with
  | error e =>
    simp only [handlePacket, hread] at hok
    cases hok
  | ok out =>
    obtain ⟨header, body⟩ := out
    obtain ⟨hlen, hpacket⟩ := MessageHeader.canonical hread
    refine ⟨header, body, hlen, hpacket, or_iff_not_imp_left.mpr fun hskip => ?_⟩
    obtain ⟨is, hhandle⟩ := handlePacket_read a.now hread hskip
    rw [hhandle] at hok
    obtain ⟨⟨msg, rest⟩, hmsg, rfl⟩ := TransitionRuns.map_eq_ok hok
    refine (Message.unmarshal_iff a.now body).mp ⟨msg, rest, hmsg, fun m hm => ?_⟩
    exact his header m (by rw [hm]; rfl)

/-- What follows the header is either a whole message or not of a known type, and the latter is
dropped. -/
theorem harmless_unskipped (hlen : header.recipients.length ≤ 255)
    (hpacket : a.packet = header.wire ++ body) (hne : a.packet ≠ [])
    (hread : MessageHeader.read a.packet = .ok (header, body)) (hskip : ¬ Skipped n.id a.beyond header)
    (hwords : ∃ typecode rest, body = typecode :: rest ∧
      ∀ L, Words.message typecode = some L → ∃ w ∈ L, w <+: rest) : Harmless n a := by
  obtain ⟨is, hhandle⟩ := handlePacket_read a.now hread hskip
  obtain ⟨msg, rest, hmsg, his⟩ := (Message.unmarshal_iff a.now body).mpr hwords
  rw [hmsg] at hhandle
  constructor
  · refine ⟨_, hhandle, fun header' m heq => ?_⟩
    obtain ⟨m', rfl, heq'⟩ := Option.map_eq_some_iff.mp heq
    obtain ⟨-, rfl⟩ := Prod.mk.inj heq'
    exact his m' rfl
  · intro hcomplete
    apply @onLinkReadable_undelivered n a is hne
    obtain ⟨typecode, rest', rfl, hmessage⟩ := hwords
    cases hL : Words.message typecode with
    | some L =>
      obtain ⟨w, hw, hprefix⟩ := hmessage L hL
      apply (hcomplete ⟨header, typecode, L, w, hlen, hL, hw, _⟩).elim
      rw [hpacket, List.prefix_append_right_inj, List.cons_prefix_cons]
      exact ⟨rfl, hprefix⟩
    | none =>
      rw [Message.unmarshal_unknown a.now hL] at hmsg
      obtain ⟨rfl, rfl⟩ := Prod.mk.inj (Except.ok.inj hmsg)
      exact hhandle

theorem Intact.harmless (h : Intact n.id a.beyond a.packet) : Harmless n a := by
  obtain ⟨header, body, hlen, hpacket, hbody⟩ := h
  have hread : MessageHeader.read a.packet = .ok (header, body) := by
    rw [hpacket]
    exact MessageHeader.parses hlen body
  have hne : a.packet ≠ [] := by
    rw [hpacket]
    simp [MessageHeader.wire, NodeId.wire, bigEndian]
  by_cases hskip : Skipped n.id a.beyond header
  · obtain ⟨is, hhandle⟩ := handlePacket_skipped a.now hread hskip
    exact ⟨⟨_, hhandle, fun _ _ heq => by cases heq⟩, fun _ => onLinkReadable_undelivered hne hhandle⟩
  · exact harmless_unskipped hlen hpacket hne hread hskip (hbody.resolve_left hskip)

end Arrivals

/-- A packet is harmless exactly if it is intact. -/
theorem harmless_iff (n : CcnNode) (a : Arrival) : Harmless n a ↔ Intact n.id a.beyond a.packet :=
  ⟨Harmless.intact, Intact.harmless⟩

/-- Node 7, before it has heard of anything. -/
def newNode : CcnNode :=
  ⟨⟨7⟩, ⟨[], [], []⟩, InterestHelper.new ⟨7⟩ 0, ForwardScheduler.new ⟨true, true, true, true⟩ ⟨7⟩⟩

/-- A beacon that ends behind its typecode, and an announcement of three interests without data. -/
theorem truncated_packets_assert :
    ¬ Harmless newNode ⟨0, ⟨0, 0⟩, ⟨0⟩, [0, 1, 0, 0]⟩ ∧
      ¬ Harmless newNode ⟨0, ⟨0, 0⟩, ⟨0⟩, [0, 1, 0, 16, 3, 0, 0]⟩ := by
  constructor
  · intro h
    obtain ⟨r, hok, -⟩ := h.decodes
    cases hok
  · intro h
    obtain ⟨r, hok, his⟩ := h.decodes
    cases hok
    obtain ⟨is, hinterests⟩ := his _ _ rfl _ rfl
    cases hinterests

end YingSma
