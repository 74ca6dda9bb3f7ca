import YingSma.LinkLayer
import YingSma.TransitionRuns

/-! `NeighborHelperImpl` and a network of nodes that exchange beacons through the wire
format. A node answers what it decodes, and the flag it decodes is the sender's negated. -/
namespace YingSma
open SerialFormat TransitionRuns

/-- The neighbour table, with the position each neighbour was last seen at. The velocity
estimate and the ages of the records, which no beacon depends on, are left out. -/
structure NeighborHelper where
  neighbors : List (NodeId × Vec2d)

namespace NeighborHelper

def saw (h : NeighborHelper) (node : NodeId) (position : Vec2d) : NeighborHelper :=
  if h.neighbors.any fun pair => pair.1 = node then
    { neighbors := h.neighbors.map fun pair => if pair.1 = node then (node, position) else pair }
  else { neighbors := (node, position) :: h.neighbors }

/-- `receive`, with the beacon it posts. `position` is the node's own. -/
def receive (h : NeighborHelper) (position : Vec2d) (header : MessageHeader) (msg : Beacon) :
    NeighborHelper × Option Beacon :=
  (h.saw header.sender msg.position, if !msg.isResponse then some ⟨position, true⟩ else none)

/-- What `beacon` posts. -/
def beacon (position : Vec2d) : Beacon := ⟨position, false⟩

end NeighborHelper

namespace BeaconNetwork

/-- A broadcast, with what its sender encoded and the delivery it answers. -/
structure Packet where
  sender : NodeId
  beacon : Beacon
  cause : Option (ℕ × NodeId)
  bytes : List UInt8

/-- Packets stay in the air, and a node hears each of them at most once. -/
structure Network where
  helpers : NodeId → NeighborHelper
  air : List Packet
  heard : List (ℕ × NodeId)

/-- Beacons are sent at any time, and packets reach any nodes in any order or never. -/
inductive Event
  | beacon (now : TimePoint) (node : NodeId) (position : Vec2d)
  | deliver (now : TimePoint) (k : ℕ) (node beyond : NodeId) (position : Vec2d)

def empty : Network := ⟨fun _ => ⟨[]⟩, [], []⟩

/-- `CcnNode::post` of a beacon to all nodes. -/
def post (net : Network) (now : TimePoint) (sender : NodeId) (b : Beacon)
    (cause : Option (ℕ × NodeId)) : Except Fault Network :=
  match MessageBuffer.replace bufferSize now ⟨sender, []⟩ (.beacon b) with
  | .ok bytes => .ok { net with air := net.air ++ [⟨sender, b, cause, bytes⟩] }
  | .error e => .error e

/-- The link layer of `node` gets packet `k` and hands a beacon to the neighbour helper. -/
def deliver (net : Network) (now : TimePoint) (k : ℕ) (p : Packet) (node beyond : NodeId)
    (position : Vec2d) : Except Fault Network :=
  let net := { net with heard := (k, node) :: net.heard }
  match LinkLayer.handlePacket now node beyond p.bytes with
  | .error e => .error e
  | .ok ⟨some (header, .beacon msg), _⟩ =>
      let out := (net.helpers node).receive position header msg
      let net := { net with helpers := Function.update net.helpers node out.1 }
      match out.2 with
      | some b => post net now node b (some (k, node))
      | none => .ok net
  | .ok _ => .ok net

/-- A delivery of an unknown packet, or of one already heard, is no event. -/
def step (net : Network) : Event → Except Fault Network
  | .beacon now node position => post net now node (NeighborHelper.beacon position) none
  | .deliver now k node beyond position =>
      match net.air[k]? with
      | some p => if (k, node) ∈ net.heard then .ok net else deliver net now k p node beyond position
      | none => .ok net

/-- A first delivery to another node is answered exactly when the sender encoded a
discovery beacon, and nothing is posted when it encoded a response. -/
def Handshake (net : Network) : Event → Prop
  | .deliver now k node beyond position =>
      ∀ p, net.air[k]? = some p → (k, node) ∉ net.heard → p.sender ≠ node →
        ∀ net', step net (.deliver now k node beyond position) = .ok net' →
          if p.beacon.isResponse then net'.air = net.air
          else ∃ q, net'.air = net.air ++ [q] ∧ q.sender = node ∧ q.beacon = ⟨position, true⟩
  | .beacon _ _ _ => True

/-- Each delivery has caused one message at most, and only a discovery beacon has. -/
structure Orderly (net : Network) : Prop where
  once : ∀ k node, (net.air.filter fun q => q.cause = some (k, node)).length ≤ 1
  discovery : ∀ q ∈ net.air, ∀ k node, q.cause = some (k, node) →
    ∃ p, net.air[k]? = some p ∧ p.beacon.isResponse = false

/-- The event brings no packet to a node that has not heard or sent it. -/
def NothingHeard (net : Network) : Event → Prop
  | .deliver _ k node _ _ => ∀ p, net.air[k]? = some p → (k, node) ∈ net.heard ∨ p.sender = node
  | .beacon _ _ _ => True

/-- Every packet in the air is the encoding of its beacon. -/
def Encoded (net : Network) : Prop :=
  ∀ p ∈ net.air, p.bytes = wirePacket 0 ⟨p.sender, []⟩ (.beacon p.beacon)

section Steps

variable {net net' : Network} {k : ℕ} {node : NodeId}

theorem post_eq (net : Network) (now : TimePoint) (sender : NodeId) (b : Beacon)
    (cause : Option (ℕ × NodeId)) :
    post net now sender b cause = .ok { net with
      air := net.air ++ [⟨sender, b, cause, wirePacket 0 ⟨sender, []⟩ (.beacon b)⟩] } := by
  have hfits : (Message.beacon b).Fits := by
    refine ⟨trivial, ?_⟩
    simp [Message.wire, Beacon.wire, Vec2d.wire, bufferSize]
  rw [post, replace_fits hfits now sender]
  rfl

/-- An event adds one encoded packet to the air or none. -/
theorem step_air {ev : Event} (hs : step net ev = .ok net') :
    net'.air = net.air ∨ ∃ q, net'.air = net.air ++ [q] ∧
      q.bytes = wirePacket 0 ⟨q.sender, []⟩ (.beacon q.beacon) := by
  cases ev with
  | beacon now node position =>
    simp only [step, post_eq, Except.ok.injEq] at hs
    exact .inr ⟨_, by rw [← hs], rfl⟩
  | deliver now k node beyond position =>
    simp only [step] at hs
    split at hs
    · split_ifs at hs
      · simp only [Except.ok.injEq] at hs
        exact .inl (hs ▸ rfl)
      · simp only [deliver] at hs
        split at hs
        · cases hs
        · split at hs
          · simp only [post_eq, Except.ok.injEq] at hs
            exact .inr ⟨_, by rw [← hs], rfl⟩
          · simp only [Except.ok.injEq] at hs
            exact .inl (hs ▸ rfl)
        · simp only [Except.ok.injEq] at hs
          exact .inl (hs ▸ rfl)
    · simp only [Except.ok.injEq] at hs
      exact .inl (hs ▸ rfl)

theorem empty_encoded : Encoded empty := by
  simp [Encoded, empty]

theorem step_encoded {ev : Event} (h : Encoded net) (hs : step net ev = .ok net') :
    Encoded net' := by
  intro p hp
  rcases step_air hs with he | ⟨q, he, hq⟩
  · exact h p (he ▸ hp)
  · rw [he, List.mem_append, List.mem_singleton] at hp
    rcases hp with hp | rfl
    · exact h p hp
    · exact hq

/-- What the code does: a node answers the responses of the others, and nothing else. -/
theorem deliver_air (h : Encoded net) {p : Packet} (hp : net.air[k]? = some p)
    (hheard : (k, node) ∉ net.heard) (hne : p.sender ≠ node) (now : TimePoint) (beyond : NodeId)
    (position : Vec2d) :
    ∃ net', step net (.deliver now k node beyond position) = .ok net' ∧
      if p.beacon.isResponse then
        ∃ q, net'.air = net.air ++ [q] ∧ q.sender = node ∧ q.beacon = ⟨position, true⟩
      else net'.air = net.air := by
  have hmsg : (Message.beacon p.beacon).Encodable := trivial
  have hreceived := LinkLayer.handlePacket_broadcast 0 now beyond hne hmsg trivial
  simp only [step, hp, hheard, if_false, deliver, h p (List.mem_of_getElem? hp), hreceived,
    Message.received]
  cases hr : p.beacon.isResponse with
  | false => simp [NeighborHelper.receive]
  | true => simp [NeighborHelper.receive, post_eq]

/-- The flag arrives negated, so no first delivery to another node is handled as it should. -/
theorem handshake_step_iff (h : Encoded net) (ev : Event) :
    Handshake net ev ↔ NothingHeard net ev := by
  cases ev with
  | beacon now node position => exact Iff.rfl
  | deliver now k node beyond position =>
    constructor
    · intro hh p hp
      by_contra hnot
      rw [not_or] at hnot
      obtain ⟨net', hs, hair⟩ := deliver_air h hp hnot.1 hnot.2 now beyond position
      have hwant := hh p hp hnot.1 hnot.2 net' hs
      cases hr : p.beacon.isResponse with
      | false =>
        simp only [hr, Bool.false_eq_true, if_false] at hair hwant
        obtain ⟨q, hq, -⟩ := hwant
        simp [hair] at hq
      | true =>
        simp only [hr, if_true] at hair hwant
        obtain ⟨q, hq, -⟩ := hair
        simp [hwant] at hq
    · intro hno p hp hheard hne
      exact ((hno p hp).elim hheard hne).elim

/-- Without deliveries nothing in the air answers anything. -/
theorem step_uncaused {ev : Event} (h : Encoded net) (hcause : ∀ p ∈ net.air, p.cause = none)
    (hno : NothingHeard net ev) (hs : step net ev = .ok net') : ∀ p ∈ net'.air, p.cause = none := by
  cases ev with
  | beacon now node position =>
    simp only [step, post_eq, Except.ok.injEq] at hs
    subst hs
    intro p hp
    rw [List.mem_append, List.mem_singleton] at hp
    rcases hp with hp | rfl
    · exact hcause p hp
    · rfl
  | deliver now k node beyond position =>
    suffices hair : net'.air = net.air by rwa [hair]
    simp only [step] at hs
    split at hs
    · next p hp =>
      split_ifs at hs with hheard
      · simp only [Except.ok.injEq] at hs
        exact hs ▸ rfl
      · have hown : p.sender = node := (hno p hp).resolve_left hheard
        simp only [deliver, h p (List.mem_of_getElem? hp), hown, LinkLayer.handlePacket_own,
          Except.ok.injEq] at hs
        exact hs ▸ rfl
    · simp only [Except.ok.injEq] at hs
      exact hs ▸ rfl

theorem orderly_of_uncaused (h : ∀ p ∈ net.air, p.cause = none) : Orderly net where
  once := by
    intro k node
    have hnil : net.air.filter (fun q => q.cause = some (k, node)) = [] := by
      rw [List.filter_eq_nil_iff]
      intro q hq
      simp [h q hq]
    simp [hnil]
  discovery := by
    intro q hq k node hc
    rw [h q hq] at hc
    cases hc

end Steps

/-- The handshake works in a run exactly if no beacon in it reaches another node. -/
theorem handshake_iff (events : List Event) :
    (Each step Handshake empty events ∧ Always step Orderly empty events) ↔
      Each step NothingHeard empty events := by
  have hiff : Each step Handshake empty events ↔ Each step NothingHeard empty events :=
    each_congr Encoded (fun _ _ _ _ h _ hs => step_encoded h hs)
      (fun net ev _ h => handshake_step_iff h ev) empty_encoded
  refine ⟨fun h => hiff.mp h.1, fun h => ⟨hiff.mpr h, ?_⟩⟩
  refine always_of_each (fun net => Encoded net ∧ ∀ p ∈ net.air, p.cause = none)
    (fun net hnet => orderly_of_uncaused hnet.2) ?_ ⟨empty_encoded, by simp [empty]⟩ h
  rintro net ev net' ⟨henc, hcause⟩ hno hs
  exact ⟨step_encoded henc hs, step_uncaused henc hcause hno hs⟩

/-- Node 1 sends a discovery beacon, node 2 hears it and posts nothing. -/
theorem discovery_unanswered :
    ¬ (Each step Handshake empty [.beacon 0 ⟨1⟩ ⟨0, 0⟩, .deliver 0 0 ⟨2⟩ ⟨0⟩ ⟨0, 0⟩] ∧
      Always step Orderly empty [.beacon 0 ⟨1⟩ ⟨0, 0⟩, .deliver 0 0 ⟨2⟩ ⟨0⟩ ⟨0, 0⟩]) := by
  rintro ⟨⟨-, h⟩, -⟩
  have hsent : step empty (.beacon 0 ⟨1⟩ ⟨0, 0⟩) = .ok _ := post_eq empty 0 ⟨1⟩ ⟨⟨0, 0⟩, false⟩ none
  have hne : (⟨1⟩ : NodeId) ≠ ⟨2⟩ := by decide
  obtain ⟨net', hs, hair⟩ := deliver_air (step_encoded empty_encoded hsent)
    (show _[0]? = some _ from rfl) List.not_mem_nil hne 0 ⟨0⟩ ⟨0, 0⟩
  obtain ⟨q, hq, -⟩ := (h _ hsent).1 _ rfl List.not_mem_nil hne net' hs
  have hlen := congrArg List.length (hair.symm.trans hq)
  simp at hlen

end BeaconNetwork

end YingSma
