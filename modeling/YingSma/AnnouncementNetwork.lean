import YingSma.HopCounts

/-! Whole nodes that announce interests and metadata to each other, and the hop counts of
what they relay. -/
namespace YingSma.AnnouncementNetwork
open TransitionRuns StateActions ContentHelper InterestHelper

structure Node where
  interests : InterestHelper
  contents : ContentHelper

/-- A message to all nodes, on its way since `sentAt`. -/
structure Packet where
  sentAt : TimePoint
  sender : NodeId
  msg : Message

structure Network (N : Type) where
  now : TimePoint
  nodes : N → Node
  air : List Packet

/-- Calls of the two helpers that a node makes by itself, and deliveries of what is in the
air to any node at any time. -/
inductive Act (N : Type)
  | createLocal (node : N) (type : ContentType)
  | clearLocal (node : N)
  | announce (node : N) (fuzz : ℕ) (stack : ByteMemory)
  | call (node : N) (position : Vec2d) (op : Op)
  | deliver (k : ℕ) (node : N) (position : Vec2d)

/-- Messages are received by delivery only. -/
def isReceive : Op → Bool
  | .receiveContentAnn _ => true
  | .receiveBlockRequest _ _ => true
  | .receiveBlockResponse _ => true
  | _ => false

/-- The messages posted among some effects. -/
def posts (es : List Effect) : List Message :=
  es.filterMap fun e =>
    match e with
    | .post msg => some msg
    | _ => none

section Steps

variable {N : Type} [DecidableEq N]

/-- What the content helper of a node finds around it. -/
def surroundings (net : Network N) (node : N) (position : Vec2d) : Surroundings where
  now := net.now
  position := position
  containsAny types := (net.nodes node).interests.containsAny types

def withInterests (net : Network N) (node : N) (h : InterestHelper) : Network N :=
  { net with nodes := Function.update net.nodes node { net.nodes node with interests := h } }

/-- A call of the content helper puts what it posts into the air. -/
def withContents (hasher : List UInt8 → Hash) (net : Network N) (node : N) (position : Vec2d)
    (op : Op) : Except Fault (Network N) :=
  let h := (net.nodes node).contents
  match ContentHelper.step hasher h (surroundings net node position, op) with
  | .error e => .error e
  | .ok h' => .ok { net with
      nodes := Function.update net.nodes node { net.nodes node with contents := h' }
      air := net.air ++ (posts (newEffects h h')).map fun msg => ⟨net.now, h.id, msg⟩ }

/-- The node receives a message as it is decoded at this time. -/
def receive (hasher : List UInt8 → Hash) (net : Network N) (node : N) (position : Vec2d)
    (p : Packet) : Except Fault (Network N) :=
  match p.msg with
  | .beacon _ => .ok net
  | .interestAnn msg =>
      ((net.nodes node).interests.receive net.now msg).map (withInterests net node)
  | .contentAnn msg =>
      withContents hasher net node position (.receiveContentAnn (msg.received p.sentAt net.now))
  | .blockRequest msg =>
      withContents hasher net node position (.receiveBlockRequest ⟨p.sender, []⟩ msg)
  | .blockResponse msg => withContents hasher net node position (.receiveBlockResponse msg)

def perform (hasher : List UInt8 → Hash) (net : Network N) : Act N → Except Fault (Network N)
  | .createLocal node type =>
      .ok (withInterests net node (createLocal net.now type (net.nodes node).interests))
  | .clearLocal node => .ok (withInterests net node (clearLocal (net.nodes node).interests))
  | .announce node fuzz stack =>
      match InterestHelper.announce net.now fuzz stack (net.nodes node).interests with
      | .error e => .error e
      | .ok (a, h') =>
          let net' := withInterests net node h'
          .ok { net' with air := net.air ++ a.posted.toList.map fun msg =>
            ⟨net.now, (net.nodes node).interests.id, .interestAnn msg⟩ }
  | .call node position op =>
      if isReceive op then .ok net else withContents hasher net node position op
  | .deliver k node position =>
      match net.air[k]? with
      | none => .ok net
      | some p => receive hasher net node position p

/-- The network when its next act comes, `wait` nanoseconds after the last one. -/
def advance (net : Network N) (wait : ℕ) : Network N := { net with now := net.now + wait }

def step (hasher : List UInt8 → Hash) (net : Network N) (event : ℕ × Act N) :
    Except Fault (Network N) :=
  perform hasher (advance net event.1) event.2

/-- The nodes start with empty tables. -/
def start (ids : N → NodeId) (now : TimePoint) : Network N :=
  ⟨now, fun n => ⟨.new (ids n) now, .new (ids n)⟩, []⟩

/-- The number of deliveries on the way of each metadata entry, and of the metadata of each
message in the air. -/
structure Notes (N : Type) where
  chain : N → Hash → ℕ
  carried : List (List ℕ)

/-- Nothing has been delivered. -/
def Notes.empty : Notes N := ⟨fun _ _ => 0, []⟩

/-- The node's own metadata set out from there. -/
def carriedBy (chain : Hash → ℕ) (id : NodeId) (p : Packet) : List ℕ :=
  match p.msg with
  | .contentAnn msg => msg.metadata.map fun m => if m.publisher = id then 0 else chain m.hash
  | _ => []

/-- The deliveries counted for a node when a message reaches it. -/
def delivered (net : Network N) (node : N) (position : Vec2d) (chain : Hash → ℕ) (p : Packet)
    (lens : List ℕ) : Hash → ℕ :=
  match p.msg with
  | .contentAnn msg => annChain (surroundings net node position) chain (net.nodes node).contents
      ((msg.received p.sentAt net.now).metadata.zip lens)
  | _ => chain

/-- The node an act takes place at. -/
def Act.node : Act N → N
  | .createLocal node _ => node
  | .clearLocal node => node
  | .announce node _ _ => node
  | .call node _ _ => node
  | .deliver _ node _ => node

def note (g : Notes N) (net : Network N) (event : ℕ × Act N) (net' : Network N) : Notes N where
  chain :=
    match event.2 with
    | .deliver k node position =>
        match net.air[k]?, g.carried[k]? with
        | some p, some lens => Function.update g.chain node
            (delivered (advance net event.1) node position (g.chain node) p lens)
        | _, _ => g.chain
    | _ => g.chain
  carried := g.carried ++ (net'.air.drop net.air.length).map
    (carriedBy (g.chain event.2.node) (net.nodes event.2.node).contents.id)

/-- Every entry a message creates or brings nearer is one hop further than in the message. -/
def PacketExact (net : Network N) (node : N) (position : Vec2d) (p : Packet) : Prop :=
  match p.msg with
  | .interestAnn msg => ∀ received, msg.interests = .ok received →
      Each (learnOne net.now) (InterestExact net.now) (net.nodes node).interests received
  | .contentAnn msg =>
      let env := surroundings net node position
      Each (itemStep env) (MetadataExact env) (net.nodes node).contents
        (msg.received p.sentAt net.now).metadata
  | _ => True

/-- Deliveries count their hops, make no interest the node's own, and leave no metadata
nearer than they have travelled. -/
structure HopsExact (r : Notes N × Network N) (event : ℕ × Act N) (net' : Network N) : Prop where
  items : ∀ k node position p, event.2 = .deliver k node position → r.2.air[k]? = some p →
    PacketExact (advance r.2 event.1) node position p
  own : ∀ k node position, event.2 = .deliver k node position → ∀ type,
    HoldsLocal (net'.nodes node).interests type → HoldsLocal (r.2.nodes node).interests type
  near : ∀ node, ∀ m ∈ (net'.nodes node).contents.rmt,
    (note r.1 r.2 event net').chain node m.data.hash ≤ m.data.hops.toNat

/-- A message has a hop count of 255 only for what the receiver has as its own. -/
def PacketSafe (n : Node) (msg : Message) : Prop :=
  match msg with
  | .interestAnn msg => ∀ received, msg.interests = .ok received → ∀ i ∈ received,
      i.hops = 255 → HoldsLocal n.interests i.type
  | .contentAnn msg => ∀ m ∈ msg.metadata, m.publisher ≠ n.contents.id → m.hops ≠ 255
  | _ => True

/-- The delivery of such a message, or of one whose reception fails, or no delivery. -/
def Safe (hasher : List UInt8 → Hash) (net : Network N) (event : ℕ × Act N) : Prop :=
  ∀ net', step hasher net event = .ok net' → ∀ k node position p,
    event.2 = .deliver k node position → net.air[k]? = some p → PacketSafe (net.nodes node) p.msg

/-- The metadata in a message carry the number of their deliveries as hops. -/
def Counts (p : Packet) (lens : List ℕ) : Prop :=
  ∀ msg, p.msg = .contentAnn msg →
    List.Forall₂ (fun m len => m.hops.toNat = len) msg.metadata lens

/-- The tables of all nodes and the messages in the air have kept count. -/
structure Counted (r : Notes N × Network N) : Prop where
  interests : ∀ node, (types (r.2.nodes node).interests).Nodup
  contents : ∀ node, Travelled (r.1.chain node) (r.2.nodes node).contents
  air : List.Forall₂ Counts r.2.air r.1.carried

end Steps

section Posts

variable {env : Surroundings} {chain : Hash → ℕ} {h h' : ContentHelper}

theorem mem_contentAnns {es : List Effect} {msg : ContentAnn}
    (hmsg : .contentAnn msg ∈ posts es) : msg ∈ contentAnns es := by
  obtain ⟨e, he, hpost⟩ := List.mem_filterMap.mp hmsg
  refine List.mem_filterMap.mpr ⟨e, he, ?_⟩
  cases e with
  | post msg' =>
    obtain rfl := Option.some.inj hpost
    rfl
  | _ => cases hpost

/-- Whatever a call posts has the hops that the tables had. -/
theorem posted_counts {op : Op} (htab : Tables env h op h') (ht : Travelled chain h)
    {p : Packet} (hp : p.msg ∈ posts (newEffects h h')) : Counts p (carriedBy chain h.id p) := by
  intro msg hmsg
  rw [hmsg] at hp
  obtain rfl := htab.anns (mem_contentAnns hp)
  unfold carriedBy
  rw [hmsg, List.forall₂_map_right_iff, List.forall₂_same]
  exact willAnnounce_count env ht

end Posts

section Runs

variable {N : Type} {g : Notes N} {net net' : Network N}

theorem counted_start (ids : N → NodeId) (now : TimePoint) :
    Counted (Notes.empty, start ids now) where
  interests _ := .nil
  contents _ := by
    constructor
    · intro l hl
      cases hl
    · intro r hr
      cases hr
    · exact List.nodup_nil
    · intro r hr
      cases hr
  air := .nil

theorem counted_advance (hcounted : Counted (g, net)) (wait : ℕ) :
    Counted (g, advance net wait) :=
  ⟨hcounted.interests, hcounted.contents, hcounted.air⟩

variable [DecidableEq N] {hasher : List UInt8 → Hash} {node : N} {position : Vec2d}

/-- A node changes, with what is noted of it. -/
theorem counted_update {n : Node} {chain : Hash → ℕ} {air : List Packet} {carried : List (List ℕ)}
    (hcounted : Counted (g, net)) (hd : (types n.interests).Nodup) (ht : Travelled chain n.contents)
    (hair : List.Forall₂ Counts air carried) :
    Counted (⟨Function.update g.chain node chain, carried⟩,
      { net with nodes := Function.update net.nodes node n, air }) where
  interests := (Function.forall_update_iff net.nodes fun _ n => (types n.interests).Nodup).mpr
    ⟨hd, fun m _ => hcounted.interests m⟩
  contents := @update_beside N _ (Hash → ℕ) Node
    (fun _ chain n => Travelled chain n.contents) _ _ _ _ _ hcounted.contents ht
  air := hair

theorem withInterests_counted {h : InterestHelper} (hcounted : Counted (g, net))
    (hd : (types h).Nodup) : Counted (g, withInterests net node h) := by
  have hnext := @counted_update N g net _ node ⟨h, (net.nodes node).contents⟩ (g.chain node)
    net.air g.carried hcounted hd (hcounted.contents node) hcounted.air
  rw [Function.update_eq_self] at hnext
  exact hnext

theorem withContents_ok {op : Op} (hs : withContents hasher net node position op = .ok net') :
    ∃ h', ContentHelper.step hasher (net.nodes node).contents
        (surroundings net node position, op) = .ok h' ∧
      net' = { net with
        nodes := Function.update net.nodes node { net.nodes node with contents := h' }
        air := net.air ++ (posts (newEffects (net.nodes node).contents h')).map fun msg =>
          ⟨net.now, (net.nodes node).contents.id, msg⟩ } := by
  unfold withContents at hs
  dsimp only at hs
  cases hstep : ContentHelper.step hasher (net.nodes node).contents
      (surroundings net node position, op) with
  | error e =>
    rw [hstep] at hs
    cases hs
  | ok h' =>
    rw [hstep] at hs
    exact ⟨h', rfl, (Except.ok.inj hs).symm⟩

theorem withContents_counted {op : Op} {chain : Hash → ℕ} (hcounted : Counted (g, net))
    (hs : withContents hasher net node position op = .ok net')
    (hchain : ∀ h', ContentHelper.step hasher (net.nodes node).contents
      (surroundings net node position, op) = .ok h' → Travelled chain h') :
    Counted (⟨Function.update g.chain node chain,
      g.carried ++ (net'.air.drop net.air.length).map
        (carriedBy (g.chain node) (net.nodes node).contents.id)⟩, net') := by
  obtain ⟨h', hstep, rfl⟩ := withContents_ok hs
  have htab := step_tables hstep
  dsimp only
  rw [List.drop_left]
  refine @counted_update N g net _ node ⟨(net.nodes node).interests, h'⟩ _ _ _ hcounted
    (hcounted.interests node) (hchain h' hstep) ?_
  apply List.rel_append hcounted.air
  rw [List.forall₂_map_right_iff, List.forall₂_same]
  intro p hp
  obtain ⟨msg, hmsg, rfl⟩ := List.mem_map.mp hp
  exact posted_counts htab (hcounted.contents node) hmsg

/-- The same for a call that does not receive metadata. -/
theorem withContents_kept {op : Op} (hcounted : Counted (g, net))
    (hs : withContents hasher net node position op = .ok net')
    (hop : ∀ msg, op ≠ .receiveContentAnn msg) :
    Counted (⟨g.chain, g.carried ++ (net'.air.drop net.air.length).map
      (carriedBy (g.chain node) (net.nodes node).contents.id)⟩, net') := by
  have hnext := withContents_counted hcounted hs fun h' hstep =>
    (step_tables hstep).travelled (hcounted.contents node) hop
  rwa [Function.update_eq_self] at hnext

/-- A message within the bounds is counted on. -/
theorem receive_counted {p : Packet} {lens : List ℕ} (hcounted : Counted (g, net))
    (hp : Counts p lens) (hsafe : PacketSafe (net.nodes node) p.msg)
    (hs : receive hasher net node position p = .ok net') :
    Counted (⟨Function.update g.chain node (delivered net node position (g.chain node) p lens),
      g.carried ++ (net'.air.drop net.air.length).map
        (carriedBy (g.chain node) (net.nodes node).contents.id)⟩, net') := by
  unfold receive at hs
  unfold PacketSafe at hsafe
  unfold delivered
  cases hmsg : p.msg with
  | beacon msg =>
    rw [hmsg] at hs
    obtain rfl := Except.ok.inj hs
    simpa using hcounted
  | interestAnn msg =>
    rw [hmsg] at hs
    dsimp only at hs
    obtain ⟨h', hreceive, rfl⟩ := map_eq_ok hs
    obtain ⟨received, -, rfl⟩ := InterestHelper.step_receive hreceive
    have hd : (types (learnAll net.now received (net.nodes node).interests)).Nodup :=
      learnAll_nodup received (hcounted.interests node)
    have hnext := @withInterests_counted N g net _ node _ hcounted hd
    simpa [withInterests] using hnext
  | contentAnn msg =>
    rw [hmsg] at hs hsafe
    apply withContents_counted hcounted hs
    intro h' hstep
    apply (each_metadataExact_iff (hcounted.contents node) ?_ (receiveContentAnn_ok hstep)).2
    · intro m hm
      obtain ⟨m₀, hm₀, rfl⟩ := List.mem_map.mp hm
      exact hsafe m₀ hm₀
    · unfold ContentAnn.received
      rw [List.forall₂_map_left_iff]
      exact hp msg hmsg
  | blockRequest msg =>
    rw [hmsg] at hs
    rw [Function.update_eq_self]
    exact withContents_kept hcounted hs (by simp)
  | blockResponse msg =>
    rw [hmsg] at hs
    rw [Function.update_eq_self]
    exact withContents_kept hcounted hs (by simp)

theorem announce_counted {fuzz : ℕ} {stack : ByteMemory} (hcounted : Counted (g, net))
    (hs : perform hasher net (.announce node fuzz stack) = .ok net') :
    Counted (⟨g.chain, g.carried ++ (net'.air.drop net.air.length).map
      (carriedBy (g.chain node) (net.nodes node).contents.id)⟩, net') := by
  simp only [perform] at hs
  cases hrun : InterestHelper.announce net.now fuzz stack (net.nodes node).interests with
  | error e =>
    rw [hrun] at hs
    cases hs
  | ok r =>
    obtain ⟨a, h'⟩ := r
    rw [hrun] at hs
    obtain rfl := Except.ok.inj hs
    have hnext := @withInterests_counted N g net _ node h' hcounted
      (announce_nodup hrun (hcounted.interests node))
    refine ⟨hnext.interests, hnext.contents, ?_⟩
    dsimp only
    rw [List.drop_left]
    apply List.rel_append hcounted.air
    rw [List.forall₂_map_right_iff, List.forall₂_same]
    intro p hp msg hmsg
    obtain ⟨msg', -, rfl⟩ := List.mem_map.mp hp
    cases hmsg

/-- What one act keeps, if it stays within the bounds. -/
theorem step_counted {event : ℕ × Act N} (hcounted : Counted (g, net))
    (hsafe : Safe hasher net event) (hs : step hasher net event = .ok net') :
    Counted (note g net event net', net') := by
  obtain ⟨wait, act⟩ := event
  have hnow := counted_advance hcounted wait
  have hsafe := hsafe net' hs
  unfold step at hs
  cases act with
  | createLocal node type =>
    obtain rfl := Except.ok.inj hs
    have hd := @createLocal_nodup (net.now + wait) type _ (hnow.interests node)
    have hnext := @withInterests_counted N g _ _ node _ hnow hd
    simpa [note, withInterests, advance] using hnext
  | clearLocal node =>
    obtain rfl := Except.ok.inj hs
    have hd := clearLocal_nodup (hnow.interests node)
    have hnext := @withInterests_counted N g _ _ node _ hnow hd
    simpa [note, withInterests, advance] using hnext
  | announce node fuzz stack =>
    have hnext := announce_counted hnow hs
    exact hnext
  | call node position op =>
    simp only [perform] at hs
    split_ifs at hs with hreceive
    · obtain rfl := Except.ok.inj hs
      simpa [note, advance] using hnow
    · have hnext := withContents_kept hnow hs (by rintro msg rfl; exact hreceive rfl)
      exact hnext
  | deliver k node position =>
    simp only [perform] at hs
    unfold note
    dsimp only
    cases hair : net.air[k]? with
    | none =>
      have hair' : (advance net wait).air[k]? = none := hair
      rw [hair'] at hs
      obtain rfl := Except.ok.inj hs
      simpa [advance] using hnow
    | some p =>
      have hair' : (advance net wait).air[k]? = some p := hair
      rw [hair'] at hs
      obtain ⟨lens, hlens, hp⟩ := getElem?_beside hcounted.air hair
      rw [hlens]
      have hnext := receive_counted hnow hp (hsafe k node position p rfl hair) hs
      exact hnext

theorem packetExact_iff {p : Packet} {lens : List ℕ} (hcounted : Counted (g, net))
    (hp : Counts p lens) (hs : receive hasher net node position p = .ok net') :
    PacketExact net node position p ↔ PacketSafe (net.nodes node) p.msg := by
  unfold PacketExact PacketSafe
  unfold receive at hs
  cases hmsg : p.msg with
  | interestAnn msg =>
    apply forall₂_congr
    intro received _
    exact each_interestExact_iff received (hcounted.interests node)
  | contentAnn msg =>
    rw [hmsg] at hs
    obtain ⟨h', hstep, -⟩ := withContents_ok hs
    have hlens : List.Forall₂ (fun m len => m.hops.toNat = len)
        (msg.received p.sentAt net.now).metadata lens := by
      unfold ContentAnn.received
      rw [List.forall₂_map_left_iff]
      exact hp msg hmsg
    apply (each_metadataExact_iff (hcounted.contents node) hlens (receiveContentAnn_ok hstep)).1.trans
    exact List.forall_mem_map
  | _ => exact Iff.rfl

/-- Such a message leaves the node's own interests to itself. -/
theorem receive_own {p : Packet} (hcounted : Counted (g, net))
    (hsafe : PacketSafe (net.nodes node) p.msg)
    (hs : receive hasher net node position p = .ok net') (type : ContentType) :
    HoldsLocal (net'.nodes node).interests type → HoldsLocal (net.nodes node).interests type := by
  have hcontents : ∀ op, withContents hasher net node position op = .ok net' →
      (net'.nodes node).interests = (net.nodes node).interests := by
    intro op hop
    obtain ⟨h', -, rfl⟩ := withContents_ok hop
    dsimp only
    rw [Function.update_self]
  unfold PacketSafe at hsafe
  unfold receive at hs
  cases hmsg : p.msg with
  | beacon msg =>
    rw [hmsg] at hs
    obtain rfl := Except.ok.inj hs
    exact id
  | interestAnn msg =>
    rw [hmsg] at hs hsafe
    obtain ⟨h', hreceive, rfl⟩ := map_eq_ok hs
    obtain ⟨received, hreceived, rfl⟩ := InterestHelper.step_receive hreceive
    unfold withInterests
    dsimp only
    rw [Function.update_self]
    have hd := hcounted.interests node
    exact (learnAll_holdsLocal_iff received hd (hsafe received hreceived) type).mp
  | _ =>
    rw [hmsg] at hs
    rw [hcontents _ hs]
    exact id

/-- An event is exact when it stays within the bounds, and only then. -/
theorem event_exact_iff {event : ℕ × Act N} (hcounted : Counted (g, net)) :
    (∀ net', step hasher net event = .ok net' → HopsExact (g, net) event net') ↔
      Safe hasher net event := by
  have hnow := counted_advance hcounted event.1
  have hdeliver : ∀ net' k node position p, step hasher net event = .ok net' →
      event.2 = .deliver k node position → net.air[k]? = some p →
      receive hasher (advance net event.1) node position p = .ok net' := by
    intro net' k node position p hs hact hair
    have hair' : (advance net event.1).air[k]? = some p := hair
    simp only [step, perform, hact, hair'] at hs
    exact hs
  constructor
  · intro hlaw net' hs k node position p hact hair
    obtain ⟨lens, -, hp⟩ := getElem?_beside hcounted.air hair
    exact (packetExact_iff hnow hp (hdeliver net' k node position p hs hact hair)).mp
      ((hlaw net' hs).items k node position p hact hair)
  · intro hsafe net' hs
    constructor
    · intro k node position p hact hair
      obtain ⟨lens, -, hp⟩ := getElem?_beside hcounted.air hair
      exact (packetExact_iff hnow hp (hdeliver net' k node position p hs hact hair)).mpr
        (hsafe net' hs k node position p hact hair)
    · intro k node position hact type
      cases hair : net.air[k]? with
      | none =>
        have hair' : (advance net event.1).air[k]? = none := hair
        simp only [step, perform, hact, hair'] at hs
        obtain rfl := Except.ok.inj hs
        exact id
      | some p =>
        exact receive_own hnow (hsafe net' hs k node position p hact hair)
          (hdeliver net' k node position p hs hact hair) type
    · intro node m hm
      exact ((step_counted hcounted hsafe hs).contents node).near m hm |>.ge

/-- Hops are counted, in a network of any size, exactly as long as nothing is delivered that
has come 255 hops, to a node that it may be news to. -/
theorem hops_exact_iff (ids : N → NodeId) (now : TimePoint) (events : List (ℕ × Act N)) :
    Each (noted (step hasher) note)
        (fun r event => ∀ net', step hasher r.2 event = .ok net' → HopsExact r event net')
        (Notes.empty, start ids now) events ↔
      Each (step hasher) (Safe hasher) (start ids now) events := by
  apply Iff.trans _ (each_noted note Notes.empty (start ids now) events)
  refine each_congr Counted ?_ ?_ (counted_start ids now)
  · intro r event _ r' hcounted hsafe hs
    obtain ⟨hstep, hnoted⟩ := noted_ok hs
    have hnext := step_counted hcounted hsafe hstep
    rwa [← hnoted] at hnext
  · intro r event _ hcounted
    exact event_exact_iff hcounted

end Runs

section Relays

/-- An interest that was relayed without delay. -/
def relayed (hops : UInt8) : Interest := Interest.new 0 ⟨[97]⟩ 60000 hops

theorem relayed_live (hops : UInt8) : live 0 [relayed hops] = [relayed hops] := by
  have helapse : (relayed hops).elapseTtl 0 = relayed hops := by
    unfold relayed Interest.new Interest.elapseTtl
    split_ifs with hlocal hpast
    · rfl
    · have hfuture : ¬ (0 : TimePoint) ≥ 0 + (60000 : UInt32).toNat * milli := by decide
      exact (hfuture hpast).elim
    · rfl
  rw [live_cons [] (by rw [helapse]; simp [relayed, Interest.new, Interest.expired]), helapse]
  rfl

theorem relayed_length (hops : UInt8) : (relayed hops).wire.length = 7 := by
  rw [Interest.wire_length]
  rfl

/-- A node announces the one interest it has. -/
theorem announce_relayed (id : NodeId) (hops : UInt8) :
    ∃ a h' msg,
      InterestHelper.announce 0 0 (fun _ => 0) ⟨id, [relayed hops], 0, 1, true⟩ = .ok (a, h') ∧
        a.posted = some msg ∧ msg.interests = .ok [{ relayed hops with expiryTime := 0 }] := by
  have hlength := relayed_length hops
  have hwidth : ∀ i ∈ [relayed hops], i.wire.length ≤ maxSize := by
    intro i hi
    obtain rfl := List.mem_singleton.mp hi
    rw [hlength]
    decide
  obtain ⟨a, h', unsent, hrun, -, -, hposted, -⟩ := @announce_due 0
    ⟨id, [relayed hops], 0, 1, true⟩ 0 (fun _ => 0) le_rfl hwidth
  have hpack : pack [relayed hops] (Packing.start fun _ => 0) =
      (afterOne (fun _ => 0) (relayed hops), [relayed hops]) := by
    rw [pack_accept [] (by rw [hlength]; decide)]
    rfl
  rw [relayed_live, hpack, if_neg (List.cons_ne_nil _ _)] at hposted
  refine ⟨a, h', _, hrun, hposted, ?_⟩
  apply (afterOne_carried (fun _ => 0) (relayed hops)).decoded _ (by simp)
  rw [(afterOne_eq _ _).1, hlength]
  decide

/-- The first `k` nodes have relayed an interest of the first one. -/
structure Relayed (k : ℕ) (net : Network ℕ) : Prop where
  now_eq : net.now = 0
  air : net.air.length = k
  holder : (net.nodes k).interests =
    ⟨⟨UInt16.ofNat k⟩, [relayed (UInt8.ofNat k)], 0, 1, true⟩
  ahead : ∀ n, k < n → (net.nodes n).interests = .new ⟨UInt16.ofNat n⟩ 0

/-- Node `k` announces and the next node receives. -/
def hop (k : ℕ) : List (ℕ × Act ℕ) :=
  [(0, .announce k 0 fun _ => 0), (0, .deliver k (k + 1) ⟨0, 0⟩)]

def relay : ℕ → List (ℕ × Act ℕ)
  | 0 => [(0, .createLocal 0 ⟨[97]⟩)]
  | k + 1 => relay k ++ hop k

variable (hasher : List UInt8 → Hash)

theorem step_at_once {N : Type} [DecidableEq N] (net : Network N) (act : Act N) :
    step hasher net (0, act) = perform hasher net act := by
  simp [step, advance]

/-- The next node learns it one hop further, or as its own after the last hop. -/
theorem receive_relayed {id : NodeId} {msg : InterestAnn} {hops : UInt8}
    (hmsg : msg.interests = .ok [{ relayed hops with expiryTime := 0 }]) :
    InterestHelper.receive 0 msg (.new id 0) = .ok ⟨id, [relayed (hops + 1)], 0, 1, true⟩ := by
  unfold InterestHelper.receive
  rw [hmsg]
  rfl

theorem hop_ok {k : ℕ} {net : Network ℕ} (hr : Relayed k net) :
    ∃ net₁ net₂, step hasher net (0, .announce k 0 fun _ => 0) = .ok net₁ ∧
      (net₁.nodes (k + 1)).interests = .new ⟨UInt16.ofNat (k + 1)⟩ 0 ∧
      step hasher net₁ (0, .deliver k (k + 1) ⟨0, 0⟩) = .ok net₂ ∧ Relayed (k + 1) net₂ := by
  obtain ⟨a, h', msg, hrun, hposted, hmsg⟩ := announce_relayed ⟨UInt16.ofNat k⟩ (UInt8.ofNat k)
  let net₁ : Network ℕ := { withInterests net k h' with
    air := net.air ++ [⟨0, ⟨UInt16.ofNat k⟩, .interestAnn msg⟩] }
  have hsent : step hasher net (0, .announce k 0 fun _ => 0) = .ok net₁ := by
    simp only [step_at_once, perform, hr.now_eq, hr.holder, hrun, hposted]
    rfl
  have hahead : ∀ n, k < n → (net₁.nodes n).interests = .new ⟨UInt16.ofNat n⟩ 0 := by
    intro n hn
    dsimp only [net₁, withInterests]
    rw [Function.update_of_ne hn.ne']
    exact hr.ahead n hn
  have hair : net₁.air[k]? = some ⟨0, ⟨UInt16.ofNat k⟩, .interestAnn msg⟩ := by
    dsimp only [net₁]
    rw [← hr.air]
    exact List.getElem?_concat_length
  have hnext := hahead (k + 1) (Nat.lt_succ_self k)
  have hreceived : step hasher net₁ (0, .deliver k (k + 1) ⟨0, 0⟩) = .ok (withInterests net₁ (k + 1)
      ⟨⟨UInt16.ofNat (k + 1)⟩, [relayed (UInt8.ofNat k + 1)], 0, 1, true⟩) := by
    have hnow : net₁.now = 0 := hr.now_eq
    simp only [step_at_once, perform, hair, receive, hnext, hnow, receive_relayed hmsg]
    rfl
  refine ⟨net₁, _, hsent, hnext, hreceived, hr.now_eq, ?_, ?_, ?_⟩
  · simp [net₁, withInterests, hr.air]
  · dsimp only [withInterests]
    rw [Function.update_self, UInt8.ofNat_add]
    rfl
  · intro n hn
    dsimp only [withInterests]
    rw [Function.update_of_ne hn.ne']
    exact hahead n ((Nat.lt_succ_self k).trans hn)

/-- The interest gets to any node of a line. -/
theorem relay_ok (k : ℕ) :
    ∃ net, run (step hasher) (start (fun n => ⟨UInt16.ofNat n⟩) 0) (relay k) = .ok net ∧
      Relayed k net := by
  induction k with
  | zero =>
    refine ⟨_, rfl, rfl, rfl, rfl, ?_⟩
    intro n hn
    dsimp only [withInterests]
    rw [Function.update_of_ne hn.ne']
    rfl
  | succ k ih =>
    obtain ⟨net, hrun, hr⟩ := ih
    obtain ⟨net₁, net₂, hsent, -, hreceived, hr₂⟩ := hop_ok hasher hr
    refine ⟨net₂, ?_, hr₂⟩
    rw [relay, run_append _ hrun, hop, run_cons_ok _ hsent, run_cons_ok _ hreceived, run_nil]

/-- In an exact run the interest stays that of the first node. -/
theorem relayed_remote {k : ℕ}
    (hlaw : Each (noted (step hasher) note)
      (fun r event => ∀ net', step hasher r.2 event = .ok net' → HopsExact r event net')
      (Notes.empty, start (fun n => ⟨UInt16.ofNat n⟩) 0) (relay (k + 1))) :
    UInt8.ofNat (k + 1) ≠ 0 := by
  intro hzero
  obtain ⟨net, hrun, hr⟩ := relay_ok hasher k
  obtain ⟨g, hnoted⟩ := run_noted note Notes.empty hrun
  obtain ⟨net₁, net₂, hsent, hnext, hreceived, hr₂⟩ := hop_ok hasher hr
  rw [relay, each_append] at hlaw
  have hlast := hlaw.2 _ hnoted
  have hexact := (hlast.2 _ (noted_of_ok note g hsent)).1 net₂ hreceived
  have hlocal : HoldsLocal (net₂.nodes (k + 1)).interests ⟨[97]⟩ := by
    rw [hr₂.holder]
    exact ⟨_, List.mem_singleton_self _, rfl, decide_eq_true hzero⟩
  have hbefore := hexact.own k (k + 1) ⟨0, 0⟩ rfl ⟨[97]⟩ hlocal
  rw [hnext] at hbefore
  obtain ⟨e, he, -⟩ := hbefore
  cases he

/-- Node 256 of a line has the interest of node 0 as its own. -/
theorem relayed_interest_local :
    ¬ Each (noted (step fun _ => default) note)
      (fun r event => ∀ net', step (fun _ => default) r.2 event = .ok net' → HopsExact r event net')
      (Notes.empty, start (fun n => ⟨UInt16.ofNat n⟩) 0) (relay 256) :=
  mt (relayed_remote (k := 255) _) (not_not.mpr rfl)

end Relays

end YingSma.AnnouncementNetwork
