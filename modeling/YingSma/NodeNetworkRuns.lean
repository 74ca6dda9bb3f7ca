import YingSma.NodeNetworkRefinement

/-! Runs of whole nodes, each matched by a run in which messages are handed over as they are, and
what is known of those. -/
namespace YingSma.NodeNetwork
open TransitionRuns ContentHelper StateActions
open AnnouncementNetwork (Packet Publication Listed PieceOf TracedMessage Traced Tracked isReceive
  posts surroundings withContents withInterests)

section Matching

variable {N : Type} [DecidableEq N] {hasher : List UInt8 → Hash} {g : List (Publication hasher)}
  {s s' : Network N} {net : AnnouncementNetwork.Network N} {node : N} {position : Vec2d}
  {n' : CcnNode}

/-- The interests are left alone but by their own tasks. -/
theorem perform_interests {n : CcnNode} {now : TimePoint} {task : NodeTask} {ann : Option InterestAnn}
    (hs : n.perform hasher now position task = .ok (n', ann)) :
    n'.interests = n.interests ∧ ann = none ∨ publishingOps task = [] ∧
      ((∃ fuzz stack a h, n.interests.announce now fuzz stack = .ok (a, h) ∧
        n' = { n with interests := h } ∧ ann = a.posted) ∨
        n' = { n with interests := BehaviorHelper.behaveInterest now n.interests } ∧ ann = none) := by
  cases task with
  | announceInterests fuzz stack =>
    obtain ⟨⟨a, h⟩, hannounce, heq⟩ := map_eq_ok hs
    obtain ⟨rfl, rfl⟩ := Prod.mk.inj heq
    exact .inr ⟨rfl, .inl ⟨fuzz, stack, a, h, hannounce, rfl, rfl⟩⟩
  | behaveInterest =>
    obtain ⟨rfl, rfl⟩ := Prod.mk.inj (Except.ok.inj hs)
    exact .inr ⟨rfl, .inr ⟨rfl, rfl⟩⟩
  | beacon rand =>
    obtain ⟨rfl, rfl⟩ := Prod.mk.inj (Except.ok.inj hs)
    exact .inl ⟨rfl, rfl⟩
  | refreshNeighbors rand =>
    obtain ⟨rfl, rfl⟩ := Prod.mk.inj (Except.ok.inj hs)
    exact .inl ⟨rfl, rfl⟩
  | content op =>
    simp only [CcnNode.perform] at hs
    split_ifs at hs
    · obtain ⟨rfl, rfl⟩ := Prod.mk.inj (Except.ok.inj hs)
      exact .inl ⟨rfl, rfl⟩
    · obtain ⟨f', -, heq⟩ := map_eq_ok hs
      obtain ⟨rfl, rfl⟩ := Prod.mk.inj heq
      exact .inl ⟨rfl, rfl⟩
  | _ =>
    obtain ⟨f', -, heq⟩ := map_eq_ok hs
    obtain ⟨rfl, rfl⟩ := Prod.mk.inj heq
    exact .inl ⟨rfl, rfl⟩

/-- A task is matched by the calls it makes. -/
theorem task_matched {task : NodeTask} {ann : Option InterestAnn} (hf : Follows s net)
    (hs : (s.nodes node).perform hasher s.now position task = .ok (n', ann))
    (hchange : change s node n' (ann.toList.map .interestAnn ++ (s.nodes node).outgoing n') = .ok s') :
    ∃ events net', run (noted (AnnouncementNetwork.step hasher) noting) (g, net) events =
        .ok (g ++ (publishingOps task).flatMap (publishedBy hasher
          ((s.nodes node).around s.now position) (s.nodes node).id), net') ∧ Follows s' net' := by
  have hnode := hf.nodes node
  rcases perform_interests hs with ⟨hinterests, rfl⟩ | ⟨hnothing, hown⟩
  · obtain ⟨hid, ops, hcalled, hpublished⟩ := perform_called hs
    obtain ⟨hfresh, hshort⟩ := hcalled.short (hf.fresh node)
    have hcontents : (net.nodes node).contents = (s.nodes node).forward.content := by rw [hnode]
    have hrun := hcalled.2
    rw [← hf.around node position, ← hcontents] at hrun
    refine ⟨ops.map fun op => (0, .call node position op), withHelper net node n'.forward.content,
      ?_, hf.change (content_changed hf hid hinterests (run_within hcalled.2).2 hfresh hshort)
        hchange⟩
    rw [calls_noted hcalled.1 hrun, hf.around node position, hcontents, hf.contentId, hpublished]
  · rw [hnothing, List.flatMap_nil, List.append_nil]
    rcases hown with ⟨fuzz, stack, a, h, hannounce, rfl, rfl⟩ | ⟨rfl, rfl⟩
    · have hstep : AnnouncementNetwork.step hasher net (0, .announce node fuzz stack) =
          .ok { withInterests net node h with air := net.air ++ a.posted.toList.map fun msg =>
            ⟨net.now, (net.nodes node).interests.id, .interestAnn msg⟩ } := by
        have hsame : (net.nodes node).interests.announce net.now fuzz stack = .ok (a, h) := by
          rw [hnode, hf.now]
          exact hannounce
        simp only [AnnouncementNetwork.step, advance_zero, AnnouncementNetwork.perform, hsame]
      refine ⟨[(0, .announce node fuzz stack)], _, run_cons_ok [] (noted_of_ok noting g hstep), ?_⟩
      refine hf.change (interests_changed hf (InterestHelper.announce_id hannounce) rfl rfl ?_)
        hchange
      simp only [hf.now, hnode, hf.interestId]
    · refine ⟨[(0, .clearLocal node), (0, .createLocal node ⟨BehaviorHelper.ascii "alsotwo"⟩)], _, rfl, ?_⟩
      have hquiet : change s node
          { s.nodes node with
            interests := BehaviorHelper.behaveInterest s.now (s.nodes node).interests }
          (([] : List InterestAnn).map .interestAnn ++ (s.nodes node).outgoing
            { s.nodes node with
              interests := BehaviorHelper.behaveInterest s.now (s.nodes node).interests }) = .ok s' :=
        hchange
      refine hf.change (interests_changed hf ?_ ?_ ?_ ?_) hquiet
      · simp [BehaviorHelper.behaveInterest, InterestHelper.clearLocal]
      · simp [withInterests, AnnouncementNetwork.advance]
      · simp [withInterests, AnnouncementNetwork.advance, BehaviorHelper.behaveInterest, hnode, hf.now]
      · simp [withInterests, AnnouncementNetwork.advance]

/-- A node receives a message through its content helper. -/
theorem receive_changed (hf : Follows s net) (op : Op) {f' : ForwardScheduler.Node}
    (hcall : (s.nodes node).forward.callContent ((s.nodes node).around s.now position)
      (ContentHelper.perform hasher ((s.nodes node).around s.now position) op) = .ok f')
    (hop : ∀ msg, op = .receiveContentAnn msg →
      ∀ m ∈ msg.metadata, m.expiryTime ≤ s.now + defaultInitialTtl) :
    Changed s node { s.nodes node with forward := f' }
        ((s.nodes node).outgoing { s.nodes node with forward := f' }) net
        (withHelper net node f'.content) ∧
      withContents hasher net node position op = .ok (withHelper net node f'.content) := by
  obtain ⟨u, hrun⟩ := ForwardScheduler.callContent_ok hcall
  have hs : ContentHelper.step hasher (s.nodes node).forward.content
      ((s.nodes node).around s.now position, op) = .ok f'.content :=
    BehaviorHelper.perform_step hrun
  have hfresh := hf.fresh node
  refine ⟨content_changed hf rfl rfl (step_tables hs).id_eq (step_fresh hfresh hop hs)
    (step_short hfresh hs), ?_⟩
  apply withContents_eq
  rw [hf.around, hf.nodes node]
  exact hs

/-- The message a packet carries is received as it would be without the packet. -/
theorem receive_matched {p : Packet} {packet : List UInt8} {beyond : NodeId} (hf : Follows s net)
    (hc : Carries p packet)
    (hs : (s.nodes node).receive ⟨s.now, position, beyond, packet⟩ ⟨p.sender, []⟩
      (p.msg.received p.sentAt s.now) = .ok n') :
    (isBeacon p.msg = true ∧ Changed s node n' ((s.nodes node).outgoing n') net net) ∨
      isBeacon p.msg = false ∧
        ∃ net', AnnouncementNetwork.receive hasher net node position p = .ok net' ∧
          Changed s node n' ((s.nodes node).outgoing n') net net' := by
  have hnode := hf.nodes node
  have hshort := hc.short
  unfold AnnouncementNetwork.receive
  cases hmsg : p.msg with
  | beacon msg =>
    rw [hmsg] at hs
    obtain rfl := Except.ok.inj hs
    have hchanged : Changed s node
        { s.nodes node with
          neighbors := (s.nodes node).neighbors.receive s.now position ⟨p.sender, []⟩
            { msg with isResponse := !msg.isResponse } } _ net
        (withHelper net node (s.nodes node).forward.content) :=
      content_changed hf rfl rfl rfl (hf.fresh node) (by simp [posts_same rfl])
    rw [withHelper_own hf] at hchanged
    exact .inl ⟨rfl, hchanged⟩
  | interestAnn msg =>
    rw [hmsg] at hs
    obtain ⟨h, hreceive, rfl⟩ := map_eq_ok hs
    refine .inr ⟨rfl, withInterests net node h, ?_, ?_⟩
    · have hsame : (net.nodes node).interests.receive net.now msg = .ok h := by
        rw [hnode, hf.now]
        exact hreceive
      simp only [hsame, Except.map]
    · have hchanged : Changed s node { s.nodes node with interests := h }
          (([] : List InterestAnn).map .interestAnn ++ _) net (withInterests net node h) :=
        interests_changed hf (InterestHelper.receive_id hreceive) rfl rfl (by simp [withInterests])
      exact hchanged
  | contentAnn msg =>
    rw [hmsg] at hs
    obtain ⟨f', hcall, rfl⟩ := map_eq_ok hs
    have hop : ∀ msg', Op.receiveContentAnn (msg.received p.sentAt s.now) = .receiveContentAnn msg' →
        ∀ m ∈ msg'.metadata, m.expiryTime ≤ s.now + defaultInitialTtl := by
      rintro msg' ⟨⟩ m hm
      obtain ⟨m₀, hm₀, rfl⟩ := List.mem_map.mp hm
      exact Int.add_le_add_left (ttl_le (hshort msg hmsg m₀ hm₀)) s.now
    obtain ⟨hchanged, hcontents⟩ :=
      receive_changed hf (.receiveContentAnn (msg.received p.sentAt s.now)) hcall hop
    exact .inr ⟨rfl, _, by rw [hf.now]; exact hcontents, hchanged⟩
  | blockRequest msg =>
    rw [hmsg] at hs
    obtain ⟨f', hcall, rfl⟩ := map_eq_ok hs
    obtain ⟨hchanged, hcontents⟩ :=
      receive_changed hf (.receiveBlockRequest ⟨p.sender, []⟩ msg) hcall (by simp)
    exact .inr ⟨rfl, _, hcontents, hchanged⟩
  | blockResponse msg =>
    rw [hmsg] at hs
    obtain ⟨f', hcall, rfl⟩ := map_eq_ok hs
    obtain ⟨hchanged, hcontents⟩ := receive_changed hf (.receiveBlockResponse msg) hcall (by simp)
    exact .inr ⟨rfl, _, hcontents, hchanged⟩

theorem onPacket_matched (hasher : List UInt8 → Hash) {p : Packet} {packet : List UInt8} {beyond : NodeId} (hf : Follows s net)
    (hc : Carries p packet)
    (hs : (s.nodes node).onPacket ⟨s.now, position, beyond, packet⟩ = .ok n') :
    Changed s node n' ((s.nodes node).outgoing n') net net ∨ isBeacon p.msg = false ∧
      ∃ net', AnnouncementNetwork.receive hasher net node position p = .ok net' ∧
        Changed s node n' ((s.nodes node).outgoing n') net net' := by
  unfold CcnNode.onPacket at hs
  by_cases hown : p.sender = (s.nodes node).id
  · -- the node has sent the packet itself
    rw [hc.packet_eq, hown, LinkLayer.handlePacket_own] at hs
    obtain rfl := Except.ok.inj hs
    have hchanged : Changed s node (s.nodes node) _ net
        (withHelper net node (s.nodes node).forward.content) :=
      content_changed hf rfl rfl rfl (hf.fresh node) (by simp [posts_same rfl])
    rw [withHelper_own hf] at hchanged
    exact .inl hchanged
  · rw [hc.handlePacket s.now beyond hown] at hs
    exact (receive_matched hf hc hs).imp And.right id

/-- What one act leads to, the network of messages can be led to by some of its acts. -/
theorem step_matched {event : ℕ × Act N} (hf : Follows s net)
    (hstep : step hasher s event = .ok s') :
    ∃ events net', run (noted (AnnouncementNetwork.step hasher) noting) (g, net) events =
      .ok (publish g s event s', net') ∧ Follows s' net' := by
  obtain ⟨wait, act⟩ := event
  have hlater := hf.later wait
  -- time passes while a packet that is not there is delivered
  have hwait : ∀ (node : N) (position : Vec2d),
      noted (AnnouncementNetwork.step hasher) noting (g, net)
        (wait, .deliver net.air.length node position) =
      .ok (g, AnnouncementNetwork.advance net wait) := by
    intro node position
    have hnone : AnnouncementNetwork.step hasher net (wait, .deliver net.air.length node position) =
        .ok (AnnouncementNetwork.advance net wait) := by
      simp [AnnouncementNetwork.step, AnnouncementNetwork.perform, AnnouncementNetwork.advance]
    exact noted_of_ok noting g hnone
  cases act with
  | run node position task =>
    simp only [step, perform] at hstep
    split at hstep
    · cases hstep
    · next n' ann htask =>
      obtain ⟨events, net', hrun, hfollows⟩ := task_matched (g := g) hlater htask hstep
      exact ⟨_ :: events, net', (run_cons_ok events (hwait node position)).trans hrun, hfollows⟩
  | deliver k node beyond position =>
    simp only [step, perform] at hstep
    have hnothing : ∀ {s'}, Follows s' (AnnouncementNetwork.advance net wait) →
        ∃ events net', run (noted (AnnouncementNetwork.step hasher) noting) (g, net) events =
          .ok (g, net') ∧ Follows s' net' := fun hfollows =>
      ⟨[_], _, run_cons_ok [] (hwait node position), hfollows⟩
    split at hstep
    · obtain rfl := Except.ok.inj hstep
      exact hnothing hlater
    · next packet hpacket =>
      split at hstep
      · cases hstep
      · next n' hreceived =>
        obtain ⟨packets, hcarries, hair⟩ := hf.air
        have hbeside := List.Forall₂.flip hcarries
        obtain ⟨p, hp, hc⟩ := getElem?_beside hbeside hpacket
        rcases onPacket_matched hasher hlater hc hreceived with
          hchanged | ⟨hbeacon, net', hreceive, hchanged⟩
        · exact hnothing (hlater.change hchanged hstep)
        · have hsent : p ∈ net.air := (mem_apartFromBeacons.mp
            (hair ▸ mem_apartFromBeacons.mpr ⟨List.mem_of_getElem? hp, hbeacon⟩)).1
          obtain ⟨k', hk'⟩ := List.mem_iff_getElem?.mp hsent
          have hdeliver : AnnouncementNetwork.step hasher net (wait, .deliver k' node position) =
              .ok net' := by
            have hget : (AnnouncementNetwork.advance net wait).air[k']? = some p := hk'
            simp only [AnnouncementNetwork.step, AnnouncementNetwork.perform, hget]
            exact hreceive
          exact ⟨[(wait, .deliver k' node position)], net', run_cons_ok [] (noted_of_ok noting g hdeliver),
            hlater.change hchanged hstep⟩

end Matching

section Runs

variable {N : Type} [DecidableEq N] {hasher : List UInt8 → Hash} {ids : N → NodeId}
  {now : TimePoint}

/-- The content helper with the schedulers as its only subscribers. -/
def heardBySchedulers (h : ContentHelper) : ContentHelper :=
  { h with blocksRequestedHandlers := [ForwardScheduler.onBlockrequest] }

/-- The schedulers of some nodes have subscribed. -/
def subscribed (nodes : List N) (net : AnnouncementNetwork.Network N) :
    AnnouncementNetwork.Network N :=
  { net with nodes := fun n =>
      if n ∈ nodes then
        { net.nodes n with contents := heardBySchedulers (net.nodes n).contents }
      else net.nodes n }

/-- The schedulers can subscribe in the network of messages, too. -/
theorem run_subscribed {nodes : List N} (hnodup : nodes.Nodup) (g : List (Publication hasher))
    {net : AnnouncementNetwork.Network N}
    (hnone : ∀ n ∈ nodes, (net.nodes n).contents.blocksRequestedHandlers = []) :
    run (noted (AnnouncementNetwork.step hasher) noting) (g, net) (nodes.map fun n =>
      (0, .call n ⟨0, 0⟩ (.subscribe ForwardScheduler.onBlockrequest))) =
      .ok (g, subscribed nodes net) := by
  induction nodes generalizing net with
  | nil => simp [subscribed]
  | cons n nodes ih =>
    rw [List.forall_mem_cons] at hnone
    obtain ⟨hn, hnodup⟩ := List.nodup_cons.mp hnodup
    have hs : ContentHelper.step hasher (net.nodes n).contents (surroundings net n ⟨0, 0⟩,
        .subscribe ForwardScheduler.onBlockrequest) =
          .ok (heardBySchedulers (net.nodes n).contents) := by
      simp [ContentHelper.step, ContentHelper.perform, modify_run, Except.map, hnone.1,
        heardBySchedulers]
    have hquiet : posts (newEffects (net.nodes n).contents
        (heardBySchedulers (net.nodes n).contents)) = [] := posts_same rfl
    have hother : ∀ m ∈ nodes, m ≠ n := fun m hm heq => hn (heq ▸ hm)
    have hrest := @ih hnodup (withHelper net n (heardBySchedulers (net.nodes n).contents))
      fun m hm => by simpa [withHelper, Function.update_of_ne (hother m hm)] using hnone.2 m hm
    have hcall : noted (AnnouncementNetwork.step hasher) noting (g, net)
        (0, .call n ⟨0, 0⟩ (.subscribe ForwardScheduler.onBlockrequest)) =
          .ok (g ++ [], withHelper net n (heardBySchedulers (net.nodes n).contents)) :=
      call_noted rfl hs
    rw [List.append_nil] at hcall
    rw [List.map_cons, run_cons_ok _ hcall, hrest]
    refine congrArg (fun net' => Except.ok (g, net')) ?_
    simp only [subscribed, withHelper, hquiet, List.map_nil, List.append_nil]
    congr 1
    funext m
    by_cases hm : m = n
    · subst hm
      simp [hn]
    · simp [hm]

theorem start_follows [Fintype N] (ids : N → NodeId) (now : TimePoint) :
    Follows (start ids now)
      (subscribed Finset.univ.toList (AnnouncementNetwork.start ids now)) where
  now := rfl
  nodes node := by
    simp only [subscribed, Finset.mem_toList, Finset.mem_univ, if_true]
    rfl
  contentId _ := rfl
  interestId _ := rfl
  fresh _ := ⟨fun _ hl => (List.not_mem_nil hl).elim, fun _ hr => (List.not_mem_nil hr).elim⟩
  air := ⟨[], .nil, rfl⟩

/-- The nodes follow one another, and the same has been published. -/
def Beside (r : List (Publication hasher) × Network N)
    (t : List (Publication hasher) × AnnouncementNetwork.Network N) : Prop :=
  r.1 = t.1 ∧ Follows r.2 t.2

theorem step_beside (r : List (Publication hasher) × Network N) (event : ℕ × Act N)
    (r' : List (Publication hasher) × Network N)
    (t : List (Publication hasher) × AnnouncementNetwork.Network N) (hbeside : Beside r t)
    (hs : noted (step hasher) publish r event = .ok r') :
    ∃ events t', run (noted (AnnouncementNetwork.step hasher) noting) t events = .ok t' ∧
      Beside r' t' := by
  obtain ⟨g, s⟩ := r
  obtain ⟨g', net⟩ := t
  obtain ⟨rfl, hfollows⟩ := hbeside
  obtain ⟨hstep, hnote⟩ := noted_ok hs
  obtain ⟨events, net', hrun, hfollows'⟩ := step_matched hfollows hstep
  exact ⟨events, _, hrun, hnote, hfollows'⟩

/-- A state of the network of packets is matched by one that the network of messages gets to with
the same publications. -/
def Matched (ids : N → NodeId) (now : TimePoint) (r : List (Publication hasher) × Network N) :
    Prop :=
  ∃ events net, run (noted (AnnouncementNetwork.step hasher) noting)
    ([], AnnouncementNetwork.start ids now) events = .ok (r.1, net) ∧ Follows r.2 net

variable [Fintype N]

theorem matched_of_run {now : TimePoint} {events : List (ℕ × Act N)}
    {r : List (Publication hasher) × Network N}
    (hr : run (noted (step hasher) publish) ([], start ids now) events = .ok r) :
    Matched ids now r := by
  have hsubscribed := @run_subscribed N _ hasher _ (Finset.nodup_toList Finset.univ) []
    (AnnouncementNetwork.start ids now) fun _ _ => rfl
  have hstart : Beside (([] : List (Publication hasher)), start ids now)
      ([], subscribed Finset.univ.toList (AnnouncementNetwork.start ids now)) :=
    ⟨rfl, start_follows ids now⟩
  obtain ⟨bs, ⟨g, net⟩, hrun, hsame, hfollows⟩ := run_matched Beside step_beside hstart hr
  dsimp only at hsame
  subst hsame
  exact ⟨_ ++ bs, net, (run_append bs hsubscribed).trans hrun, hfollows⟩

/-- In every run, the nodes get to no states but those they would get to by messages handed over
as they are, with the same publications and, beacons apart, the same messages in the air. -/
theorem packets_refine_messages (hasher : List UInt8 → Hash) (ids : N → NodeId) (now : TimePoint)
    (events : List (ℕ × Act N)) :
    Always (noted (step hasher) publish) (Matched ids now)
      (([] : List (Publication hasher)), start ids now) events :=
  always_of_run fun _ _ hr => matched_of_run hr

/-- Nothing in the tables and the caches is made up, and every packet is read without a fault by
any node at any time, as a message that is not made up either. -/
structure Genuine (r : List (Publication hasher) × Network N) : Prop where
  tables : ∀ node, Listed r.1 (r.2.nodes node).forward.content
  cache : ∀ node hash, ∀ b ∈ (r.2.nodes node).forward.content.cache.held hash,
    PieceOf r.1 ⟨hash, b.1⟩ b.2
  store : ∀ node hash, ∀ b ∈ (r.2.nodes node).forward.content.store.held hash,
    PieceOf r.1 ⟨hash, b.1⟩ b.2
  air : ∀ packet ∈ r.2.air, ∀ now id beyond, ∃ received,
    LinkLayer.handlePacket now id beyond packet = .ok received ∧
      ∀ header msg, received.delivered = some (header, msg) → TracedMessage r.1 msg

omit [Fintype N] [DecidableEq N] in
theorem received_traced {g : List (Publication hasher)} {msg : Message} (sent read : TimePoint)
    (hmsg : TracedMessage g msg) : TracedMessage g (msg.received sent read) := by
  cases msg with
  | contentAnn msg =>
    intro m hm
    obtain ⟨m₀, hm₀, rfl⟩ := List.mem_map.mp hm
    exact (hmsg m₀ hm₀).with m₀.hops _
  | blockResponse msg => exact hmsg
  | _ => trivial

omit [Fintype N] [DecidableEq N] in
/-- What is known of all states of the network of messages is known of what follows them. -/
theorem genuine_of_tracked {g : List (Publication hasher)} {s : Network N}
    {net : AnnouncementNetwork.Network N} (hf : Follows s net)
    (ht : Tracked Traced TracedMessage (g, net)) : Genuine (g, s) := by
  have hnode : ∀ node, Traced g (s.nodes node).forward.content := by
    intro node
    have htraced := ht.nodes node
    rw [hf.nodes node] at htraced
    exact htraced
  refine ⟨fun node => (hnode node).listed, fun node => (hnode node).genuine.cached,
    fun node => (hnode node).genuine.stored, fun packet hpacket now id beyond => ?_⟩
  obtain ⟨packets, hcarries, hair⟩ := hf.air
  obtain ⟨k, hk⟩ := List.mem_iff_getElem?.mp hpacket
  obtain ⟨p, hp, hc⟩ := getElem?_beside hcarries.flip hk
  by_cases hown : p.sender = id
  · refine ⟨⟨none, []⟩, ?_, by simp⟩
    rw [hc.packet_eq, hown]
    exact LinkLayer.handlePacket_own _ _ _ _ _
  · refine ⟨_, hc.handlePacket now beyond hown, fun header msg heq => ?_⟩
    obtain ⟨-, rfl⟩ := Prod.mk.inj (Option.some.inj heq)
    apply received_traced
    cases hbeacon : isBeacon p.msg with
    | false =>
      have hsent : p ∈ apartFromBeacons net.air :=
        hair ▸ mem_apartFromBeacons.mpr ⟨List.mem_of_getElem? hp, hbeacon⟩
      exact ht.air p (mem_apartFromBeacons.mp hsent).1
    | true => cases hmsg : p.msg <;> simp_all [isBeacon, TracedMessage]

theorem genuine_of_run {events : List (ℕ × Act N)} {r : List (Publication hasher) × Network N}
    (hr : run (noted (step hasher) publish) ([], start ids now) events = .ok r) : Genuine r := by
  obtain ⟨events', net, hrun, hf⟩ := matched_of_run hr
  exact genuine_of_tracked hf ((AnnouncementNetwork.always_traced hasher ids now events').last hrun)

/-- In every run, whatever bytes are in the air are read by all, and what the nodes have and hear
comes from where it was published. -/
theorem packets_come_from_publishers (hasher : List UInt8 → Hash) (ids : N → NodeId)
    (now : TimePoint) (events : List (ℕ × Act N)) :
    Always (noted (step hasher) publish) Genuine
      (([] : List (Publication hasher)), start ids now) events :=
  always_of_run fun _ _ hr => genuine_of_run hr

end Runs

end YingSma.NodeNetwork
