import YingSma.NodeNetworkRuns

/-! What a node asks for by itself: the blocks of a content that another node has published. -/
namespace YingSma

namespace AnnouncementNetwork
open TransitionRuns ContentHelper

variable {N : Type} [DecidableEq N] {hasher : List UInt8 → Hash}

/-- The metadata give the size of the content, which is that of a few blocks. -/
structure Proper (p : Publication hasher) : Prop where
  size : p.metadata.size = UInt32.ofNat p.src.length
  blockSize_eq : p.metadata.blockSize = UInt32.ofNat blockSize
  nonempty : p.src ≠ []
  few : ContentCache.blockCount p.src.length ≤ 16

/-- No content gets published that the cache cannot hold. -/
theorem createNew_few {h h' : ContentHelper} {env : Surroundings} {types : List ContentType}
    {name : ContentName} {src : List UInt8} (hsound : Sound h)
    (hs : ContentHelper.step hasher h (env, .createNew types name src) = .ok h') :
    ContentCache.blockCount src.length ≤ 16 := by
  obtain ⟨m, hstore, -⟩ := step_createNew_ok hs
  rcases ContentCache.store_ok hstore with ⟨-, ⟨existing, he, hlen, -⟩ | ⟨hnew, -⟩⟩
  · exact hlen ▸ hsound.cache.entry_le he
  · exact (ContentCache.store_room hsound.cache.bounded hstore hnew).trans hsound.cache.free_le

theorem publish_proper {g : List (Publication hasher)} {net net' : Network N} {event : ℕ × Act N}
    (ht : Tracked Traced TracedMessage (g, net)) (hg : ∀ p ∈ g, Proper p)
    (hs : step hasher net event = .ok net') : ∀ p ∈ publish g net event, Proper p := by
  obtain ⟨wait, act⟩ := event
  unfold publish
  split
  · next node position types name src hact =>
    dsimp only at hact
    subst hact
    obtain ⟨h', hcreate, -⟩ := withContents_ok hs
    have hsound : Sound (net.nodes node).contents := (ht.nodes node).toSound
    intro p hp
    rcases List.mem_append.mp hp with hp | hp
    · exact hg p hp
    · obtain rfl := List.mem_singleton.mp hp
      exact ⟨rfl, rfl, createNew_nonempty hsound hcreate, createNew_few hsound hcreate⟩
  · exact hg

theorem proper_of_run {ids : N → NodeId} {now : TimePoint} {events : List (ℕ × Act N)}
    {r : List (Publication hasher) × Network N}
    (hr : run (noted (step hasher) fun g net event _ => publish g net event)
      ([], start ids now) events = .ok r) : ∀ p ∈ r.1, Proper p := by
  let kept (r : List (Publication hasher) × Network N) : Prop :=
    Tracked Traced TracedMessage r ∧ ∀ p ∈ r.1, Proper p
  refine (run_invariant kept ?_ ⟨(always_traced hasher ids now []).head, by simp⟩ hr).2
  rintro ⟨g, net⟩ event r' ⟨ht, hg⟩ hs
  obtain ⟨hstep, hnote⟩ := noted_ok hs
  have hnext := step_tracked (trackable hasher) ht hstep
  have hproper := publish_proper ht hg hstep
  rw [← hnote] at hnext hproper
  exact ⟨hnext, hproper⟩

end AnnouncementNetwork

namespace BehaviorHelper
open StateActions TransitionRuns ContentHelper
open AnnouncementNetwork (Publication Proper posts)

variable {hasher : List UInt8 → Hash} {env : Surroundings} {h : ContentHelper}

/-- The metadata `metadata` lists. -/
def listed (now : TimePoint) (h : ContentHelper) : List ContentMetadata :=
  h.lmt.map LocalMetadata.data ++
    (h.rmt.filter fun r => !r.data.expired now).map RemoteMetadata.data

/-- The requests for the blocks of a content. -/
def requestsFor (env : Surroundings) (id : NodeId) (hash : Hash) (count : ℕ) :
    List LocalRequestArgs :=
  (List.range count).map fun i =>
    { block := ⟨hash, UInt16.ofNat i⟩, utility := utilityOne, ttlMs := 20000, requester := id,
      requesterPosition := env.position, hopsFromBlock := 1, keepOnArrival := false,
      localOnly := false }

/-- As many blocks are asked for as the content has. -/
theorem behaviorRequests_proper {p : Publication hasher} (hp : Proper p) {m : ContentMetadata}
    (hm : m = { p.metadata with hops := m.hops, expiryTime := m.expiryTime }) (id : NodeId) :
    behaviorRequests env id m =
      .ok (requestsFor env id p.metadata.hash (ContentCache.blockCount p.src.length)) := by
  have hhash : m.hash = p.metadata.hash := by rw [hm]
  have hsize : m.size = UInt32.ofNat p.src.length := by rw [hm]; exact hp.size
  have hblock : m.blockSize = UInt32.ofNat blockSize := by rw [hm]; exact hp.blockSize_eq
  have hpos : 0 < p.src.length := List.length_pos_iff.mpr hp.nonempty
  have hfew := hp.few
  have hcount : (1 + (m.size - 1) / m.blockSize).toNat = ContentCache.blockCount p.src.length := by
    rw [hsize, hblock]
    unfold ContentCache.blockCount blockSize at *
    rw [if_neg hpos.ne'] at hfew ⊢
    have hlen : p.src.length < 2 ^ 32 := by omega
    have hone : (1 : UInt32) ≤ UInt32.ofNat p.src.length := by
      rw [UInt32.le_iff_toNat_le, UInt32.toNat_ofNat', Nat.mod_eq_of_lt hlen]
      exact hpos
    rw [UInt32.toNat_add, UInt32.toNat_div, UInt32.toNat_sub_of_le _ _ hone, UInt32.toNat_ofNat',
      Nat.mod_eq_of_lt hlen]
    have hmod : 1024 % 2 ^ 32 = 1024 := rfl
    simp only [UInt32.toNat_ofNat', UInt32.toNat_one, hmod]
    omega
  have hne : m.blockSize ≠ 0 := by
    rw [hblock]
    decide
  unfold behaviorRequests
  rw [if_neg hne]
  dsimp only
  rw [hcount, if_pos (by omega), hhash]
  rfl

/-- The helper with the expired metadata dropped. -/
def pruned (now : TimePoint) (h : ContentHelper) : ContentHelper :=
  { h with rmt := h.rmt.filter fun r => !r.data.expired now }

/-- Metadata of one of the publications, but for the hops and the time left. -/
def DescribedBy (p : Publication hasher) (m : ContentMetadata) : Prop :=
  m = { p.metadata with hops := m.hops, expiryTime := m.expiryTime }

/-- What becomes of the metadata that are picked, if any. -/
theorem behaveRequest_pick {env : Surroundings} {rand : ℕ} {pick : Option ContentMetadata}
    (hpick : (metaVec h.id (listed env.now h))[
      rand % (metaVec h.id (listed env.now h)).length]? = pick) :
    behaveRequest env rand h = (pick.elim (pure ()) fun m => do
      let requests ← attempt (behaviorRequests env h.id m)
      request env requests : Action Unit) (pruned env.now h) := by
  have hmetadata : metadata env h = .ok (listed env.now h, pruned env.now h) := rfl
  unfold behaveRequest
  rw [bind_run_ok (get_run h)]
  refine (bind_run_ok hmetadata).trans ?_
  simp only [hpick]
  cases pick <;> rfl

theorem behaveRequest_run (env : Surroundings) {g : List (Publication hasher)}
    (hproper : ∀ p ∈ g, Proper p)
    (hknown : ∀ m ∈ metaVec h.id (listed env.now h), ∃ p ∈ g, DescribedBy p m) (rand : ℕ) :
    (metaVec h.id (listed env.now h) = [] ∧
        behaveRequest env rand h = .ok ((), pruned env.now h)) ∨
      ∃ m ∈ metaVec h.id (listed env.now h), ∃ p ∈ g, DescribedBy p m ∧
        behaveRequest env rand h = .ok ((), (pruned env.now h).requested env
          (requestsFor env h.id p.metadata.hash (ContentCache.blockCount p.src.length))) := by
  cases hpick : (metaVec h.id (listed env.now h))[
      rand % (metaVec h.id (listed env.now h)).length]? with
  | none =>
    refine .inl ⟨?_, (behaveRequest_pick hpick).trans (pure_run () _)⟩
    by_contra hne
    have hlt := Nat.mod_lt rand (List.length_pos_iff.mpr hne)
    rw [List.getElem?_eq_getElem hlt] at hpick
    cases hpick
  | some m =>
    have hm := List.mem_of_getElem? hpick
    obtain ⟨p, hp, hdescribed⟩ := hknown m hm
    have hattempt : (attempt (behaviorRequests env h.id m) : Action _) (pruned env.now h) =
        .ok (requestsFor env h.id p.metadata.hash (ContentCache.blockCount p.src.length),
          pruned env.now h) := by
      rw [behaviorRequests_proper (hproper p hp) hdescribed]
      rfl
    refine .inr ⟨m, hm, p, hp, hdescribed, ?_⟩
    rw [behaveRequest_pick hpick, Option.elim, bind_run_ok hattempt, request_run]
    have hfew := (hproper p hp).few
    refine (length_missing_le _ _).trans ?_
    simp only [requestsFor, List.length_map, List.length_range]
    omega

theorem posts_of_traffic (es : List Effect) : posts es = posts (es.filter Effect.isTraffic) := by
  unfold posts
  rw [List.filterMap_filter]
  refine List.filterMap_congr fun e _ => ?_
  cases e <;> rfl

/-- What is posted are the requests for the blocks that are not there. -/
theorem requested_posts (env : Surroundings) (h : ContentHelper) (reqs : List LocalRequestArgs) :
    posts (newEffects h ((pruned env.now h).requested env reqs)) =
      if h.missing reqs = [] then []
      else [.blockRequest ⟨(h.missing reqs).map LocalRequestArgs.toBlockRequestArgs⟩] := by
  obtain ⟨es, hes, htraffic⟩ := @requested_traffic env (pruned env.now h) reqs
  have hsame : (pruned env.now h).missing reqs = h.missing reqs := by
    unfold missing
    simp only [show ∀ block, (pruned env.now h).has block = h.has block from
      fun block => has_congr rfl rfl block]
  rw [newEffects_eq (show _ = h.effects ++ es from hes), posts_of_traffic, htraffic, hsame,
    requestPost]
  split_ifs <;> rfl

end BehaviorHelper

namespace NodeNetwork
open TransitionRuns ContentHelper BehaviorHelper
open AnnouncementNetwork (Publication Proper proper_of_run posts)

variable {N : Type} [DecidableEq N] {hasher : List UInt8 → Hash}

/-- The packet, if any, that asks for the blocks of a content which a node does not have. -/
def asking (n : CcnNode) (now : TimePoint) (position : Vec2d) (hash : Hash) (count : ℕ) :
    List (List UInt8) :=
  let missing := n.forward.content.missing (requestsFor (n.around now position) n.id hash count)
  if missing = [] then []
  else [wirePacket now ⟨n.id, []⟩
    (.blockRequest ⟨missing.map LocalRequestArgs.toBlockRequestArgs⟩)]

/-- The node does not fail, and if it knows of any content of another node it asks for the blocks
that it lacks of one that has been published. -/
def AsksForContent (g : List (Publication hasher)) (s : Network N) (node : N) (position : Vec2d)
    (result : Except Fault (Network N)) : Prop :=
  let n := s.nodes node
  let known := metaVec n.id (listed s.now n.forward.content)
  ∃ s', result = .ok s' ∧ (known = [] ∧ s'.air = s.air ∨
    ∃ m ∈ known, ∃ p ∈ g, DescribedBy p m ∧ p.metadata.publisher ≠ n.id ∧
      s'.air = s.air ++ asking n s.now position p.metadata.hash
        (ContentCache.blockCount p.src.length))

section Asking

variable {g : List (Publication hasher)} {s : Network N} {node : N} {position : Vec2d} {rand : ℕ}

/-- A task that ends well has its posts sent, if they fit. -/
theorem perform_content (hasher : List UInt8 → Hash) {h' : ContentHelper}
    (hrun : behaveRequest ((s.nodes node).around s.now position) rand
      (s.nodes node).forward.content = .ok ((), h'))
    (hfits : ∀ msg ∈ posts (newEffects (s.nodes node).forward.content h'), msg.Fits) :
    ∃ s', perform hasher s (.run node position (.behaveRequest rand)) = .ok s' ∧
      s'.air = s.air ++ (posts (newEffects (s.nodes node).forward.content h')).map
        (wirePacket s.now ⟨(s.nodes node).id, []⟩) := by
  have htask : (s.nodes node).perform hasher s.now position (.behaveRequest rand) =
      .ok ({ s.nodes node with forward := ⟨h', ForwardScheduler.hear s.now
        (newEffects (s.nodes node).forward.content h') (s.nodes node).forward.schedulers⟩ }, none) := by
    simp only [CcnNode.perform, CcnNode.withForward, ForwardScheduler.Node.callContent, hrun]
    rfl
  simp only [perform, htask, change]
  rw [show ((none : Option InterestAnn).toList.map Message.interestAnn ++
      (s.nodes node).outgoing { s.nodes node with forward := ⟨h', ForwardScheduler.hear s.now
        (newEffects (s.nodes node).forward.content h') (s.nodes node).forward.schedulers⟩ }) =
      posts (newEffects (s.nodes node).forward.content h') by simp [CcnNode.outgoing],
    enqueue_fits hfits]
  exact ⟨_, rfl, rfl⟩

theorem asks_for_content (hproper : ∀ p ∈ g, Proper p)
    (hlisted : AnnouncementNetwork.Listed g (s.nodes node).forward.content)
    (hid : (s.nodes node).forward.content.id = (s.nodes node).id) (rand : ℕ) :
    AsksForContent g s node position
      (perform hasher s (.run node position (.behaveRequest rand))) := by
  have hknown : ∀ m ∈ metaVec (s.nodes node).id (listed s.now (s.nodes node).forward.content),
      ∃ p ∈ g, DescribedBy p m := by
    intro m hm
    obtain ⟨hm, hother⟩ := List.mem_filter.mp hm
    rcases List.mem_append.mp hm with hm | hm
    · obtain ⟨l, hl, rfl⟩ := List.mem_map.mp hm
      obtain ⟨p, hp, heq, -⟩ := hlisted.lmt l hl
      exact ⟨p, hp, by rw [DescribedBy, heq]⟩
    · obtain ⟨r, hr, rfl⟩ := List.mem_map.mp hm
      exact hlisted.rmt r (List.mem_filter.mp hr).1
  have hrun := behaveRequest_run ((s.nodes node).around s.now position) hproper
    (hid.symm ▸ hknown) rand
  rw [hid] at hrun
  rcases hrun with ⟨hnone, hrun⟩ | ⟨m, hm, p, hp, hdescribed, hrun⟩
  · have hquiet : posts (newEffects (s.nodes node).forward.content
        (pruned ((s.nodes node).around s.now position).now (s.nodes node).forward.content)) = [] :=
      posts_same rfl
    obtain ⟨s', hs, hair⟩ := perform_content hasher hrun (by simp [hquiet])
    exact ⟨s', hs, .inl ⟨hnone, by rw [hair, hquiet, List.map_nil, List.append_nil]⟩⟩
  · have hposts := requested_posts ((s.nodes node).around s.now position)
      (s.nodes node).forward.content (requestsFor ((s.nodes node).around s.now position)
        (s.nodes node).id p.metadata.hash (ContentCache.blockCount p.src.length))
    have hfew : ((s.nodes node).forward.content.missing (requestsFor
        ((s.nodes node).around s.now position) (s.nodes node).id p.metadata.hash
        (ContentCache.blockCount p.src.length))).length ≤ 255 := by
      refine (length_missing_le _ _).trans ?_
      have hcount := (hproper p hp).few
      simp only [requestsFor, List.length_map, List.length_range]
      omega
    obtain ⟨s', hs, hair⟩ := perform_content hasher hrun (by
      intro msg hmsg
      rw [hposts] at hmsg
      split_ifs at hmsg
      · cases hmsg
      · rw [List.mem_singleton.mp hmsg, fits_blockRequest_iff, List.length_map]
        exact hfew)
    refine ⟨s', hs, .inr ⟨m, hm, p, hp, hdescribed, ?_, ?_⟩⟩
    · have hother := (List.mem_filter.mp hm).2
      rw [hdescribed] at hother
      simpa using hother
    · rw [hair, hposts, asking]
      split_ifs <;> rfl

variable [Fintype N]

theorem asks_after_run {ids : N → NodeId} {now : TimePoint} {events : List (ℕ × Act N)}
    {r : List (Publication hasher) × Network N}
    (hr : run (noted (step hasher) publish) ([], start ids now) events = .ok r) (wait : ℕ) (node : N)
    (position : Vec2d) (rand : ℕ) :
    AsksForContent r.1 { r.2 with now := r.2.now + wait } node position
      (step hasher r.2 (wait, .run node position (.behaveRequest rand))) := by
  obtain ⟨events', net, hrun, hf⟩ := matched_of_run hr
  have hproper : ∀ p ∈ r.1, Proper p := proper_of_run hrun
  have hlisted := (genuine_of_run hr).tables node
  have hid := hf.contentId node
  have hstep : step hasher r.2 (wait, .run node position (.behaveRequest rand)) =
      perform hasher { r.2 with now := r.2.now + wait }
        (.run node position (.behaveRequest rand)) := rfl
  rw [hstep]
  generalize hlater : ({ r.2 with now := r.2.now + wait } : Network N) = s
  have hnodes : r.2.nodes = s.nodes := by rw [← hlater]
  rw [hnodes] at hlisted hid
  exact asks_for_content hproper hlisted hid rand

/-- In every run, `behave_request` does not fail at any node, and it asks for what is missing of
one content that another node has published, for all its blocks and nothing else, or for
nothing if no such content is known. -/
theorem behave_request_asks (hasher : List UInt8 → Hash) (ids : N → NodeId) (now : TimePoint)
    (events : List (ℕ × Act N)) :
    Each (noted (step hasher) publish) (fun r event => ∀ node position rand,
        event.2 = .run node position (.behaveRequest rand) →
          AsksForContent r.1 { r.2 with now := r.2.now + event.1 } node position
            (step hasher r.2 event))
      (([] : List (Publication hasher)), start ids now) events := by
  refine each_of_prefixes ?_
  rintro past ⟨wait, act⟩ r - hr node position rand rfl
  exact asks_after_run hr wait node position rand

end Asking

end NodeNetwork

end YingSma
