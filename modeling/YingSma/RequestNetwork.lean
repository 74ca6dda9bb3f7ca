import YingSma.AnnouncementNetwork
import YingSma.ContentHelperTraffic
import YingSma.ForwardScheduler

/-! A network of nodes that request blocks from each other and forward the requests they hear.
Beside every queued request and every message in the air stands where it comes from. -/
namespace YingSma.RequestNetwork
open TransitionRuns StateActions ContentHelper ForwardScheduler
open AnnouncementNetwork (Packet posts isReceive)

structure Network (N : Type) where
  now : TimePoint
  nodes : N → Node
  air : List Packet

/-- What a node does by itself, and deliveries of what is in the air to any node at any time. -/
inductive Event (N : Type)
  | act (node : N) (env : Surroundings) (act : Act)
  | deliver (k : ℕ) (node : N) (env : Surroundings)

/-- The request that was issued, when, and how long its copies have been in the air so far. -/
structure Lineage where
  issuedAt : TimePoint
  request : BlockRequestArgs
  inFlight : ℤ

namespace Lineage

/-- When the request was to end, and the time in the air on top. -/
def deadline (l : Lineage) : TimePoint := l.issuedAt + l.request.ttlMs.toNat * milli + l.inFlight

def later (l : Lineage) (delay : ℤ) : Lineage := { l with inFlight := l.inFlight + delay }

theorem deadline_later (l : Lineage) (delay : ℤ) : (l.later delay).deadline = l.deadline + delay :=
  (add_assoc _ _ _).symm

end Lineage

/-- The requests in a message. -/
def requestsIn : Message → List BlockRequestArgs
  | .blockRequest msg => msg.requests
  | _ => []

/-- The call with which a node receives a message. -/
def received (now : TimePoint) (p : Packet) : Option Op :=
  match p.msg with
  | .contentAnn msg => some (.receiveContentAnn (msg.received p.sentAt now))
  | .blockRequest msg => some (.receiveBlockRequest ⟨p.sender, []⟩ msg)
  | .blockResponse msg => some (.receiveBlockResponse msg)
  | _ => none

/-- Messages are received by delivery only. -/
def isOwn : Act → Bool
  | .call op => !isReceive op
  | _ => true

section Steps

variable {N : Type} [DecidableEq N]

/-- An act of a node at the time of the network puts what it posts into the air. -/
def within (hasher : List UInt8 → Hash) (net : Network N) (node : N) (env : Surroundings)
    (act : Act) : Except Fault (Network N) :=
  (ForwardScheduler.step hasher (net.nodes node) ({ env with now := net.now }, act)).map fun n =>
    { net with
      nodes := Function.update net.nodes node n
      air := net.air ++ (posts (newEffects (net.nodes node).content n.content)).map fun msg =>
        ⟨net.now, (net.nodes node).content.id, msg⟩ }

def perform (hasher : List UInt8 → Hash) (net : Network N) : Event N → Except Fault (Network N)
  | .act node env act => if isOwn act then within hasher net node env act else .ok net
  | .deliver k node env =>
      match net.air[k]? with
      | none => .ok net
      | some p =>
          match received net.now p with
          | none => .ok net
          | some op => within hasher net node env (.call op)

/-- The network when its next event comes, `wait` nanoseconds after the last one. -/
def advance (net : Network N) (wait : ℕ) : Network N := { net with now := net.now + wait }

def step (hasher : List UInt8 → Hash) (net : Network N) (event : ℕ × Event N) :
    Except Fault (Network N) :=
  perform hasher (advance net event.1) event.2

def start (flags : N → Flags) (ids : N → NodeId) (now : TimePoint) : Network N :=
  ⟨now, fun node => ForwardScheduler.new (flags node) (ids node), []⟩

end Steps

/-- Where the queued requests of each node, and the requests of each message in the air, come from. -/
structure Notes (N : Type) where
  queued : N → List Lineage
  carried : List (List Lineage)

def Notes.empty {N : Type} : Notes N := ⟨fun _ => [], []⟩

/-- Where the requests that the next round forwards come from. -/
def forwardedLineages (now : TimePoint) (n : Node) (queued : List Lineage) : List Lineage :=
  (((n.schedulers.requests.requestQueue.take 10).zip (queued.take 10)).filter fun entry =>
    entry.1.expireTime ≥ now ∧ !n.content.has entry.1.block).map Prod.snd

/-- Where the requests that an event hands to the scheduler come from. -/
def heardLineages (lineages : List Lineage) : Effect → List Lineage
  | .blocksRequested handler _ requests =>
      if handler = onBlockrequest then lineages.take requests.length else []
  | _ => []

section Noting

variable {N : Type} [DecidableEq N]

/-- The requests a node posts otherwise are issued by it. -/
def carriedBy (g : Notes N) (net : Network N) (now : TimePoint) (event : Event N) (p : Packet) :
    List Lineage :=
  match event with
  | .act node _ .schedRequests => forwardedLineages now (net.nodes node) (g.queued node)
  | _ => (requestsIn p.msg).map fun request => ⟨now, request, 0⟩

def note (g : Notes N) (net : Network N) (event : ℕ × Event N) (net' : Network N) : Notes N where
  queued :=
    match event.2 with
    | .act node _ .schedRequests => Function.update g.queued node ((g.queued node).drop 10)
    | .deliver k node _ =>
        match net.air[k]?, g.carried[k]? with
        | some p, some lineages => Function.update g.queued node (g.queued node ++
            (newEffects (net.nodes node).content (net'.nodes node).content).flatMap
              (heardLineages (lineages.map fun l => l.later (net'.now - p.sentAt))))
        | _, _ => g.queued
    | _ => g.queued
  carried := g.carried ++
    (net'.air.drop net.air.length).map (carriedBy g net net'.now event.2)

end Noting

/-- A queued request is for the block and the requester of the one it descends from, and ends by
its deadline. -/
structure Queued (desc : BlockRequestDesc) (l : Lineage) : Prop where
  block : desc.block = l.request.block
  requester : desc.requester = l.request.requester
  deadline : desc.expireTime ≤ l.deadline

/-- So does a posted one. -/
structure Posted (sentAt : TimePoint) (request : BlockRequestArgs) (l : Lineage) : Prop where
  block : request.block = l.request.block
  requester : request.requester = l.request.requester
  deadline : sentAt + request.ttlMs.toNat * milli ≤ l.deadline

/-- All requests of the network keep the deadlines of those they descend from. -/
structure Kept {N : Type} (r : Notes N × Network N) : Prop where
  queues : ∀ node, List.Forall₂ Queued (r.2.nodes node).schedulers.requests.requestQueue
    (r.1.queued node)
  air : List.Forall₂ (fun p lineages => List.Forall₂ (Posted p.sentAt) (requestsIn p.msg) lineages)
    r.2.air r.1.carried

/-- One round takes at most ten requests off the front of the queue and posts just those that are
still alive and for blocks that are not there, in their order, and before the deadline of what they
descend from. -/
structure Forwards (now : TimePoint) (n n' : Node) (queued : List Lineage) : Prop where
  taken : n'.schedulers.requests.requestQueue = n.schedulers.requests.requestQueue.drop 10
  posted : (posts (newEffects n.content n'.content)).flatMap requestsIn =
    ((n.schedulers.requests.requestQueue.take 10).filter fun desc =>
      decide (now ≤ desc.expireTime) && !n.content.has desc.block).map fun desc =>
        (desc.toArgs now).toBlockRequestArgs
  inTime : ∀ l ∈ forwardedLineages now n queued, now ≤ l.deadline

section Descent

variable {now : TimePoint} {sentAt : TimePoint}

theorem posted_issued (now : TimePoint) (requests : List BlockRequestArgs) :
    List.Forall₂ (Posted now) requests (requests.map fun request => ⟨now, request, 0⟩) := by
  rw [List.forall₂_map_right_iff, List.forall₂_same]
  intro request _
  exact ⟨rfl, rfl, (add_zero _).ge⟩

/-- The time in the air is made up for when a request is heard. -/
theorem queued_of_posted (sender : NodeId) {request : BlockRequestArgs} {l : Lineage}
    (hposted : Posted sentAt request l) :
    Queued (BlockRequestDesc.ofArgs now sender request) (l.later (now - sentAt)) := by
  refine ⟨hposted.block, hposted.requester, ?_⟩
  have hdeadline := hposted.deadline
  rw [Lineage.deadline_later]
  simp only [BlockRequestDesc.ofArgs]
  linarith

theorem heard_queued {lineages : List Lineage} {requests : List BlockRequestArgs} {es : List Effect}
    (hposted : List.Forall₂ (Posted sentAt) requests lineages)
    (hcalls : ∀ handler sender reqs, .blocksRequested handler sender reqs ∈ es →
      reqs = requests ∨ reqs = []) :
    List.Forall₂ Queued (es.flatMap (heard now))
      (es.flatMap (heardLineages (lineages.map fun l => l.later (now - sentAt)))) := by
  induction es with
  | nil => exact .nil
  | cons e es ih =>
    have hrest := ih fun handler sender reqs hmem => hcalls handler sender reqs (.tail _ hmem)
    rw [List.flatMap_cons, List.flatMap_cons]
    apply List.rel_append _ hrest
    cases e with
    | blocksRequested handler sender reqs =>
      unfold heard heardLineages
      dsimp only
      split_ifs
      · rcases hcalls handler sender reqs (.head _) with rfl | rfl
        · rw [hposted.length_eq, ← List.length_map (fun l : Lineage => l.later (now - sentAt)),
            List.take_length, List.forall₂_map_left_iff, List.forall₂_map_right_iff]
          exact hposted.imp fun request l => queued_of_posted sender
        · exact .nil
      · exact .nil
    | _ => exact .nil

/-- What is forwarded while it is alive ends no later than before. -/
theorem posted_of_queued {desc : BlockRequestDesc} {l : Lineage} (hqueued : Queued desc l)
    (halive : now ≤ desc.expireTime) : Posted now (desc.toArgs now).toBlockRequestArgs l :=
  ⟨hqueued.block, hqueued.requester,
    (BlockRequestScheduler.toArgs_deadline halive).trans hqueued.deadline⟩

theorem forwarded_posted (h : ContentHelper) {descs : List BlockRequestDesc}
    {lineages : List Lineage} (hqueued : List.Forall₂ Queued descs lineages) :
    List.Forall₂ (Posted now)
      ((h.missing ((descs.filter fun desc => desc.expireTime ≥ now).map
        (BlockRequestDesc.toArgs now))).map LocalRequestArgs.toBlockRequestArgs)
      (((descs.zip lineages).filter fun entry =>
        entry.1.expireTime ≥ now ∧ !h.has entry.1.block).map Prod.snd) := by
  induction hqueued with
  | nil => exact .nil
  | @cons desc l descs lineages hone _ ih =>
    have hblock : (desc.toArgs now).block = desc.block := rfl
    unfold missing at ih ⊢
    by_cases halive : now ≤ desc.expireTime
    · cases hhas : h.has desc.block with
      | true => simpa [halive, hhas, hblock] using ih
      | false =>
        have hposted := posted_of_queued hone halive
        simpa [halive, hhas, hblock] using And.intro hposted ih
    · simpa [halive] using ih

theorem forwarded_inTime (h : ContentHelper) {descs : List BlockRequestDesc}
    {lineages : List Lineage} (hqueued : List.Forall₂ Queued descs lineages) :
    ∀ l ∈ ((descs.zip lineages).filter fun entry =>
      entry.1.expireTime ≥ now ∧ !h.has entry.1.block).map Prod.snd, now ≤ l.deadline := by
  intro l hl
  obtain ⟨⟨desc, l'⟩, hmem, rfl⟩ := List.mem_map.mp hl
  obtain ⟨hmem, halive⟩ := List.mem_filter.mp hmem
  have hqueued := (List.forall₂_zip hqueued hmem).deadline
  have halive : now ≤ desc.expireTime := by
    simp only [decide_eq_true_eq] at halive
    exact halive.1
  exact halive.trans hqueued

end Descent

section Nodes

variable {hasher : List UInt8 → Hash} {env : Surroundings} {n n' : Node}

theorem newEffects_unheard {h h' : ContentHelper} (hunheard : Unheard h h') (now : TimePoint) :
    (newEffects h h').flatMap (heard now) = [] := by
  obtain ⟨es, hes, hnot⟩ := hunheard
  rw [newEffects_eq hes, List.flatMap_eq_nil_iff]
  intro e he
  cases e with
  | blocksRequested handler sender reqs => exact (hnot handler sender reqs he).elim
  | _ => rfl

theorem call_ok {op : Op} (hs : ForwardScheduler.step hasher n (env, .call op) = .ok n') :
    ContentHelper.step hasher n.content (env, op) = .ok n'.content := by
  obtain ⟨out, hcall, rfl⟩ := map_eq_ok hs
  rw [ContentHelper.step, hcall]
  rfl

theorem carryOut_unheard (commands : Commands) {h h' : ContentHelper} {u : Unit}
    (hrun : carryOut env commands h = .ok (u, h')) : Unheard h h' := by
  have hmoves : Keeps (Moves env (.frozen [] true) []) (carryOut env commands) :=
    keeps_bind (frozen_moves rfl _ _) fun _ => keeps_bind (frozen_moves rfl _ _) fun _ =>
      keeps_forEach fun _ _ => keeps_discard (broadcast_moves _)
  have hop : ¬ (Op.frozen [] true).firesRequested := Bool.false_ne_true
  exact moves_unheard hop (hmoves h u h' hrun)

/-- Nothing but a request that is received and a round of forwarding touches the queue. -/
theorem step_queue {act : Act} (hact : act ≠ .schedRequests)
    (hop : ∀ op, act = .call op → ¬ op.firesRequested)
    (hs : ForwardScheduler.step hasher n (env, act) = .ok n') :
    n'.schedulers.requests.requestQueue = n.schedulers.requests.requestQueue := by
  cases act with
  | call op =>
    rw [callContent_queue hs, newEffects_unheard (step_unheard (hop op rfl) (call_ok hs)),
      List.append_nil]
  | schedRequests => exact (hact rfl).elim
  | schedResponses round =>
    obtain ⟨⟨commands, requests, responses⟩, hsched, hcall⟩ := bind_ok hs
    have hcall : Node.callContent env (carryOut env commands)
        ⟨n.content, ⟨requests, responses⟩⟩ = .ok n' := hcall
    obtain ⟨u, hcarry⟩ := callContent_ok hcall
    rw [callContent_queue hcall, newEffects_unheard (carryOut_unheard commands hcarry),
      List.append_nil]
    exact BlockResponseScheduler.sched_requestQueue hsched

theorem posts_traffic (es : List Effect) : posts (es.filter Effect.isTraffic) = posts es := by
  unfold posts
  rw [List.filterMap_filter]
  apply List.filterMap_congr
  intro e _
  cases e <;> rfl

theorem posts_requests (toSend : List LocalRequestArgs) :
    (posts (requestPost toSend)).flatMap requestsIn =
      toSend.map LocalRequestArgs.toBlockRequestArgs := by
  unfold requestPost
  split_ifs with hnone
  · rw [hnone]
    rfl
  · exact List.append_nil _

/-- What a round asks the content helper to request. -/
theorem sched_eq (now : TimePoint) (s : BlockRequestScheduler) :
    s.sched now = (((s.requestQueue.take 10).filter fun desc => desc.expireTime ≥ now).map
      (BlockRequestDesc.toArgs now), { s with requestQueue := s.requestQueue.drop 10 }) := by
  rw [BlockRequestScheduler.sched, BlockRequestScheduler.fwdRequests,
    BlockRequestScheduler.drain_eq]

/-- A round returns, and posts what is left of its requests in one message. -/
theorem schedRequests_run (hasher : List UInt8 → Hash) (env : Surroundings) (n : Node) :
    ∃ n', ForwardScheduler.step hasher n (env, .schedRequests) = .ok n' ∧
      n'.schedulers.requests.requestQueue = n.schedulers.requests.requestQueue.drop 10 ∧
      posts (newEffects n.content n'.content) = posts (requestPost
        (n.content.missing (n.schedulers.requests.sched env.now).1)) := by
  have hsched := sched_eq env.now n.schedulers.requests
  by_cases hnone : (n.schedulers.requests.sched env.now).1 = []
  · refine ⟨⟨n.content, ⟨(n.schedulers.requests.sched env.now).2, n.schedulers.responses⟩⟩,
      if_pos hnone, ?_, ?_⟩
    · rw [hsched]
    · rw [hnone, newEffects_eq (List.append_nil n.content.effects).symm]
      rfl
  · have hlen : (n.content.missing (n.schedulers.requests.sched env.now).1).length ≤ 255 := by
      refine (List.length_filter_le _ _).trans ?_
      rw [hsched, List.length_map]
      refine (List.length_filter_le _ _).trans ((List.length_take_le _ _).trans ?_)
      decide
    have hrun := request_run env n.content hlen
    obtain ⟨es, hes, htraffic⟩ :=
      @requested_traffic env n.content (n.schedulers.requests.sched env.now).1
    have hcall : Node.callContent env (request env (n.schedulers.requests.sched env.now).1)
        ⟨n.content, ⟨(n.schedulers.requests.sched env.now).2, n.schedulers.responses⟩⟩ = .ok
        ⟨n.content.requested env (n.schedulers.requests.sched env.now).1,
          hear env.now (newEffects n.content (n.content.requested env
            (n.schedulers.requests.sched env.now).1))
            ⟨(n.schedulers.requests.sched env.now).2, n.schedulers.responses⟩⟩ := by
      rw [Node.callContent, hrun]
      rfl
    refine ⟨_, (if_neg hnone).trans hcall, ?_, ?_⟩
    · have hunheard : Unheard n.content
          (n.content.requested env (n.schedulers.requests.sched env.now).1) := by
        have hop : ¬ (Op.request (n.schedulers.requests.sched env.now).1).firesRequested :=
          Bool.false_ne_true
        exact moves_unheard hop (@requested_moves env _ _ _ _ (List.Subset.refl _))
      rw [callContent_queue hcall, newEffects_unheard hunheard, List.append_nil, hsched]
    · rw [newEffects_eq hes, ← posts_traffic, htraffic]

end Nodes

section Runs

variable {N : Type} {hasher : List UInt8 → Hash} {g : Notes N} {net net' : Network N}
  {node : N} {env : Surroundings} {act : Act}

theorem kept_start (flags : N → Flags) (ids : N → NodeId) (now : TimePoint) :
    Kept (Notes.empty, start flags ids now) :=
  ⟨fun _ => .nil, .nil⟩

/-- Nothing happens. -/
theorem idle_kept (hkept : Kept (g, net)) (carry : Packet → List Lineage) :
    Kept (⟨g.queued, g.carried ++ (net.air.drop net.air.length).map carry⟩, net) := by
  rw [List.drop_length, List.map_nil, List.append_nil]
  exact hkept

theorem wait_kept {wait : ℕ} (hkept : Kept (g, net)) : Kept (g, advance net wait) :=
  ⟨hkept.queues, hkept.air⟩

variable [DecidableEq N]

theorem within_ok (hs : within hasher net node env act = .ok net') :
    ∃ n, ForwardScheduler.step hasher (net.nodes node) ({ env with now := net.now }, act) = .ok n ∧
      net' = { net with
        nodes := Function.update net.nodes node n
        air := net.air ++ (posts (newEffects (net.nodes node).content n.content)).map fun msg =>
          ⟨net.now, (net.nodes node).content.id, msg⟩ } := by
  obtain ⟨n, hstep, rfl⟩ := map_eq_ok hs
  exact ⟨n, hstep, rfl⟩

/-- The node has done the step, and no time has passed. -/
theorem within_node (hs : within hasher net node env act = .ok net') :
    ForwardScheduler.step hasher (net.nodes node) ({ env with now := net.now }, act) =
      .ok (net'.nodes node) ∧ net'.now = net.now := by
  obtain ⟨n, hstep, rfl⟩ := within_ok hs
  refine ⟨?_, rfl⟩
  rw [hstep]
  exact congrArg Except.ok (Function.update_self node n net.nodes).symm

/-- One node acts, and beside its queue and beside what it posts stands where they come from. -/
theorem within_kept {lineages : List Lineage} {carry : Packet → List Lineage}
    (hkept : Kept (g, net)) (hs : within hasher net node env act = .ok net')
    (hqueue : List.Forall₂ Queued (net'.nodes node).schedulers.requests.requestQueue lineages)
    (hposts : ∀ msg ∈ posts (newEffects (net.nodes node).content (net'.nodes node).content),
      List.Forall₂ (Posted net.now) (requestsIn msg)
        (carry ⟨net.now, (net.nodes node).content.id, msg⟩)) :
    Kept (⟨Function.update g.queued node lineages,
      g.carried ++ (net'.air.drop net.air.length).map carry⟩, net') := by
  obtain ⟨n, hstep, rfl⟩ := within_ok hs
  simp only [Function.update_self] at hqueue hposts
  constructor
  · exact @update_beside N _ (List Lineage) Node
      (fun _ lineages n => List.Forall₂ Queued n.schedulers.requests.requestQueue lineages)
      _ _ _ _ _ hkept.queues hqueue
  · dsimp only
    rw [List.drop_left]
    apply List.rel_append hkept.air
    rw [List.forall₂_map_right_iff, List.forall₂_same]
    intro p hp
    obtain ⟨msg, hmsg, rfl⟩ := List.mem_map.mp hp
    exact hposts msg hmsg

theorem schedRequests_kept (hkept : Kept (g, net))
    (hs : within hasher net node env .schedRequests = .ok net') :
    Kept (⟨Function.update g.queued node ((g.queued node).drop 10),
      g.carried ++ (net'.air.drop net.air.length).map fun _ =>
        forwardedLineages net.now (net.nodes node) (g.queued node)⟩, net') := by
  have hqueued := hkept.queues node
  obtain ⟨n', hstep, hqueue, hposts⟩ :=
    schedRequests_run hasher { env with now := net.now } (net.nodes node)
  have hnode : net'.nodes node = n' :=
    Except.ok.inj ((within_node hs).1.symm.trans hstep)
  apply within_kept hkept hs
  · rw [hnode, hqueue]
    exact List.forall₂_drop 10 hqueued
  · intro msg hmsg
    rw [hnode, hposts, sched_eq] at hmsg
    unfold requestPost at hmsg
    split_ifs at hmsg
    · cases hmsg
    · obtain rfl := List.mem_singleton.mp hmsg
      exact forwarded_posted (net.nodes node).content (List.forall₂_take 10 hqueued)

/-- A delivery puts the requests it brings into the queue. -/
theorem deliver_kept {p : Packet} {lineages : List Lineage} {op : Op} (hkept : Kept (g, net))
    (hp : List.Forall₂ (Posted p.sentAt) (requestsIn p.msg) lineages)
    (hop : received net.now p = some op) (hs : within hasher net node env (.call op) = .ok net') :
    Kept (⟨Function.update g.queued node (g.queued node ++
        (newEffects (net.nodes node).content (net'.nodes node).content).flatMap
          (heardLineages (lineages.map fun l => l.later (net.now - p.sentAt)))),
      g.carried ++ (net'.air.drop net.air.length).map fun q =>
        (requestsIn q.msg).map fun request => ⟨net.now, request, 0⟩⟩, net') := by
  have hstep := (within_node hs).1
  have hcalls : ∃ es, (net'.nodes node).content.effects = (net.nodes node).content.effects ++ es ∧
      ∀ handler sender reqs, .blocksRequested handler sender reqs ∈ es →
        reqs = requestsIn p.msg ∨ reqs = [] := by
    have hcall := call_ok hstep
    cases hmsg : p.msg with
    | blockRequest msg =>
      rw [received, hmsg] at hop
      obtain rfl := Option.some.inj hop
      exact step_request_heard hcall
    | _ =>
      have hunheard : ¬ op.firesRequested := by
        rw [received, hmsg] at hop
        cases hop <;> exact Bool.false_ne_true
      obtain ⟨es, hes, hnot⟩ := step_unheard hunheard hcall
      exact ⟨es, hes, fun handler sender reqs hmem => (hnot handler sender reqs hmem).elim⟩
  obtain ⟨es, hes, hcalls⟩ := hcalls
  apply within_kept hkept hs
  · have hqueue : (net'.nodes node).schedulers.requests.requestQueue = _ := callContent_queue hstep
    rw [hqueue, newEffects_eq hes]
    exact List.rel_append (hkept.queues node) (heard_queued hp hcalls)
  · intro msg _
    exact posted_issued _ _

theorem own_kept (hkept : Kept (g, net)) (hact : act ≠ .schedRequests) (hown : isOwn act)
    (hs : within hasher net node env act = .ok net') :
    Kept (⟨g.queued, g.carried ++ (net'.air.drop net.air.length).map fun q =>
      (requestsIn q.msg).map fun request => ⟨net.now, request, 0⟩⟩, net') := by
  have hop : ∀ op, act = .call op → ¬ op.firesRequested := by
    rintro op rfl
    cases op with
    | receiveBlockRequest header msg => cases hown
    | _ => exact Bool.false_ne_true
  have hqueue : List.Forall₂ Queued (net'.nodes node).schedulers.requests.requestQueue
      (g.queued node) := by
    rw [step_queue hact hop (within_node hs).1]
    exact hkept.queues node
  have hnext := @within_kept N hasher g net net' node env act _ (g.queued node)
    (fun q => (requestsIn q.msg).map fun request => ⟨net.now, request, 0⟩) hkept hs hqueue
    fun msg _ => posted_issued net.now (requestsIn msg)
  rwa [Function.update_eq_self] at hnext

theorem act_kept {wait : ℕ} (hkept : Kept (g, net))
    (hs : step hasher net (wait, .act node env act) = .ok net') :
    Kept (note g net (wait, .act node env act) net', net') := by
  simp only [step, perform] at hs
  split_ifs at hs with hown
  · have hnow := (within_node hs).2
    by_cases hact : act = .schedRequests
    · subst hact
      simp only [note, hnow]
      exact schedRequests_kept (wait_kept hkept) hs
    · have hnote : note g net (wait, .act node env act) net' = ⟨g.queued,
          g.carried ++ (net'.air.drop net.air.length).map fun q =>
            (requestsIn q.msg).map fun request => ⟨net'.now, request, 0⟩⟩ := by
        cases act with
        | schedRequests => exact (hact rfl).elim
        | _ => rfl
      rw [hnote, hnow]
      exact own_kept (wait_kept hkept) hact hown hs
  · obtain rfl := Except.ok.inj hs
    cases act with
    | schedRequests => exact (hown rfl).elim
    | _ => exact idle_kept (wait_kept hkept) _

theorem hear_kept {wait k : ℕ} (hkept : Kept (g, net))
    (hs : step hasher net (wait, .deliver k node env) = .ok net') :
    Kept (note g net (wait, .deliver k node env) net', net') := by
  simp only [step, perform] at hs
  have hair : (advance net wait).air = net.air := rfl
  rw [hair] at hs
  cases hp : net.air[k]? with
  | none =>
    simp only [hp] at hs
    obtain rfl := Except.ok.inj hs
    simp only [note, hp]
    exact idle_kept (wait_kept hkept) _
  | some p =>
    obtain ⟨lineages, hlineages, hposted⟩ := getElem?_beside hkept.air hp
    simp only [hp] at hs
    simp only [note, hp, hlineages]
    cases hop : received (advance net wait).now p with
    | none =>
      simp only [hop] at hs
      obtain rfl := Except.ok.inj hs
      have hnone : newEffects (net.nodes node).content ((advance net wait).nodes node).content = [] :=
        newEffects_eq (List.append_nil _).symm
      rw [hnone, List.flatMap_nil, List.append_nil, Function.update_eq_self]
      exact idle_kept (wait_kept hkept) _
    | some op =>
      simp only [hop] at hs
      rw [(within_node hs).2]
      exact deliver_kept (wait_kept hkept) hposted hop hs

theorem note_kept {event : ℕ × Event N} (hkept : Kept (g, net))
    (hs : step hasher net event = .ok net') : Kept (note g net event net', net') := by
  obtain ⟨wait, event⟩ := event
  cases event with
  | act node env act => exact act_kept hkept hs
  | deliver k node env => exact hear_kept hkept hs

/-- A round of forwarding returns and does what it should, and whatever else happens only adds to
the end of the queues. -/
structure ForwardsInOrder (hasher : List UInt8 → Hash) (r : Notes N × Network N)
    (event : ℕ × Event N) : Prop where
  rounds : ∀ node env, event.2 = .act node env .schedRequests →
    ∃ net', step hasher r.2 event = .ok net' ∧
      Forwards net'.now (r.2.nodes node) (net'.nodes node) (r.1.queued node)
  others : ∀ net' node, step hasher r.2 event = .ok net' →
    (∀ env, event.2 ≠ .act node env .schedRequests) →
      (r.2.nodes node).schedulers.requests.requestQueue <+:
        (net'.nodes node).schedulers.requests.requestQueue

theorem rounds_forward (hkept : Kept (g, net)) (wait : ℕ) (node : N) (env : Surroundings) :
    ∃ net', step hasher net (wait, .act node env .schedRequests) = .ok net' ∧
      Forwards net'.now (net.nodes node) (net'.nodes node) (g.queued node) := by
  obtain ⟨n', hstep, hqueue, hposts⟩ :=
    schedRequests_run hasher { env with now := (advance net wait).now } (net.nodes node)
  have hwithin : within hasher (advance net wait) node env .schedRequests = .ok _ :=
    congrArg (Except.map _) hstep
  refine ⟨_, hwithin, ?_⟩
  have hnode : Function.update (advance net wait).nodes node n' node = n' :=
    Function.update_self _ _ _
  dsimp only
  rw [hnode]
  constructor
  case taken => exact hqueue
  case posted =>
    rw [hposts, posts_requests, sched_eq, missing, List.filter_map, List.map_map,
      List.filter_filter]
    simp only [Bool.and_comm]
    rfl
  case inTime => exact forwarded_inTime (net.nodes node).content (List.forall₂_take 10 (hkept.queues node))

/-- Only at the node of the event a queue changes, and there at its end. -/
theorem within_queue (hs : within hasher net node env act = .ok net')
    (hact : act ≠ .schedRequests) (other : N) :
    (net.nodes other).schedulers.requests.requestQueue <+:
      (net'.nodes other).schedulers.requests.requestQueue := by
  obtain ⟨n, hstep, rfl⟩ := within_ok hs
  dsimp only
  by_cases hnode : other = node
  · subst hnode
    rw [Function.update_self]
    cases act with
    | call op =>
      have hqueue : n.schedulers.requests.requestQueue = _ := callContent_queue hstep
      rw [hqueue]
      exact List.prefix_append _ _
    | schedRequests => exact (hact rfl).elim
    | schedResponses round =>
      rw [step_queue hact (fun op heq => by cases heq) hstep]
  · rw [Function.update_of_ne hnode]

theorem others_append {event : ℕ × Event N} (hs : step hasher net event = .ok net')
    (hevent : ∀ env, event.2 ≠ .act node env .schedRequests) :
    (net.nodes node).schedulers.requests.requestQueue <+:
      (net'.nodes node).schedulers.requests.requestQueue := by
  obtain ⟨wait, event⟩ := event
  cases event with
  | act node' env act =>
    simp only [step, perform] at hs
    split_ifs at hs
    · by_cases hact : act = .schedRequests
      · subst hact
        have hne : node ≠ node' := by
          rintro rfl
          exact hevent env rfl
        obtain ⟨n, -, rfl⟩ := within_ok hs
        dsimp only
        rw [Function.update_of_ne hne]
        exact List.prefix_rfl
      · exact within_queue hs hact node
    · obtain rfl := Except.ok.inj hs
      exact List.prefix_rfl
  | deliver k node' env =>
    simp only [step, perform] at hs
    split at hs
    · obtain rfl := Except.ok.inj hs
      exact List.prefix_rfl
    · split at hs
      · obtain rfl := Except.ok.inj hs
        exact List.prefix_rfl
      · exact within_queue hs (fun heq => by cases heq) node

/-- Every copy of a request keeps to the deadline of the request it descends from, in every run of
the network, and is forwarded before it and at most once by each node that hears it. -/
theorem requests_keep_deadlines (hasher : List UInt8 → Hash) (flags : N → Flags) (ids : N → NodeId)
    (now : TimePoint) (events : List (ℕ × Event N)) :
    Always (noted (step hasher) note) Kept (Notes.empty, start flags ids now) events ∧
      Each (noted (step hasher) note) (ForwardsInOrder hasher) (Notes.empty, start flags ids now)
        events := by
  have hstep : ∀ (r : Notes N × Network N) (event : ℕ × Event N) (r' : Notes N × Network N),
      Kept r → noted (step hasher) note r event = .ok r' → Kept r' := by
    rintro ⟨g, net⟩ event r' hkept hs
    obtain ⟨hs, hg⟩ := noted_ok hs
    have hnext := note_kept hkept hs
    rw [← hg] at hnext
    exact hnext
  have hstart := kept_start flags ids now
  constructor
  · exact always_of_run fun r past hr => run_invariant Kept hstep hstart hr
  · apply each_of_prefixes
    rintro past ⟨wait, event⟩ r _ hr
    have hkept : Kept r := run_invariant Kept hstep hstart hr
    constructor
    · rintro node env rfl
      exact rounds_forward hkept wait node env
    · exact fun net' node hs hevent => others_append hs hevent

end Runs

end YingSma.RequestNetwork
