import YingSma.NodeNetwork

/-! The packets between nodes do for them what messages handed over as they are would do. -/
namespace YingSma

namespace ContentHelper
open StateActions TransitionRuns
open AnnouncementNetwork (posts)

variable {hasher : List UInt8 → Hash} {env : Surroundings} {h h' : ContentHelper} {op : Op}

/-- Whatever a call has posted fits a message buffer. -/
theorem step_within (hs : step hasher h (env, op) = .ok h') : PostsWithin h h' := by
  obtain ⟨u, hrun⟩ := map_snd_ok hs
  by_cases hann : op = .announceMetadata
  · subst hann
    by_cases hsmall : OneMessage (willAnnounce env h)
    · exact (endsFrom_discard (announceMetadata_encoding hsmall)).keeps u h' hrun
    · obtain ⟨e, -, herror⟩ := announceMetadata_unfit hsmall
      cases (discard_error herror).symm.trans hrun
  · by_cases hreq : ∃ reqs, op = .request reqs
    · obtain ⟨reqs, rfl⟩ := hreq
      by_cases hfew : (h.missing reqs).length ≤ 255
      · exact (request_encoding hfew).keeps u h' hrun
      · obtain ⟨e, -, herror⟩ := @request_unfit env h reqs hfew
        cases herror.symm.trans hrun
    · exact (perform_encoding hann (fun reqs heq => hreq ⟨reqs, heq⟩) h).keeps u h' hrun

/-- What two calls have posted, one after the other. -/
theorem posts_trans {h₁ : ContentHelper} (hw : PostsWithin h h₁) (hw' : PostsWithin h₁ h') :
    posts (newEffects h h') = posts (newEffects h h₁) ++ posts (newEffects h₁ h') := by
  obtain ⟨es, hes, -⟩ := hw
  obtain ⟨es', hes', -⟩ := hw'
  rw [newEffects_eq hes, newEffects_eq hes',
    newEffects_eq (show h'.effects = h.effects ++ (es ++ es') by rw [hes', hes, List.append_assoc])]
  exact List.filterMap_append

theorem posts_same (heffects : h'.effects = h.effects) : posts (newEffects h h') = [] := by
  rw [newEffects_eq (heffects.trans (List.append_nil _).symm)]
  rfl

theorem run_within {calls : List (Surroundings × Op)} (hr : run (step hasher) h calls = .ok h') :
    PostsWithin h h' ∧ h'.id = h.id := by
  refine run_invariant (fun h₁ => PostsWithin h h₁ ∧ h₁.id = h.id) ?_ ⟨refl_of _ h, rfl⟩ hr
  rintro h₁ ⟨env, op⟩ h₂ ⟨hw, hid⟩ hs
  exact ⟨trans_of _ hw (step_within hs), (step_tables hs).id_eq.trans hid⟩

/-- No metadata have longer to live than new ones. -/
structure Fresh (now : TimePoint) (h : ContentHelper) : Prop where
  lmt : ∀ l ∈ h.lmt, l.data.expiryTime ≤ now + defaultInitialTtl
  rmt : ∀ r ∈ h.rmt, r.data.expiryTime ≤ now + defaultInitialTtl

theorem Fresh.later {now now' : TimePoint} (hf : Fresh now h) (hle : now ≤ now') : Fresh now' h where
  lmt l hl := (hf.lmt l hl).trans (Int.add_le_add_right hle _)
  rmt r hr := (hf.rmt r hr).trans (Int.add_le_add_right hle _)

theorem Fresh.willAnnounce (hf : Fresh env.now h) {m : ContentMetadata}
    (hm : m ∈ ContentHelper.willAnnounce env h) : m.expiryTime ≤ env.now + defaultInitialTtl := by
  rcases List.mem_append.mp hm with hm | hm
  · obtain ⟨l, hl, rfl⟩ := List.mem_map.mp hm
    exact hf.lmt l (List.mem_filter.mp hl).1
  · obtain ⟨r, hr, rfl⟩ := List.mem_map.mp hm
    exact hf.rmt r (List.mem_filter.mp (List.mem_filter.mp hr).1).1

theorem itemStep_fresh {m : ContentMetadata} (hf : Fresh env.now h)
    (hm : m.expiryTime ≤ env.now + defaultInitialTtl) (hs : itemStep env h m = .ok h') :
    Fresh env.now h' := by
  have hdis := itemStep_discovers hs
  refine ⟨fun l hl => hf.lmt l (hdis.lmt_eq ▸ hl), fun r hr => ?_⟩
  cases hdis with
  | own => exact hf.rmt r hr
  | known => exact hf.rmt r hr
  | closer hother hfind hnear =>
    obtain ⟨before, behind, hsplit, -, hupdated⟩ := updateHops_split hfind
    rw [hupdated] at hr
    have hold : ∀ x ∈ before ++ _ :: behind, x.data.expiryTime ≤ env.now + defaultInitialTtl :=
      fun x hx => hf.rmt x (hsplit ▸ hx)
    rcases List.mem_append.mp hr with hr | hr
    · exact hold r (List.mem_append_left _ hr)
    · rcases List.mem_cons.mp hr with rfl | hr
      · have hnearer := hold _ (List.mem_append_right _ List.mem_cons_self)
        exact hnearer
      · exact hold r (List.mem_append_right _ (List.mem_cons_of_mem _ hr))
  | created hother hfind hafter =>
    rw [hafter.rmt_eq] at hr
    rcases List.mem_append.mp hr with hr | hr
    · exact hf.rmt r hr
    · rw [List.mem_singleton.mp hr]
      exact hm

theorem step_fresh (hf : Fresh env.now h)
    (hmsg : ∀ msg, op = .receiveContentAnn msg →
      ∀ m ∈ msg.metadata, m.expiryTime ≤ env.now + defaultInitialTtl)
    (hs : step hasher h (env, op) = .ok h') : Fresh env.now h' := by
  have htab := step_tables hs
  rcases htab.rmt_cases with ⟨msg, rfl, hrun⟩ | hsub
  · exact run_keeps (Fresh env.now) (fun m hm _ _ hf hs => itemStep_fresh hf (hmsg msg rfl m hm) hs)
      hf hrun
  · refine ⟨fun l hl => ?_, fun r hr => ?_⟩
    · rcases htab.lmt_mem hl with ⟨l₀, hl₀, heq⟩ | ⟨-, -, hnew⟩
      · rw [← heq]
        exact hf.lmt l₀ hl₀
      · exact hnew.le
    · obtain ⟨r₀, hr₀, heq⟩ := List.mem_map.mp (hsub.subset (List.mem_map_of_mem hr))
      rw [← heq]
      exact hf.rmt r₀ hr₀

end ContentHelper

namespace InterestHelper
open TransitionRuns

@[simp] theorem createLocal_id (now : TimePoint) (type : ContentType) (h : InterestHelper) :
    (createLocal now type h).id = h.id := by
  unfold createLocal
  dsimp only
  split
  · split_ifs <;> rfl
  · rfl

@[simp] theorem learnRemote_id (now : TimePoint) (i : Interest) (h : InterestHelper) :
    (learnRemote now i h).id = h.id := by
  unfold learnRemote
  split
  · dsimp only
    split_ifs <;> rfl
  · rfl

theorem foldl_learnRemote_id (now : TimePoint) (interests : List Interest) (h : InterestHelper) :
    (interests.foldl (fun h i => learnRemote now { i with hops := i.hops + 1 } h) h).id = h.id := by
  induction interests generalizing h with
  | nil => rfl
  | cons i interests ih => rw [List.foldl_cons, ih, learnRemote_id]

theorem receive_id {now : TimePoint} {msg : InterestAnn} {h h' : InterestHelper}
    (hs : receive now msg h = .ok h') : h'.id = h.id := by
  obtain ⟨interests, -, rfl⟩ := map_eq_ok hs
  exact foldl_learnRemote_id now interests h

theorem announceLoop_id {now : TimePoint} {fuel : ℕ} {h h' : InterestHelper} {p p' : Packing}
    (hs : announceLoop now fuel h p = .ok (h', p')) : h'.id = h.id := by
  induction fuel generalizing h p with
  | zero =>
    obtain ⟨rfl, -⟩ := Prod.mk.inj (Except.ok.inj hs)
    rfl
  | succ fuel ih =>
    unfold announceLoop at hs
    split_ifs at hs
    · split at hs
      · obtain ⟨rfl, -⟩ := Prod.mk.inj (Except.ok.inj hs)
        rfl
      · dsimp only at hs
        split_ifs at hs
        · have hid := ih hs
          exact hid
        · split at hs
          · cases hs
          · split_ifs at hs
            · obtain ⟨rfl, -⟩ := Prod.mk.inj (Except.ok.inj hs)
              rfl
            · obtain ⟨rfl, -⟩ := Prod.mk.inj (Except.ok.inj hs)
              rfl
            · have hid := ih hs
              exact hid
    · obtain ⟨rfl, -⟩ := Prod.mk.inj (Except.ok.inj hs)
      rfl

theorem announce_id {now : TimePoint} {fuzz : ℕ} {stack : ByteMemory} {h h' : InterestHelper}
    {a : Announcement} (hs : announce now fuzz stack h = .ok (a, h')) : h'.id = h.id := by
  unfold announce at hs
  split_ifs at hs
  · obtain ⟨-, rfl⟩ := Prod.mk.inj (Except.ok.inj hs)
    rfl
  · split at hs
    · cases hs
    · next rotated p hloop =>
      have hid := announceLoop_id hloop
      dsimp only at hs
      generalize hafter : (if rotated.toAnnounce = 0 then
          { rotated with
            toAnnounce := UInt64.ofNat rotated.interests.length
            nextAnnounceTime := now + minAnnounceInterval + fuzz * milli }
          else rotated) = after at hs
      have hsame : after.id = h.id := by
        rw [← hafter]
        split_ifs <;> exact hid
      split_ifs at hs
      · split at hs
        · cases hs
        · obtain ⟨-, rfl⟩ := Prod.mk.inj (Except.ok.inj hs)
          exact hsame
      · obtain ⟨-, rfl⟩ := Prod.mk.inj (Except.ok.inj hs)
        exact hsame

end InterestHelper

namespace NodeNetwork
open TransitionRuns ContentHelper StateActions
open AnnouncementNetwork (Packet Publication isReceive posts surroundings withContents withInterests)

section Packets

/-- The bytes a message was sent as, with no more time left than new metadata have. -/
structure Carries (p : Packet) (packet : List UInt8) : Prop where
  packet_eq : packet = wirePacket p.sentAt ⟨p.sender, []⟩ p.msg
  encodable : p.msg.Encodable
  short : ∀ msg, p.msg = .contentAnn msg → ∀ m ∈ msg.metadata,
    m.expiryTime ≤ p.sentAt + defaultInitialTtl

theorem ttl_le {m : ContentMetadata} {now : TimePoint}
    (hm : m.expiryTime ≤ now + defaultInitialTtl) : m.ttl now * milli ≤ defaultInitialTtl := by
  unfold ContentMetadata.ttl
  split_ifs
  · exact Int.zero_mul milli ▸ (by decide : (0 : ℤ) ≤ defaultInitialTtl)
  · have hmul : (m.expiryTime - now) / milli * milli ≤ m.expiryTime - now :=
      Int.ediv_mul_le _ (by decide)
    exact hmul.trans (Int.sub_left_le_of_le_add hm)

theorem Carries.ttlFits {p : Packet} {packet : List UInt8} (hc : Carries p packet) :
    p.msg.TtlFits p.sentAt := by
  have hshort := hc.short
  cases hmsg : p.msg with
  | contentAnn msg =>
    intro m hm
    have hle := ttl_le (hshort msg hmsg m hm)
    unfold defaultInitialTtl milli at hle
    omega
  | _ => trivial

/-- Another node reads the message. -/
theorem Carries.handlePacket {p : Packet} {packet : List UInt8} (hc : Carries p packet)
    (now : TimePoint) {id : NodeId} (beyond : NodeId) (hne : p.sender ≠ id) :
    LinkLayer.handlePacket now id beyond packet =
      .ok ⟨some (⟨p.sender, []⟩, p.msg.received p.sentAt now), []⟩ := by
  rw [hc.packet_eq]
  exact LinkLayer.handlePacket_broadcast p.sentAt now beyond hne hc.encodable hc.ttlFits

theorem replace_eq_ok {now : TimePoint} {id : NodeId} {msg : Message} {packet : List UInt8}
    (hr : MessageBuffer.replace bufferSize now ⟨id, []⟩ msg = .ok packet) :
    msg.Encodable ∧ packet = wirePacket now ⟨id, []⟩ msg := by
  by_cases hfits : msg.Fits
  · exact ⟨hfits.1, Except.ok.inj (hr.symm.trans (replace_fits hfits now id))⟩
  · obtain ⟨e, -, herror⟩ := replace_unfit hfits now id
    cases herror.symm.trans hr

theorem enqueue_ok {now : TimePoint} {id : NodeId} {msgs : List Message}
    {packets : List (List UInt8)} (hs : enqueue now id msgs = .ok packets) :
    List.Forall₂ (fun msg packet => msg.Encodable ∧ packet = wirePacket now ⟨id, []⟩ msg) msgs
      packets := by
  induction msgs generalizing packets with
  | nil =>
    obtain rfl := Except.ok.inj hs
    exact .nil
  | cons msg msgs ih =>
    unfold enqueue at hs
    split at hs
    · next packet rest hreplace hrest =>
      obtain rfl := Except.ok.inj hs
      exact .cons (replace_eq_ok hreplace) (ih hrest)
    · cases hs
    · cases hs

/-- Messages that fit are all sent. -/
theorem enqueue_fits {now : TimePoint} {id : NodeId} {msgs : List Message}
    (hfits : ∀ msg ∈ msgs, msg.Fits) :
    enqueue now id msgs = .ok (msgs.map (wirePacket now ⟨id, []⟩)) := by
  induction msgs with
  | nil => rfl
  | cons msg msgs ih =>
    rw [List.forall_mem_cons] at hfits
    simp only [enqueue, replace_fits hfits.1, ih hfits.2, List.map_cons]

end Packets

section Calls

variable {N : Type} [DecidableEq N] {hasher : List UInt8 → Hash} {g : List (Publication hasher)}
  {net : AnnouncementNetwork.Network N} {node : N} {position : Vec2d} {h' : ContentHelper}

/-- The network of messages with another content helper at a node and what it has posted. -/
def withHelper (net : AnnouncementNetwork.Network N) (node : N) (h' : ContentHelper) :
    AnnouncementNetwork.Network N :=
  { net with
    nodes := Function.update net.nodes node { net.nodes node with contents := h' }
    air := net.air ++ (posts (newEffects (net.nodes node).contents h')).map fun msg =>
      ⟨net.now, (net.nodes node).contents.id, msg⟩ }

theorem withHelper_same : withHelper net node (net.nodes node).contents = net := by
  simp [withHelper, posts_same rfl]

theorem withHelper_trans {h₁ : ContentHelper} (hw : PostsWithin (net.nodes node).contents h₁)
    (hw' : PostsWithin h₁ h') (hid : h₁.id = (net.nodes node).contents.id) :
    withHelper (withHelper net node h₁) node h' = withHelper net node h' := by
  simp [withHelper, posts_trans hw hw', hid]

theorem withContents_eq {op : Op} (hs : ContentHelper.step hasher (net.nodes node).contents
      (surroundings net node position, op) = .ok h') :
    withContents hasher net node position op = .ok (withHelper net node h') := by
  simp only [withContents, hs]
  rfl

/-- The publications as the network of messages notes them. -/
abbrev noting : List (Publication hasher) → AnnouncementNetwork.Network N →
    ℕ × AnnouncementNetwork.Act N → AnnouncementNetwork.Network N → List (Publication hasher) :=
  fun g net event _ => AnnouncementNetwork.publish g net event

omit [DecidableEq N] in
theorem advance_zero (net : AnnouncementNetwork.Network N) : AnnouncementNetwork.advance net 0 = net := by
  simp [AnnouncementNetwork.advance]

theorem call_noted {op : Op} (hrec : isReceive op = false)
    (hs : ContentHelper.step hasher (net.nodes node).contents
      (surroundings net node position, op) = .ok h') :
    noted (AnnouncementNetwork.step hasher) noting (g, net) (0, .call node position op) =
      .ok (g ++ publishedBy hasher (surroundings net node position) (net.nodes node).contents.id op,
        withHelper net node h') := by
  have hstep : AnnouncementNetwork.step hasher net (0, .call node position op) =
      .ok (withHelper net node h') := by
    simp only [AnnouncementNetwork.step, advance_zero, AnnouncementNetwork.perform, hrec]
    exact withContents_eq hs
  rw [noted_of_ok _ g hstep]
  cases op <;> simp [AnnouncementNetwork.publish, publishedBy, advance_zero]

/-- Calls of one helper are made in the network of messages one by one. -/
theorem calls_noted {ops : List Op} (hrec : ∀ op ∈ ops, isReceive op = false)
    (hr : run (ContentHelper.step hasher) (net.nodes node).contents
      (ops.map fun op => (surroundings net node position, op)) = .ok h') :
    run (noted (AnnouncementNetwork.step hasher) noting) (g, net)
        (ops.map fun op => (0, .call node position op)) =
      .ok (g ++ ops.flatMap (publishedBy hasher (surroundings net node position)
          (net.nodes node).contents.id), withHelper net node h') := by
  induction ops generalizing g net with
  | nil =>
    obtain rfl := Except.ok.inj hr
    simp [withHelper_same]
  | cons op ops ih =>
    obtain ⟨h₁, hs, hr₁⟩ := run_cons_eq_ok hr
    rw [List.forall_mem_cons] at hrec
    have hnode : (withHelper net node h₁).nodes node = { net.nodes node with contents := h₁ } :=
      Function.update_self _ _ _
    have henv : surroundings (withHelper net node h₁) node position =
        surroundings net node position := by simp only [surroundings, hnode]; rfl
    have hid : h₁.id = (net.nodes node).contents.id := (step_tables hs).id_eq
    have hrest := @ih (g ++ publishedBy hasher (surroundings net node position)
      (net.nodes node).contents.id op) (withHelper net node h₁) hrec.2
      (by rw [hnode, henv]; exact hr₁)
    rw [List.map_cons, run_cons_ok _ (call_noted hrec.1 hs), hrest, henv, hnode, hid,
      withHelper_trans (step_within hs) (run_within hr₁).1 hid, List.flatMap_cons,
      List.append_assoc]

end Calls

section Tasks

variable {hasher : List UInt8 → Hash} {env : Surroundings} {n n' : CcnNode}
  {f f' : ForwardScheduler.Node} {now : TimePoint} {position : Vec2d}

/-- The content helper is led from one state to the other by calls that receive nothing. -/
def Called (hasher : List UInt8 → Hash) (env : Surroundings) (ops : List Op) (h h' : ContentHelper) :
    Prop :=
  (∀ op ∈ ops, isReceive op = false) ∧
    run (ContentHelper.step hasher) h (ops.map fun op => (env, op)) = .ok h'

theorem Called.none (h : ContentHelper) : Called hasher env [] h h := ⟨by simp, rfl⟩

theorem Called.one {op : Op} {h h' : ContentHelper} (hrec : isReceive op = false)
    (hs : ContentHelper.step hasher h (env, op) = .ok h') : Called hasher env [op] h h' :=
  ⟨by simpa using hrec, run_cons_ok [] hs⟩

theorem Called.append {ops ops' : List Op} {h h₁ h' : ContentHelper}
    (hc : Called hasher env ops h h₁) (hc' : Called hasher env ops' h₁ h') :
    Called hasher env (ops ++ ops') h h' := by
  refine ⟨fun op hop => (List.mem_append.mp hop).elim (hc.1 op) (hc'.1 op), ?_⟩
  rw [List.map_append, run_append _ hc.2]
  exact hc'.2

theorem broadcasts_called {blocks : List BlockRef} {h h' : ContentHelper} {u : Unit}
    (hrun : forEach (fun block => discard (broadcast env block)) blocks h = .ok (u, h')) :
    Called hasher env (blocks.map Op.broadcast) h h' := by
  induction blocks generalizing h with
  | nil =>
    obtain ⟨-, rfl⟩ := Prod.mk.inj (Except.ok.inj hrun)
    exact .none h
  | cons block blocks ih =>
    obtain ⟨_, h₁, hfirst, hrest⟩ := bind_eq_ok hrun
    have hs : ContentHelper.step hasher h (env, .broadcast block) = .ok h₁ :=
      BehaviorHelper.perform_step hfirst
    exact (Called.one rfl hs).append (ih hrest)

/-- What `sched` asks for is asked call by call. -/
theorem carryOut_called {commands : Commands} {h h' : ContentHelper} {u : Unit}
    (hrun : ForwardScheduler.carryOut env commands h = .ok (u, h')) :
    Called hasher env ([.frozen commands.freeze true, .frozen commands.unfreeze false] ++
      commands.broadcast.map Op.broadcast) h h' := by
  obtain ⟨_, h₁, hfreeze, hrest⟩ := bind_eq_ok hrun
  obtain ⟨_, h₂, hunfreeze, hbroadcast⟩ := bind_eq_ok hrest
  have hs : ContentHelper.step hasher h (env, .frozen commands.freeze true) = .ok h₁ :=
    BehaviorHelper.perform_step (discard_run hfreeze)
  have hs' : ContentHelper.step hasher h₁ (env, .frozen commands.unfreeze false) = .ok h₂ :=
    BehaviorHelper.perform_step (discard_run hunfreeze)
  exact ((Called.one rfl hs).append (.one rfl hs')).append (broadcasts_called hbroadcast)

theorem schedRequests_called (hs : f.schedRequests env = .ok f') :
    ∃ ops, Called hasher env ops f.content f'.content ∧
      ∀ id, ops.flatMap (publishedBy hasher env id) = [] := by
  unfold ForwardScheduler.Node.schedRequests at hs
  dsimp only at hs
  split_ifs at hs
  · obtain rfl := Except.ok.inj hs
    exact ⟨[], .none _, fun _ => rfl⟩
  · obtain ⟨u, hcall⟩ := ForwardScheduler.callContent_ok hs
    exact ⟨[.request _], .one rfl (BehaviorHelper.perform_step hcall), fun _ => rfl⟩

theorem schedResponses_called {round : Round} (hs : f.schedResponses env round = .ok f') :
    ∃ ops, Called hasher env ops f.content f'.content ∧
      ∀ id, ops.flatMap (publishedBy hasher env id) = [] := by
  obtain ⟨⟨commands, requests, responses⟩, -, hcall⟩ := bind_ok hs
  obtain ⟨u, hcarry⟩ := ForwardScheduler.callContent_ok hcall
  refine ⟨_, carryOut_called hcarry, fun id => ?_⟩
  simp [publishedBy, List.flatMap_map]

theorem behaveRequest_called {rand : ℕ} {h h' : ContentHelper} {u : Unit}
    (hrun : BehaviorHelper.behaveRequest env rand h = .ok (u, h')) :
    ∃ ops, Called hasher env ops h h' ∧ ∀ id, ops.flatMap (publishedBy hasher env id) = [] := by
  obtain ⟨h₁, hmetadata, rfl | ⟨reqs, hrequest⟩⟩ := BehaviorHelper.behaveRequest_ok hrun
  · exact ⟨[.metadata], .one rfl hmetadata, fun _ => rfl⟩
  · exact ⟨[.metadata] ++ [.request reqs], (Called.one rfl hmetadata).append (.one rfl hrequest),
      fun _ => rfl⟩

/-- The interests change by a task of theirs only, and the content helper by calls. -/
theorem perform_called {task : NodeTask} {ann : Option InterestAnn}
    (hs : n.perform hasher now position task = .ok (n', ann)) :
    n'.id = n.id ∧ ∃ ops, Called hasher (n.around now position) ops n.forward.content
        n'.forward.content ∧ ∀ id, ops.flatMap (publishedBy hasher (n.around now position) id) =
          (publishingOps task).flatMap (publishedBy hasher (n.around now position) id) := by
  cases task with
  | beacon rand =>
    obtain ⟨rfl, -⟩ := Prod.mk.inj (Except.ok.inj hs)
    exact ⟨rfl, [], .none _, fun _ => rfl⟩
  | refreshNeighbors rand =>
    obtain ⟨rfl, -⟩ := Prod.mk.inj (Except.ok.inj hs)
    exact ⟨rfl, [], .none _, fun _ => rfl⟩
  | announceInterests fuzz stack =>
    obtain ⟨out, -, heq⟩ := map_eq_ok hs
    obtain ⟨rfl, -⟩ := Prod.mk.inj heq
    exact ⟨rfl, [], .none _, fun _ => rfl⟩
  | behaveInterest =>
    obtain ⟨rfl, -⟩ := Prod.mk.inj (Except.ok.inj hs)
    exact ⟨rfl, [], .none _, fun _ => rfl⟩
  | content op =>
    simp only [CcnNode.perform] at hs
    split_ifs at hs with hrec
    · obtain ⟨rfl, -⟩ := Prod.mk.inj (Except.ok.inj hs)
      refine ⟨rfl, [], .none _, fun id => ?_⟩
      cases op with
      | receiveContentAnn msg => rfl
      | receiveBlockRequest header msg => rfl
      | receiveBlockResponse msg => rfl
      | _ => cases hrec
    · obtain ⟨f', hcall, heq⟩ := map_eq_ok hs
      obtain ⟨rfl, -⟩ := Prod.mk.inj heq
      obtain ⟨u, hrun⟩ := ForwardScheduler.callContent_ok hcall
      exact ⟨rfl, [op], .one (Bool.eq_false_iff.mpr hrec) (BehaviorHelper.perform_step hrun),
        fun _ => rfl⟩
  | schedRequests =>
    obtain ⟨f', hcall, heq⟩ := map_eq_ok hs
    obtain ⟨rfl, -⟩ := Prod.mk.inj heq
    exact ⟨rfl, schedRequests_called hcall⟩
  | schedResponses round =>
    obtain ⟨f', hcall, heq⟩ := map_eq_ok hs
    obtain ⟨rfl, -⟩ := Prod.mk.inj heq
    exact ⟨rfl, schedResponses_called hcall⟩
  | behavePublish rand =>
    obtain ⟨f', hcall, heq⟩ := map_eq_ok hs
    obtain ⟨rfl, -⟩ := Prod.mk.inj heq
    obtain ⟨u, hrun⟩ := ForwardScheduler.callContent_ok hcall
    refine ⟨rfl, BehaviorHelper.publishOps rand, ⟨?_, BehaviorHelper.behavePublish_ok hrun⟩,
      fun _ => rfl⟩
    simp [BehaviorHelper.publishOps, isReceive]
  | behaveRequest rand =>
    obtain ⟨f', hcall, heq⟩ := map_eq_ok hs
    obtain ⟨rfl, -⟩ := Prod.mk.inj heq
    obtain ⟨u, hrun⟩ := ForwardScheduler.callContent_ok hcall
    exact ⟨rfl, behaveRequest_called hrun⟩

end Tasks

section Times

variable {hasher : List UInt8 → Hash} {env : Surroundings} {h h' : ContentHelper}

/-- Metadata that are sent have no longer to live than new ones. -/
def Short (now : TimePoint) (msg : Message) : Prop :=
  ∀ ann, msg = .contentAnn ann → ∀ m ∈ ann.metadata, m.expiryTime ≤ now + defaultInitialTtl

theorem step_short {op : Op} (hf : Fresh env.now h)
    (hs : ContentHelper.step hasher h (env, op) = .ok h') :
    ∀ msg ∈ posts (newEffects h h'), Short env.now msg := by
  rintro msg hmsg ann rfl m hm
  obtain rfl := (step_tables hs).anns (AnnouncementNetwork.mem_contentAnns hmsg)
  exact hf.willAnnounce hm

theorem Called.short {ops : List Op} (hf : Fresh env.now h) (hc : Called hasher env ops h h') :
    Fresh env.now h' ∧ ∀ msg ∈ posts (newEffects h h'), Short env.now msg := by
  let kept (h₁ : ContentHelper) : Prop :=
    PostsWithin h h₁ ∧ Fresh env.now h₁ ∧ ∀ msg ∈ posts (newEffects h h₁), Short env.now msg
  refine (run_keeps kept ?_ ⟨refl_of _ h, hf, by simp [posts_same rfl]⟩ hc.2).2
  rintro ⟨env', op⟩ hop h₁ h₂ ⟨hw, hf₁, hshort⟩ hs
  obtain ⟨op, hmem, heq⟩ := List.mem_map.mp hop
  obtain ⟨rfl, rfl⟩ := Prod.mk.inj heq
  have hrec := hc.1 op hmem
  refine ⟨trans_of _ hw (step_within hs), step_fresh hf₁ ?_ hs, fun msg hmsg => ?_⟩
  · rintro msg rfl
    cases hrec
  · rw [posts_trans hw (step_within hs)] at hmsg
    exact (List.mem_append.mp hmsg).elim (hshort msg) (step_short hf₁ hs msg)

end Times

section Following

variable {N : Type} [DecidableEq N] {hasher : List UInt8 → Hash} {s s' : Network N}
  {net net' : AnnouncementNetwork.Network N} {node : N} {n' : CcnNode} {msgs : List Message}

def isBeacon : Message → Bool
  | .beacon _ => true
  | _ => false

def apartFromBeacons (air : List Packet) : List Packet := air.filter fun p => !isBeacon p.msg

theorem mem_apartFromBeacons {air : List Packet} {p : Packet} :
    p ∈ apartFromBeacons air ↔ p ∈ air ∧ isBeacon p.msg = false := by
  simp [apartFromBeacons]

theorem apartFromBeacons_append (air air' : List Packet) :
    apartFromBeacons (air ++ air') = apartFromBeacons air ++ apartFromBeacons air' :=
  List.filter_append _ _

theorem apartFromBeacons_beacons (now : TimePoint) (id : NodeId) (beacons : List Beacon) :
    apartFromBeacons ((beacons.map Message.beacon).map fun msg => ⟨now, id, msg⟩) = [] := by
  refine List.filter_eq_nil_iff.mpr fun p hp => ?_
  rw [List.map_map] at hp
  obtain ⟨b, -, rfl⟩ := List.mem_map.mp hp
  exact Bool.false_ne_true

/-- The nodes are in the states they would be in, and there are the same messages in the air, in
the same order and no others, apart from beacons. -/
structure Follows (s : Network N) (net : AnnouncementNetwork.Network N) : Prop where
  now : net.now = s.now
  nodes : ∀ node, net.nodes node = ⟨(s.nodes node).interests, (s.nodes node).forward.content⟩
  contentId : ∀ node, (s.nodes node).forward.content.id = (s.nodes node).id
  interestId : ∀ node, (s.nodes node).interests.id = (s.nodes node).id
  fresh : ∀ node, Fresh s.now (s.nodes node).forward.content
  air : ∃ packets, List.Forall₂ Carries packets s.air ∧
    apartFromBeacons packets = apartFromBeacons net.air

omit [DecidableEq N] in
theorem Follows.later (hf : Follows s net) (wait : ℕ) :
    Follows { s with now := s.now + wait } (AnnouncementNetwork.advance net wait) where
  now := congrArg (· + (wait : ℤ)) hf.now
  nodes := hf.nodes
  contentId := hf.contentId
  interestId := hf.interestId
  fresh node := (hf.fresh node).later (Int.le_add_of_nonneg_right (Int.natCast_nonneg wait))
  air := hf.air

omit [DecidableEq N] in
theorem Follows.around (hf : Follows s net) (node : N) (position : Vec2d) :
    surroundings net node position = (s.nodes node).around s.now position := by
  simp only [surroundings, CcnNode.around, hf.now, hf.nodes node]

/-- What a node and what it posts have to be like after a change. -/
structure Changed (s : Network N) (node : N) (n' : CcnNode) (msgs : List Message)
    (net net' : AnnouncementNetwork.Network N) : Prop where
  now : net'.now = net.now
  nodes : net'.nodes = Function.update net.nodes node ⟨n'.interests, n'.forward.content⟩
  id : n'.id = (s.nodes node).id
  contentId : n'.forward.content.id = n'.id
  interestId : n'.interests.id = n'.id
  fresh : Fresh s.now n'.forward.content
  short : ∀ msg ∈ msgs, Short s.now msg
  air : apartFromBeacons net'.air =
    apartFromBeacons (net.air ++ msgs.map fun msg => ⟨s.now, (s.nodes node).id, msg⟩)

theorem Follows.change (hf : Follows s net) (hc : Changed s node n' msgs net net')
    (hs : change s node n' msgs = .ok s') : Follows s' net' := by
  obtain ⟨packets, henqueue, rfl⟩ := map_eq_ok hs
  have heach : ∀ P : CcnNode → Prop, (∀ n, P (s.nodes n)) → P n' →
      ∀ n, P (Function.update s.nodes node n' n) := by
    intro P hall hnew n
    rw [Function.update_apply]
    split_ifs
    · exact hnew
    · exact hall n
  constructor
  · exact hc.now.trans hf.now
  · intro n
    rw [hc.nodes]
    by_cases hn : n = node
    · subst hn
      simp
    · simpa [Function.update_of_ne hn] using hf.nodes n
  · exact heach (fun n => n.forward.content.id = n.id) hf.contentId hc.contentId
  · exact heach (fun n => n.interests.id = n.id) hf.interestId hc.interestId
  · exact heach (fun n => Fresh s.now n.forward.content) hf.fresh hc.fresh
  · obtain ⟨before, hbefore, hair⟩ := hf.air
    refine ⟨before ++ msgs.map fun msg => ⟨s.now, (s.nodes node).id, msg⟩, ?_, ?_⟩
    · refine List.rel_append hbefore ?_
      rw [List.forall₂_map_left_iff]
      refine (List.forall₂_iff_zip.mpr ⟨(enqueue_ok henqueue).length_eq, fun {msg packet} hmem => ?_⟩)
      obtain ⟨hencodable, hpacket⟩ := List.forall₂_zip (enqueue_ok henqueue) hmem
      exact ⟨hpacket, hencodable, hc.short msg (List.of_mem_zip hmem).1⟩
    · rw [hc.air, apartFromBeacons_append, apartFromBeacons_append, hair]

theorem withHelper_own (hf : Follows s net) (node : N) :
    withHelper net node (s.nodes node).forward.content = net := by
  have hcontents : (net.nodes node).contents = (s.nodes node).forward.content := by
    rw [hf.nodes node]
  rw [← hcontents, withHelper_same]

/-- A change of the content helper and of the neighbours. -/
theorem content_changed (hf : Follows s net) (hid : n'.id = (s.nodes node).id)
    (hinterests : n'.interests = (s.nodes node).interests)
    (hsame : n'.forward.content.id = (s.nodes node).forward.content.id)
    (hfresh : Fresh s.now n'.forward.content)
    (hshort : ∀ msg ∈ posts (newEffects (s.nodes node).forward.content n'.forward.content),
      Short s.now msg) :
    Changed s node n' ((s.nodes node).outgoing n') net (withHelper net node n'.forward.content) := by
  have hnode := hf.nodes node
  refine ⟨rfl, ?_, hid, ?_, ?_, hfresh, ?_, ?_⟩
  · simp only [withHelper, hnode, hinterests]
  · rw [hsame, hf.contentId, hid]
  · rw [hinterests, hf.interestId, hid]
  · intro msg hmsg
    rcases List.mem_append.mp hmsg with hbeacon | hpost
    · obtain ⟨b, -, rfl⟩ := List.mem_map.mp hbeacon
      rintro ann ⟨⟩
    · exact hshort msg hpost
  · simp only [withHelper, hnode, CcnNode.outgoing, List.map_append, apartFromBeacons_append,
      apartFromBeacons_beacons, List.nil_append, hf.now, hf.contentId]

/-- A change of the interests. -/
theorem interests_changed {h : InterestHelper} {anns : List InterestAnn} (hf : Follows s net)
    (hid : h.id = (s.nodes node).interests.id)
    (hnow : net'.now = net.now)
    (hnodes : net'.nodes = Function.update net.nodes node { net.nodes node with interests := h })
    (hair : net'.air = net.air ++ anns.map fun ann =>
      ⟨s.now, (s.nodes node).id, .interestAnn ann⟩) :
    Changed s node { s.nodes node with interests := h } (anns.map .interestAnn ++
      (s.nodes node).outgoing { s.nodes node with interests := h }) net net' := by
  have hquiet : (s.nodes node).outgoing { s.nodes node with interests := h } = [] := by
    simp [CcnNode.outgoing, posts_same rfl]
  rw [hquiet, List.append_nil]
  refine ⟨hnow, ?_, rfl, hf.contentId node, hid.trans (hf.interestId node), hf.fresh node, ?_, ?_⟩
  · rw [hnodes, hf.nodes node]
  · intro msg hmsg
    obtain ⟨ann, -, rfl⟩ := List.mem_map.mp hmsg
    rintro ann ⟨⟩
  · rw [hair, List.map_map]
    rfl

end Following

end NodeNetwork

end YingSma
