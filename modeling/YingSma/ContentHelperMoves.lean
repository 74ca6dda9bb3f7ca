import Mathlib.Logic.Relation
import YingSma.ContentHelperRequests
import YingSma.EntryTable

/-! The moves a call of the content helper is made of. What no move does to the pending
requests, the blocks and the effects, no call does. -/
namespace YingSma.ContentHelper
open StateActions EntryTable

section Results

/-- The helper after a sweep of the pending requests. -/
def swept (now : TimePoint) (h : ContentHelper) : ContentHelper :=
  { h with
    prt := h.prt.filter fun entry => !(now ≥ entry.2.expiry)
    effects := h.effects ++
      ((h.prt.filter fun entry => now ≥ entry.2.expiry).map Prod.fst).map Effect.requestTimedout }

/-- The helper after `check_pending_requests(when)`. -/
def scheduled (now when_ : TimePoint) (h : ContentHelper) : ContentHelper :=
  if when_ ≠ 0 then h.emit [.doIn (when_ - now) .checkPendingRequests] else h.swept now

def erased (block : BlockRef) (h : ContentHelper) : ContentHelper :=
  { h with prt := h.prt.filter fun entry => entry.1 ≠ block }

def updated (block : BlockRef) (f : PendingRequest → PendingRequest) (h : ContentHelper) :
    ContentHelper :=
  { h with prt := h.prt.map fun entry => if entry.1 = block then (entry.1, f entry.2) else entry }

def inserted (block : BlockRef) (p : PendingRequest) (h : ContentHelper) : ContentHelper :=
  { h with prt := h.prt ++ [(block, p)] }

/-- The expiry a longer request gives to the entry of its block, with a sweep for it. -/
def extended (now : TimePoint) (block : BlockRef) (newExpiry : TimePoint) (p : PendingRequest)
    (h : ContentHelper) : ContentHelper :=
  if p.expiry < newExpiry then
    (h.updated block fun p => { p with expiry := newExpiry }).scheduled now newExpiry
  else h

/-- The helper after `request` has dealt with a block it does not have. -/
def added (env : Surroundings) (req : LocalRequestArgs) (h : ContentHelper) : ContentHelper :=
  let newExpiry := env.now + req.ttlMs.toNat * milli
  match h.pending req.block with
  | some p =>
      (h.extended env.now req.block newExpiry p).updated req.block fun p =>
        { p with keepOnArrival := p.keepOnArrival || req.keepOnArrival }
  | none =>
      (h.inserted req.block ⟨env.now, newExpiry, req.keepOnArrival, false⟩).scheduled env.now newExpiry

/-- The helper after it has heard someone else's request for a block, where requests are
forwarded. -/
def forwarded (env : Surroundings) (req : BlockRequestArgs) (h : ContentHelper) : ContentHelper :=
  match h.pending req.block with
  | some p =>
      (h.updated req.block fun p => { p with localOnly := false }).extended env.now req.block
        (env.now + req.ttlMs.toNat * milli) p
  | none => h

variable (env : Surroundings) (h : ContentHelper)

theorem sweepPendingRequests_run (now : TimePoint) :
    sweepPendingRequests now h = .ok ((), h.swept now) := by
  unfold sweepPendingRequests
  rw [bind_run_ok (get_run h), bind_run_ok (modify_run _ h), forEach_record_run]
  rfl

theorem checkPendingRequests_run (now when_ : TimePoint) :
    checkPendingRequests now when_ h = .ok ((), h.scheduled now when_) := by
  unfold checkPendingRequests scheduled
  split_ifs
  · exact record_run h _
  · exact sweepPendingRequests_run h now

theorem updatePending_run (block : BlockRef) (f : PendingRequest → PendingRequest) :
    updatePending block f h = .ok ((), h.updated block f) := rfl

theorem addPending_run (req : LocalRequestArgs) :
    addPending env req h = .ok ((), h.added env req) := by
  unfold addPending added extended
  rw [bind_run_ok (get_run h)]
  cases h.pending req.block with
  | some p =>
    dsimp only
    split_ifs
    · rw [bind_run_ok (updatePending_run h _ _), bind_run_ok (checkPendingRequests_run _ _ _),
        updatePending_run]
    · exact updatePending_run h _ _
  | none =>
    dsimp only
    rw [bind_run_ok (modify_run _ h), checkPendingRequests_run]
    rfl

theorem respond_run_forward (hauto : h.autoRespond = false) (req : BlockRequestArgs) :
    respond env req h = .ok ((), if h.autoForwardRequests then h.forwarded env req else h) := by
  unfold respond forwarded extended
  rw [bind_run_ok (get_run h), if_neg (by simp [hauto])]
  split_ifs
  · cases h.pending req.block with
    | some p =>
      dsimp only
      rw [bind_run_ok (updatePending_run h _ _)]
      split_ifs
      · rw [bind_run_ok (updatePending_run _ _ _), checkPendingRequests_run]
      · rfl
    | none => rfl
  · rfl

end Results

section Requests

variable (env : Surroundings)

/-- The helper after `request` has looked at one of its arguments. -/
def dealt (h : ContentHelper) (req : LocalRequestArgs) : ContentHelper :=
  if h.has req.block then h.erased req.block else h.added env req

/-- The helper after a `request` that goes through. -/
def requested (reqs : List LocalRequestArgs) (h : ContentHelper) : ContentHelper :=
  let toSend := reqs.filter fun req => !h.has req.block
  let alreadyHave := (reqs.filter fun req => h.has req.block).map fun req => req.block
  { ((reqs.foldl (dealt env) { h with alreadyInRequest := true }).emit
        (if toSend = [] then []
        else [.post (.blockRequest ⟨toSend.map LocalRequestArgs.toBlockRequestArgs⟩)])).emit
      (alreadyHave.map Effect.blockArrived) with alreadyInRequest := false }

variable {env}

theorem has_congr {h h' : ContentHelper} (hcache : h'.cache = h.cache) (hstore : h'.store = h.store)
    (block : BlockRef) : h'.has block = h.has block := by
  unfold has
  rw [hcache, hstore]

@[simp] theorem scheduled_cache (now when_ : TimePoint) (h : ContentHelper) :
    (h.scheduled now when_).cache = h.cache := by
  unfold scheduled
  split_ifs <;> rfl

@[simp] theorem scheduled_store (now when_ : TimePoint) (h : ContentHelper) :
    (h.scheduled now when_).store = h.store := by
  unfold scheduled
  split_ifs <;> rfl

@[simp] theorem extended_cache (now newExpiry : TimePoint) (block : BlockRef) (p : PendingRequest)
    (h : ContentHelper) : (h.extended now block newExpiry p).cache = h.cache := by
  unfold extended
  split_ifs
  · rw [scheduled_cache]
    rfl
  · rfl

@[simp] theorem extended_store (now newExpiry : TimePoint) (block : BlockRef) (p : PendingRequest)
    (h : ContentHelper) : (h.extended now block newExpiry p).store = h.store := by
  unfold extended
  split_ifs
  · rw [scheduled_store]
    rfl
  · rfl

theorem dealt_cache (h : ContentHelper) (req : LocalRequestArgs) :
    (dealt env h req).cache = h.cache := by
  unfold dealt added
  split_ifs
  · rfl
  · cases h.pending req.block with
    | some p => exact extended_cache _ _ _ _ _
    | none => exact scheduled_cache _ _ _

theorem dealt_store (h : ContentHelper) (req : LocalRequestArgs) :
    (dealt env h req).store = h.store := by
  unfold dealt added
  split_ifs
  · rfl
  · cases h.pending req.block with
    | some p => exact extended_store _ _ _ _ _
    | none => exact scheduled_store _ _ _

theorem dealt_has (h : ContentHelper) (req : LocalRequestArgs) (block : BlockRef) :
    (dealt env h req).has block = h.has block :=
  has_congr (dealt_cache h req) (dealt_store h req) block

theorem sortRequests_run (reqs : List LocalRequestArgs) (h : ContentHelper) :
    sortRequests env reqs h =
      .ok ((reqs.filter fun req => !h.has req.block,
        (reqs.filter fun req => h.has req.block).map fun req => req.block),
        reqs.foldl (dealt env) h) := by
  induction reqs generalizing h with
  | nil => rfl
  | cons req reqs ih =>
    have hrest := ih (dealt env h req)
    simp only [dealt_has] at hrest
    unfold sortRequests
    rw [bind_run_ok (get_run h)]
    cases hhas : h.has req.block with
    | true =>
      have hdealt : dealt env h req = h.erased req.block := if_pos hhas
      rw [hdealt] at hrest
      have hrun : erasePending req.block h = .ok ((), h.erased req.block) := rfl
      rw [if_pos rfl, bind_run_ok hrun, bind_run_ok hrest]
      simp [hhas, hdealt, pure_run]
    | false =>
      have hdealt : dealt env h req = h.added env req := if_neg (by simp [hhas])
      rw [hdealt] at hrest
      rw [if_neg Bool.false_ne_true, bind_run_ok (addPending_run env h req), bind_run_ok hrest]
      simp [hhas, hdealt, pure_run]

theorem post_ok {msg : Message} {h h' : ContentHelper} {u : Unit}
    (hrun : post env msg h = .ok (u, h')) : h' = h.emit [.post msg] := by
  unfold post at hrun
  rw [bind_run_ok (get_run h)] at hrun
  obtain ⟨packet, h₁, hattempt, hrecord⟩ := bind_eq_ok hrun
  obtain ⟨-, rfl⟩ := attempt_eq_ok hattempt
  exact modify_eq_ok hrecord

theorem request_ok {reqs : List LocalRequestArgs} {h h' : ContentHelper} {u : Unit}
    (hrun : request env reqs h = .ok (u, h')) : h' = h.requested env reqs := by
  unfold request at hrun
  rw [bind_run_ok (modify_run _ h), bind_run_ok (sortRequests_run reqs _)] at hrun
  have hhas : ∀ block, ({ h with alreadyInRequest := true } : ContentHelper).has block = h.has block :=
    fun block => has_congr rfl rfl block
  simp only [hhas] at hrun
  unfold requested
  by_cases hsend : (reqs.filter fun req => !h.has req.block) = []
  · rw [if_neg (not_not.mpr hsend), bind_run_ok (forEach_record_run _ _ _)] at hrun
    rw [modify_eq_ok hrun]
    dsimp only
    rw [if_pos hsend, emit_nil]
  · rw [if_pos hsend] at hrun
    obtain ⟨a, h₁, hpost, hrest⟩ := bind_eq_ok hrun
    rw [post_ok hpost, bind_run_ok (forEach_record_run _ _ _)] at hrest
    rw [modify_eq_ok hrest]
    dsimp only
    rw [if_neg hsend]

end Requests

section Asking

variable (env : Surroundings)

/-- The requests the next `do_auto_fetch` makes. -/
def fetched (h : ContentHelper) : List LocalRequestArgs :=
  (h.autoFetchQueue.take 4).filterMap (fetchArgs env h)

/-- The requests `discover` makes for interesting content it did not know. -/
def askedByDiscover (m : ContentMetadata) (h : ContentHelper) : List LocalRequestArgs :=
  match h.rmt.find? fun r => r.data.hash = m.hash with
  | some _ => []
  | none =>
      if env.containsAny m.types ∧ h.autoFetch then
        match m.blockCount with
        | .ok blockCount => fetched env { h with
            rmt := h.rmt ++ [⟨m, env.now⟩]
            autoFetchQueue := h.autoFetchQueue ++
              (List.range blockCount).map fun i => ⟨m.hash, UInt16.ofNat i⟩ }
        | .error _ => []
      else []

def askedByAnn : List ContentMetadata → ContentHelper → List LocalRequestArgs
  | [], _ => []
  | m :: ms, h =>
      if m.publisher = h.id then askedByAnn ms h
      else
        askedByDiscover env { m with hops := m.hops + 1 } h ++
          match discover env { m with hops := m.hops + 1 } h with
          | .ok out => askedByAnn ms out.2
          | .error _ => []

/-- The arguments of the `request` calls made in a call. -/
def asked (h : ContentHelper) : Op → List LocalRequestArgs
  | .request requests => requests
  | .doAutoFetch => fetched env h
  | .receiveContentAnn msg => askedByAnn env msg.metadata h
  | _ => []

end Asking

/-- The call that fires the event about requests. -/
def Op.firesRequested : Op → Bool
  | .receiveBlockRequest _ _ => true
  | _ => false

/-- What a call may do besides keeping time: post, fire an event that is not about a single
block, and schedule a task other than a sweep. -/
def Effect.isPlain (op : Op) : Effect → Bool
  | .post _ => true
  | .interestingContent _ => true
  | .blocksRequested _ _ _ => op.firesRequested
  | .doIn _ task => task ≠ .checkPendingRequests
  | _ => false

/-- The calls that change the cache. -/
def Op.fillsCache : Op → Bool
  | .createNew _ _ _ => true
  | .receiveBlockResponse _ => true
  | .frozen _ _ => true
  | _ => false

/-- One move of a call that makes the requests `asks`. -/
inductive Move (env : Surroundings) (op : Op) (asks : List LocalRequestArgs) :
    ContentHelper → ContentHelper → Prop
  | frame {h h'} (hprt : h'.prt = h.prt) (hcache : h'.cache = h.cache)
      (hstore : h'.store = h.store) (heffects : h'.effects = h.effects) : Move env op asks h h'
  | emit {h} (e : Effect) (he : Effect.isPlain op e) : Move env op asks h (h.emit [e])
  | deal {h} (req : LocalRequestArgs) (hreq : req ∈ asks) : Move env op asks h (dealt env h req)
  | alreadyHere {h} (req : LocalRequestArgs) (hreq : req ∈ asks) (hhas : h.has req.block) :
      Move env op asks h (h.emit [.blockArrived req.block])
  | sweep {h} (hop : op = .sweepPendingRequests) : Move env op asks h (h.swept env.now)
  | forward {h header msg} (req : BlockRequestArgs) (hop : op = .receiveBlockRequest header msg)
      (hreq : req ∈ msg.requests) : Move env op asks h (h.forwarded env req)
  | arrive {h msg} (hop : op = .receiveBlockResponse msg) :
      Move env op asks h (h.emit [.blockArrived msg.block])
  | keep {h msg idx store} (hop : op = .receiveBlockResponse msg)
      (hs : h.store.storeBlock msg.block msg.size.toNat msg.data = .ok (idx, store)) :
      Move env op asks h { h with store := store }
  | fill {h} (cache : ContentCache) (hop : op.fillsCache) :
      Move env op asks h { h with cache := cache }

/-- The moves of a call, one after the other. -/
def Moves (env : Surroundings) (op : Op) (asks : List LocalRequestArgs) :
    ContentHelper → ContentHelper → Prop :=
  Relation.ReflTransGen (Move env op asks)

instance (env : Surroundings) (op : Op) (asks : List LocalRequestArgs) :
    IsPreorder ContentHelper (Moves env op asks) where
  refl _ := Relation.ReflTransGen.refl
  trans _ _ _ := Relation.ReflTransGen.trans

section Moving

variable {env : Surroundings} {op : Op} {asks : List LocalRequestArgs} {h h' : ContentHelper}

theorem Move.once (hm : Move env op asks h h') : Moves env op asks h h' :=
  Relation.ReflTransGen.single hm

theorem moves_frame (hprt : h'.prt = h.prt) (hcache : h'.cache = h.cache)
    (hstore : h'.store = h.store) (heffects : h'.effects = h.effects) : Moves env op asks h h' :=
  (Move.frame hprt hcache hstore heffects).once

theorem record_moves {e : Effect} (he : Effect.isPlain op e) : Keeps (Moves env op asks) (record e) :=
  keeps_modify fun _ => (Move.emit e he).once

theorem frame_moves {f : ContentHelper → ContentHelper} (hprt : ∀ h, (f h).prt = h.prt)
    (hcache : ∀ h, (f h).cache = h.cache) (hstore : ∀ h, (f h).store = h.store)
    (heffects : ∀ h, (f h).effects = h.effects) :
    Keeps (Moves env op asks) (modify f : Action Unit) :=
  keeps_modify fun h => moves_frame (hprt h) (hcache h) (hstore h) (heffects h)

theorem post_moves (msg : Message) : Keeps (Moves env op asks) (post env msg) :=
  keeps_bind keeps_get fun _ => keeps_bind (keeps_attempt _) fun _ => record_moves rfl

theorem announceMetadata_moves : Keeps (Moves env op asks) (announceMetadata env) := by
  unfold announceMetadata
  refine keeps_bind keeps_get fun h => keeps_ite (keeps_pure _) ?_
  refine keeps_bind (frame_moves (fun _ => rfl) (fun _ => rfl) (fun _ => rfl) fun _ => rfl)
    fun _ => ?_
  refine keeps_ite (keeps_bind (post_moves _) fun _ => ?_) ?_
  · exact keeps_ite (keeps_bind (record_moves rfl) fun _ => keeps_pure _) (keeps_pure _)
  · exact keeps_ite (keeps_bind (record_moves rfl) fun _ => keeps_pure _) (keeps_pure _)

theorem foldl_dealt_moves {reqs : List LocalRequestArgs} (hreqs : reqs ⊆ asks) :
    Moves env op asks h (reqs.foldl (dealt env) h) := by
  induction reqs generalizing h with
  | nil => exact .refl
  | cons req reqs ih =>
    rw [List.cons_subset] at hreqs
    exact .head (.deal req hreqs.1) (ih hreqs.2)

theorem foldl_dealt_has (reqs : List LocalRequestArgs) (block : BlockRef) :
    (reqs.foldl (dealt env) h).has block = h.has block := by
  induction reqs generalizing h with
  | nil => rfl
  | cons req reqs ih => rw [List.foldl_cons, ih, dealt_has]

/-- The events for the blocks that were already there. -/
theorem alreadyHere_moves {blocks : List BlockRef}
    (hblocks : ∀ block ∈ blocks, h.has block ∧ ∃ req ∈ asks, req.block = block) :
    Moves env op asks h (h.emit (blocks.map Effect.blockArrived)) := by
  induction blocks generalizing h with
  | nil =>
    rw [List.map_nil, emit_nil]
    exact .refl
  | cons block blocks ih =>
    rw [List.forall_mem_cons] at hblocks
    obtain ⟨⟨hhas, req, hreq, rfl⟩, hblocks⟩ := hblocks
    rw [List.map_cons, ← List.singleton_append, ← emit_emit]
    exact .head (.alreadyHere req hreq hhas) (ih hblocks)

theorem requested_moves {reqs : List LocalRequestArgs} (hreqs : reqs ⊆ asks) :
    Moves env op asks h (h.requested env reqs) := by
  have hstart : Moves env op asks h { h with alreadyInRequest := true } :=
    moves_frame rfl rfl rfl rfl
  have hdealt := hstart.trans (foldl_dealt_moves hreqs)
  have hpost : ∀ (h : ContentHelper) (send : List LocalRequestArgs),
      Moves env op asks h (h.emit (if send = [] then []
        else [.post (.blockRequest ⟨send.map LocalRequestArgs.toBlockRequestArgs⟩)])) := by
    intro h send
    split_ifs
    · rw [emit_nil]
      exact .refl
    · exact (Move.emit _ rfl).once
  refine ((hdealt.trans (hpost _ _)).trans (alreadyHere_moves ?_)).tail (.frame rfl rfl rfl rfl)
  intro block hblock
  obtain ⟨req, hreq, rfl⟩ := List.mem_map.mp hblock
  obtain ⟨hmem, hhas⟩ := List.mem_filter.mp hreq
  have hdealt := @foldl_dealt_has env { h with alreadyInRequest := true } reqs req.block
  exact ⟨(hdealt.trans (has_congr rfl rfl req.block)).trans hhas, req, hreqs hmem, rfl⟩

theorem request_moves {reqs : List LocalRequestArgs} (hreqs : reqs ⊆ asks) :
    Keeps (Moves env op asks) (request env reqs) := by
  intro h u h' hrun
  rw [request_ok hrun]
  exact requested_moves hreqs

theorem doAutoFetch_moves (hfetched : fetched env h ⊆ asks) :
    KeepsFrom (Moves env op asks) h (doAutoFetch env) := by
  intro u h' hrun
  unfold doAutoFetch at hrun
  rw [bind_run_ok (get_run h)] at hrun
  split_ifs at hrun
  · have hpure := keeps_pure (R := Moves env op asks) () h u h' hrun
    exact hpure
  · rw [bind_run_ok (modify_run _ h)] at hrun
    obtain ⟨a, h₁, hrequest, hrest⟩ := bind_eq_ok hrun
    have hframe : Moves env op asks h { h with autoFetchQueue := h.autoFetchQueue.drop 4 } :=
      moves_frame rfl rfl rfl rfl
    have htail : Keeps (Moves env op asks) (do
        let h ← get
        if h.autoFetchQueue ≠ [] then record (.doIn (1000 * milli) .doAutoFetch) : Action Unit) :=
      keeps_bind keeps_get fun _ => keeps_ite (record_moves rfl) (keeps_pure _)
    exact (hframe.trans (request_moves hfetched _ _ _ hrequest)).trans (htail _ _ _ hrest)

theorem discover_moves (m : ContentMetadata) (hasked : askedByDiscover env m h ⊆ asks) :
    KeepsFrom (Moves env op asks) h (discover env m) := by
  intro b h' hrun
  unfold discover at hrun
  rw [bind_run_ok (get_run h)] at hrun
  unfold askedByDiscover at hasked
  cases hfind : h.rmt.find? fun r => r.data.hash = m.hash with
  | some existing =>
    simp only [hfind] at hrun
    refine keeps_ite (keeps_bind ?_ fun _ => keeps_pure _) (keeps_pure _) h b h' hrun
    exact frame_moves (fun _ => rfl) (fun _ => rfl) (fun _ => rfl) fun _ => rfl
  | none =>
    simp only [hfind] at hrun hasked
    rw [bind_run_ok (modify_run _ h)] at hrun
    have hframe : Moves env op asks h { h with rmt := h.rmt ++ [⟨m, env.now⟩] } :=
      moves_frame rfl rfl rfl rfl
    refine hframe.trans ?_
    split_ifs at hrun with hany hfetch
    · rw [bind_run_ok (record_run _ _)] at hrun
      have hevent := (@Move.emit env op asks { h with rmt := h.rmt ++ [⟨m, env.now⟩] }
        (.interestingContent m) rfl).once
      refine hevent.trans ?_
      obtain ⟨blockCount, h₁, hattempt, hrest⟩ := bind_eq_ok hrun
      obtain ⟨hcount, rfl⟩ := attempt_eq_ok hattempt
      rw [if_pos ⟨hany, hfetch⟩, hcount] at hasked
      rw [bind_run_ok (modify_run _ _)] at hrest
      obtain ⟨u, h₂, hauto, hpure⟩ := bind_eq_ok hrest
      refine Relation.ReflTransGen.trans ?_ ((doAutoFetch_moves ?_ u h₂ hauto).trans ?_)
      · exact moves_frame rfl rfl rfl rfl
      · exact hasked
      · exact keeps_pure true h₂ b h' hpure
    · rw [bind_run_ok (record_run _ _)] at hrun
      exact (Move.emit _ rfl).once.trans (keeps_pure true _ b h' hrun)
    · exact keeps_pure true _ b h' hrun

theorem receiveContentAnn_moves (msg : ContentAnn) (hasked : askedByAnn env msg.metadata h ⊆ asks) :
    KeepsFrom (Moves env op asks) h (receiveContentAnn env msg) := by
  unfold receiveContentAnn
  generalize msg.metadata = ms at hasked
  induction ms generalizing h with
  | nil => exact keeps_pure () h
  | cons m ms ih =>
    intro u h' hrun
    rw [forEach] at hrun
    obtain ⟨a, h₁, hone, hrest⟩ := bind_eq_ok hrun
    rw [bind_run_ok (get_run h)] at hone
    unfold askedByAnn at hasked
    split_ifs at hone hasked with hown
    · have hsame : h = h₁ := by simpa [pure_run] using hone
      subst hsame
      exact ih hasked u h' hrest
    · obtain ⟨b, h₂, hdiscover, hpure⟩ := bind_eq_ok hone
      have hsame : h₂ = h₁ := by simpa [pure_run] using hpure
      subst hsame
      rw [hdiscover, List.append_subset] at hasked
      exact (discover_moves _ hasked.1 b h₂ hdiscover).trans (ih hasked.2 u h' hrest)

theorem broadcast_moves (ref : BlockRef) : Keeps (Moves env op asks) (broadcast env ref) := by
  unfold broadcast
  refine keeps_bind keeps_get fun h => ?_
  cases h.cache.find ref with
  | some idx => exact keeps_bind (post_moves _) fun _ => keeps_pure _
  | none =>
    cases h.store.find ref with
    | some idx => exact keeps_bind (post_moves _) fun _ => keeps_pure _
    | none => exact keeps_pure _

theorem respond_moves {header : MessageHeader} {msg : BlockRequest} {req : BlockRequestArgs}
    (hop : op = .receiveBlockRequest header msg) (hreq : req ∈ msg.requests) :
    Keeps (Moves env op asks) (respond env req) := by
  intro h u h' hrun
  cases hauto : h.autoRespond with
  | true =>
    unfold respond at hrun
    rw [bind_run_ok (get_run h), if_pos hauto] at hrun
    exact keeps_bind (broadcast_moves _) (fun _ => keeps_pure _) h u h' hrun
  | false =>
    rw [respond_run_forward env h hauto, Except.ok.injEq, Prod.mk.injEq] at hrun
    obtain ⟨-, rfl⟩ := hrun
    split_ifs
    · exact (Move.forward req hop hreq).once
    · exact .refl

theorem emit_moves {es : List Effect} (hes : ∀ e ∈ es, Effect.isPlain op e) (h : ContentHelper) :
    Moves env op asks h (h.emit es) := by
  induction es generalizing h with
  | nil =>
    rw [emit_nil]
    exact .refl
  | cons e es ih =>
    rw [List.forall_mem_cons] at hes
    rw [← List.singleton_append, ← emit_emit]
    exact .head (.emit e hes.1) (ih hes.2 _)

theorem afterEvent_moves {header : MessageHeader} {msg : BlockRequest}
    (hop : op = .receiveBlockRequest header msg) (h : ContentHelper) :
    Moves env op asks h (h.afterEvent header.sender msg.requests) := by
  refine (emit_moves ?_ h).trans (moves_frame rfl rfl rfl rfl)
  intro e he
  obtain ⟨call, -, rfl⟩ := List.mem_map.mp he
  rw [hop]
  rfl

theorem receiveBlockRequest_moves {header : MessageHeader} {msg : BlockRequest}
    (hop : op = .receiveBlockRequest header msg) :
    Keeps (Moves env op asks) (receiveBlockRequest env header msg) := by
  intro h u h' hrun
  unfold receiveBlockRequest at hrun
  split_ifs at hrun with hempty
  · exact keeps_pure () h u h' hrun
  · rw [bind_run_ok (fireBlocksRequested_run h _ _), bind_run_ok (get_run _)] at hrun
    refine (afterEvent_moves hop h).trans
      (keeps_ite (keeps_pure _) (keeps_forEach fun req hreq => ?_) _ u h' hrun)
    exact respond_moves hop (fireMoved_left_subset _ _ hreq)

theorem validateStored_moves (hash : Hash) : Keeps (Moves env op asks) (validateStored hash) := by
  unfold validateStored
  refine keeps_bind keeps_get fun h => ?_
  cases h.rmt.find? fun r => r.data.hash = hash with
  | some r => exact keeps_bind (keeps_attempt _) fun _ => keeps_pure _
  | none => exact keeps_pure _

theorem receiveBlockResponse_moves {msg : BlockResponse} (hop : op = .receiveBlockResponse msg) :
    Keeps (Moves env op asks) (receiveBlockResponse env msg) := by
  have htail : ∀ again : Bool, Keeps (Moves env op asks) (do
      record (.blockArrived msg.block)
      if again then
        let _ ← broadcast env msg.block
        pure () : Action Unit) := fun again =>
    keeps_bind (keeps_modify fun _ => (Move.arrive hop).once) fun _ =>
      keeps_ite (keeps_bind (broadcast_moves _) fun _ => keeps_pure _) (keeps_pure _)
  have hfill : op.fillsCache := by rw [hop]; rfl
  unfold receiveBlockResponse
  refine keeps_get_bind fun h => keepsFrom_ite ?_ (keepsFrom_ite ?_ (htail _ h))
  · exact keepsFrom_attempt_bind fun out hs => keepsFrom_modify_bind (Move.keep hop hs).once
      (keeps_bind (validateStored_moves _) fun _ => htail _)
  · exact keepsFrom_attempt_bind fun out hs => keepsFrom_modify_bind (Move.fill out.2 hfill).once
      (htail _)

theorem frozen_moves (hop : op.fillsCache) (enabled : Bool) (blocks : List BlockRef) :
    Keeps (Moves env op asks) (frozen enabled blocks) := by
  induction blocks with
  | nil => exact keeps_pure _
  | cons ref blocks ih =>
    apply keeps_get_bind
    intro h
    cases hfind : h.cache.find ref with
    | none => exact ih h
    | some idx =>
      exact keepsFrom_attempt_bind fun cache _ =>
        keepsFrom_modify_bind (Move.fill cache hop).once (keeps_bind ih fun _ => keeps_pure _)

theorem createNew_moves (hop : op.fillsCache) (hasher : List UInt8 → Hash)
    (types : List ContentType) (name : ContentName) (src : List UInt8) :
    Keeps (Moves env op asks) (createNew hasher env types name src) := by
  unfold createNew
  refine keeps_bind keeps_get fun h => keeps_bind (keeps_attempt _) fun out =>
    keeps_bind (keeps_modify fun h => ?_) fun _ => keeps_pure _
  exact (Move.fill out.2 hop).once.tail (.frame rfl rfl rfl rfl)

theorem metadata_moves : Keeps (Moves env op asks) (metadata env) :=
  keeps_bind (frame_moves (fun _ => rfl) (fun _ => rfl) (fun _ => rfl) fun _ => rfl) fun _ =>
    keeps_bind keeps_get fun _ => keeps_pure _

/-- What a call does is made of the moves. -/
theorem step_moves {hasher : List UInt8 → Hash} (hs : step hasher h (env, op) = .ok h') :
    Moves env op (asked env h op) h h' := by
  obtain ⟨u, hrun⟩ := TransitionRuns.map_snd_ok hs
  suffices hkeeps : KeepsFrom (Moves env op (asked env h op)) h (perform hasher env op) from
    hkeeps u h' hrun
  cases op with
  | subscribe handler =>
    refine keeps_modify (fun h => ?_) h
    exact moves_frame rfl rfl rfl rfl
  | createNew types name src => exact keeps_discard (createNew_moves rfl hasher types name src) h
  | announceMetadata => exact keeps_discard announceMetadata_moves h
  | receiveContentAnn msg => exact receiveContentAnn_moves msg (List.Subset.refl _)
  | receiveBlockRequest header msg => exact receiveBlockRequest_moves rfl h
  | receiveBlockResponse msg => exact receiveBlockResponse_moves rfl h
  | request requests => exact request_moves (List.Subset.refl _) h
  | broadcast ref => exact keeps_discard (broadcast_moves ref) h
  | frozen blocks enabled => exact keeps_discard (frozen_moves rfl enabled blocks) h
  | metadata => exact keeps_discard metadata_moves h
  | sweepPendingRequests =>
    intro u h' hrun
    have hswept := (sweepPendingRequests_run h env.now).symm.trans hrun
    rw [Except.ok.injEq, Prod.mk.injEq] at hswept
    exact hswept.2 ▸ (Move.sweep rfl).once
  | doAutoFetch => exact doAutoFetch_moves (List.Subset.refl _)

end Moving

/-- The flags a helper is built with. They stay as they are. -/
structure Flags where
  autoAnnounce : Bool
  autoFetch : Bool
  autoForwardRequests : Bool
  autoRespond : Bool

/-- The constructor, for any values of the flags; `new` is the helper with all of them on. -/
def build (flags : Flags) (id : NodeId) : ContentHelper :=
  { new id with
    autoAnnounce := flags.autoAnnounce
    autoFetch := flags.autoFetch
    autoForwardRequests := flags.autoForwardRequests
    autoRespond := flags.autoRespond
    effects := if flags.autoAnnounce then [.doIn minAnnounceInterval .announceMetadata] else [] }

/-- What a call has added to the effects. -/
def newEffects (h h' : ContentHelper) : List Effect := h'.effects.drop h.effects.length

theorem newEffects_eq {h h' : ContentHelper} {es : List Effect} (heffects : h'.effects = h.effects ++ es) :
    newEffects h h' = es := by
  rw [newEffects, heffects, List.drop_left]

end YingSma.ContentHelper
