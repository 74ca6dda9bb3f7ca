import YingSma.ContentHelperResponses
import YingSma.ContentHelperTraffic
import YingSma.NetworkInvariants

/-! Where the blocks of a network come from. Every block a node holds and every response in the
air is a piece of a content that was published under its hash. -/
namespace YingSma.ContentHelper
open StateActions TransitionRuns
open ContentCache (chunk)

/-- The blocks of the two caches and the blocks posted have `P`. -/
structure Genuine (P : BlockRef → List UInt8 → Prop) (h : ContentHelper) : Prop where
  cached : ∀ hash, ∀ b ∈ h.cache.held hash, P ⟨hash, b.1⟩ b.2
  stored : ∀ hash, ∀ b ∈ h.store.held hash, P ⟨hash, b.1⟩ b.2
  posted : ∀ msg, .post (.blockResponse msg) ∈ h.effects → P msg.block msg.data

def KeepsGenuine (P : BlockRef → List UInt8 → Prop) (h h' : ContentHelper) : Prop :=
  Genuine P h → Genuine P h'

instance (P : BlockRef → List UInt8 → Prop) : IsPreorder ContentHelper (KeepsGenuine P) where
  refl _ hg := hg
  trans _ _ _ hab hbc hg := hbc (hab hg)

/-- Whether an effect is a block posted. -/
def Effect.isResponse : Effect → Bool
  | .post (.blockResponse _) => true
  | _ => false

section Helper

variable {P : BlockRef → List UInt8 → Prop} {h h' : ContentHelper} {env : Surroundings}

theorem new_genuine (id : NodeId) : Genuine P (new id) where
  cached hash b hb := by cases hb
  stored hash b hb := by cases hb
  posted msg hmsg := by simp [new] at hmsg

theorem Genuine.mono {Q : BlockRef → List UInt8 → Prop} (hPQ : ∀ ref bytes, P ref bytes → Q ref bytes)
    (hg : Genuine P h) : Genuine Q h where
  cached hash b hb := hPQ _ _ (hg.cached hash b hb)
  stored hash b hb := hPQ _ _ (hg.stored hash b hb)
  posted msg hmsg := hPQ _ _ (hg.posted msg hmsg)

theorem Genuine.of_effects (hg : Genuine P h) (hcache : h'.cache.held = h.cache.held)
    (hstore : h'.store.held = h.store.held) {es : List Effect}
    (heffects : h'.effects = h.effects ++ es)
    (hes : ∀ msg, .post (.blockResponse msg) ∈ es → P msg.block msg.data) : Genuine P h' where
  cached hash b hb := hg.cached hash b (hcache ▸ hb)
  stored hash b hb := hg.stored hash b (hstore ▸ hb)
  posted msg hmsg := by
    rw [heffects] at hmsg
    rcases List.mem_append.mp hmsg with hmsg | hmsg
    · exact hg.posted msg hmsg
    · exact hes msg hmsg

theorem keepsGenuine_of_eq (hcache : h'.cache.held = h.cache.held)
    (hstore : h'.store.held = h.store.held) (heffects : h'.effects = h.effects) :
    KeepsGenuine P h h' := fun hg =>
  hg.of_effects hcache hstore (heffects.trans (List.append_nil _).symm) fun _ hmsg => by cases hmsg

/-- Without traffic nothing is posted. -/
theorem keepsGenuine_of_quiet (hquiet : Quiet h h') (hcache : h'.cache = h.cache)
    (hstore : h'.store = h.store) : KeepsGenuine P h h' := by
  obtain ⟨-, es, hes, hnone⟩ := hquiet
  intro hg
  refine hg.of_effects (by rw [hcache]) (by rw [hstore]) hes fun msg hmsg => ?_
  have htraffic : .post (.blockResponse msg) ∈ es.filter Effect.isTraffic :=
    List.mem_filter.mpr ⟨hmsg, rfl⟩
  rw [hnone] at htraffic
  cases htraffic

/-- A slot that is found is among those held. -/
theorem found_mem_held {c : ContentCache} {ref : BlockRef} {idx : ℕ} (h : c.find ref = some idx) :
    (ref.index, (c.slot idx).bytes) ∈ c.held ref.hash := by
  have hmem := ContentCache.mem_of_find h
  rw [ContentCache.find_eq] at h
  have hindex : (c.slot idx).blockIndex = ref.index := by simpa using List.find?_some h
  exact List.mem_map.mpr ⟨idx, hmem, by rw [hindex]⟩

theorem Genuine.heldBlock (hg : Genuine P h) {ref : BlockRef} {s : Slot}
    (hs : h.heldBlock ref = some s) : P ref s.bytes := by
  unfold ContentHelper.heldBlock at hs
  cases hcache : h.cache.find ref with
  | some idx =>
    rw [hcache] at hs
    obtain rfl := Option.some.inj hs
    exact hg.cached ref.hash _ (found_mem_held hcache)
  | none =>
    rw [hcache] at hs
    obtain ⟨idx, hstore, rfl⟩ := Option.map_eq_some_iff.mp hs
    exact hg.stored ref.hash _ (found_mem_held hstore)

/-- What answers a request is what is held. -/
theorem Genuine.answer (hg : Genuine P h) (ref : BlockRef) {msg : BlockResponse}
    (hmsg : .post (.blockResponse msg) ∈ h.answer ref) : P msg.block msg.data := by
  unfold ContentHelper.answer at hmsg
  rw [Option.mem_toList, Option.map_eq_some_iff] at hmsg
  obtain ⟨s, hs, heq⟩ := hmsg
  obtain rfl : response ref s = msg := by simpa using heq
  exact hg.heldBlock hs

theorem broadcast_genuine (ref : BlockRef) : Keeps (KeepsGenuine P) (broadcast env ref) := by
  intro h a h' hrun hg
  rw [broadcast_run, Except.ok.injEq, Prod.mk.injEq] at hrun
  obtain ⟨-, rfl⟩ := hrun
  exact hg.of_effects rfl rfl rfl fun msg hmsg => hg.answer ref hmsg

theorem record_genuine {e : Effect} (he : Effect.isResponse e = false) :
    Keeps (KeepsGenuine P) (record e) := by
  apply keeps_modify
  intro h hg
  refine hg.of_effects rfl rfl rfl fun msg hmsg => ?_
  rw [← List.mem_singleton.mp hmsg] at he
  cases he

theorem post_genuine {msg : Message} (hmsg : Effect.isResponse (.post msg) = false) :
    Keeps (KeepsGenuine P) (post env msg) :=
  keeps_bind keeps_get fun _ => keeps_bind (keeps_attempt _) fun _ => record_genuine hmsg

theorem frame_genuine {f : ContentHelper → ContentHelper} (hcache : ∀ h, (f h).cache = h.cache)
    (hstore : ∀ h, (f h).store = h.store) (heffects : ∀ h, (f h).effects = h.effects) :
    Keeps (KeepsGenuine P) (modify f : Action Unit) :=
  keeps_modify fun h => keepsGenuine_of_eq (by rw [hcache]) (by rw [hstore]) (heffects h)

theorem announceMetadata_genuine : Keeps (KeepsGenuine P) (announceMetadata env) := by
  unfold announceMetadata
  refine keeps_bind keeps_get fun h => keeps_ite (keeps_pure _) ?_
  refine keeps_bind (frame_genuine (fun _ => rfl) (fun _ => rfl) fun _ => rfl) fun _ => ?_
  refine keeps_ite (keeps_bind (post_genuine rfl) fun _ => ?_) ?_
  · exact keeps_ite (keeps_bind (record_genuine rfl) fun _ => keeps_pure _) (keeps_pure _)
  · exact keeps_ite (keeps_bind (record_genuine rfl) fun _ => keeps_pure _) (keeps_pure _)

theorem foldl_dealt_same (reqs : List LocalRequestArgs) (h : ContentHelper) :
    (reqs.foldl (dealt env) h).cache = h.cache ∧ (reqs.foldl (dealt env) h).store = h.store := by
  induction reqs generalizing h with
  | nil => exact ⟨rfl, rfl⟩
  | cons req reqs ih =>
    rw [List.foldl_cons, (ih _).1, (ih _).2]
    exact ⟨dealt_cache h req, dealt_store h req⟩

theorem request_genuine (reqs : List LocalRequestArgs) :
    Keeps (KeepsGenuine P) (request env reqs) := by
  intro h u h' hrun hg
  obtain rfl := request_ok hrun
  obtain ⟨es, hes, htraffic⟩ := @requested_traffic env h reqs
  have hsame := @foldl_dealt_same env reqs { h with alreadyInRequest := true }
  refine hg.of_effects (congrArg ContentCache.held hsame.1) (congrArg ContentCache.held hsame.2)
    hes fun msg hmsg => ?_
  have hmem : .post (.blockResponse msg) ∈ es.filter Effect.isTraffic :=
    List.mem_filter.mpr ⟨hmsg, rfl⟩
  rw [htraffic, requestPost] at hmem
  split_ifs at hmem <;> simp at hmem

theorem doAutoFetch_genuine : Keeps (KeepsGenuine P) (doAutoFetch env) := by
  unfold doAutoFetch
  refine keeps_bind keeps_get fun h => keeps_ite (keeps_pure _) ?_
  refine keeps_bind (frame_genuine (fun _ => rfl) (fun _ => rfl) fun _ => rfl) fun _ => ?_
  exact keeps_bind (request_genuine _) fun _ => keeps_bind keeps_get fun _ =>
    keeps_ite (record_genuine rfl) (keeps_pure _)

theorem discover_genuine (m : ContentMetadata) : Keeps (KeepsGenuine P) (discover env m) := by
  have hframe : ∀ f : ContentHelper → List RemoteMetadata,
      Keeps (KeepsGenuine P) (modify fun h => { h with rmt := f h } : Action Unit) :=
    fun f => frame_genuine (fun _ => rfl) (fun _ => rfl) fun _ => rfl
  unfold discover
  refine keeps_bind keeps_get fun h => ?_
  cases h.rmt.find? fun r => r.data.hash = m.hash with
  | some existing =>
    exact keeps_ite (keeps_bind (hframe _) fun _ => keeps_pure _) (keeps_pure _)
  | none =>
    refine keeps_bind (hframe _) fun _ => keeps_ite ?_ (keeps_pure _)
    refine keeps_bind (record_genuine rfl) fun _ => keeps_ite ?_ (keeps_pure _)
    refine keeps_bind (keeps_attempt _) fun _ => keeps_bind ?_ fun _ =>
      keeps_bind doAutoFetch_genuine fun _ => keeps_pure _
    exact frame_genuine (fun _ => rfl) (fun _ => rfl) fun _ => rfl

theorem receiveContentAnn_genuine (msg : ContentAnn) :
    Keeps (KeepsGenuine P) (receiveContentAnn env msg) :=
  keeps_forEach fun _ _ => keeps_bind keeps_get fun _ =>
    keeps_ite (keeps_pure _) (keeps_bind (discover_genuine _) fun _ => keeps_pure _)

theorem frozen_genuine (enabled : Bool) (blocks : List BlockRef) :
    Keeps (KeepsGenuine P) (frozen enabled blocks) := by
  induction blocks with
  | nil => exact keeps_pure _
  | cons ref blocks ih =>
    apply keeps_get_bind
    intro h
    cases hfind : h.cache.find ref with
    | none => exact ih h
    | some idx =>
      refine keepsFrom_attempt_bind fun cache hs =>
        keepsFrom_modify_bind ?_ (keeps_bind ih fun _ => keeps_pure _)
      have hfreeze : h.cache.freeze ref enabled = .ok cache := by
        rw [ContentCache.freeze, hfind]
        exact hs
      exact keepsGenuine_of_eq (ContentCache.freeze_held hfreeze) rfl rfl

theorem forwarded_same (req : BlockRequestArgs) (h : ContentHelper) :
    (h.forwarded env req).cache = h.cache ∧ (h.forwarded env req).store = h.store := by
  unfold forwarded
  cases h.pending req.block with
  | some p => exact ⟨extended_cache _ _ _ _ _, extended_store _ _ _ _ _⟩
  | none => exact ⟨rfl, rfl⟩

theorem respond_genuine (req : BlockRequestArgs) : Keeps (KeepsGenuine P) (respond env req) := by
  intro h u h' hrun
  cases hauto : h.autoRespond with
  | true =>
    unfold respond at hrun
    rw [bind_run_ok (get_run h), if_pos hauto] at hrun
    exact keeps_bind (broadcast_genuine _) (fun _ => keeps_pure _) h u h' hrun
  | false =>
    rw [respond_run_forward env h hauto, Except.ok.injEq, Prod.mk.injEq] at hrun
    obtain ⟨-, rfl⟩ := hrun
    split_ifs
    · exact keepsGenuine_of_quiet (forwarded_quiet req) (forwarded_same req h).1
        (forwarded_same req h).2
    · exact fun hg => hg

theorem receiveBlockRequest_genuine (header : MessageHeader) (msg : BlockRequest) :
    Keeps (KeepsGenuine P) (receiveBlockRequest env header msg) := by
  have hfire : Keeps (KeepsGenuine P) (fireBlocksRequested header.sender msg.requests) := by
    refine keeps_bind keeps_get fun h => keeps_bind (keeps_forEach fun _ _ => record_genuine rfl)
      fun _ => keeps_bind ?_ fun _ => keeps_pure _
    exact frame_genuine (fun _ => rfl) (fun _ => rfl) fun _ => rfl
  refine keeps_ite (keeps_pure _) (keeps_bind hfire fun _ => keeps_bind keeps_get fun h => ?_)
  exact keeps_ite (keeps_pure _) (keeps_forEach fun req _ => respond_genuine req)

/-- A block stored on its own is held under index 0. -/
theorem storeBlock_held_mem {c c' : ContentCache} {ref : BlockRef} {size : ℕ} {src : List UInt8}
    {found : Option ℕ} (hclean : c.Clean) (hs : c.storeBlock ref size src = .ok (found, c'))
    {hash : Hash} {b : BlockIndex × List UInt8} (hb : b ∈ c'.held hash) :
    b ∈ c.held hash ∨ hash = ref.hash ∧ b = (0, src) := by
  cases found with
  | none =>
    rcases ContentCache.storeBlock_ok hs with ⟨-, -, rfl⟩ | ⟨idx, kept, hle, he, -⟩
    · exact .inl hb
    · cases he
  | some idx =>
    rw [ContentCache.storeBlock_held hclean hs, Function.update_apply] at hb
    split_ifs at hb with hhash
    · subst hhash
      rcases List.mem_append.mp hb with hb | hb
      · exact .inl hb
      · exact .inr ⟨rfl, List.mem_singleton.mp hb⟩
    · exact .inl hb

/-- A response that has `P` leaves everything with `P`. -/
theorem step_response_genuine {hasher : List UInt8 → Hash} {msg : BlockResponse}
    (hfirst : ∀ {ref bytes}, P ref bytes → P ⟨ref.hash, 0⟩ bytes) (hsound : Sound h)
    (hmsg : P msg.block msg.data) (hg : Genuine P h)
    (hs : step hasher h (env, .receiveBlockResponse msg) = .ok h') : Genuine P h' := by
  obtain ⟨h₁, hst, rfl⟩ := step_response_ok hs
  have hmem : ∀ {c c' : ContentCache} {found}, c.Clean →
      c.storeBlock msg.block msg.size.toNat msg.data = .ok (found, c') →
      (∀ hash, ∀ b ∈ c.held hash, P ⟨hash, b.1⟩ b.2) →
      ∀ hash, ∀ b ∈ c'.held hash, P ⟨hash, b.1⟩ b.2 := by
    intro c c' found hclean hs hheld hash b hb
    rcases storeBlock_held_mem hclean hs hb with hb | ⟨rfl, rfl⟩
    · exact hheld hash b hb
    · exact hfirst hmsg
  have h₁g : Genuine P h₁ := by
    cases hst with
    | kept _ hblock => exact ⟨hg.cached, hmem hsound.store.toClean hblock hg.stored, hg.posted⟩
    | cached _ _ hblock =>
      exact ⟨hmem hsound.cache.toClean hblock hg.cached, hg.stored, hg.posted⟩
    | present => exact hg
  have harrived : Genuine P (h₁.emit [.blockArrived msg.block]) :=
    h₁g.of_effects rfl rfl rfl fun m hm => by simp at hm
  refine harrived.of_effects rfl rfl rfl fun m hm => ?_
  split_ifs at hm
  · exact harrived.answer msg.block hm
  · cases hm

/-- The metadata `create_new` makes. -/
def createdMetadata (hasher : List UInt8 → Hash) (env : Surroundings) (id : NodeId)
    (types : List ContentType) (name : ContentName) (src : List UInt8) : ContentMetadata where
  hash := hasher src
  size := UInt32.ofNat src.length
  blockSize := UInt32.ofNat blockSize
  types := types
  name := name
  origin := env.position
  publisher := id
  publishTimeMs := UInt64.ofInt (env.now.tdiv milli)
  hops := 0
  expiryTime := env.now + defaultInitialTtl

/-- What `create_new` changes. -/
theorem step_createNew_eq {hasher : List UInt8 → Hash} {types : List ContentType}
    {name : ContentName} {src : List UInt8}
    (hs : step hasher h (env, .createNew types name src) = .ok h') :
    ∃ cache, h.cache.store hasher src = .ok (hasher src, cache) ∧
      h' = { h with
        cache := cache
        lmt := h.lmt ++ [⟨createdMetadata hasher env h.id types name src, env.now, env.now⟩]
        annQueue := h.annQueue ++ [hasher src]
        toAnnounce := h.toAnnounce + 1 } := by
  obtain ⟨u, hrun⟩ := map_snd_ok hs
  obtain ⟨m, hcreate⟩ := discard_eq_ok (m := createNew hasher env types name src) hrun
  unfold createNew at hcreate
  rw [bind_run_ok (get_run h)] at hcreate
  obtain ⟨⟨hash, cache⟩, h₂, hattempt, hcreate⟩ := bind_eq_ok hcreate
  obtain ⟨hstore, rfl⟩ := attempt_eq_ok hattempt
  obtain rfl := (ContentCache.store_ok hstore).1
  simp only [bind_run_ok (modify_run _ _), pure_run, Except.ok.injEq, Prod.mk.injEq] at hcreate
  exact ⟨cache, hstore, hcreate.2.symm⟩

/-- A content that is published has its pieces under their indices. -/
theorem step_createNew_genuine {hasher : List UInt8 → Hash} {types : List ContentType}
    {name : ContentName} {src : List UInt8} (hsound : Sound h)
    (hsrc : ∀ k < 16, k * blockSize < src.length →
      P ⟨hasher src, UInt16.ofNat k⟩ (chunk src k))
    (hg : Genuine P h) (hs : step hasher h (env, .createNew types name src) = .ok h') :
    Genuine P h' := by
  have hne := createNew_nonempty hsound hs
  obtain ⟨cache, hstore, rfl⟩ := step_createNew_eq hs
  refine ⟨fun hash b hb => ?_, hg.stored, hg.posted⟩
  by_cases hhash : hash = hasher src
  · subst hhash
    rcases ContentCache.store_ok hstore with ⟨-, ⟨existing, -, -, rfl⟩ | ⟨hnew, -⟩⟩
    · exact hg.cached _ b hb
    · have hcount : ContentCache.blockCount src.length ≤ 16 :=
        (ContentCache.store_room hsound.cache.bounded hstore hnew).trans hsound.cache.free_le
      have hheld : b ∈ cache.held (hasher src) := hb
      rw [ContentCache.store_held_new hsound.cache.toClean hstore hnew hne (by omega)] at hheld
      obtain ⟨k, hk, rfl⟩ := List.mem_map.mp hheld
      have hlt := List.mem_range.mp hk
      exact hsrc k (by omega)
        (ContentCache.mul_lt_of_lt_blockCount (List.length_pos_iff.mpr hne) hlt)
  · have hheld : b ∈ cache.held hash := hb
    rw [ContentCache.store_held_other hsound.cache.toClean hstore hhash] at hheld
    exact hg.cached hash b hheld

/-- The other calls that receive nothing add no blocks. -/
theorem step_other_genuine {hasher : List UInt8 → Hash} {op : Op}
    (hcreate : ∀ types name src, op ≠ .createNew types name src)
    (hresponse : ∀ msg, op ≠ .receiveBlockResponse msg)
    (hs : step hasher h (env, op) = .ok h') : KeepsGenuine P h h' := by
  obtain ⟨u, hrun⟩ := map_snd_ok hs
  suffices hkeeps : Keeps (KeepsGenuine P) (perform hasher env op) from hkeeps h u h' hrun
  cases op with
  | subscribe handler => exact frame_genuine (fun _ => rfl) (fun _ => rfl) fun _ => rfl
  | createNew types name src => exact (hcreate types name src rfl).elim
  | announceMetadata => exact keeps_discard announceMetadata_genuine
  | receiveContentAnn msg => exact receiveContentAnn_genuine msg
  | receiveBlockRequest header msg => exact receiveBlockRequest_genuine header msg
  | receiveBlockResponse msg => exact (hresponse msg rfl).elim
  | request requests => exact request_genuine requests
  | broadcast ref => exact keeps_discard (broadcast_genuine ref)
  | frozen blocks enabled => exact keeps_discard (frozen_genuine enabled blocks)
  | metadata =>
    refine keeps_discard (keeps_bind ?_ fun _ => keeps_bind keeps_get fun _ => keeps_pure _)
    exact frame_genuine (fun _ => rfl) (fun _ => rfl) fun _ => rfl
  | sweepPendingRequests =>
    refine keeps_bind keeps_get fun h => keeps_bind ?_ fun _ => ?_
    · exact frame_genuine (fun _ => rfl) (fun _ => rfl) fun _ => rfl
    · exact keeps_forEach fun _ _ => record_genuine rfl
  | doAutoFetch => exact doAutoFetch_genuine

end Helper

end YingSma.ContentHelper
