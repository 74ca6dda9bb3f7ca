import YingSma.ContentCacheBounded
import YingSma.ContentHelperFrames

/-! Published content. It is stored in the bounded cache, next to the blocks overheard
from the network, and not in the unbounded store. -/
namespace YingSma.ContentHelper
open StateActions TransitionRuns
open ContentCache (Retains chunk)

/-- What every call that goes through keeps of the two caches. -/
structure Sound (h : ContentHelper) : Prop where
  cache : h.cache.Bounded 16
  store : h.store.FirstOnly

theorem new_sound (id : NodeId) : Sound (new id) where
  cache := ContentCache.new_bounded (Nat.mul_pos (by decide) (by decide) : 0 < 1024 * 16)
  store := ContentCache.new_firstOnly 0

/-- Nothing is published, and the blocks of the cache are still found. -/
def KeepsBlocks (h h' : ContentHelper) : Prop :=
  Sound h → Sound h' ∧ h'.lmt.map LocalMetadata.data = h.lmt.map LocalMetadata.data ∧
    Retains h.cache h'.cache

theorem KeepsBlocks.of_eq {h h' : ContentHelper} (hcache : h'.cache = h.cache)
    (hstore : h'.store = h.store)
    (hlmt : h'.lmt.map LocalMetadata.data = h.lmt.map LocalMetadata.data) : KeepsBlocks h h' :=
  fun hs => ⟨⟨hcache ▸ hs.cache, hstore ▸ hs.store⟩, hlmt, hcache ▸ Retains.refl _⟩

instance : IsPreorder ContentHelper KeepsBlocks where
  refl _ := KeepsBlocks.of_eq rfl rfl rfl
  trans a b c hab hbc hs := by
    obtain ⟨hs', hlmt, hret⟩ := hab hs
    obtain ⟨hs'', hlmt', hret'⟩ := hbc hs'
    exact ⟨hs'', hlmt'.trans hlmt, hret.trans hret'⟩

section Keeping

theorem keepsBlocks_admits : Admits KeepsBlocks fun _ => True where
  frame _ _ _ _ _ := .of_eq rfl rfl rfl
  record _ _ _ := .of_eq rfl rfl rfl
  encoder _ _ := trivial

variable (env : Surroundings)

theorem record_keeps (e : Effect) : Keeps KeepsBlocks (record e) :=
  keeps_modify fun _ => .of_eq rfl rfl rfl

theorem post_keeps (msg : Message) : Keeps KeepsBlocks (post env msg) :=
  keeps_bind keeps_get fun _ => keeps_bind (keeps_attempt _) fun _ => record_keeps _

theorem announceMetadata_keeps : Keeps KeepsBlocks (announceMetadata env) := by
  unfold announceMetadata
  refine keeps_bind keeps_get fun h => keeps_ite (keeps_pure _) ?_
  refine keeps_bind (keeps_modify fun h => .of_eq rfl rfl ?_) fun _ => ?_
  · simp only [List.map_map]
    apply List.map_congr_left
    intro l _
    simp only [Function.comp_apply]
    split_ifs <;> rfl
  · refine keeps_ite (keeps_bind (post_keeps env _) fun _ => ?_) ?_
    · exact keeps_ite (keeps_bind (record_keeps _) fun _ => keeps_pure _) (keeps_pure _)
    · exact keeps_ite (keeps_bind (record_keeps _) fun _ => keeps_pure _) (keeps_pure _)

theorem discover_keeps (m : ContentMetadata) : Keeps KeepsBlocks (discover env m) := by
  unfold discover
  refine keeps_bind keeps_get fun h => ?_
  cases h.rmt.find? fun r => r.data.hash = m.hash with
  | some existing =>
    exact keeps_ite (keeps_bind (keeps_modify fun _ => .of_eq rfl rfl rfl) fun _ => keeps_pure _)
      (keeps_pure _)
  | none =>
    refine keeps_bind (keeps_modify fun _ => .of_eq rfl rfl rfl) fun _ => ?_
    refine keeps_ite (keeps_bind (record_keeps _) fun _ => keeps_ite ?_ (keeps_pure _))
      (keeps_pure _)
    exact keeps_bind (keeps_attempt _) fun _ =>
      keeps_bind (keeps_modify fun _ => .of_eq rfl rfl rfl) fun _ =>
        keeps_bind (doAutoFetch_ends keepsBlocks_admits env).keeps fun _ => keeps_pure _

theorem receiveContentAnn_keeps (msg : ContentAnn) :
    Keeps KeepsBlocks (receiveContentAnn env msg) :=
  keeps_forEach fun _ _ => keeps_bind keeps_get fun _ =>
    keeps_ite (keeps_pure _) (keeps_bind (discover_keeps env _) fun _ => keeps_pure _)

theorem receiveBlockResponse_keeps (msg : BlockResponse) :
    Keeps KeepsBlocks (receiveBlockResponse env msg) := by
  have htail := fun again => (arrive_ends keepsBlocks_admits env msg.block again).keeps
  unfold receiveBlockResponse
  refine keeps_get_bind fun h => keepsFrom_ite ?_ (keepsFrom_ite ?_ (htail _ h))
  · refine keepsFrom_attempt_bind fun out hs => keepsFrom_modify_bind ?_
      (keeps_bind (validateStored_ends _).keeps fun _ => htail _)
    exact fun hsound => ⟨⟨hsound.cache, hsound.store.storeBlock hs⟩, rfl, Retains.refl _⟩
  · refine keepsFrom_attempt_bind fun out hs => keepsFrom_modify_bind ?_ (htail _)
    exact fun hsound => ⟨⟨hsound.cache.storeBlock hs, hsound.store⟩, rfl,
      ContentCache.storeBlock_retains hsound.cache.toClean hs⟩

theorem frozen_keeps (enabled : Bool) (blocks : List BlockRef) :
    Keeps KeepsBlocks (frozen enabled blocks) := by
  induction blocks with
  | nil => exact keeps_pure _
  | cons ref blocks ih =>
    apply keeps_get_bind
    intro h
    cases hfind : h.cache.find ref with
    | none => exact ih h
    | some idx =>
      refine keepsFrom_attempt_bind fun cache hs =>
        keepsFrom_modify_bind ?_ (keeps_bind ih fun _ => keeps_pure _)
      have hfreeze : h.cache.freeze ref enabled = .ok cache := by
        rw [ContentCache.freeze, hfind]
        exact hs
      exact fun hsound => ⟨⟨hsound.cache.freeze hfreeze, hsound.store⟩, rfl,
        Retains.of_held (ContentCache.freeze_held hfreeze)⟩

theorem metadata_keeps : Keeps KeepsBlocks (metadata env) :=
  keeps_bind (keeps_modify fun _ => .of_eq rfl rfl rfl) fun _ =>
    keeps_bind keeps_get fun _ => keeps_pure _

/-- Only `create_new` publishes. -/
theorem step_keeps (hasher : List UInt8 → Hash) {op : Op}
    (hop : ∀ types name src, op ≠ .createNew types name src) {h h' : ContentHelper}
    (hs : step hasher h (env, op) = .ok h') : KeepsBlocks h h' := by
  obtain ⟨u, hrun⟩ := TransitionRuns.map_snd_ok hs
  suffices hkeeps : Keeps KeepsBlocks (perform hasher env op) from hkeeps h u h' hrun
  cases op with
  | subscribe handler => exact keeps_modify fun _ => .of_eq rfl rfl rfl
  | createNew types name src => exact (hop types name src rfl).elim
  | announceMetadata => exact keeps_discard (announceMetadata_keeps env)
  | receiveContentAnn msg => exact receiveContentAnn_keeps env msg
  | receiveBlockRequest header msg => exact (receiveBlockRequest_ends keepsBlocks_admits env header msg).keeps
  | receiveBlockResponse msg => exact receiveBlockResponse_keeps env msg
  | request requests => exact (request_ends keepsBlocks_admits env requests).keeps
  | broadcast ref => exact keeps_discard (broadcast_ends keepsBlocks_admits env ref).keeps
  | frozen blocks enabled => exact keeps_discard (frozen_keeps enabled blocks)
  | metadata => exact keeps_discard (metadata_keeps env)
  | sweepPendingRequests => exact (sweepPendingRequests_ends keepsBlocks_admits env.now).keeps
  | doAutoFetch => exact (doAutoFetch_ends keepsBlocks_admits env).keeps

end Keeping

section Publishing

/-- `broadcast` finds the block and posts a response with exactly these bytes. -/
def Sends (h : ContentHelper) (ref : BlockRef) (bytes : List UInt8) : Prop :=
  ∀ env, ∃ resp h', broadcast env ref h = .ok (true, h') ∧
    h'.effects = h.effects ++ [.post (.blockResponse resp)] ∧ resp.block = ref ∧ resp.data = bytes

/-- Every block of the metadata can be sent as the chunk of `src` it stands for. -/
def Sendable (h : ContentHelper) (m : ContentMetadata) (src : List UInt8) : Prop :=
  ∃ blockCount, m.blockCount = .ok blockCount ∧
    ∀ i < blockCount, Sends h ⟨m.hash, UInt16.ofNat i⟩ (chunk src i)

/-- The content a call is to publish. -/
def publishes : Surroundings × Op → Option (List UInt8)
  | (_, .createNew _ _ src) => some src
  | _ => none

/-- The contents given to `create_new`, in order. -/
def published (past : List (Surroundings × Op)) : List (List UInt8) := past.filterMap publishes

/-- The local metadata table lists the contents published so far, all of them sendable. -/
def Available (r : List (Surroundings × Op) × ContentHelper) : Prop :=
  List.Forall₂ (Sendable r.2) (r.2.lmt.map LocalMetadata.data) (published r.1)

/-- A `create_new` returns. -/
def Creates (hasher : List UInt8 → Hash) (h : ContentHelper) (call : Surroundings × Op) : Prop :=
  match call.2 with
  | .createNew types name src => (createNew hasher call.1 types name src h).isOk
  | _ => True

/-- A content to publish is unknown and enough slots are free for it, or it has a full
entry in the cache already that holds its blocks. -/
def HasRoom (hasher : List UInt8 → Hash) (h : ContentHelper) (call : Surroundings × Op) : Prop :=
  match call.2 with
  | .createNew _ _ src =>
      (h.cache.content (hasher src) = none ∧
        ContentCache.blockCount src.length ≤ h.cache.freeIdxs.length) ∨
      ((∃ existing, h.cache.content (hasher src) = some existing ∧
          existing.length = ContentCache.blockCount src.length) ∧
        ∀ k < ContentCache.blockCount src.length,
          h.cache.blockAt ⟨hasher src, UInt16.ofNat k⟩ = some (chunk src k))
  | _ => True

/-- The blocks of the metadata are in the cache. -/
structure Cached (h : ContentHelper) (m : ContentMetadata) (src : List UInt8) : Prop where
  blockCount : m.blockCount = .ok (ContentCache.blockCount src.length)
  blockAt : ∀ k < ContentCache.blockCount src.length,
    h.cache.blockAt ⟨m.hash, UInt16.ofNat k⟩ = some (chunk src k)

theorem sends_iff (h : ContentHelper) (ref : BlockRef) (bytes : List UInt8) :
    Sends h ref bytes ↔ (h.heldBlock ref).map Slot.bytes = some bytes := by
  constructor
  · intro hsends
    obtain ⟨resp, h', hrun, heffects, -, hdata⟩ := hsends sampleSurroundings
    rw [broadcast_run, Except.ok.injEq, Prod.mk.injEq] at hrun
    obtain ⟨hsome, rfl⟩ := hrun
    obtain ⟨s, hs⟩ := Option.isSome_iff_exists.mp hsome
    simp only [emit, answer, hs, Option.map_some, Option.toList_some, List.append_cancel_left_eq,
      List.cons.injEq, Effect.post.injEq, Message.blockResponse.injEq, and_true] at heffects
    rw [hs, Option.map_some, ← hdata, ← heffects]
    rfl
  · intro hheld env
    obtain ⟨s, hs, rfl⟩ := Option.map_eq_some_iff.mp hheld
    refine ⟨response ref s, h.emit (h.answer ref), ?_, ?_, rfl, rfl⟩
    · rw [broadcast_run, hs]
      rfl
    · simp [emit, answer, hs]

theorem heldBlock_bytes (h : ContentHelper) (ref : BlockRef) :
    (h.heldBlock ref).map Slot.bytes = (h.cache.blockAt ref).or (h.store.blockAt ref) := by
  unfold heldBlock ContentCache.blockAt
  cases h.cache.find ref with
  | some idx => rfl
  | none => simp [Function.comp_def]

/-- What the cache has is sent. -/
theorem Cached.sendable {h : ContentHelper} {m : ContentMetadata} {src : List UInt8}
    (hc : Cached h m src) : Sendable h m src := by
  refine ⟨_, hc.blockCount, fun i hi => ?_⟩
  rw [sends_iff, heldBlock_bytes, hc.blockAt i hi, Option.some_or]

/-- Where the cache has an entry for the hash, the store cannot step in for it. -/
theorem Sound.blockAt_of_sends {h : ContentHelper} (hs : Sound h) {ref : BlockRef}
    {existing : List ℕ} (he : h.cache.content ref.hash = some existing) {bytes : List UInt8}
    (hsends : Sends h ref bytes) : h.cache.blockAt ref = some bytes := by
  rw [sends_iff, heldBlock_bytes] at hsends
  cases hb : h.cache.blockAt ref with
  | some found => rwa [hb, Option.some_or] at hsends
  | none =>
    rw [hb, Option.none_or] at hsends
    have hindex : ref.index = 0 := hs.store.index_zero ref (by rw [hsends]; rfl)
    have hfirst := hs.cache.first_block ref.hash existing he
    rw [← hindex, hb] at hfirst
    cases hfirst

theorem Cached.mono {h h' : ContentHelper} (hret : Retains h.cache h'.cache)
    {m : ContentMetadata} {src : List UInt8} (hc : Cached h m src) : Cached h' m src :=
  ⟨hc.blockCount, fun k hk => hret _ _ (hc.blockAt k hk)⟩

end Publishing

section Runs

variable {hasher : List UInt8 → Hash} {past : List (Surroundings × Op)} {h h' : ContentHelper}

/-- A content of at most 16 blocks is short enough for the 32-bit fields of its metadata. -/
theorem metadata_blockCount {m : ContentMetadata} {src : List UInt8} (hsrc : src ≠ [])
    (hcount : ContentCache.blockCount src.length ≤ 16)
    (hsize : m.size = UInt32.ofNat src.length) (hblock : m.blockSize = UInt32.ofNat blockSize) :
    m.blockCount = .ok (ContentCache.blockCount src.length) := by
  have hpos : 0 < src.length := List.length_pos_iff.mpr hsrc
  unfold ContentCache.blockCount blockSize at hcount
  rw [if_neg hpos.ne'] at hcount
  have htoNat : m.size.toNat = src.length := by
    rw [hsize, UInt32.toNat_ofNat', Nat.mod_eq_of_lt (by omega)]
  have hle : (1 : UInt32) ≤ m.size := by
    rw [UInt32.le_iff_toNat_le, htoNat]
    exact hpos
  have hone : (m.size - 1).toNat = src.length - 1 := by
    rw [UInt32.toNat_sub_of_le _ _ hle, htoNat]
    rfl
  unfold ContentMetadata.blockCount
  rw [if_neg (by rw [hblock]; decide), UInt32.toNat_add, UInt32.toNat_div, hone, hblock]
  congr 1
  exact (Nat.mod_eq_of_lt (by simp [blockSize]; omega)).trans (by simp [ContentCache.blockCount, blockSize, hpos.ne'])

/-- A successful `create_new` has stored the content and listed its metadata. -/
theorem step_createNew_ok {env : Surroundings} {types : List ContentType} {name : ContentName}
    {src : List UInt8} (hs : step hasher h (env, .createNew types name src) = .ok h') :
    ∃ m, h.cache.store hasher src = .ok (m.hash, h'.cache) ∧ h'.store = h.store ∧
      h'.lmt.map LocalMetadata.data = h.lmt.map LocalMetadata.data ++ [m] ∧
      m.size = UInt32.ofNat src.length ∧ m.blockSize = UInt32.ofNat blockSize := by
  obtain ⟨u, hrun⟩ := TransitionRuns.map_snd_ok hs
  have hbind : (createNew hasher env types name src >>= fun _ => pure ()) h = .ok (u, h') := hrun
  obtain ⟨m, h₁, hcreate, hp⟩ := bind_eq_ok hbind
  obtain rfl : h₁ = h' := by simpa [pure_run] using hp
  unfold createNew at hcreate
  rw [bind_run_ok (get_run h)] at hcreate
  obtain ⟨⟨hash, cache⟩, h₂, hattempt, hcreate⟩ := bind_eq_ok hcreate
  obtain ⟨hstore, rfl⟩ := attempt_eq_ok hattempt
  simp only [bind_run_ok (modify_run _ _), pure_run, Except.ok.injEq, Prod.mk.injEq] at hcreate
  obtain ⟨rfl, rfl⟩ := hcreate
  exact ⟨_, hstore, rfl, List.map_append, rfl, rfl⟩

theorem createNew_isOk_iff {env : Surroundings} {types : List ContentType} {name : ContentName}
    {src : List UInt8} :
    (createNew hasher env types name src h).isOk ↔ (h.cache.store hasher src).isOk := by
  unfold createNew
  rw [bind_run_ok (get_run h)]
  cases h.cache.store hasher src with
  | error e => exact Iff.rfl
  | ok out => exact iff_of_true rfl rfl

theorem createNew_step_isOk {env : Surroundings} {types : List ContentType} {name : ContentName}
    {src : List UInt8} (hok : (createNew hasher env types name src h).isOk) :
    ∃ h', step hasher h (env, .createNew types name src) = .ok h' := by
  cases hc : createNew hasher env types name src h with
  | error e =>
    rw [hc] at hok
    cases hok
  | ok out =>
    refine ⟨out.2, ?_⟩
    have hbind : (createNew hasher env types name src >>= fun _ => pure ()) h = .ok ((), out.2) := by
      rw [bind_run_ok hc]
      rfl
    have hperform : perform hasher env (.createNew types name src) h = .ok ((), out.2) := hbind
    rw [step, hperform]
    rfl

/-- The invariant of runs whose contents find room. -/
structure Stocked (past : List (Surroundings × Op)) (h : ContentHelper) : Prop extends Sound h where
  cached : List.Forall₂ (Cached h) (h.lmt.map LocalMetadata.data) (published past)

theorem Stocked.available (hst : Stocked past h) : Available (past, h) :=
  hst.cached.imp fun _ _ hc => hc.sendable

theorem published_append (past : List (Surroundings × Op)) (call : Surroundings × Op) :
    published (past ++ [call]) = published past ++ published [call] :=
  List.filterMap_append

theorem published_other {env : Surroundings} {op : Op}
    (hop : ∀ types name src, op ≠ .createNew types name src) : published [(env, op)] = [] := by
  cases op with
  | createNew types name src => exact (hop types name src rfl).elim
  | _ => rfl

theorem Stocked.step_other (hst : Stocked past h) {env : Surroundings} {op : Op}
    (hop : ∀ types name src, op ≠ .createNew types name src)
    (hs : step hasher h (env, op) = .ok h') : Stocked (past ++ [(env, op)]) h' := by
  obtain ⟨hsound, hlmt, hret⟩ := step_keeps env hasher hop hs hst.toSound
  refine ⟨hsound, ?_⟩
  rw [hlmt, published_append, published_other hop, List.append_nil]
  exact hst.cached.imp fun _ _ hc => hc.mono hret

/-- After a `create_new` for which there was room, the blocks are in the cache. -/
theorem Stocked.step_createNew (hst : Stocked past h) {env : Surroundings}
    {types : List ContentType} {name : ContentName} {src : List UInt8} (hsrc : src ≠ [])
    (hroom : HasRoom hasher h (env, .createNew types name src))
    (hs : step hasher h (env, .createNew types name src) = .ok h') :
    Stocked (past ++ [(env, .createNew types name src)]) h' := by
  obtain ⟨m, hstore, hstore', hlmt, hsize, hblock⟩ := step_createNew_ok hs
  have hret := ContentCache.store_retains hst.cache.toClean hstore
  have hhash := (ContentCache.store_ok hstore).1
  have hbounded := hst.cache.store (by decide) hsrc hstore
  have hcount : ContentCache.blockCount src.length ≤ 16 := by
    rcases hroom with ⟨-, hfree⟩ | ⟨⟨existing, he, hlen⟩, -⟩
    · exact hfree.trans hst.cache.free_le
    · exact hlen ▸ hst.cache.entry_le he
  have hnew : Cached h' m src := by
    refine ⟨metadata_blockCount hsrc hcount hsize hblock, fun k hk => ?_⟩
    rcases hroom with ⟨hunknown, -⟩ | ⟨-, hheld⟩
    · exact ContentCache.store_blockAt hst.cache.toClean hstore (hhash ▸ hunknown) hsrc
        (hcount.trans (by decide)) hk
    · rw [hhash]
      exact hret _ _ (hheld k hk)
  refine ⟨⟨hbounded, hstore' ▸ hst.store⟩, ?_⟩
  rw [hlmt, published_append]
  exact List.rel_append (hst.cached.imp fun _ _ hc => hc.mono hret) (.cons hnew .nil)

theorem Stocked.later (hst : Stocked past h) {call : Surroundings × Op}
    (hsrc : [] ∉ published [call]) (hroom : HasRoom hasher h call)
    (hs : step hasher h call = .ok h') : Stocked (past ++ [call]) h' := by
  obtain ⟨env, op⟩ := call
  by_cases hop : ∃ types name src, op = .createNew types name src
  · obtain ⟨types, name, src, rfl⟩ := hop
    have hne : src ≠ [] := fun hnil => hsrc (by simp [published, publishes, hnil])
    exact hst.step_createNew hne hroom hs
  · simp only [not_exists] at hop
    exact hst.step_other hop hs

/-- The last content published is listed last. -/
theorem sendable_of_forall₂ {ms : List ContentMetadata} {m : ContentMetadata}
    {srcs : List (List UInt8)} {src : List UInt8}
    (hall : List.Forall₂ (Sendable h) (ms ++ [m]) (srcs ++ [src])) : Sendable h m src := by
  rw [← List.forall₂_reverse_iff, List.reverse_append, List.reverse_append] at hall
  exact (List.forall₂_cons.mp hall).1

/-- A `create_new` that returns, and after which everything published is available,
has found room. -/
theorem Stocked.hasRoom (hst : Stocked past h) {call : Surroundings × Op}
    (hsrc : [] ∉ published [call]) (hok : Creates hasher h call)
    (havailable : ∀ h', step hasher h call = .ok h' → Available (past ++ [call], h')) :
    HasRoom hasher h call := by
  obtain ⟨env, op⟩ := call
  cases op with
  | createNew types name src =>
    replace hsrc : src ≠ [] := fun hnil => hsrc (by simp [published, publishes, hnil])
    obtain ⟨h', hs⟩ := createNew_step_isOk hok
    obtain ⟨m, hstore, hstore', hlmt, hsize, hblock⟩ := step_createNew_ok hs
    rcases ContentCache.store_ok hstore with ⟨hhash, ⟨existing, he, hlen, hsame⟩ | ⟨hunknown, -⟩⟩
    · have hsound : Sound h' := ⟨hsame.symm ▸ hst.cache, hstore' ▸ hst.store⟩
      have hlast := havailable h' hs
      rw [Available, hlmt, published_append] at hlast
      obtain ⟨count, hcount, hsends⟩ := sendable_of_forall₂ hlast
      have hle : ContentCache.blockCount src.length ≤ 16 := hlen ▸ hst.cache.entry_le he
      rw [metadata_blockCount hsrc hle hsize hblock, Except.ok.injEq] at hcount
      refine .inr ⟨⟨existing, hhash ▸ he, hlen⟩, fun k hk => ?_⟩
      have hb := hsound.blockAt_of_sends (hsame.symm ▸ he) (hsends k (hcount ▸ hk))
      rwa [hsame, hhash] at hb
    · exact .inl ⟨hhash ▸ hunknown, ContentCache.store_room hst.cache.bounded hstore hunknown⟩
  | _ => trivial

/-- Where there is room, `create_new` returns. -/
theorem HasRoom.creates {call : Surroundings × Op} (hroom : HasRoom hasher h call) :
    Creates hasher h call := by
  obtain ⟨env, op⟩ := call
  cases op with
  | createNew types name src =>
    apply createNew_isOk_iff.mpr
    rcases hroom with ⟨hunknown, hfree⟩ | ⟨⟨existing, he, hlen⟩, -⟩
    · exact ContentCache.store_isOk hunknown (ContentCache.reserveSlots_isOk_iff.mpr (.inl hfree))
    · simp [ContentCache.store, he, hlen, Except.isOk, Except.toBool]
  | _ => trivial

theorem new_stocked (id : NodeId) : Stocked [] (new id) :=
  ⟨new_sound id, .nil⟩

end Runs

end YingSma.ContentHelper
