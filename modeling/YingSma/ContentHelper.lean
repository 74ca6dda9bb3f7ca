import YingSma.ContentCacheBlocks
import YingSma.MessageRoundTrip
import YingSma.StateActions

/-! `ContentHelperImpl`: publishing, announcing, requesting, caching and sending blocks.
Posts, fired events and scheduled tasks are recorded as effects. -/
namespace YingSma
open StateActions

structure LocalMetadata where
  data : ContentMetadata
  lastRequested : TimePoint
  nextAnnounce : TimePoint
  deriving DecidableEq

structure RemoteMetadata where
  data : ContentMetadata
  nextAnnounce : TimePoint
  deriving DecidableEq

structure PendingRequest where
  requested : TimePoint
  expiry : TimePoint
  keepOnArrival : Bool
  localOnly : Bool
  deriving DecidableEq

/-- A subscriber of an event. It is dropped when its call returns `false`. -/
structure Handler where
  name : ℕ
  returns : Bool
  deriving DecidableEq

/-- `Event::operator()` for an argument passed as an rvalue: the first handler's
parameter is move-constructed from it, and what is left is an empty vector. The calls
made, and what the caller's vector holds afterwards. -/
def fireMoved {α : Type} : List Handler → List α → List (Handler × List α) × List α
  | [], arg => ([], arg)
  | h :: handlers, arg =>
      let out := fireMoved handlers []
      ((h, arg) :: out.1, out.2)

/-- The member functions `asynctask` is given. -/
inductive Task
  | announceMetadata
  | checkPendingRequests
  | doAutoFetch
  deriving DecidableEq

inductive Effect
  | post (msg : Message)
  | interestingContent (m : ContentMetadata)
  | blocksRequested (handler : Handler) (sender : NodeId) (requests : List BlockRequestArgs)
  | requestTimedout (block : BlockRef)
  | blockArrived (block : BlockRef)
  | doIn (delay : ℤ) (task : Task)
  deriving DecidableEq

/-- The pending request table is a list of entries with different blocks. -/
structure ContentHelper where
  id : NodeId
  cache : ContentCache
  store : ContentCache
  annQueue : List Hash
  toAnnounce : ℕ
  lmt : List LocalMetadata
  rmt : List RemoteMetadata
  prt : List (BlockRef × PendingRequest)
  autoAnnounce : Bool
  autoFetch : Bool
  autoForwardRequests : Bool
  autoRespond : Bool
  autoFetchQueue : List BlockRef
  alreadyInRequest : Bool
  blocksRequestedHandlers : List Handler
  effects : List Effect

/-- What a call reads of its surroundings: the clock, the node's position, and which
types `InterestHelper::contains_any` finds an interest in. -/
structure Surroundings where
  now : TimePoint
  position : Vec2d
  containsAny : List ContentType → Bool

namespace ContentHelper

abbrev Action := StateActions.Action ContentHelper Fault

/-- `millis(1000)` -/
def minAnnounceInterval : ℤ := 1000 * milli

/-- `millis(10000)` -/
def defaultInitialTtl : ℤ := 10000 * milli

def new (id : NodeId) : ContentHelper where
  id := id
  cache := ContentCache.new (1024 * 16)
  store := ContentCache.new 0
  annQueue := []
  toAnnounce := 0
  lmt := []
  rmt := []
  prt := []
  autoAnnounce := true
  autoFetch := true
  autoForwardRequests := true
  autoRespond := true
  autoFetchQueue := []
  alreadyInRequest := false
  blocksRequestedHandlers := []
  effects := [.doIn minAnnounceInterval .announceMetadata]

def record (e : Effect) : Action Unit := modify fun h => { h with effects := h.effects ++ [e] }

/-- `node.post(msg)` to all nodes. The encoder asserts that the message fits. -/
def post (env : Surroundings) (msg : Message) : Action Unit := do
  let h ← get
  let _ ← attempt (MessageBuffer.replace bufferSize env.now ⟨h.id, []⟩ msg)
  record (.post msg)

/-- `publish_time_ms` counts whole milliseconds since the epoch. -/
def createNew (hasher : List UInt8 → Hash) (env : Surroundings) (types : List ContentType)
    (name : ContentName) (src : List UInt8) : Action ContentMetadata := do
  let h ← get
  let (hash, cache) ← attempt (h.cache.store hasher src)
  let metadata : ContentMetadata :=
    { hash, size := UInt32.ofNat src.length, blockSize := UInt32.ofNat blockSize, types, name,
      origin := env.position, publisher := h.id,
      publishTimeMs := UInt64.ofInt (env.now.tdiv milli), hops := 0,
      expiryTime := env.now + defaultInitialTtl }
  modify fun h => { h with
    cache := cache
    lmt := h.lmt ++ [⟨metadata, env.now, env.now⟩]
    annQueue := h.annQueue ++ [hash]
    toAnnounce := h.toAnnounce + 1 }
  pure metadata

/-- `LocalMetadata::announced` -/
def LocalMetadata.announced (now : TimePoint) (l : LocalMetadata) : LocalMetadata :=
  let delay := now - l.lastRequested
  let delay := if delay > 60000 * milli then 60000 * milli else delay
  let delay := if delay < 1000 * milli then 1000 * milli else delay
  { l with nextAnnounce := now + delay }

/-- Local metadata wait for their next announcement, remote ones are dropped when they
have expired and are announced when someone is interested. -/
def announceMetadata (env : Surroundings) : Action ℕ := do
  let h ← get
  if h.lmt = [] ∧ h.rmt = [] then pure 0
  else
    let locals := (h.lmt.filter fun l => env.now ≥ l.nextAnnounce).map LocalMetadata.data
    let alive := h.rmt.filter fun r => !r.data.expired env.now
    let remotes := (alive.filter fun r => env.containsAny r.data.types).map RemoteMetadata.data
    let willAnnounce := locals ++ remotes
    modify fun h => { h with
      lmt := h.lmt.map fun l => if env.now ≥ l.nextAnnounce then LocalMetadata.announced env.now l else l
      rmt := alive.map fun r =>
        if env.containsAny r.data.types then { r with nextAnnounce := env.now + 1000 * milli } else r }
    if willAnnounce ≠ [] then post env (.contentAnn ⟨willAnnounce⟩)
    if h.autoAnnounce then record (.doIn minAnnounceInterval .announceMetadata)
    pure willAnnounce.length

/-- `check_pending_requests(time_point())`: drop the requests past their expiry. -/
def sweepPendingRequests (now : TimePoint) : Action Unit := do
  let h ← get
  let timedOut := (h.prt.filter fun entry => now ≥ entry.2.expiry).map Prod.fst
  modify fun h => { h with prt := h.prt.filter fun entry => !(now ≥ entry.2.expiry) }
  forEach (fun block => record (.requestTimedout block)) timedOut

/-- The epoch as argument asks for the sweep itself, any other time schedules it. -/
def checkPendingRequests (now when_ : TimePoint) : Action Unit :=
  if when_ ≠ 0 then record (.doIn (when_ - now) .checkPendingRequests)
  else sweepPendingRequests now

def pending (h : ContentHelper) (block : BlockRef) : Option PendingRequest := h.prt.lookup block

def erasePending (block : BlockRef) : Action Unit :=
  modify fun h => { h with prt := h.prt.filter fun entry => entry.1 ≠ block }

def updatePending (block : BlockRef) (f : PendingRequest → PendingRequest) : Action Unit :=
  modify fun h => { h with
    prt := h.prt.map fun entry => if entry.1 = block then (entry.1, f entry.2) else entry }

/-- `request` has the block if it is complete in the cache, or absent there and complete
in the store. -/
def has (h : ContentHelper) (block : BlockRef) : Bool :=
  match h.cache.find block with
  | some idx => h.cache.complete idx
  | none =>
      match h.store.find block with
      | some idx => h.store.complete idx
      | none => false

/-- What `request` does about a block it does not have. -/
def addPending (env : Surroundings) (req : LocalRequestArgs) : Action Unit := do
  let newExpiry := env.now + req.ttlMs.toNat * milli
  let h ← get
  match h.pending req.block with
  | some pending =>
      if pending.expiry < newExpiry then
        updatePending req.block fun p => { p with expiry := newExpiry }
        checkPendingRequests env.now newExpiry
      updatePending req.block fun p =>
        { p with keepOnArrival := p.keepOnArrival || req.keepOnArrival }
  | none =>
      modify fun h => { h with
        prt := h.prt ++ [(req.block, ⟨env.now, newExpiry, req.keepOnArrival, false⟩)] }
      checkPendingRequests env.now newExpiry

/-- The loop of `request`: the requests left to send and the blocks already there. -/
def sortRequests (env : Surroundings) :
    List LocalRequestArgs → Action (List LocalRequestArgs × List BlockRef)
  | [] => pure ([], [])
  | req :: reqs => do
      let h ← get
      if h.has req.block then
        erasePending req.block
        let (toSend, have_) ← sortRequests env reqs
        pure (toSend, req.block :: have_)
      else
        addPending env req
        let (toSend, have_) ← sortRequests env reqs
        pure (req :: toSend, have_)

def request (env : Surroundings) (requests : List LocalRequestArgs) : Action Unit := do
  modify fun h => { h with alreadyInRequest := true }
  let (toSend, alreadyHave) ← sortRequests env requests
  if toSend ≠ [] then
    post env (.blockRequest ⟨toSend.map LocalRequestArgs.toBlockRequestArgs⟩)
  forEach (fun block => record (.blockArrived block)) alreadyHave
  modify fun h => { h with alreadyInRequest := false }

/-- The bit pattern of `1.0f`. -/
def utilityOne : UInt32 := 0x3F800000

/-- The request `do_auto_fetch` makes for a block of known remote metadata. -/
def fetchArgs (env : Surroundings) (h : ContentHelper) (block : BlockRef) :
    Option LocalRequestArgs :=
  (h.rmt.find? fun r => r.data.hash = block.hash).map fun r =>
    { block, utility := utilityOne, ttlMs := UInt32.ofInt (defaultInitialTtl / milli),
      requester := h.id, requesterPosition := env.position, hopsFromBlock := r.data.hops,
      keepOnArrival := true, localOnly := true }

/-- At most four blocks are fetched at a time. -/
def doAutoFetch (env : Surroundings) : Action Unit := do
  let h ← get
  if h.autoFetchQueue = [] then pure ()
  else
    let reqs := (h.autoFetchQueue.take 4).filterMap (fetchArgs env h)
    modify fun h => { h with autoFetchQueue := h.autoFetchQueue.drop 4 }
    request env reqs
    let h ← get
    if h.autoFetchQueue ≠ [] then record (.doIn (1000 * milli) .doAutoFetch)

/-- Put the closer of two hop counts into the first entry with this hash. -/
def updateHops (hash : Hash) (hops : UInt8) : List RemoteMetadata → List RemoteMetadata
  | [] => []
  | r :: rmt =>
      if r.data.hash = hash then { r with data := { r.data with hops } } :: rmt
      else r :: updateHops hash hops rmt

def discover (env : Surroundings) (m : ContentMetadata) : Action Bool := do
  let h ← get
  match h.rmt.find? fun r => r.data.hash = m.hash with
  | some existing =>
      if m.hops < existing.data.hops then
        modify fun h => { h with rmt := updateHops m.hash m.hops h.rmt }
        pure true
      else pure false
  | none =>
      modify fun h => { h with rmt := h.rmt ++ [⟨m, env.now⟩] }
      if env.containsAny m.types then
        record (.interestingContent m)
        if h.autoFetch then
          let blockCount ← attempt m.blockCount
          modify fun h => { h with
            autoFetchQueue := h.autoFetchQueue ++
              (List.range blockCount).map fun i => ⟨m.hash, UInt16.ofNat i⟩ }
          doAutoFetch env
      pure true

/-- `receive(MessageHeader, ContentAnn)` -/
def receiveContentAnn (env : Surroundings) (msg : ContentAnn) : Action Unit :=
  forEach (fun m => do
    let h ← get
    if m.publisher = h.id then pure ()
    else
      let _ ← discover env { m with hops := m.hops + 1 }
      pure ()) msg.metadata

theorem length_bytes_ofNat (s : Slot) : s.bytes.length = (UInt32.ofNat s.size).toNat := by
  have hsize := s.size_le
  have hdata := s.length_data
  unfold blockSize at hsize hdata
  rw [UInt32.toNat_ofNat', Nat.mod_eq_of_lt (by omega), Slot.bytes, List.length_take]
  omega

/-- The `BlockResponse` with the contents of a slot. -/
def response (ref : BlockRef) (s : Slot) : BlockResponse where
  block := ref
  size := UInt32.ofNat s.size
  data := s.bytes
  length_data := length_bytes_ofNat s

def broadcast (env : Surroundings) (ref : BlockRef) : Action Bool := do
  let h ← get
  match h.cache.find ref with
  | some idx =>
      post env (.blockResponse (response ref (h.cache.slot idx)))
      pure true
  | none =>
      match h.store.find ref with
      | some idx =>
          post env (.blockResponse (response ref (h.store.slot idx)))
          pure true
      | none => pure false

/-- The loop of `receive(MessageHeader, BlockRequest)` over one request. -/
def respond (env : Surroundings) (req : BlockRequestArgs) : Action Unit := do
  let h ← get
  if h.autoRespond then
    let _ ← broadcast env req.block
    pure ()
  else if h.autoForwardRequests then
    match h.pending req.block with
    | some pending =>
        let newExpiry := env.now + req.ttlMs.toNat * milli
        updatePending req.block fun p => { p with localOnly := false }
        if pending.expiry < newExpiry then
          updatePending req.block fun p => { p with expiry := newExpiry }
          checkPendingRequests env.now newExpiry
    | none => pure ()

/-- Fire the event and return what is left of the requests moved into it. -/
def fireBlocksRequested (sender : NodeId) (requests : List BlockRequestArgs) :
    Action (List BlockRequestArgs) := do
  let h ← get
  let fired := fireMoved h.blocksRequestedHandlers requests
  forEach (fun call => record (.blocksRequested call.1 sender call.2)) fired.1
  modify fun h => { h with
    blocksRequestedHandlers := h.blocksRequestedHandlers.filter Handler.returns }
  pure fired.2

/-- `receive(MessageHeader, BlockRequest)`. The loop runs over the message's own vector,
after the event was given it as an rvalue. -/
def receiveBlockRequest (env : Surroundings) (header : MessageHeader) (msg : BlockRequest) :
    Action Unit :=
  if msg.requests = [] then pure ()
  else do
    let requests ← fireBlocksRequested header.sender msg.requests
    let h ← get
    if !h.autoRespond && !h.autoForwardRequests then pure ()
    else forEach (respond env) requests

/-- `validate_data` for the first remote metadata with this hash. -/
def validateStored (hash : Hash) : Action Unit := do
  let h ← get
  match h.rmt.find? fun r => r.data.hash = hash with
  | some r => do
      let _ ← attempt (h.store.validateData r.data)
      pure ()
  | none => pure ()

/-- `receive(MessageHeader, BlockResponse)` -/
def receiveBlockResponse (env : Surroundings) (msg : BlockResponse) : Action Unit := do
  let h ← get
  let pending := h.pending msg.block
  let keep := pending.any PendingRequest.keepOnArrival && (h.store.find msg.block).isNone
  let willRebroadcast := h.autoRespond && pending.any fun p => !p.localOnly
  if keep then
    let (_, store) ← attempt (h.store.storeBlock msg.block msg.size.toNat msg.data)
    modify fun h => { h with store := store }
    validateStored msg.block.hash
  else if (h.cache.find msg.block).isNone then
    let (_, cache) ← attempt (h.cache.storeBlock msg.block msg.size.toNat msg.data)
    modify fun h => { h with cache := cache }
  record (.blockArrived msg.block)
  if willRebroadcast then
    let _ ← broadcast env msg.block
    pure ()

/-- `frozen(blocks, enabled)`, with the number of blocks found. -/
def frozen (enabled : Bool) : List BlockRef → Action ℕ
  | [] => pure 0
  | ref :: blocks => do
      let h ← get
      match h.cache.find ref with
      | some idx => do
          let cache ← attempt (h.cache.setFrozen idx enabled)
          modify fun h => { h with cache := cache }
          let count ← frozen enabled blocks
          pure (count + 1)
      | none => frozen enabled blocks

def metadata (env : Surroundings) : Action (List ContentMetadata) := do
  modify fun h => { h with rmt := h.rmt.filter fun r => !r.data.expired env.now }
  let h ← get
  pure (h.lmt.map LocalMetadata.data ++ h.rmt.map RemoteMetadata.data)

/-- The calls and due tasks a run of one helper is made of. -/
inductive Op
  | subscribe (handler : Handler)
  | createNew (types : List ContentType) (name : ContentName) (src : List UInt8)
  | announceMetadata
  | receiveContentAnn (msg : ContentAnn)
  | receiveBlockRequest (header : MessageHeader) (msg : BlockRequest)
  | receiveBlockResponse (msg : BlockResponse)
  | request (requests : List LocalRequestArgs)
  | broadcast (ref : BlockRef)
  | frozen (blocks : List BlockRef) (enabled : Bool)
  | metadata
  | sweepPendingRequests
  | doAutoFetch

/-- What a call does to the helper, its result left aside. -/
def perform (hasher : List UInt8 → Hash) (env : Surroundings) : Op → Action Unit
  | .subscribe handler => modify fun h => { h with
      blocksRequestedHandlers := h.blocksRequestedHandlers ++ [handler] }
  | .createNew types name src => discard (createNew hasher env types name src)
  | .announceMetadata => discard (announceMetadata env)
  | .receiveContentAnn msg => receiveContentAnn env msg
  | .receiveBlockRequest header msg => receiveBlockRequest env header msg
  | .receiveBlockResponse msg => receiveBlockResponse env msg
  | .request requests => request env requests
  | .broadcast ref => discard (broadcast env ref)
  | .frozen blocks enabled => discard (frozen enabled blocks)
  | .metadata => discard (metadata env)
  | .sweepPendingRequests => sweepPendingRequests env.now
  | .doAutoFetch => doAutoFetch env

/-- One call of a run, with its surroundings. -/
def step (hasher : List UInt8 → Hash) (h : ContentHelper) (call : Surroundings × Op) :
    Except Fault ContentHelper :=
  (perform hasher call.1 call.2 h).map Prod.snd

end ContentHelper

end YingSma
