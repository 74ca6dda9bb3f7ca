import YingSma.ContentHelperRequests

/-! The parts of the content helper that deal in requests and blocks. They write four fields and
record effects of their own, and the encoder alone can make them fail. -/
namespace YingSma.ContentHelper
open StateActions

/-- Whether an effect is about requests and blocks, as opposed to metadata. -/
def Effect.ofBlocks : Effect → Bool
  | .post (.blockRequest _) => true
  | .post (.blockResponse _) => true
  | .blocksRequested _ _ _ => true
  | .requestTimedout _ => true
  | .blockArrived _ => true
  | .doIn _ .checkPendingRequests => true
  | .doIn _ .doAutoFetch => true
  | _ => false

/-- What a relation between the helpers before and after, and a kind of fault, have to admit. -/
structure Admits (R : ContentHelper → ContentHelper → Prop) (E : Fault → Prop) : Prop where
  frame : ∀ (h : ContentHelper) prt inRequest queue handlers,
    R h { h with
      prt := prt
      alreadyInRequest := inRequest
      autoFetchQueue := queue
      blocksRequestedHandlers := handlers }
  record : ∀ h {e}, Effect.ofBlocks e → R h (h.emit [e])
  encoder : ∀ e ∈ BinaryOutput.faults, E e

section Frames

variable {R : ContentHelper → ContentHelper → Prop} {E : Fault → Prop} (ha : Admits R E)

include ha

theorem record_ends {e : Effect} (he : Effect.ofBlocks e) : Ends R E (record e) :=
  ends_modify fun h => ha.record h he

theorem setPending_ends (f : ContentHelper → List (BlockRef × PendingRequest)) :
    Ends R E (modify fun h => { h with prt := f h } : Action Unit) :=
  ends_modify fun h => ha.frame h _ _ _ _

theorem updatePending_ends (block : BlockRef) (f : PendingRequest → PendingRequest) :
    Ends R E (updatePending block f) :=
  setPending_ends ha _

variable [IsPreorder ContentHelper R] (env : Surroundings)

/-- The encoder takes a message that is within the limits, and asserts of any other. -/
theorem post_ends {msg : Message} (hmsg : ∀ h : ContentHelper, R h (h.emit [.post msg])) :
    Ends R E (post env msg) := by
  apply ends_get_bind
  intro h
  refine ends_bind (ends_attempt fun e herror => ?_) (fun _ => ends_modify hmsg) h
  by_cases hfits : msg.Fits
  · cases herror.symm.trans (replace_fits hfits env.now h.id)
  · obtain ⟨e', he', hrefused⟩ := replace_unfit hfits env.now h.id
    obtain rfl := Except.error.inj (herror.symm.trans hrefused)
    exact ha.encoder e he'

theorem sweepPendingRequests_ends (now : TimePoint) : Ends R E (sweepPendingRequests now) := by
  apply ends_get_bind
  intro h
  exact ends_bind (setPending_ends ha _) (fun _ => ends_forEach fun _ => record_ends ha rfl) h

theorem checkPendingRequests_ends (now when_ : TimePoint) :
    Ends R E (checkPendingRequests now when_) :=
  ends_ite (record_ends ha rfl) (sweepPendingRequests_ends ha now)

theorem addPending_ends (req : LocalRequestArgs) : Ends R E (addPending env req) := by
  apply ends_get_bind
  intro h
  cases h.pending req.block with
  | some pending =>
    refine ends_ite ?_ (updatePending_ends ha _ _) h
    exact ends_bind (updatePending_ends ha _ _) fun _ =>
      ends_bind (checkPendingRequests_ends ha _ _) fun _ => updatePending_ends ha _ _
  | none =>
    exact ends_bind (setPending_ends ha _) (fun _ => checkPendingRequests_ends ha _ _) h

theorem sortRequests_ends (reqs : List LocalRequestArgs) : Ends R E (sortRequests env reqs) := by
  induction reqs with
  | nil => exact ends_pure _
  | cons req reqs ih =>
    apply ends_get_bind
    intro h
    refine ends_ite ?_ ?_ h
    · exact ends_bind (setPending_ends ha _) fun _ => ends_bind ih fun _ => ends_pure _
    · exact ends_bind (addPending_ends ha env req) fun _ => ends_bind ih fun _ => ends_pure _

theorem request_ends (reqs : List LocalRequestArgs) : Ends R E (request env reqs) := by
  have hflag : ∀ b, Ends R E (modify fun h => { h with alreadyInRequest := b } : Action Unit) :=
    fun b => ends_modify fun h => ha.frame h _ _ _ _
  have htail : ∀ blocks : List BlockRef, Ends R E (do
      forEach (fun block => record (.blockArrived block)) blocks
      modify fun h => { h with alreadyInRequest := false } : Action Unit) := fun blocks =>
    ends_bind (ends_forEach fun _ => record_ends ha rfl) fun _ => hflag false
  refine ends_bind (hflag true) fun _ => ends_bind (sortRequests_ends ha env reqs) fun sorted => ?_
  exact ends_ite (ends_bind (post_ends ha env fun h => ha.record h rfl) fun _ => htail _) (htail _)

theorem doAutoFetch_ends : Ends R E (doAutoFetch env) := by
  apply ends_get_bind
  intro h
  refine ends_ite (ends_pure _) ?_ h
  refine ends_bind (ends_modify fun h => ha.frame h _ _ _ _) fun _ =>
    ends_bind (request_ends ha env _) fun _ => ?_
  apply ends_get_bind
  intro h
  exact ends_ite (record_ends ha rfl) (ends_pure _) h

theorem broadcast_ends (ref : BlockRef) : Ends R E (broadcast env ref) := by
  apply ends_get_bind
  intro h
  have hpost : ∀ s, Ends R E (do
      post env (.blockResponse (response ref s))
      pure true : Action Bool) := fun s =>
    ends_bind (post_ends ha env fun h => ha.record h rfl) fun _ => ends_pure _
  cases h.cache.find ref with
  | some idx => exact hpost _ h
  | none =>
    cases h.store.find ref with
    | some idx => exact hpost _ h
    | none => exact ends_pure _ h

theorem respond_ends (req : BlockRequestArgs) : Ends R E (respond env req) := by
  apply ends_get_bind
  intro h
  refine ends_ite (ends_bind (broadcast_ends ha env _) fun _ => ends_pure _) ?_ h
  refine ends_ite ?_ (ends_pure _)
  cases h.pending req.block with
  | some pending =>
    refine ends_bind (updatePending_ends ha _ _) fun _ => ends_ite ?_ (ends_pure _)
    exact ends_bind (updatePending_ends ha _ _) fun _ => checkPendingRequests_ends ha _ _
  | none => exact ends_pure _

theorem receiveBlockRequest_ends (header : MessageHeader) (msg : BlockRequest) :
    Ends R E (receiveBlockRequest env header msg) := by
  have hfire : Ends R E (fireBlocksRequested header.sender msg.requests) := by
    apply ends_get_bind
    intro h
    refine ends_bind (ends_forEach fun _ => record_ends ha rfl) (fun _ => ?_) h
    exact ends_bind (ends_modify fun h => ha.frame h _ _ _ _) fun _ => ends_pure _
  refine ends_ite (ends_pure _) (ends_bind hfire fun _ => ends_get_bind fun h => ?_)
  exact ends_ite (ends_pure _) (ends_forEach fun req => respond_ends ha env req) h

/-- The end of `receive(MessageHeader, BlockResponse)`. -/
theorem arrive_ends (block : BlockRef) (again : Bool) : Ends R E (do
    record (.blockArrived block)
    if again then
      let _ ← broadcast env block
      pure () : Action Unit) := by
  refine ends_bind (record_ends ha rfl) fun _ => ends_ite ?_ (ends_pure _)
  exact ends_bind (broadcast_ends ha env _) fun _ => ends_pure _

end Frames

/-- The same of a relation that does not look at the caches, and of any fault. -/
structure AdmitsStores (R : ContentHelper → ContentHelper → Prop) : Prop
    extends Admits R fun _ => True where
  stores : ∀ (h : ContentHelper) cache store, R h { h with cache := cache, store := store }

section Stores

variable {R : ContentHelper → ContentHelper → Prop} [IsPreorder ContentHelper R]
  (ha : AdmitsStores R) (env : Surroundings)

theorem validateStored_ends (hash : Hash) : Ends R (fun _ => True) (validateStored hash) := by
  apply ends_get_bind
  intro h
  cases h.rmt.find? fun r => r.data.hash = hash with
  | some r => exact ends_bind (ends_attempt fun _ _ => trivial) (fun _ => ends_pure _) h
  | none => exact ends_pure () h

include ha

theorem receiveBlockResponse_ends (msg : BlockResponse) :
    Ends R (fun _ => True) (receiveBlockResponse env msg) := by
  have htail := arrive_ends ha.toAdmits env msg.block
  apply ends_get_bind
  intro h
  refine ends_ite ?_ (ends_ite ?_ (htail _)) h
  · refine ends_bind (ends_attempt fun _ _ => trivial) fun _ => ?_
    exact ends_bind (ends_modify fun h => ha.stores h _ _) fun _ =>
      ends_bind (validateStored_ends _) fun _ => htail _
  · refine ends_bind (ends_attempt fun _ _ => trivial) fun _ => ?_
    exact ends_bind (ends_modify fun h => ha.stores h _ _) fun _ => htail _

theorem frozen_ends (enabled : Bool) (blocks : List BlockRef) :
    Ends R (fun _ => True) (frozen enabled blocks) := by
  induction blocks with
  | nil => exact ends_pure _
  | cons ref blocks ih =>
    apply ends_get_bind
    intro h
    cases h.cache.find ref with
    | none => exact ih h
    | some idx =>
      refine ends_bind (ends_attempt fun _ _ => trivial) (fun _ => ?_) h
      exact ends_bind (ends_modify fun h => ha.stores h _ _) fun _ => ends_bind ih fun _ => ends_pure _

end Stores

end YingSma.ContentHelper
