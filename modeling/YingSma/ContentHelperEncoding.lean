import YingSma.ContentHelperAnnouncing
import YingSma.ContentHelperTraffic

/-! Which posts the encoder takes. Metadata that are due together and the blocks of one request
go into a single message, however many they are. -/
namespace YingSma

namespace ContentCache

/-- What can go wrong in the calls the content helper makes. -/
def faults : List Fault :=
  [.assertFailed "Can't reserve slot; cache is full and no slots can be freed.",
    .assertFailed "Can't reserve slots; cache is full and no slots can be freed.",
    .assertFailed "Data already cached with this hash has different block count.",
    .assertFailed "Block count valid, but data size is not.", .pastEnd, .outOfBounds, .divisionByZero]

/-- What is left when every copy fits its slot. -/
def otherFaults : List Fault := faults.erase .outOfBounds

variable {c : ContentCache} {e : Fault}

theorem reserveSlot_faults (h : c.reserveSlot = .error e) : e ∈ otherFaults := by
  unfold reserveSlot at h
  dsimp only at h
  split_ifs at h
  cases h
  decide

theorem reserveSlots_faults {count : ℕ} (h : c.reserveSlots count = .error e) : e ∈ otherFaults := by
  unfold reserveSlots at h
  dsimp only at h
  split_ifs at h
  cases h
  decide

theorem store_faults {hasher : List UInt8 → Hash} {src : List UInt8}
    (h : c.store hasher src = .error e) : e ∈ otherFaults := by
  unfold store at h
  cases hcontent : c.content (hasher src) with
  | some existing =>
    simp only [hcontent] at h
    split_ifs at h
    cases h
    decide
  | none =>
    simp only [hcontent] at h
    cases hreserve : c.reserveSlots (blockCount src.length) with
    | ok out =>
      rw [hreserve] at h
      cases h
    | error e' =>
      rw [hreserve] at h
      exact Except.error.inj h ▸ reserveSlots_faults hreserve

theorem storeBlock_faults {ref : BlockRef} {size : ℕ} {src : List UInt8}
    (h : c.storeBlock ref size src = .error e) : e ∈ faults := by
  unfold storeBlock at h
  dsimp only at h
  split at h
  · cases h
  · split at h
    · next hreserve => exact Except.error.inj h ▸ List.mem_of_mem_erase (reserveSlot_faults hreserve)
    · split at h
      · cases h
      · cases h
        decide

theorem promoteFrom_faults {idx : ℕ} {idxs : List ℕ} (h : promoteFrom idx idxs = .error e) :
    e ∈ otherFaults := by
  induction idxs using promoteFrom.induct idx with
  | case1 => cases h
  | case2 => cases (if_pos rfl).symm.trans h
  | case3 i hne =>
    cases (if_neg hne).symm.trans h
    decide
  | case4 j rest => cases (if_pos rfl).symm.trans h
  | case5 i j rest hne found hfound ih =>
    simp only [promoteFrom, if_neg hne, hfound] at h
    cases h
  | case6 i j rest hne e' herror ih =>
    simp only [promoteFrom, if_neg hne, herror] at h
    obtain rfl := Except.error.inj h
    exact ih herror

theorem setFrozen_faults {idx : ℕ} {enable : Bool} (h : c.setFrozen idx enable = .error e) :
    e ∈ otherFaults := by
  unfold setFrozen promote at h
  dsimp only at h
  split_ifs at h
  split at h
  · cases h
  · cases h
  · next hpromote => exact Except.error.inj h ▸ promoteFrom_faults hpromote

theorem validateData_faults {m : ContentMetadata} (h : c.validateData m = .error e) :
    e ∈ otherFaults := by
  unfold validateData ContentMetadata.blockCount at h
  split at h
  · cases h
  · split at h
    · next hcount =>
      split_ifs at hcount
      cases hcount
      cases h
      decide
    · split_ifs at h
      cases h
      decide

end ContentCache

namespace ContentHelper
open StateActions TransitionRuns

/-- What is posted is within the limits. -/
def PostsWithin (h h' : ContentHelper) : Prop :=
  ∃ es, h'.effects = h.effects ++ es ∧ ∀ msg, .post msg ∈ es → msg.Fits

instance : IsPreorder ContentHelper PostsWithin where
  refl h := ⟨[], (List.append_nil _).symm, fun _ hmem => by cases hmem⟩
  trans a b c := by
    rintro ⟨es, hes, hfit⟩ ⟨es', hes', hfit'⟩
    refine ⟨es ++ es', by rw [hes', hes, List.append_assoc], fun msg hmem => ?_⟩
    rcases List.mem_append.mp hmem with hmem | hmem
    · exact hfit msg hmem
    · exact hfit' msg hmem

/-- The messages are within the limits, and what fails is not the encoder. -/
abbrev Encoding {α : Type} (m : Action α) : Prop := Ends PostsWithin (· ∉ BinaryOutput.faults) m

section Actions

variable {env : Surroundings} {h h' : ContentHelper}

theorem PostsWithin.of_eq (heffects : h'.effects = h.effects) : PostsWithin h h' :=
  ⟨[], heffects.trans (List.append_nil _).symm, fun _ hmem => by cases hmem⟩

/-- The traffic says what is posted. -/
theorem PostsWithin.of_traffic {es : List Effect} (heffects : h'.effects = h.effects ++ es)
    (hfit : ∀ msg, .post msg ∈ es.filter Effect.isTraffic → msg.Fits) : PostsWithin h h' :=
  ⟨es, heffects, fun msg hmem => hfit msg (List.mem_filter.mpr ⟨hmem, rfl⟩)⟩

theorem emit_within {es : List Effect} (hfit : ∀ msg, .post msg ∈ es → msg.Fits) :
    PostsWithin h (h.emit es) :=
  ⟨es, rfl, hfit⟩

theorem record_encoding {e : Effect} (he : ∀ msg, e ≠ .post msg) : Encoding (record e) :=
  ends_modify fun _ => emit_within fun msg hmem => (he msg (List.mem_singleton.mp hmem).symm).elim

/-- The faults of the cache are others. -/
theorem attempt_encoding {α : Type} {x : Except Fault α}
    (hx : ∀ e, x = .error e → e ∈ ContentCache.faults) : Encoding (attempt x) := by
  have hdisjoint : ∀ e ∈ ContentCache.faults, e ∉ BinaryOutput.faults := by decide
  exact ends_attempt fun e herror => hdisjoint e (hx e herror)

theorem attempt_other {α : Type} {x : Except Fault α}
    (hx : ∀ e, x = .error e → e ∈ ContentCache.otherFaults) : Encoding (attempt x) :=
  attempt_encoding fun e herror => List.mem_of_mem_erase (hx e herror)

/-- A request for few enough blocks. -/
theorem request_encoding {reqs : List LocalRequestArgs} (hlen : (h.missing reqs).length ≤ 255) :
    EndsFrom PostsWithin (· ∉ BinaryOutput.faults) h (request env reqs) := by
  apply endsFrom_run (request_run env h hlen)
  obtain ⟨es, heffects, htraffic⟩ := @requested_traffic env h reqs
  apply PostsWithin.of_traffic heffects
  rw [htraffic]
  intro msg hmem
  unfold requestPost at hmem
  split_ifs at hmem
  · cases hmem
  · obtain rfl := Effect.post.inj (List.mem_singleton.mp hmem)
    exact (fits_blockRequest_iff _).mpr (by rwa [List.length_map])

theorem length_missing_le (h : ContentHelper) (reqs : List LocalRequestArgs) :
    (h.missing reqs).length ≤ reqs.length :=
  List.length_filter_le _ _

theorem doAutoFetch_encoding : Encoding (doAutoFetch env) := by
  apply ends_get_bind
  intro h
  have hfew : ((h.autoFetchQueue.take 4).filterMap (fetchArgs env h)).length ≤ 4 :=
    (List.length_filterMap_le _ _).trans (List.length_take_le _ _)
  have hnext : Encoding (do
      let h ← get
      if h.autoFetchQueue ≠ [] then record (.doIn (1000 * milli) .doAutoFetch) : Action Unit) :=
    ends_get_bind fun h => ends_ite (record_encoding fun _ => Effect.noConfusion) (ends_pure ()) h
  split_ifs
  · exact ends_pure () h
  · refine endsFrom_bind (ends_modify (fun _ => .of_eq rfl) h) fun _ h₁ _ => ?_
    refine endsFrom_bind (request_encoding ?_) fun _ h₂ _ => hnext h₂
    exact (length_missing_le h₁ _).trans (hfew.trans (by decide))

theorem discover_encoding (m : ContentMetadata) : Encoding (discover env m) := by
  apply ends_get_bind
  intro h
  cases h.rmt.find? fun r => r.data.hash = m.hash with
  | some existing =>
    exact ends_ite (ends_bind (ends_modify fun _ => .of_eq rfl) fun _ => ends_pure _) (ends_pure _) h
  | none =>
    refine ends_bind (ends_modify fun _ => .of_eq rfl) (fun _ => ends_ite ?_ (ends_pure _)) h
    refine ends_bind (record_encoding fun _ => Effect.noConfusion) fun _ => ends_ite ?_ (ends_pure _)
    refine ends_bind (attempt_encoding fun e herror => ?_) fun _ => ?_
    · unfold ContentMetadata.blockCount at herror
      split_ifs at herror
      cases herror
      decide
    · exact ends_bind (ends_modify fun _ => .of_eq rfl) fun _ =>
        ends_bind doAutoFetch_encoding fun _ => ends_pure _

theorem receiveContentAnn_encoding (msg : ContentAnn) : Encoding (receiveContentAnn env msg) := by
  apply ends_forEach
  intro m
  apply ends_get_bind
  intro h
  exact ends_ite (ends_pure _) (ends_bind (discover_encoding _) fun _ => ends_pure _) h

theorem answer_within (h : ContentHelper) (ref : BlockRef) : PostsWithin h (h.emit (h.answer ref)) := by
  apply emit_within
  intro msg hmem
  obtain ⟨s, -, heq⟩ := Option.map_eq_some_iff.mp (Option.mem_toList.mp hmem)
  obtain rfl := Effect.post.inj heq
  exact fits_response ref s

theorem broadcast_encoding (ref : BlockRef) : Encoding (broadcast env ref) :=
  fun h => endsFrom_run (broadcast_run env h ref) (answer_within h ref)

theorem receiveBlockRequest_encoding (header : MessageHeader) (msg : BlockRequest) :
    Encoding (receiveBlockRequest env header msg) := by
  intro h
  by_cases hempty : msg.requests = []
  · rw [receiveBlockRequest, if_pos hempty]
    exact ends_pure () h
  · obtain ⟨h', es, hrun, heffects, htraffic⟩ := receiveBlockRequest_run env h header hempty
    apply endsFrom_run hrun
    apply PostsWithin.of_traffic heffects
    rw [htraffic]
    intro out hmem
    rcases List.mem_append.mp hmem with hcall | hanswer
    · obtain ⟨call, -, heq⟩ := List.mem_map.mp hcall
      cases heq
    · unfold loopAnswers at hanswer
      split_ifs at hanswer
      · obtain ⟨req, -, hreq⟩ := List.mem_filterMap.mp hanswer
        obtain ⟨s, -, heq⟩ := Option.map_eq_some_iff.mp hreq
        obtain rfl := Effect.post.inj heq
        exact fits_response req.block s
      · cases hanswer

theorem receiveBlockResponse_encoding (msg : BlockResponse) :
    Encoding (receiveBlockResponse env msg) := by
  have htail : ∀ again : Bool, Encoding (do
      record (.blockArrived msg.block)
      if again then
        let _ ← broadcast env msg.block
        pure () : Action Unit) := fun again =>
    ends_bind (record_encoding fun _ => Effect.noConfusion) fun _ =>
      ends_ite (ends_bind (broadcast_encoding _) fun _ => ends_pure _) (ends_pure _)
  have hvalidate : Encoding (validateStored msg.block.hash) := by
    apply ends_get_bind
    intro h
    cases h.rmt.find? fun r => r.data.hash = msg.block.hash with
    | some r =>
      exact ends_bind (attempt_other fun e => ContentCache.validateData_faults)
        (fun _ => ends_pure _) h
    | none => exact ends_pure () h
  apply ends_get_bind
  intro h
  refine ends_ite ?_ (ends_ite ?_ (htail _)) h
  · refine ends_bind (attempt_encoding fun e => ContentCache.storeBlock_faults) fun _ => ?_
    exact ends_bind (ends_modify fun _ => .of_eq rfl) fun _ => ends_bind hvalidate fun _ => htail _
  · refine ends_bind (attempt_encoding fun e => ContentCache.storeBlock_faults) fun _ => ?_
    exact ends_bind (ends_modify fun _ => .of_eq rfl) fun _ => htail _

theorem frozen_encoding (enabled : Bool) (blocks : List BlockRef) : Encoding (frozen enabled blocks) := by
  induction blocks with
  | nil => exact ends_pure _
  | cons ref blocks ih =>
    apply ends_get_bind
    intro h
    cases h.cache.find ref with
    | none => exact ih h
    | some idx =>
      refine ends_bind (attempt_other fun e => ContentCache.setFrozen_faults) (fun _ => ?_) h
      exact ends_bind (ends_modify fun _ => .of_eq rfl) fun _ => ends_bind ih fun _ => ends_pure _

theorem createNew_encoding (hasher : List UInt8 → Hash) (types : List ContentType) (name : ContentName)
    (src : List UInt8) : Encoding (createNew hasher env types name src) := by
  apply ends_get_bind
  intro h
  refine ends_bind (attempt_other fun e => ContentCache.store_faults) (fun _ => ?_) h
  exact ends_bind (ends_modify fun _ => .of_eq rfl) fun _ => ends_pure _

/-- Every other message is small enough by itself. -/
theorem perform_encoding {hasher : List UInt8 → Hash} {op : Op} (hann : op ≠ .announceMetadata)
    (hreq : ∀ reqs, op ≠ .request reqs) (h : ContentHelper) :
    EndsFrom PostsWithin (· ∉ BinaryOutput.faults) h (perform hasher env op) := by
  cases op with
  | announceMetadata => exact absurd rfl hann
  | request reqs => exact absurd rfl (hreq reqs)
  | subscribe handler => exact ends_modify (fun _ => .of_eq rfl) h
  | createNew types name src => exact endsFrom_discard (createNew_encoding hasher types name src h)
  | receiveContentAnn msg => exact receiveContentAnn_encoding msg h
  | receiveBlockRequest header msg => exact receiveBlockRequest_encoding header msg h
  | receiveBlockResponse msg => exact receiveBlockResponse_encoding msg h
  | broadcast ref => exact endsFrom_discard (broadcast_encoding ref h)
  | frozen blocks enabled => exact endsFrom_discard (frozen_encoding enabled blocks h)
  | metadata =>
    exact endsFrom_discard (ends_bind (ends_modify fun _ => .of_eq rfl)
      (fun _ => ends_get_bind fun h => ends_pure _ h) h)
  | sweepPendingRequests =>
    exact endsFrom_run (sweepPendingRequests_run h env.now) (emit_within fun msg hmem => by
      obtain ⟨block, -, heq⟩ := List.mem_map.mp hmem
      cases heq)
  | doAutoFetch => exact doAutoFetch_encoding h

end Actions

section Limits

variable {env : Surroundings} {hasher : List UInt8 → Hash} {h : ContentHelper}

/-- Every message a call posts is within the limits, and no assertion of the encoder fails. -/
structure PostsFit (hasher : List UInt8 → Hash) (h : ContentHelper) (call : Surroundings × Op) :
    Prop where
  posts : ∀ h', step hasher h call = .ok h' → ∀ msg, .post msg ∈ newEffects h h' → msg.Fits
  asserts : ∀ e, step hasher h call = .error e → e ∉ BinaryOutput.faults

/-- What a call puts into one message: all the metadata that are due, or all the blocks that are
missing. -/
def FitsOneMessage (h : ContentHelper) : Surroundings × Op → Prop
  | (env, .announceMetadata) => OneMessage (willAnnounce env h)
  | (_, .request reqs) => (h.missing reqs).length ≤ 255
  | _ => True

theorem postsFit_of_ends {op : Op}
    (hends : EndsFrom PostsWithin (· ∉ BinaryOutput.faults) h (perform hasher env op)) :
    PostsFit hasher h (env, op) where
  posts h' hs := by
    obtain ⟨u, hrun⟩ := map_snd_ok hs
    obtain ⟨es, heffects, hfit⟩ := hends.keeps u h' hrun
    rwa [newEffects_eq heffects]
  asserts e hs := by
    unfold step at hs
    cases hrun : perform hasher env op h with
    | ok out =>
      rw [hrun] at hs
      cases hs
    | error e' =>
      rw [hrun] at hs
      exact Except.error.inj hs ▸ hends.fails e' hrun

theorem not_postsFit {op : Op} {e : Fault} (he : e ∈ BinaryOutput.faults)
    (herror : perform hasher env op h = .error e) : ¬ PostsFit hasher h (env, op) := by
  intro hfit
  apply hfit.asserts e _ he
  simp only [step, herror, Except.map]

theorem post_unfit (env : Surroundings) {msg : Message} (hmsg : ¬ msg.Fits) (h : ContentHelper) :
    ∃ e ∈ BinaryOutput.faults, post env msg h = .error e := by
  obtain ⟨e, he, herror⟩ := replace_unfit hmsg env.now h.id
  exact ⟨e, he, post_error herror⟩

/-- A request for more blocks than a vector may have reaches the assertion. -/
theorem request_unfit {reqs : List LocalRequestArgs} (hmany : ¬ (h.missing reqs).length ≤ 255) :
    ∃ e ∈ BinaryOutput.faults, request env reqs h = .error e := by
  have hhas : ∀ block, ({ h with alreadyInRequest := true } : ContentHelper).has block = h.has block :=
    fun block => has_congr rfl rfl block
  have hsend : h.missing reqs ≠ [] := by
    intro hnil
    rw [hnil] at hmany
    exact hmany (Nat.zero_le 255)
  have hunfit : ¬ (Message.blockRequest
      ⟨(h.missing reqs).map LocalRequestArgs.toBlockRequestArgs⟩).Fits := by
    rwa [fits_blockRequest_iff, List.length_map]
  obtain ⟨e, he, herror⟩ :=
    post_unfit env hunfit (reqs.foldl (dealt env) { h with alreadyInRequest := true })
  refine ⟨e, he, ?_⟩
  unfold request
  rw [bind_run_ok (modify_run _ h), bind_run_ok (sortRequests_run reqs _)]
  simp only [hhas]
  unfold missing at hsend herror
  rw [if_pos hsend, bind_run_error herror]

theorem announceable_iff : Announceable env h ↔ OneMessage (willAnnounce env h) := by
  rw [← fits_contentAnn_iff]
  unfold Announceable
  by_cases hfits : (Message.contentAnn ⟨willAnnounce env h⟩).Fits
  · exact iff_of_true (.inr ⟨_, replace_fits hfits env.now h.id⟩) hfits
  · obtain ⟨e, -, herror⟩ := replace_unfit hfits env.now h.id
    refine iff_of_false ?_ hfits
    rintro (hnone | ⟨packet, hok⟩)
    · rw [hnone, fits_contentAnn_iff] at hfits
      exact hfits .nil
    · cases herror.symm.trans hok

theorem announced_within (hsmall : OneMessage (willAnnounce env h)) :
    PostsWithin h (h.announced env) := by
  refine ⟨announcement env h, rfl, fun msg hmem => ?_⟩
  unfold announcement at hmem
  rcases List.mem_append.mp hmem with hmem | hmem
  · split_ifs at hmem
    · cases hmem
    · obtain rfl := Effect.post.inj (List.mem_singleton.mp hmem)
      exact (fits_contentAnn_iff _).mpr hsmall
  · split_ifs at hmem
    · cases List.mem_singleton.mp hmem
    · cases hmem

theorem announceMetadata_encoding (hsmall : OneMessage (willAnnounce env h)) :
    EndsFrom PostsWithin (· ∉ BinaryOutput.faults) h (announceMetadata env) := by
  by_cases htables : h.lmt = [] ∧ h.rmt = []
  · exact endsFrom_run (announceMetadata_idle htables) (.of_eq rfl)
  · obtain ⟨n, hrun⟩ := (announceMetadata_ok_iff htables).mpr ⟨announceable_iff.mpr hsmall, rfl⟩
    exact endsFrom_run hrun (announced_within hsmall)

/-- Metadata that are due together and too much for one message reach an assertion. -/
theorem announceMetadata_unfit (hmany : ¬ OneMessage (willAnnounce env h)) :
    ∃ e ∈ BinaryOutput.faults, announceMetadata env h = .error e := by
  have hwill : willAnnounce env h ≠ [] := by
    intro hnil
    rw [hnil] at hmany
    exact hmany .nil
  have htables : ¬ (h.lmt = [] ∧ h.rmt = []) := by
    rintro ⟨hlmt, hrmt⟩
    apply hwill
    simp [willAnnounce, hlmt, hrmt]
  have hunfit : ¬ (Message.contentAnn ⟨willAnnounce env h⟩).Fits := by rwa [fits_contentAnn_iff]
  obtain ⟨e, he, herror⟩ :=
    post_unfit env hunfit { h.announced env with effects := h.effects }
  refine ⟨e, he, ?_⟩
  rw [announceMetadata_eq htables, if_pos hwill, bind_run_error herror]

theorem postsFit_iff (hasher : List UInt8 → Hash) (h : ContentHelper) (call : Surroundings × Op) :
    PostsFit hasher h call ↔ FitsOneMessage h call := by
  obtain ⟨env, op⟩ := call
  by_cases hann : op = .announceMetadata
  · subst hann
    constructor
    · intro hfit
      by_contra hmany
      obtain ⟨e, he, herror⟩ := announceMetadata_unfit hmany
      have hperform : perform hasher env .announceMetadata h = .error e := discard_error herror
      exact not_postsFit he hperform hfit
    · intro hsmall
      apply postsFit_of_ends
      exact endsFrom_discard (announceMetadata_encoding hsmall)
  · by_cases hreq : ∃ reqs, op = .request reqs
    · obtain ⟨reqs, rfl⟩ := hreq
      constructor
      · intro hfit
        by_contra hmany
        obtain ⟨e, he, herror⟩ := request_unfit hmany
        have hperform : perform hasher env (.request reqs) h = .error e := herror
        exact not_postsFit he hperform hfit
      · intro hfew
        apply postsFit_of_ends
        exact request_encoding hfew
    · rw [not_exists] at hreq
      apply iff_of_true
      · apply postsFit_of_ends
        exact perform_encoding hann hreq h
      · cases op with
        | announceMetadata => exact absurd rfl hann
        | request reqs => exact absurd rfl (hreq reqs)
        | _ => trivial

/-- The messages of a run can be written exactly if at each call what is to go into one message
fits it. -/
theorem posts_fit_iff (hasher : List UInt8 → Hash) (flags : Flags) (id : NodeId)
    (calls : List (Surroundings × Op)) :
    Each (step hasher) (PostsFit hasher) (build flags id) calls ↔
      Each (step hasher) FitsOneMessage (build flags id) calls :=
  each_congr (fun _ => True) (fun _ _ _ _ _ _ _ => trivial)
    (fun h call _ _ => postsFit_iff hasher h call) trivial

/-- The list `behave_request` passes to `request` for the metadata it picks. The count of blocks
is an `int`, compared with an unsigned counter. -/
def behaviorRequests (env : Surroundings) (id : NodeId) (m : ContentMetadata) :
    Except Fault (List LocalRequestArgs) :=
  if m.blockSize = 0 then .error .divisionByZero
  else
    let numOfBlocks := 1 + (m.size - 1) / m.blockSize
    if numOfBlocks.toNat < 2 ^ 31 then
      .ok ((List.range numOfBlocks.toNat).map fun i =>
        { block := ⟨m.hash, UInt16.ofNat i⟩, utility := utilityOne, ttlMs := 20000, requester := id,
          requesterPosition := env.position, hopsFromBlock := 1, keepOnArrival := false,
          localOnly := false })
    else .error .lengthError

/-- Content of 256 blocks at another node. -/
def manyBlocks : ContentMetadata :=
  { hash := default, size := 262144, blockSize := 1024, types := [], name := ⟨[]⟩, origin := ⟨0, 0⟩,
    publisher := ⟨2⟩, publishTimeMs := 0, hops := 0, expiryTime := defaultInitialTtl }

/-- The node hears of the content and asks for its blocks. -/
theorem many_blocks_requested :
    ∃ reqs, behaviorRequests nowhere ⟨1⟩ { manyBlocks with hops := 1 } = .ok reqs ∧
      ¬ Each (step fun _ => default) (PostsFit fun _ => default) (build ⟨true, true, true, true⟩ ⟨1⟩)
        [(nowhere, .receiveContentAnn ⟨[manyBlocks]⟩), (nowhere, .metadata),
          (nowhere, .request reqs)] := by
  refine ⟨_, rfl, fun heach => ?_⟩
  have hrequest := ((heach.2 _ rfl).2 _ rfl).1
  rw [postsFit_iff] at hrequest
  change (missing _ _).length ≤ 255 at hrequest
  revert hrequest
  decide +kernel

end Limits

end ContentHelper

end YingSma
