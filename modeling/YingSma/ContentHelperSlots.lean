import YingSma.ContentHelperEncoding

/-! Received blocks and the slots they are copied into. The size of a response is that of its
message, which nothing compares with the size of a slot. -/
namespace YingSma

namespace ContentCache

/-- Each slot holds at most what is expected of it, and no more is expected than it can hold. -/
def SlotsFit (c : ContentCache) : Prop :=
  ∀ s ∈ c.slots, s.size ≤ s.expectedSize ∧ s.expectedSize ≤ blockSize

/-- A slot can be had for one more block. -/
def HasSlot (c : ContentCache) : Prop := c.freeIdxs ≠ [] ∨ c.capacity = 0

section Cache

variable {c c' : ContentCache}

theorem forall_modify {p : Slot → Prop} {f : Slot → Slot} {slots : List Slot} {idx : ℕ}
    (hf : ∀ s, p s → p (f s)) (hslots : ∀ s ∈ slots, p s) : ∀ s ∈ slots.modify idx f, p s := by
  intro s hs
  obtain ⟨i, hi, rfl⟩ := List.getElem_of_mem hs
  rw [List.getElem_modify]
  have hmem := hslots _ (List.getElem_mem (by simpa using hi))
  split_ifs
  · exact hf _ hmem
  · exact hmem

theorem new_slotsFit (capacity : ℕ) : (new capacity).SlotsFit := by
  intro s hs
  obtain rfl := List.eq_of_mem_replicate hs
  exact ⟨le_rfl, Nat.zero_le _⟩

theorem SlotsFit.growToFit (h : c.SlotsFit) (count : ℕ) : (c.growToFit count).SlotsFit := by
  unfold ContentCache.growToFit
  split_ifs
  · exact h
  · intro s hs
    rcases List.mem_append.mp hs with hold | hnew
    · exact h s hold
    · obtain rfl := List.eq_of_mem_replicate hnew
      exact ⟨le_rfl, Nat.zero_le _⟩

theorem copyBlocks_slotsFit {taken : List ℕ} {fuel : ℕ} {index : BlockIndex} {rest : List UInt8}
    {slots : List Slot} (h : ∀ s ∈ slots, s.size ≤ s.expectedSize ∧ s.expectedSize ≤ blockSize) :
    ∀ s ∈ copyBlocks taken fuel index rest slots, s.size ≤ s.expectedSize ∧
      s.expectedSize ≤ blockSize := by
  induction fuel generalizing index rest slots with
  | zero => exact h
  | succ fuel ih =>
    rw [copyBlocks]
    split_ifs
    · exact h
    · exact ih (forall_modify (fun s _ => ⟨le_rfl, List.length_take_le _ _⟩) h)

theorem SlotsFit.store {hasher : List UInt8 → Hash} {src : List UInt8} {hash : Hash} (h : c.SlotsFit)
    (hs : c.store hasher src = .ok (hash, c')) : c'.SlotsFit := by
  rcases store_ok hs with ⟨-, ⟨existing, -, -, rfl⟩ | ⟨-, kept, idxs, n, -, -, -, rfl⟩⟩
  · exact h
  · exact copyBlocks_slotsFit (h.growToFit n)

/-- A block that is copied whole expects what it holds. -/
theorem SlotsFit.storeBlock {ref : BlockRef} {src : List UInt8} {found : Option ℕ} (h : c.SlotsFit)
    (hs : c.storeBlock ref src.length src = .ok (found, c')) : c'.SlotsFit := by
  rcases storeBlock_ok hs with ⟨-, -, rfl⟩ | ⟨idx, kept, hle, -, -, -, rfl⟩
  · exact h
  · exact forall_modify (fun s _ => ⟨le_rfl, hle⟩) (h.growToFit 1)

theorem SlotsFit.setFrozen {idx : ℕ} {enable : Bool} (h : c.SlotsFit)
    (hs : c.setFrozen idx enable = .ok c') : c'.SlotsFit := by
  obtain ⟨idxs, -, rfl⟩ := setFrozen_ok hs
  exact forall_modify (fun s hfit => hfit) h

theorem not_overflow {e : Fault} (he : e ∈ otherFaults) : e ≠ .outOfBounds := by
  rintro rfl
  exact absurd he (by decide)

theorem hasSlot_iff : c.HasSlot ↔ c.reserveSlot.isOk := by
  rw [reserveSlot_isOk_iff, Nat.one_le_iff_ne_zero, Ne, List.length_eq_zero_iff]
  rfl

/-- The copy is made once a slot is reserved, whatever the size. -/
theorem storeBlock_overflows_iff {ref : BlockRef} {expectedSize : ℕ} {src : List UInt8}
    (hnone : c.find ref = none) :
    c.storeBlock ref expectedSize src = .error .outOfBounds ↔ c.HasSlot ∧ blockSize < src.length := by
  have hany : ¬ ((c.content ref.hash).getD []).any fun idx => (c.slot idx).blockIndex = ref.index := by
    rw [← List.isSome_find?, ← find_eq, hnone]
    exact Bool.false_ne_true
  rw [hasSlot_iff, ← reserveSlot_isOk_with_content
    (Function.update c.content ref.hash (some ((c.content ref.hash).getD [])))]
  unfold storeBlock
  dsimp only
  split
  · next hheld => exact absurd hheld hany
  · generalize hreserve : ContentCache.reserveSlot _ = reserved
    cases reserved with
    | error e =>
      have hne := not_overflow (reserveSlot_faults hreserve)
      simpa [Except.isOk, Except.toBool] using hne
    | ok out =>
      by_cases hle : src.length ≤ blockSize
      · simp [hle]
      · simp [hle, not_le.mp hle, Except.isOk, Except.toBool]

end Cache

end ContentCache

namespace ContentHelper
open StateActions TransitionRuns

/-- The slots of both caches. -/
def SlotsFit (h : ContentHelper) : Prop := h.cache.SlotsFit ∧ h.store.SlotsFit

/-- No copy of the call runs over the end of a slot. -/
def CopiesFit (hasher : List UInt8 → Hash) (h : ContentHelper) (call : Surroundings × Op) : Prop :=
  step hasher h call ≠ .error .outOfBounds

/-- A response that is copied is no larger than a block: it is copied into the store if it is kept,
else into the cache if that does not have the block, where a slot can be had. -/
def ResponseFits (h : ContentHelper) : Surroundings × Op → Prop
  | (_, .receiveBlockResponse msg) =>
      if h.keeps msg.block then h.store.HasSlot → msg.size.toNat ≤ blockSize
      else h.cache.find msg.block = none → h.cache.HasSlot → msg.size.toNat ≤ blockSize
  | _ => True

/-- The slots fit as before. -/
def FitsStill (h h' : ContentHelper) : Prop := h.SlotsFit → h'.SlotsFit

theorem FitsStill.of_eq {h h' : ContentHelper} (hcache : h'.cache = h.cache)
    (hstore : h'.store = h.store) : FitsStill h h' := by
  rintro ⟨hc, hs⟩
  exact ⟨hcache ▸ hc, hstore ▸ hs⟩

instance : IsPreorder ContentHelper FitsStill where
  refl _ := .of_eq rfl rfl
  trans _ _ _ hab hbc hfit := hbc (hab hfit)

/-- The slots fit as before, and no copy runs over. -/
abbrev Copies {α : Type} (m : Action α) : Prop := Ends FitsStill (· ≠ .outOfBounds) m

section Actions

variable {env : Surroundings} {h : ContentHelper} {hasher : List UInt8 → Hash}

theorem copies_admits : Admits FitsStill (· ≠ .outOfBounds) where
  frame _ _ _ _ _ := .of_eq rfl rfl
  record _ _ _ := .of_eq rfl rfl
  encoder e he := by
    rintro rfl
    exact absurd he (by decide)

theorem attempt_copies {α : Type} {x : Except Fault α}
    (hx : ∀ e, x = .error e → e ∈ ContentCache.otherFaults) : Copies (attempt x) :=
  ends_attempt fun e herror => ContentCache.not_overflow (hx e herror)

theorem announceMetadata_copies : Copies (announceMetadata env) := by
  apply ends_get_bind
  intro h
  refine ends_ite (ends_pure _) (ends_bind (ends_modify fun _ => .of_eq rfl rfl) fun _ => ?_) h
  have htail : ∀ (auto : Bool) (n : ℕ), Copies (do
      if auto then record (.doIn minAnnounceInterval .announceMetadata)
      pure n : Action ℕ) := fun auto n =>
    ends_ite (ends_bind (ends_modify fun _ => .of_eq rfl rfl) fun _ => ends_pure _) (ends_pure _)
  exact ends_ite (ends_bind (post_ends copies_admits env fun _ => .of_eq rfl rfl) fun _ => htail _ _) (htail _ _)

theorem discover_copies (m : ContentMetadata) : Copies (discover env m) := by
  apply ends_get_bind
  intro h
  cases h.rmt.find? fun r => r.data.hash = m.hash with
  | some existing =>
    exact ends_ite (ends_bind (ends_modify fun _ => .of_eq rfl rfl) fun _ => ends_pure _) (ends_pure _) h
  | none =>
    refine ends_bind (ends_modify fun _ => .of_eq rfl rfl) (fun _ => ends_ite ?_ (ends_pure _)) h
    refine ends_bind (ends_modify fun _ => .of_eq rfl rfl) fun _ => ends_ite ?_ (ends_pure _)
    refine ends_bind (attempt_copies fun e herror => ?_) fun _ => ends_bind (ends_modify fun _ => .of_eq rfl rfl)
      fun _ => ends_bind (doAutoFetch_ends copies_admits env) fun _ => ends_pure _
    unfold ContentMetadata.blockCount at herror
    split_ifs at herror
    cases herror
    decide

theorem receiveContentAnn_copies (msg : ContentAnn) : Copies (receiveContentAnn env msg) := by
  apply ends_forEach
  intro m
  apply ends_get_bind
  intro h
  exact ends_ite (ends_pure _) (ends_bind (discover_copies _) fun _ => ends_pure _) h

theorem createNew_copies (types : List ContentType) (name : ContentName) (src : List UInt8) :
    Copies (createNew hasher env types name src) := by
  apply ends_get_bind
  intro h
  refine endsFrom_attempt_bind (fun e herror => ?_) fun out hs =>
    endsFrom_modify_bind ?_ (ends_pure _)
  · exact ContentCache.not_overflow (ContentCache.store_faults herror)
  · exact fun hfit => ⟨hfit.1.store hs, hfit.2⟩

theorem frozen_copies (enabled : Bool) (blocks : List BlockRef) : Copies (frozen enabled blocks) := by
  induction blocks with
  | nil => exact ends_pure _
  | cons ref blocks ih =>
    apply ends_get_bind
    intro h
    cases h.cache.find ref with
    | none => exact ih h
    | some idx =>
      refine endsFrom_attempt_bind (fun e herror => ?_) fun c hs =>
        endsFrom_modify_bind ?_ (ends_bind ih fun _ => ends_pure _)
      · exact ContentCache.not_overflow (ContentCache.setFrozen_faults herror)
      · exact fun hfit => ⟨hfit.1.setFrozen hs, hfit.2⟩

theorem validateStored_copies (hash : Hash) : Copies (validateStored hash) := by
  apply ends_get_bind
  intro h
  cases h.rmt.find? fun r => r.data.hash = hash with
  | some r =>
    exact ends_bind (attempt_copies fun e => ContentCache.validateData_faults) (fun _ => ends_pure _) h
  | none => exact ends_pure () h

/-- A store of a response fails in the copy just when it does not fit. -/
theorem storeResponse_faults {c : ContentCache} {msg : BlockResponse} {e : Fault}
    (hnone : c.find msg.block = none) (hfits : c.HasSlot → msg.size.toNat ≤ blockSize)
    (hs : c.storeBlock msg.block msg.size.toNat msg.data = .error e) : e ≠ .outOfBounds := by
  rintro rfl
  obtain ⟨hslot, hlong⟩ := (ContentCache.storeBlock_overflows_iff hnone).mp hs
  rw [msg.length_data] at hlong
  exact absurd (hfits hslot) (not_le.mpr hlong)

theorem SlotsFit.storeResponse {c c' : ContentCache} {msg : BlockResponse} {found : Option ℕ}
    (hfit : c.SlotsFit) (hs : c.storeBlock msg.block msg.size.toNat msg.data = .ok (found, c')) :
    c'.SlotsFit := by
  rw [← msg.length_data] at hs
  exact hfit.storeBlock hs

theorem keeps_find_none {block : BlockRef} (hkeeps : h.keeps block) : h.store.find block = none := by
  simp only [keeps, Bool.and_eq_true, Option.isNone_iff_eq_none] at hkeeps
  exact hkeeps.2

theorem receiveBlockResponse_copies {msg : BlockResponse}
    (hfits : h.ResponseFits (env, .receiveBlockResponse msg)) :
    EndsFrom FitsStill (· ≠ .outOfBounds) h (receiveBlockResponse env msg) := by
  have htail := arrive_ends copies_admits env msg.block
  apply endsFrom_get_bind
  dsimp only
  by_cases hkeeps : h.keeps msg.block
  · have hnone := keeps_find_none hkeeps
    simp only [ResponseFits, if_pos hkeeps] at hfits
    unfold keeps at hkeeps
    rw [if_pos hkeeps]
    refine endsFrom_attempt_bind (fun e => storeResponse_faults hnone hfits) fun out hs => ?_
    refine endsFrom_modify_bind ?_ (ends_bind (validateStored_copies _) fun _ => htail _)
    exact fun hfit => ⟨hfit.1, SlotsFit.storeResponse hfit.2 hs⟩
  · simp only [ResponseFits, if_neg hkeeps] at hfits
    unfold keeps at hkeeps
    rw [if_neg hkeeps]
    by_cases hnone : (h.cache.find msg.block).isNone
    · rw [if_pos hnone]
      have hfits := hfits (Option.isNone_iff_eq_none.mp hnone)
      refine endsFrom_attempt_bind
        (fun e => storeResponse_faults (Option.isNone_iff_eq_none.mp hnone) hfits) fun out hs => ?_
      refine endsFrom_modify_bind ?_ (htail _)
      exact fun hfit => ⟨SlotsFit.storeResponse hfit.1 hs, hfit.2⟩
    · rw [if_neg hnone]
      exact htail _ h

theorem storeResponse_overflows {c : ContentCache} {msg : BlockResponse}
    (hnone : c.find msg.block = none) (hslot : c.HasSlot) (hlong : blockSize < msg.size.toNat) :
    attempt (c.storeBlock msg.block msg.size.toNat msg.data) h = .error .outOfBounds := by
  rw [← msg.length_data] at hlong
  rw [(ContentCache.storeBlock_overflows_iff hnone).mpr ⟨hslot, hlong⟩]
  rfl

/-- A response that does not fit is copied nevertheless. -/
theorem receiveBlockResponse_overflows {msg : BlockResponse}
    (hfits : ¬ h.ResponseFits (env, .receiveBlockResponse msg)) :
    receiveBlockResponse env msg h = .error .outOfBounds := by
  unfold receiveBlockResponse
  rw [bind_run_ok (get_run h)]
  dsimp only
  by_cases hkeeps : h.keeps msg.block
  · have hnone := keeps_find_none hkeeps
    simp only [ResponseFits, if_pos hkeeps, Classical.not_imp, not_le] at hfits
    unfold keeps at hkeeps
    rw [if_pos hkeeps, bind_run_error (storeResponse_overflows hnone hfits.1 hfits.2)]
  · simp only [ResponseFits, if_neg hkeeps, Classical.not_imp, not_le] at hfits
    obtain ⟨hnone, hslot, hlong⟩ := hfits
    unfold keeps at hkeeps
    rw [if_neg hkeeps, if_pos (Option.isNone_iff_eq_none.mpr hnone),
      bind_run_error (storeResponse_overflows hnone hslot hlong)]

/-- Every other call stays inside the slots. -/
theorem perform_copies {op : Op} (hfits : h.ResponseFits (env, op)) :
    EndsFrom FitsStill (· ≠ .outOfBounds) h (perform hasher env op) := by
  cases op with
  | announceMetadata => exact endsFrom_discard (announceMetadata_copies h)
  | request reqs => exact request_ends copies_admits env reqs h
  | subscribe handler => exact ends_modify (fun _ => .of_eq rfl rfl) h
  | createNew types name src => exact endsFrom_discard (createNew_copies types name src h)
  | receiveContentAnn msg => exact receiveContentAnn_copies msg h
  | receiveBlockRequest header msg => exact receiveBlockRequest_ends copies_admits env header msg h
  | receiveBlockResponse msg => exact receiveBlockResponse_copies hfits
  | broadcast ref => exact endsFrom_discard (broadcast_ends copies_admits env ref h)
  | frozen blocks enabled => exact endsFrom_discard (frozen_copies enabled blocks h)
  | metadata =>
    exact endsFrom_discard (ends_bind (ends_modify fun _ => .of_eq rfl rfl)
      (fun _ => ends_get_bind fun h => ends_pure _ h) h)
  | sweepPendingRequests => exact sweepPendingRequests_ends copies_admits env.now h
  | doAutoFetch => exact doAutoFetch_ends copies_admits env h

theorem copiesFit_iff (h : ContentHelper) (call : Surroundings × Op) :
    CopiesFit hasher h call ↔ h.ResponseFits call := by
  obtain ⟨env, op⟩ := call
  constructor
  · intro hcopies
    by_contra hfits
    refine hcopies ?_
    cases op with
    | receiveBlockResponse msg =>
      exact congrArg (Except.map Prod.snd) (receiveBlockResponse_overflows hfits)
    | _ => exact absurd trivial hfits
  · intro hfits hstep
    unfold step at hstep
    cases hrun : perform hasher env op h with
    | ok out =>
      rw [hrun] at hstep
      cases hstep
    | error e =>
      rw [hrun] at hstep
      exact (perform_copies hfits).fails e hrun (Except.error.inj hstep)

/-- A call that goes through has run over no slot. -/
theorem step_slotsFit {call : Surroundings × Op} {h' : ContentHelper} (hfit : h.SlotsFit)
    (hs : step hasher h call = .ok h') : h'.SlotsFit := by
  have hfits : h.ResponseFits call := (copiesFit_iff h call).mp fun herror => by
    cases herror.symm.trans hs
  obtain ⟨u, hrun⟩ := map_snd_ok hs
  exact (perform_copies hfits).keeps u h' hrun hfit

theorem build_slotsFit (flags : Flags) (id : NodeId) : (build flags id).SlotsFit :=
  ⟨ContentCache.new_slotsFit _, ContentCache.new_slotsFit _⟩

end Actions

/-- No copy runs over the end of a slot, and the slots fit in every state of a helper that has been
run from the start, just as long as every response that is copied is no larger than a block. -/
theorem responses_fit_iff (hasher : List UInt8 → Hash) (h : ContentHelper)
    (calls : List (Surroundings × Op)) :
    (Each (step hasher) (CopiesFit hasher) h calls ∧
      ∀ flags id past, run (step hasher) (build flags id) past = .ok h →
        Always (step hasher) SlotsFit h calls) ↔
      Each (step hasher) ResponseFits h calls := by
  have hcopies : Each (step hasher) (CopiesFit hasher) h calls ↔
      Each (step hasher) ResponseFits h calls :=
    each_congr (fun _ => True) (fun _ _ _ _ _ _ _ => trivial)
      (fun s a _ _ => copiesFit_iff s a) trivial
  rw [hcopies, and_iff_left_iff_imp]
  intro _ flags id past hrun
  have hfit : h.SlotsFit :=
    run_invariant SlotsFit (fun _ _ _ => step_slotsFit) (build_slotsFit flags id) hrun
  exact always_of_run fun t _ hr =>
    run_invariant SlotsFit (fun _ _ _ => step_slotsFit) hfit hr

/-- A response of 1025 bytes. -/
def oversized : BlockResponse := ⟨⟨default, 0⟩, 1025, List.replicate 1025 0, List.length_replicate⟩

/-- A new helper copies it into the first free slot of its cache. -/
theorem oversized_overflows :
    ¬ Each (step fun _ => default) (CopiesFit fun _ => default)
      (build ⟨true, true, true, true⟩ ⟨1⟩)
      [(⟨0, ⟨0, 0⟩, fun _ => false⟩, .receiveBlockResponse oversized)] := by
  rintro ⟨hcopies, -⟩
  have hfits := (copiesFit_iff _ _).mp hcopies
  have hsmall : oversized.size.toNat ≤ blockSize := hfits rfl (.inl (by decide))
  exact absurd hsmall (by decide)

end ContentHelper

end YingSma
