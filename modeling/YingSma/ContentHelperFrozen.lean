import YingSma.ContentHelperResponses

/-! Frozen blocks. No two blocks of a cache share a slot, so that to freeze some of them is to
freeze their slots and no others. -/
namespace YingSma
open StateActions TransitionRuns

namespace ContentCache

/-- No slot is on the lists of two hashes. -/
def Apart (content : Hash → Option (List ℕ)) : Prop :=
  ∀ hash hash' idx, idx ∈ (content hash).getD [] → idx ∈ (content hash').getD [] → hash = hash'

section Apart

variable {c c' : ContentCache}

/-- A list may grow by slots that are on no list yet. -/
theorem Apart.update {content : Hash → Option (List ℕ)} (h : Apart content) {hash : Hash}
    {idxs : List ℕ}
    (hidxs : ∀ idx ∈ idxs, idx ∈ (content hash).getD [] ∨ ∀ hash', idx ∉ (content hash').getD []) :
    Apart (Function.update content hash (some idxs)) := by
  have hother : ∀ other ≠ hash, ∀ idx ∈ idxs, idx ∉ (content other).getD [] := by
    intro other hne idx hidx hmem
    rcases hidxs idx hidx with hold | hnew
    · exact hne (h other hash idx hmem hold)
    · exact hnew other hmem
  intro hash₁ hash₂ idx h₁ h₂
  by_cases he₁ : hash₁ = hash
  · by_cases he₂ : hash₂ = hash
    · rw [he₁, he₂]
    · rw [he₁, Function.update_self, Option.getD_some] at h₁
      rw [Function.update_of_ne he₂] at h₂
      exact (hother hash₂ he₂ idx h₁ h₂).elim
  · rw [Function.update_of_ne he₁] at h₁
    by_cases he₂ : hash₂ = hash
    · rw [he₂, Function.update_self, Option.getD_some] at h₂
      exact (hother hash₁ he₁ idx h₂ h₁).elim
    · rw [Function.update_of_ne he₂] at h₂
      exact h hash₁ hash₂ idx h₁ h₂

theorem store_apart (hclean : Clean c) (h : Apart c.content) {hasher : List UInt8 → Hash}
    {src : List UInt8} {hash : Hash} (hs : c.store hasher src = .ok (hash, c')) :
    Apart c'.content := by
  rcases store_ok hs with ⟨-, ⟨existing, -, -, rfl⟩ | ⟨-, kept, idxs, n, -, hf, -, rfl⟩⟩
  · exact h
  · exact h.update fun idx hidx => .inr (hclean.taken hf idx hidx).2.2.2

theorem storeBlock_apart (hclean : Clean c) (h : Apart c.content) {ref : BlockRef}
    {expectedSize : ℕ} {src : List UInt8} {found : Option ℕ}
    (hs : c.storeBlock ref expectedSize src = .ok (found, c')) : Apart c'.content := by
  rcases storeBlock_ok hs with ⟨-, -, rfl⟩ | ⟨idx, kept, hle, -, -, hf, rfl⟩
  · exact h
  · apply h.update
    intro i hi
    rcases List.mem_append.mp hi with hi | hi
    · exact .inl hi
    · exact .inr (hclean.taken hf i hi).2.2.2

/-- A slot is found as one block only. -/
theorem Apart.find_inj (h : Apart c.content) {ref ref' : BlockRef} {idx : ℕ}
    (href : c.find ref = some idx) (href' : c.find ref' = some idx) : ref = ref' := by
  have hhash := h ref.hash ref'.hash idx (mem_of_find href) (mem_of_find href')
  rw [find_eq] at href href'
  have hindex : (c.slot idx).blockIndex = ref.index := by simpa using List.find?_some href
  have hindex' : (c.slot idx).blockIndex = ref'.index := by simpa using List.find?_some href'
  cases ref
  cases ref'
  simp_all

end Apart

end ContentCache

namespace ContentHelper

/-- What every call that goes through keeps of the slots. -/
structure SoundApart (h : ContentHelper) : Prop extends Sound h where
  apart : ContentCache.Apart h.cache.content

section Calls

variable {hasher : List UInt8 → Hash} {env : Surroundings} {op : Op} {h h' : ContentHelper}

theorem Move.cache {asks : List LocalRequestArgs} (hop : ¬ op.fillsCache)
    (hm : Move env op asks h h') : h'.cache = h.cache := by
  cases hm with
  | frame _ hcache => exact hcache
  | deal req => exact dealt_cache h req
  | forward req =>
    unfold forwarded
    cases h.pending req.block with
    | some p => exact extended_cache _ _ _ _ _
    | none => rfl
  | fill cache hfills => exact (hop hfills).elim
  | emit | alreadyHere | sweep | arrive | keep => rfl

theorem step_cache (hop : ¬ op.fillsCache) (hs : step hasher h (env, op) = .ok h') :
    h'.cache = h.cache := by
  have hmoves := step_moves hs
  clear hs
  induction hmoves with
  | refl => rfl
  | tail _ hm ih => exact (hm.cache hop).trans ih

/-- The slots of the blocks that are found are frozen or unfrozen, and nothing else is done. -/
structure FrozenAs (enabled : Bool) (blocks : List BlockRef) (c c' : ContentCache) : Prop where
  content : c'.content = c.content
  length : c'.slots.length = c.slots.length
  find : ∀ ref, c'.find ref = c.find ref
  found : ∀ ref ∈ blocks, ∀ idx, c.find ref = some idx → (c'.slot idx).frozen = enabled
  other : ∀ idx, (∀ ref ∈ blocks, c.find ref ≠ some idx) → (c'.slot idx).frozen = (c.slot idx).frozen

theorem find_lt {c : ContentCache} (hclean : c.Clean) {ref : BlockRef} {idx : ℕ}
    (hfind : c.find ref = some idx) : idx < c.slots.length :=
  hclean.partition.lt_of_occupied
    (hclean.entry_occupied ref.hash idx (ContentCache.mem_of_find hfind))

theorem setFrozen_frozenAs {c c' : ContentCache} {enabled : Bool} (hclean : c.Clean)
    {ref : BlockRef} {idx : ℕ} (hfind : c.find ref = some idx)
    (hs : c.setFrozen idx enabled = .ok c') : FrozenAs enabled [ref] c c' := by
  obtain ⟨idxs, -, rfl⟩ := ContentCache.setFrozen_ok hs
  have hlt := find_lt hclean hfind
  constructor
  case content => rfl
  case length => exact List.length_modify _ _ _
  case find =>
    intro other
    rw [ContentCache.find_eq, ContentCache.find_eq]
    congr 1
    funext i
    simp only [ContentCache.slot, ContentCache.slotAt_modify]
    split_ifs <;> rfl
  case found =>
    intro other hother i hi
    obtain rfl := List.mem_singleton.mp hother
    obtain rfl := Option.some.inj (hfind.symm.trans hi)
    simp [ContentCache.slot, hlt]
  case other =>
    intro i hi
    have hne : i ≠ idx := fun he => hi ref (List.mem_singleton_self ref) (he ▸ hfind)
    simp [ContentCache.slot, hne]

theorem FrozenAs.skip {enabled : Bool} {ref : BlockRef} {blocks : List BlockRef}
    {c c' : ContentCache} (hfind : c.find ref = none) (h : FrozenAs enabled blocks c c') :
    FrozenAs enabled (ref :: blocks) c c' := by
  refine ⟨h.content, h.length, h.find, ?_, ?_⟩
  · simpa [hfind] using h.found
  · simpa [hfind] using h.other

/-- The later blocks do not undo what was done for the first one. -/
theorem FrozenAs.cons {enabled : Bool} {ref : BlockRef} {blocks : List BlockRef}
    {c c₁ c' : ContentCache} (hone : FrozenAs enabled [ref] c c₁) (h : FrozenAs enabled blocks c₁ c') :
    FrozenAs enabled (ref :: blocks) c c' := by
  refine ⟨h.content.trans hone.content, h.length.trans hone.length,
    fun r => (h.find r).trans (hone.find r), ?_, ?_⟩
  · intro other hother i hi
    by_cases hlater : ∃ r ∈ blocks, c.find r = some i
    · obtain ⟨r, hr, hfound⟩ := hlater
      exact h.found r hr i ((hone.find r).trans hfound)
    · simp only [not_exists, not_and] at hlater
      rcases List.mem_cons.mp hother with rfl | hmem
      · rw [h.other i fun r hr hfound => hlater r hr ((hone.find r).symm.trans hfound)]
        exact hone.found other (List.mem_singleton_self other) i hi
      · exact (hlater other hmem hi).elim
  · intro i hi
    rw [List.forall_mem_cons] at hi
    rw [h.other i fun r hr hfound => hi.2 r hr ((hone.find r).symm.trans hfound)]
    exact hone.other i (List.forall_mem_singleton.mpr hi.1)

theorem frozen_ok {enabled : Bool} {blocks : List BlockRef} {count : ℕ} (hsound : SoundApart h)
    (hrun : frozen enabled blocks h = .ok (count, h')) :
    SoundApart h' ∧ h'.effects = h.effects ∧ FrozenAs enabled blocks h.cache h'.cache := by
  induction blocks generalizing h count with
  | nil =>
    obtain ⟨-, rfl⟩ := by simpa [frozen, pure_run] using hrun
    exact ⟨hsound, rfl, rfl, rfl, fun _ => rfl, by simp, fun _ _ => rfl⟩
  | cons ref blocks ih =>
    unfold frozen at hrun
    rw [bind_run_ok (get_run h)] at hrun
    cases hfind : h.cache.find ref with
    | none =>
      simp only [hfind] at hrun
      obtain ⟨hsound', heffects, hfrozen⟩ := ih hsound hrun
      exact ⟨hsound', heffects, hfrozen.skip hfind⟩
    | some idx =>
      simp only [hfind] at hrun
      obtain ⟨cache, h₁, hattempt, hrest⟩ := bind_eq_ok hrun
      obtain ⟨hs, rfl⟩ := attempt_eq_ok hattempt
      rw [bind_run_ok (modify_run _ _)] at hrest
      obtain ⟨count', h₂, hothers, hpure⟩ := bind_eq_ok hrest
      obtain ⟨-, rfl⟩ := by simpa [pure_run] using hpure
      have hone := setFrozen_frozenAs hsound.cache.toClean hfind hs
      have hfreeze : h₁.cache.freeze ref enabled = .ok cache := by
        rw [ContentCache.freeze, hfind]
        exact hs
      have hsound₁ : SoundApart { h₁ with cache := cache } :=
        ⟨⟨hsound.cache.freeze hfreeze, hsound.store⟩, hone.content.symm ▸ hsound.apart⟩
      obtain ⟨hsound', heffects, hfrozen⟩ := ih hsound₁ hothers
      exact ⟨hsound', heffects, hone.cons hfrozen⟩

end Calls

section Runs

variable {hasher : List UInt8 → Hash} {h h' : ContentHelper}

theorem build_soundApart (flags : Flags) (id : NodeId) : SoundApart (build flags id) where
  toSound := build_sound flags id
  apart hash _ idx hidx _ := by
    rw [show (build flags id).cache.content hash = none from rfl] at hidx
    cases hidx

theorem step_soundApart (hsound : SoundApart h) {call : Surroundings × Op}
    (hs : step hasher h call = .ok h') : SoundApart h' := by
  obtain ⟨env, op⟩ := call
  refine ⟨step_sound hsound.toSound hs, ?_⟩
  have hclean := hsound.cache.toClean
  cases hop : op.fillsCache with
  | false =>
    rw [step_cache (by simp [hop]) hs]
    exact hsound.apart
  | true =>
    cases op with
    | createNew types name src =>
      obtain ⟨m, hstore, -⟩ := step_createNew_ok hs
      exact ContentCache.store_apart hclean hsound.apart hstore
    | receiveBlockResponse msg =>
      obtain ⟨h₁, hst, rfl⟩ := step_response_ok hs
      have hcache : (h₁.responded msg (h.sendsOn msg.block)).cache = h₁.cache := rfl
      rw [hcache]
      cases hst with
      | cached _ _ hstore => exact ContentCache.storeBlock_apart hclean hsound.apart hstore
      | kept | present => exact hsound.apart
    | frozen blocks enabled =>
      obtain ⟨u, hrun⟩ := map_snd_ok hs
      obtain ⟨count, h₁, hfrozen, hpure⟩ := bind_eq_ok (show
        (frozen enabled blocks >>= fun _ => pure ()) h = .ok (u, h') from hrun)
      obtain rfl : h₁ = h' := by simpa [pure_run] using hpure
      exact (frozen_ok hsound hfrozen).1.apart
    | _ => cases hop

end Runs

end ContentHelper

end YingSma
