import Mathlib.Algebra.Order.Floor.Div
import Mathlib.Data.List.Find
import YingSma.ContentCacheFind

/-! Publishing in an unbounded cache: a content is divided into blocks, each of which is found
again. Where something is stored under its hash already, nothing is done at all. -/
namespace YingSma.ContentCache
open TransitionRuns

section Segments

theorem blockCount_eq {size : ℕ} (hsize : 0 < size) : blockCount size = size ⌈/⌉ blockSize := by
  unfold blockCount blockSize
  rw [if_neg (by omega), Nat.ceilDiv_eq_add_pred_div]
  omega

theorem blockCount_le {size : ℕ} (hsize : 0 < size) (hle : size ≤ 65536 * blockSize) :
    blockCount size ≤ 65536 := by
  unfold blockCount
  unfold blockSize at *
  rw [if_neg (by omega)]
  omega

/-- The blocks put together are the content as far as they go. -/
theorem flatMap_chunk (src : List UInt8) (n : ℕ) :
    (List.range n).flatMap (chunk src) = src.take (n * blockSize) := by
  induction n with
  | zero => simp
  | succ n ih =>
    rw [List.range_succ, List.flatMap_append, ih, List.flatMap_singleton, Nat.succ_mul,
      List.take_add]
    rfl

theorem flatMap_chunk_all (src : List UInt8) :
    (List.range (src.length ⌈/⌉ blockSize)).flatMap (chunk src) = src := by
  rw [flatMap_chunk, List.take_of_length_le]
  have hpos : 0 < blockSize := by decide
  rw [mul_comm, ← smul_eq_mul]
  exact le_smul_ceilDiv hpos

end Segments

/-- The block is found, it is complete, and these are its bytes. -/
def HasBlock (c : ContentCache) (ref : BlockRef) (bytes : List UInt8) : Prop :=
  ∃ idx, c.find ref = some idx ∧ c.complete idx ∧ (c.slot idx).bytes = bytes

/-- A content is held as its blocks: they put it together, each is complete, and there are no
more of them. -/
structure Segmented (c : ContentCache) (hash : Hash) (src : List UInt8) : Prop where
  concat : (List.range (src.length ⌈/⌉ blockSize)).flatMap
    (fun i => (c.blockAt ⟨hash, UInt16.ofNat i⟩).getD []) = src
  complete : ∀ i < src.length ⌈/⌉ blockSize,
    ∃ idx, c.find ⟨hash, UInt16.ofNat i⟩ = some idx ∧ c.complete idx
  no_more : ∀ i : BlockIndex, src.length ⌈/⌉ blockSize ≤ i.toNat → c.find ⟨hash, i⟩ = none

/-- What is found under any other hash is what was found there before. -/
def SameElsewhere (c c' : ContentCache) (hash : Hash) : Prop :=
  ∀ ref : BlockRef, ref.hash ≠ hash →
    c'.find ref = c.find ref ∧ ∀ idx, c.find ref = some idx → c'.slot idx = c.slot idx

section Publishing

variable {hasher : List UInt8 → Hash} {c c' : ContentCache} {src : List UInt8} {hash : Hash}

theorem HasBlock.blockAt {ref : BlockRef} {bytes : List UInt8} (h : HasBlock c ref bytes) :
    c.blockAt ref = some bytes := by
  obtain ⟨idx, hfind, -, rfl⟩ := h
  rw [ContentCache.blockAt, hfind]
  rfl

/-- An unbounded cache takes any content whose hash is new. -/
theorem store_unbounded (hcap : c.capacity = 0) (hnew : c.content (hasher src) = none) :
    ∃ c', c.store hasher src = .ok (hasher src, c') := by
  have hreserve : (c.reserveSlots (blockCount src.length)).isOk := reserveSlots_isOk_iff.mpr (.inr hcap)
  unfold store
  simp only [hnew]
  cases hr : c.reserveSlots (blockCount src.length) with
  | error e =>
    rw [hr] at hreserve
    cases hreserve
  | ok out => exact ⟨_, rfl⟩

/-- In slots that are filled in order each block is the first of its index. -/
theorem find_filled {idxs : List ℕ} {bytes : ℕ → List UInt8} (hc : c.content hash = some idxs)
    (hlen : idxs.length ≤ 65536)
    (hfilled : ∀ p, ∀ hp : p < idxs.length, Filled (c.slot idxs[p]) (UInt16.ofNat p) (bytes p))
    (i : BlockIndex) : c.find ⟨hash, i⟩ = idxs[i.toNat]? := by
  have hindex : ∀ p, ∀ hp : p < idxs.length, (c.slot idxs[p]).blockIndex = i ↔ p = i.toNat := by
    intro p hp
    rw [(hfilled p hp).blockIndex, ← UInt16.toNat_inj, UInt16.toNat_ofNat', Nat.mod_eq_of_lt (by omega)]
  unfold find
  simp only [hc]
  by_cases hi : i.toNat < idxs.length
  · rw [List.getElem?_eq_getElem hi, List.find?_eq_some_iff_getElem]
    refine ⟨by simpa using (hindex _ hi).mpr rfl, i.toNat, hi, rfl, fun p hp => ?_⟩
    have hne := (hindex p (by omega)).not.mpr (by omega)
    simpa using hne
  · rw [List.getElem?_eq_none (not_lt.mp hi), List.find?_eq_none]
    intro idx hidx
    obtain ⟨p, hp, rfl⟩ := List.mem_iff_getElem.mp hidx
    have hne := (hindex p hp).not.mpr (by omega)
    simpa using hne

/-- After a new content has been published its blocks are found, and no others. -/
theorem store_find (h : Clean c) (hs : c.store hasher src = .ok (hash, c'))
    (hnew : c.content hash = none) (hsrc : src ≠ []) (hle : src.length ≤ 65536 * blockSize) :
    (∀ i < src.length ⌈/⌉ blockSize, HasBlock c' ⟨hash, UInt16.ofNat i⟩ (chunk src i)) ∧
      ∀ i : BlockIndex, src.length ⌈/⌉ blockSize ≤ i.toNat → c'.find ⟨hash, i⟩ = none := by
  have hpos : 0 < src.length := List.length_pos_iff.mpr hsrc
  have hcount := blockCount_le hpos hle
  obtain ⟨idxs, hc, hlen, hfilled⟩ := store_filled h hs hnew hsrc hcount
  have hfind := find_filled hc (hlen.trans_le hcount) hfilled
  rw [blockCount_eq hpos] at hlen hcount
  constructor
  · intro i hi
    have hi' : i < idxs.length := by omega
    have hfill := hfilled i hi'
    refine ⟨idxs[i], ?_, ?_, hfill.bytes⟩
    · rw [hfind, UInt16.toNat_ofNat', Nat.mod_eq_of_lt (by omega), List.getElem?_eq_getElem hi']
    · simpa [complete] using hfill.complete
  · intro i hi
    rw [hfind, List.getElem?_eq_none (by omega)]

theorem segmented_of_hasBlock
    (hblocks : ∀ i < src.length ⌈/⌉ blockSize, HasBlock c ⟨hash, UInt16.ofNat i⟩ (chunk src i))
    (hmore : ∀ i : BlockIndex, src.length ⌈/⌉ blockSize ≤ i.toNat → c.find ⟨hash, i⟩ = none) :
    Segmented c hash src where
  concat := by
    have hchunks : ∀ i ∈ List.range (src.length ⌈/⌉ blockSize),
        (c.blockAt ⟨hash, UInt16.ofNat i⟩).getD [] = chunk src i := by
      intro i hi
      rw [(hblocks i (List.mem_range.mp hi)).blockAt, Option.getD_some]
    rw [List.flatMap_congr hchunks, flatMap_chunk_all]
  complete i hi := by
    obtain ⟨idx, hfind, hcomplete, -⟩ := hblocks i hi
    exact ⟨idx, hfind, hcomplete⟩
  no_more := hmore

theorem store_sameElsewhere (h : Clean c) (hs : c.store hasher src = .ok (hash, c')) :
    SameElsewhere c c' hash := by
  intro ref hne
  have hcontent := store_content_other hs hne
  have hslot : ∀ i ∈ (c.content ref.hash).getD [], c'.slot i = c.slot i := fun i hi =>
    store_slot_other h hs hi
  refine ⟨?_, fun idx hfind => hslot idx (mem_of_find hfind)⟩
  rw [find_eq, find_eq, hcontent]
  exact List.find?_congr fun i hi => by rw [hslot i hi]

/-- An unbounded cache evicts nothing. -/
structure Unbounded (c : ContentCache) : Prop where
  clean : Clean c
  capacity : c.capacity = 0

theorem step_unbounded {op : Op} (hop : ∀ count, op ≠ .freeSlots count) (h : Unbounded c)
    (hs : c.step hasher op = .ok c') : Unbounded c' :=
  ⟨step_clean h.clean (noEviction_of_unbounded h.capacity hop) hs, (step_capacity hs).trans h.capacity⟩

theorem run_unbounded {ops : List Op} (hops : ∀ op ∈ ops, ∀ count, op ≠ .freeSlots count)
    (hrun : run (step hasher) (new 0) ops = .ok c) : Unbounded c :=
  run_keeps Unbounded (fun op hop _ _ h hs => step_unbounded (hops op hop) h hs) ⟨new_clean 0, rfl⟩
    hrun

/-- A content that is new to an unbounded cache is divided into blocks that give it back, and
nothing else changes. -/
theorem store_segments (hasher : List UInt8 → Hash) {ops : List Op}
    (hops : ∀ op ∈ ops, ∀ count, op ≠ .freeSlots count) {c : ContentCache}
    (hrun : run (step hasher) (new 0) ops = .ok c) {src : List UInt8} (hsrc : src ≠ [])
    (hle : src.length ≤ 65536 * blockSize) (hnew : c.content (hasher src) = none) :
    ∃ c', c.store hasher src = .ok (hasher src, c') ∧ Segmented c' (hasher src) src ∧
      SameElsewhere c c' (hasher src) := by
  have hc := run_unbounded hops hrun
  obtain ⟨c', hs⟩ := store_unbounded hc.capacity hnew
  obtain ⟨hblocks, hmore⟩ := store_find hc.clean hs hnew hsrc hle
  exact ⟨c', hs, segmented_of_hasBlock hblocks hmore, store_sameElsewhere hc.clean hs⟩

/-- A content of another hash than the block that is there already. -/
theorem store_segments_beside :
    ∃ c c', run (step fun _ => ⟨List.replicate 32 1, rfl⟩) (new 0) [.storeBlock ⟨default, 0⟩ 1 [7]] = .ok c ∧
      c.store (fun _ => ⟨List.replicate 32 1, rfl⟩) [1, 2, 3] = .ok (⟨List.replicate 32 1, rfl⟩, c') ∧
      Segmented c' ⟨List.replicate 32 1, rfl⟩ [1, 2, 3] ∧ SameElsewhere c c' ⟨List.replicate 32 1, rfl⟩ := by
  have hrun : run (step fun _ => ⟨List.replicate 32 1, rfl⟩) (new 0)
      [.storeBlock ⟨default, 0⟩ 1 [7]] = .ok _ := rfl
  obtain ⟨c', hstored⟩ := store_segments (fun _ => ⟨List.replicate 32 1, rfl⟩) (by simp) hrun
    (List.cons_ne_nil 1 [2, 3]) (by decide) (by decide +kernel)
  exact ⟨_, c', hrun, hstored⟩

/-- Publishing goes through, and every block of the content is there afterwards. -/
def Published (hasher : List UInt8 → Hash) (c : ContentCache) (src : List UInt8) : Prop :=
  ∃ c', c.store hasher src = .ok (hasher src, c') ∧
    ∀ i < src.length ⌈/⌉ blockSize, HasBlock c' ⟨hasher src, UInt16.ofNat i⟩ (chunk src i)

/-- The cache has a slot under the hash for each block, and every block is there. -/
def Holds (c : ContentCache) (hash : Hash) (src : List UInt8) : Prop :=
  ∃ idxs, c.content hash = some idxs ∧ idxs.length = src.length ⌈/⌉ blockSize ∧
    ∀ i < src.length ⌈/⌉ blockSize, HasBlock c ⟨hash, UInt16.ofNat i⟩ (chunk src i)

/-- The only slot under the hash holds all of the content. -/
def OnlyBlock (c : ContentCache) (hash : Hash) (src : List UInt8) : Prop :=
  ∃ idx, c.content hash = some [idx] ∧ c.complete idx ∧ (c.slot idx).bytes = src

/-- With an entry for the hash `store` looks at its length and does nothing. -/
theorem published_iff (h : Unbounded c) (hsrc : src ≠ []) (hle : src.length ≤ 65536 * blockSize) :
    Published hasher c src ↔ c.content (hasher src) = none ∨ Holds c (hasher src) src := by
  have hpos : 0 < src.length := List.length_pos_iff.mpr hsrc
  cases hentry : c.content (hasher src) with
  | none =>
    obtain ⟨c', hs⟩ := store_unbounded h.capacity hentry
    exact iff_of_true ⟨c', hs, (store_find h.clean hs hentry hsrc hle).1⟩ (.inl rfl)
  | some idxs =>
    have hstore : c.store hasher src = if idxs.length = blockCount src.length then .ok (hasher src, c)
        else .error (.assertFailed
          "Data already cached with this hash has different block count.") := by
      unfold store
      simp only [hentry]
    unfold Published Holds
    rw [hstore, hentry, blockCount_eq hpos]
    constructor
    · rintro ⟨c', hs, hblocks⟩
      split_ifs at hs with hlen
      obtain ⟨-, rfl⟩ := Prod.mk.inj (Except.ok.inj hs)
      exact .inr ⟨idxs, rfl, hlen, hblocks⟩
    · rintro (hnone | ⟨idxs', heq, hlen, hblocks⟩)
      · cases hnone
      · obtain rfl := Option.some.inj heq
        exact ⟨c, if_pos hlen, hblocks⟩

/-- All slots under the hash have the index of a first block, as blocks that are stored on their
own do. -/
def Loose (c : ContentCache) (hash : Hash) : Prop := ∀ entry ∈ c.held hash, entry.1 = 0

theorem step_loose {op : Op} (h : Unbounded c) (hop : ∀ count, op ≠ .freeSlots count)
    (hother : ∀ src, op = .store src → hasher src ≠ hash) (hloose : Loose c hash)
    (hs : c.step hasher op = .ok c') : Loose c' hash := by
  by_cases hstore : ∃ src, op = .store src
  · obtain ⟨src, rfl⟩ := hstore
    obtain ⟨hash', hr⟩ := map_snd_ok hs
    have hhash : hash' = hasher src := (store_ok hr).1
    unfold Loose
    rwa [store_held_other h.clean hr (hhash ▸ (hother src rfl).symm)]
  · by_cases hblock : ∃ ref expectedSize src, op = .storeBlock ref expectedSize src
    · obtain ⟨ref, expectedSize, src, rfl⟩ := hblock
      obtain ⟨found, hr⟩ := map_snd_ok hs
      cases found with
      | none =>
        rcases storeBlock_ok hr with ⟨-, -, rfl⟩ | ⟨idx, kept, hfits, he, -⟩
        · exact hloose
        · cases he
      | some idx =>
        unfold Loose
        rw [storeBlock_held h.clean hr]
        by_cases hh : hash = ref.hash
        · subst hh
          rw [Function.update_self]
          intro entry hentry
          rcases List.mem_append.mp hentry with hold | hnew
          · exact hloose entry hold
          · rw [List.mem_singleton.mp hnew]
        · rwa [Function.update_of_ne hh]
    · simp only [not_exists] at hstore hblock
      unfold Loose
      rwa [step_held (noEviction_of_unbounded h.capacity hop) hstore hblock hs]

theorem Loose.blockIndex (hloose : Loose c hash) {idx : ℕ} (hidx : idx ∈ (c.content hash).getD []) :
    (c.slot idx).blockIndex = 0 :=
  hloose _ (List.mem_map_of_mem hidx)

theorem Loose.index_of_find (hloose : Loose c hash) {i : BlockIndex} {idx : ℕ}
    (hfind : c.find ⟨hash, i⟩ = some idx) : i = 0 := by
  have hindex := hloose.blockIndex (mem_of_find hfind)
  rw [find_eq] at hfind
  have hmatch := List.find?_some hfind
  simp only [decide_eq_true_eq] at hmatch
  rw [← hmatch, hindex]

theorem ceilDiv_eq_one_iff (hsrc : src ≠ []) :
    src.length ⌈/⌉ blockSize = 1 ↔ src.length ≤ blockSize := by
  have hpos : 0 < src.length := List.length_pos_iff.mpr hsrc
  rw [Nat.ceilDiv_eq_add_pred_div]
  unfold blockSize
  omega

theorem chunk_zero (hle : src.length ≤ blockSize) : chunk src 0 = src := by
  rw [chunk, Nat.zero_mul, List.drop_zero, List.take_of_length_le hle]

/-- Of blocks stored on their own only one is found. -/
theorem holds_iff_of_loose (hloose : Loose c hash) (hsrc : src ≠ []) :
    Holds c hash src ↔ OnlyBlock c hash src := by
  constructor
  · rintro ⟨idxs, hentry, hlen, hblocks⟩
    have hone : src.length ⌈/⌉ blockSize = 1 := by
      by_contra hmany
      have hpos : 0 < src.length ⌈/⌉ blockSize := by
        rw [← blockCount_eq (List.length_pos_iff.mpr hsrc)]
        exact Nat.add_pos_left Nat.one_pos _
      obtain ⟨idx, hfind, -⟩ := hblocks 1 (by omega)
      exact absurd (hloose.index_of_find hfind) (by decide)
    obtain ⟨idx, rfl⟩ := List.length_eq_one_iff.mp (hlen.trans hone)
    obtain ⟨idx', hfind, hcomplete, hbytes⟩ := hblocks 0 (by omega)
    have hmem := mem_of_find hfind
    simp only [hentry, Option.getD_some, List.mem_singleton] at hmem
    subst hmem
    rw [chunk_zero ((ceilDiv_eq_one_iff hsrc).mp hone)] at hbytes
    exact ⟨idx', hentry, hcomplete, hbytes⟩
  · rintro ⟨idx, hentry, hcomplete, hbytes⟩
    have hle : src.length ≤ blockSize := by
      rw [← hbytes, Slot.bytes, List.length_take]
      exact (min_le_left _ _).trans (c.slot idx).size_le
    have hone := (ceilDiv_eq_one_iff hsrc).mpr hle
    refine ⟨[idx], hentry, hone.symm, fun i hi => ⟨idx, ?_, hcomplete, ?_⟩⟩
    · obtain rfl : i = 0 := by omega
      have hindex : (c.slot idx).blockIndex = 0 := hloose.blockIndex (by rw [hentry]; simp)
      rw [find_eq]
      simp [hentry, hindex]
    · obtain rfl : i = 0 := by omega
      rw [hbytes, chunk_zero hle]

/-- Publishing works if nothing has been stored under the hash, or everything has. If blocks have
been stored on their own only, the latter means that there is just one. -/
theorem publish_iff (hasher : List UInt8 → Hash) {ops : List Op}
    (hops : ∀ op ∈ ops, ∀ count, op ≠ .freeSlots count) {c : ContentCache}
    (hrun : run (step hasher) (new 0) ops = .ok c) {src : List UInt8} (hsrc : src ≠ [])
    (hle : src.length ≤ 65536 * blockSize) :
    (Published hasher c src ↔ c.content (hasher src) = none ∨ Holds c (hasher src) src) ∧
      ((∀ src', .store src' ∈ ops → hasher src' ≠ hasher src) →
        (Published hasher c src ↔
          c.content (hasher src) = none ∨ OnlyBlock c (hasher src) src)) := by
  have hc := run_unbounded hops hrun
  refine ⟨published_iff hc hsrc hle, fun hother => ?_⟩
  have hloose : Unbounded c ∧ Loose c (hasher src) := by
    apply run_keeps (fun c => Unbounded c ∧ Loose c (hasher src)) _ _ hrun
    · intro op hop c₁ c₂ h hs
      exact ⟨step_unbounded (hops op hop) h.1 hs,
        step_loose h.1 (hops op hop) (fun src' heq => hother src' (heq ▸ hop)) h.2 hs⟩
    · exact ⟨⟨new_clean 0, rfl⟩, fun entry hentry => by cases hentry⟩
  rw [published_iff hc hsrc hle, holds_iff_of_loose hloose.2 hsrc]

/-- Publishing where the only block has been received before. -/
theorem publish_received_block :
    ∃ c, run (step fun _ => default) (new 0) [.storeBlock ⟨default, 0⟩ 1 [7]] = .ok c ∧
      (Published (fun _ => default) c [7] ↔ c.content default = none ∨ Holds c default [7]) ∧
      (Published (fun _ => default) c [7] ↔ c.content default = none ∨ OnlyBlock c default [7]) := by
  have hrun : run (step fun _ => default) (new 0) [.storeBlock ⟨default, 0⟩ 1 [7]] = .ok _ := rfl
  obtain ⟨hall, hloose⟩ :=
    publish_iff (fun _ => default) (by simp) hrun (List.cons_ne_nil 7 []) (by decide)
  exact ⟨_, hrun, hall, hloose (by simp)⟩

/-- The first of two blocks has been received before the content is published. -/
theorem publish_partial_copy :
    ∃ c, run (step fun _ => default) (new 0)
        [.storeBlock ⟨default, 0⟩ 1024 (List.replicate 1024 7)] = .ok c ∧
      ¬ Published (fun _ => default) c (List.replicate 1025 7) := by
  have hfails : (run (step fun _ => default) (new 0)
      [.storeBlock ⟨default, 0⟩ 1024 (List.replicate 1024 7)]).map
        (fun c => (c.store (fun _ => default) (List.replicate 1025 7)).isOk) = .ok false := by
    decide +kernel
  obtain ⟨c, hrun, hfails⟩ := map_eq_ok hfails
  refine ⟨c, hrun, ?_⟩
  rintro ⟨c', hs, -⟩
  rw [hs] at hfails
  cases hfails

end Publishing

end YingSma.ContentCache
