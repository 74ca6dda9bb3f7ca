import YingSma.ContentCacheSlots

/-! The blocks a cache holds, as a reader sees them: for each hash an association list
from block indices to bytes, and the effect of the calls on these lists. -/
namespace YingSma.ContentCache
open SlotPool TransitionRuns

/-- The blocks under one hash, in the order `find` goes through them. -/
def held (c : ContentCache) (hash : Hash) : List (BlockIndex × List UInt8) :=
  ((c.content hash).getD []).map fun idx => ((c.slot idx).blockIndex, (c.slot idx).bytes)

theorem blockAt_eq_lookup (c : ContentCache) (ref : BlockRef) :
    c.blockAt ref = (c.held ref.hash).lookup ref.index := by
  unfold blockAt held
  rw [find_eq]
  induction (c.content ref.hash).getD [] with
  | nil => rfl
  | cons idx idxs ih =>
    simp only [List.find?_cons, List.map_cons, List.lookup_cons]
    by_cases h : (c.slot idx).blockIndex = ref.index
    · simp [h]
    · have h' : (ref.index == (c.slot idx).blockIndex) = false := by simpa using Ne.symm h
      simpa [h, h'] using ih

theorem find_isSome_iff (c : ContentCache) (ref : BlockRef) :
    (c.find ref).isSome ↔ ∃ bytes, c.blockAt ref = some bytes := by
  simp [blockAt, Option.isSome_iff_exists]

theorem find_eq_none_iff (c : ContentCache) (ref : BlockRef) :
    c.find ref = none ↔ c.blockAt ref = none := by
  simp [blockAt]

theorem mem_of_find {c : ContentCache} {ref : BlockRef} {idx : ℕ} (h : c.find ref = some idx) :
    idx ∈ (c.content ref.hash).getD [] := by
  rw [find_eq] at h
  exact List.mem_of_find?_eq_some h

section Frame

variable {c c' : ContentCache}

theorem held_congr (hcontent : ∀ hash, (c'.content hash).getD [] = (c.content hash).getD [])
    (hslot : ∀ i, (c'.slot i).blockIndex = (c.slot i).blockIndex ∧ (c'.slot i).bytes = (c.slot i).bytes) :
    c'.held = c.held := by
  funext hash
  simp only [held, hcontent]
  exact List.map_congr_left fun i _ => by rw [(hslot i).1, (hslot i).2]

/-- New slots are blank, which is also what a slot out of range reads as. -/
theorem slotAt_append_blank (slots : List Slot) (n i : ℕ) :
    slotAt (slots ++ List.replicate n Slot.blank) i = slotAt slots i := by
  simp only [slotAt, List.getD_eq_getElem?_getD, List.getElem?_append, List.getElem?_replicate]
  split_ifs with h h'
  · rfl
  · simp [List.getElem?_eq_none (not_lt.mp h)]
  · simp [List.getElem?_eq_none (not_lt.mp h)]

@[simp] theorem growToFit_slot (c : ContentCache) (count i : ℕ) :
    (c.growToFit count).slot i = c.slot i := by
  unfold growToFit slot
  split_ifs
  · rfl
  · exact slotAt_append_blank _ _ _

@[simp] theorem growToFit_held (c : ContentCache) (count : ℕ) : (c.growToFit count).held = c.held :=
  held_congr (fun _ => by rw [growToFit_content]) (fun i => by rw [growToFit_slot]; exact ⟨rfl, rfl⟩)

@[simp] theorem occupy_held (c : ContentCache) (kept idxs : List ℕ) :
    (c.occupy kept idxs).held = c.held := rfl

theorem freeze_held {ref : BlockRef} {enable : Bool} (h : c.freeze ref enable = .ok c') :
    c'.held = c.held := by
  rcases freeze_ok h with rfl | ⟨idx, idxs, -, -, rfl⟩
  · rfl
  · refine held_congr (fun _ => rfl) fun i => ?_
    simp only [slot, slotAt_modify]
    split_ifs <;> exact ⟨rfl, rfl⟩

theorem promote_held {idx : ℕ} (h : c.promote idx = .ok c') : c'.held = c.held := by
  obtain ⟨idxs, -, rfl⟩ := promote_ok h
  rfl

end Frame

section Segments

/-- The `k`-th block of `src`. -/
def chunk (src : List UInt8) (k : ℕ) : List UInt8 := (src.drop (k * blockSize)).take blockSize

theorem chunk_drop (src : List UInt8) (k : ℕ) :
    chunk (src.drop blockSize) k = chunk src (k + 1) := by
  simp only [chunk, List.drop_drop]
  rw [Nat.succ_mul, Nat.add_comm]

@[simp] theorem write_bytes (s : Slot) (src : List UInt8) (expectedSize : ℕ)
    (h : src.length ≤ blockSize) : (s.write src expectedSize h).bytes = src := by
  simp [Slot.bytes, Slot.write]

@[simp] theorem write_blockIndex (s : Slot) (src : List UInt8) (expectedSize : ℕ)
    (h : src.length ≤ blockSize) : (s.write src expectedSize h).blockIndex = s.blockIndex := rfl

/-- The slot `s` has been filled with block `k` of `src`, under the index of that block. -/
structure Filled (s : Slot) (index : BlockIndex) (bytes : List UInt8) : Prop where
  blockIndex : s.blockIndex = index
  bytes : s.bytes = bytes
  complete : s.size = s.expectedSize

theorem index_shift (index : BlockIndex) (k : ℕ) :
    index + 1 + UInt16.ofNat k = index + UInt16.ofNat (k + 1) := by
  rw [UInt16.ofNat_add, UInt16.add_assoc, UInt16.add_comm 1]
  rfl

theorem lt_length_of_drop {rest : List UInt8} {k : ℕ}
    (h : k * blockSize < (rest.drop blockSize).length) : (k + 1) * blockSize < rest.length := by
  rw [List.length_drop] at h
  rw [Nat.succ_mul]
  omega

theorem slotAt_modify_of_ne (slots : List Slot) (f : Slot → Slot) {idx i : ℕ} (h : i ≠ idx) :
    slotAt (slots.modify idx f) i = slotAt slots i := by
  simp [h]

/-- What the segmentation leaves in each slot it may use: the slot at place `p` of the
index vector holds a block whose 16-bit index is `p`, if there is one. The hypothesis
`hin` says that the loop stays inside the vector. -/
theorem copyBlocks_slot {taken : List ℕ} (hnd : taken.Nodup) {fuel : ℕ} {index : BlockIndex}
    {rest : List UInt8} {slots : List Slot} (hfuel : rest.length ≤ fuel)
    (hin : ∀ k, k * blockSize < rest.length → (index + UInt16.ofNat k).toNat < taken.length)
    (hlt : ∀ i ∈ taken, i < slots.length) {p : ℕ} (hp : p < taken.length) :
    let s := slotAt (copyBlocks taken fuel index rest slots) taken[p]
    ((∀ k, k * blockSize < rest.length → (index + UInt16.ofNat k).toNat ≠ p) ∧
        s = slotAt slots taken[p]) ∨
      ∃ k, k * blockSize < rest.length ∧ (index + UInt16.ofNat k).toNat = p ∧
        Filled s (index + UInt16.ofNat k) (chunk rest k) := by
  induction fuel generalizing index rest slots with
  | zero =>
    have hnil : rest = [] := List.length_eq_zero_iff.mp (Nat.le_zero.mp hfuel)
    subst hnil
    exact .inl ⟨by simp, rfl⟩
  | succ fuel ih =>
    simp only [copyBlocks]
    split_ifs with hnil
    · subst hnil
      exact .inl ⟨by simp, rfl⟩
    · have hpos : 0 < rest.length := List.length_pos_iff.mpr hnil
      have hhead : index.toNat < taken.length := by simpa using hin 0 (by simpa using hpos)
      have hget : taken.getD index.toNat 0 = taken[index.toNat] := by simp [hhead]
      rw [hget]
      have hslot : taken[index.toNat] < slots.length := hlt _ (List.getElem_mem hhead)
      -- The recursion goes on with the rest, whose block `k` is block `k + 1` here.
      have hdrop : (rest.drop blockSize).length ≤ fuel := by
        rw [List.length_drop, blockSize]
        omega
      obtain ⟨hmiss, hs⟩ | ⟨k, hk, hkp, hs⟩ := ih hdrop
          (fun k hk => by rw [index_shift]; exact hin (k + 1) (lt_length_of_drop hk))
          (fun i hi => by rw [List.length_modify]; exact hlt i hi)
      · by_cases hhere : index.toNat = p
        · subst hhere
          refine .inr ⟨0, by simpa using hpos, by simp, ?_⟩
          rw [hs, slotAt_modify, if_pos ⟨rfl, hslot⟩]
          exact ⟨by simp, by simp [Slot.bytes, Slot.write, chunk], rfl⟩
        · refine .inl ⟨fun k hk hkp => ?_, ?_⟩
          · cases k with
            | zero => exact hhere (by simpa using hkp)
            | succ k =>
              refine hmiss k ?_ (by rw [index_shift]; exact hkp)
              rw [Nat.succ_mul] at hk
              rw [List.length_drop]
              omega
          · rw [hs]
            refine slotAt_modify_of_ne _ _ fun he => hhere ?_
            exact ((hnd.getElem_inj_iff).mp he).symm
      · rw [index_shift] at hkp hs
        rw [chunk_drop] at hs
        exact .inr ⟨k + 1, lt_length_of_drop hk, hkp, hs⟩

theorem copyBlocks_other {taken : List ℕ} {fuel : ℕ} {index : BlockIndex} {rest : List UInt8}
    {slots : List Slot}
    (hin : ∀ k, k * blockSize < rest.length → (index + UInt16.ofNat k).toNat < taken.length)
    {i : ℕ} (hi : i ∉ taken) :
    slotAt (copyBlocks taken fuel index rest slots) i = slotAt slots i := by
  induction fuel generalizing index rest slots with
  | zero => rfl
  | succ fuel ih =>
    simp only [copyBlocks]
    split_ifs with hnil
    · rfl
    · have hpos : 0 < rest.length := List.length_pos_iff.mpr hnil
      have hhead : index.toNat < taken.length := by simpa using hin 0 (by simpa using hpos)
      have hne : i ≠ taken.getD index.toNat 0 := by
        have hget : taken.getD index.toNat 0 = taken[index.toNat] := by simp [hhead]
        rw [hget]
        exact fun he => hi (he ▸ List.getElem_mem hhead)
      rw [ih fun k hk => ?_, slotAt_modify_of_ne _ _ hne]
      rw [index_shift]
      exact hin (k + 1) (lt_length_of_drop hk)

theorem lt_blockCount {size k : ℕ} (h : k * blockSize < size) : k < blockCount size := by
  unfold blockCount blockSize at *
  rw [if_neg (by omega)]
  omega

theorem mul_lt_of_lt_blockCount {size k : ℕ} (hsize : 0 < size) (h : k < blockCount size) :
    k * blockSize < size := by
  unfold blockCount blockSize at *
  rw [if_neg (by omega)] at h
  omega

/-- The places the segmentation of `src` uses are inside a vector of `blockCount` slots. -/
theorem index_lt_of_length {taken : List ℕ} {src : List UInt8}
    (hlen : taken.length = blockCount src.length) (k : ℕ) (hk : k * blockSize < src.length) :
    ((0 : BlockIndex) + UInt16.ofNat k).toNat < taken.length := by
  have hlt := lt_blockCount hk
  have hmod := Nat.mod_le k (2 ^ 16)
  rw [UInt16.zero_add, UInt16.toNat_ofNat', hlen]
  omega

end Segments

/-- A cache in which nothing has been evicted: every free slot is as it was created. -/
structure Clean (c : ContentCache) : Prop extends SlotAccounting c where
  free_blank : ∀ i ∈ c.freeIdxs, c.slot i = Slot.blank

section Clean

variable {c c' : ContentCache}

theorem new_clean (capacity : ℕ) : Clean (new capacity) where
  toSlotAccounting := new_accounting capacity
  free_blank := by
    intro i _
    simp [slot, slotAt, new, List.getD_eq_getElem?_getD, List.getElem?_replicate]
    split_ifs <;> rfl

theorem growToFit_freeIdxs_blank (h : Clean c) (count : ℕ) :
    ∀ i ∈ (c.growToFit count).freeIdxs, (c.growToFit count).slot i = Slot.blank := by
  intro i hi
  rw [growToFit_slot]
  by_cases hlt : i < c.slots.length
  · apply h.free_blank i
    unfold growToFit at hi
    split_ifs at hi
    · exact hi
    · rcases List.mem_append.mp hi with hi | hi
      · exact hi
      · have hge := (List.mem_range'_1.mp hi).1
        omega
  · simp [slot, slotAt, List.getD_eq_getElem?_getD, List.getElem?_eq_none (not_lt.mp hlt)]

theorem growToFit_clean (h : Clean c) (count : ℕ) : Clean (c.growToFit count) :=
  ⟨growToFit_accounting h.toSlotAccounting count, growToFit_freeIdxs_blank h count⟩

theorem Clean.occupy (h : Clean c) {kept idxs : List ℕ} (hf : c.freeIdxs = kept ++ idxs) :
    Clean (c.occupy kept idxs) where
  toSlotAccounting := h.toSlotAccounting.occupy hf
  free_blank := fun i hi => h.free_blank i (hf ▸ List.mem_append.mpr (.inl hi))

/-- A slot handed out is on no list of content yet, and is blank. -/
theorem Clean.taken (h : Clean c) {count : ℕ} {kept idxs : List ℕ}
    (hf : (c.growToFit count).freeIdxs = kept ++ idxs) :
    ∀ i ∈ idxs, c.slot i = Slot.blank ∧ i < (c.growToFit count).slots.length ∧ i ∉ kept ∧
      ∀ hash, i ∉ (c.content hash).getD [] := by
  have hg := growToFit_clean h count
  intro i hi
  have hfree : i ∈ (c.growToFit count).freeIdxs := by simp [hf, hi]
  refine ⟨growToFit_slot c count i ▸ hg.free_blank i hfree, hg.partition.lt_of_free hfree, ?_, ?_⟩
  · intro hk
    have hnd := hg.partition.free_nodup
    rw [hf] at hnd
    exact (List.nodup_append.mp hnd).2.2 i hk i hi rfl
  · intro hash hc
    have hocc := h.entry_occupied hash i hc
    exact hg.partition.disjoint i hfree (by simpa using hocc)

theorem storeBlock_clean {ref : BlockRef} {expectedSize : ℕ} {src : List UInt8}
    {found : Option ℕ} (h : Clean c)
    (hs : c.storeBlock ref expectedSize src = .ok (found, c')) : Clean c' := by
  refine ⟨storeBlock_accounting h.toSlotAccounting hs, ?_⟩
  rcases storeBlock_ok hs with ⟨-, -, rfl⟩ | ⟨idx, kept, hle, -, -, hf, rfl⟩
  · exact h.free_blank
  · intro i hi
    have hne : i ≠ idx := fun he => (h.taken hf idx (by simp)).2.2.1 (he ▸ hi)
    have hb := growToFit_freeIdxs_blank h 1 i (hf ▸ List.mem_append.mpr (.inl hi))
    simpa [slot, hne] using hb

theorem store_clean {hasher : List UInt8 → Hash} {src : List UInt8} {hash : Hash}
    (h : Clean c) (hs : c.store hasher src = .ok (hash, c')) : Clean c' := by
  refine ⟨store_accounting h.toSlotAccounting hs, ?_⟩
  rcases store_ok hs with ⟨-, ⟨existing, -, -, rfl⟩ | ⟨-, kept, idxs, n, hn, hf, hlen, rfl⟩⟩
  · exact h.free_blank
  · intro i hi
    have hni : i ∉ idxs := fun hmem => (h.taken hf i hmem).2.2.1 hi
    have hb := growToFit_freeIdxs_blank h n i (hf ▸ List.mem_append.mpr (.inl hi))
    simpa [slot, copyBlocks_other (index_lt_of_length (hlen.trans hn)) hni] using hb

/-- A block stored on its own ends the list of its hash, under index 0 whatever its
reference says. -/
theorem storeBlock_held {ref : BlockRef} {expectedSize idx : ℕ} {src : List UInt8}
    (h : Clean c) (hs : c.storeBlock ref expectedSize src = .ok (some idx, c')) :
    c'.held = Function.update c.held ref.hash (c.held ref.hash ++ [(0, src)]) := by
  rcases storeBlock_ok hs with ⟨he, -, -⟩ | ⟨idx, kept, hle, -, -, hf, rfl⟩
  · cases he
  · obtain ⟨hblank, hlt, -, hfresh⟩ := h.taken hf idx (by simp)
    rw [← growToFit_slot c 1, slot] at hblank
    have hold : ∀ hash, ((c.content hash).getD []).map (fun i =>
        ((slotAt ((c.growToFit 1).slots.modify idx fun s => s.write src expectedSize hle) i).blockIndex,
          (slotAt ((c.growToFit 1).slots.modify idx fun s => s.write src expectedSize hle) i).bytes)) =
        c.held hash := by
      intro hash
      apply List.map_congr_left
      intro i hi
      have hne : i ≠ idx := fun he => hfresh hash (he ▸ hi)
      rw [slotAt_modify_of_ne _ _ hne]
      exact congrArg (fun s : Slot => (s.blockIndex, s.bytes)) (growToFit_slot c 1 i)
    funext hash
    by_cases hh : hash = ref.hash
    · subst hh
      simp only [held, slot, Function.update_self, Option.getD_some, List.map_append] at hold ⊢
      rw [hold]
      simp [hlt, hblank, Slot.blank]
    · simp only [held, slot, Function.update_of_ne hh] at hold ⊢
      exact hold hash

/-- What is found after a block of its own has been stored. -/
theorem storeBlock_blockAt (h : Clean c) {ref : BlockRef} {expectedSize idx : ℕ}
    {src : List UInt8} (hs : c.storeBlock ref expectedSize src = .ok (some idx, c'))
    (ref' : BlockRef) :
    c'.blockAt ref' =
      if ref'.hash = ref.hash then
        (c.blockAt ref').or (if ref'.index = 0 then some src else none)
      else c.blockAt ref' := by
  simp only [blockAt_eq_lookup, storeBlock_held h hs]
  by_cases hh : ref'.hash = ref.hash
  · have hlast : List.lookup ref'.index [((0 : BlockIndex), src)] =
        if ref'.index = 0 then some src else none := by
      by_cases hi : ref'.index = 0
      · simp [hi]
      · have hi' : (ref'.index == 0) = false := by simpa using hi
        simp [List.lookup_cons, hi, hi']
    rw [if_pos hh, hh, Function.update_self, List.lookup_append, hlast]
  · rw [if_neg hh, Function.update_of_ne hh]

/-- Storing a whole content leaves the slots of the other hashes alone. -/
theorem store_slot_other {hasher : List UInt8 → Hash} {src : List UInt8} {hash hash' : Hash}
    (h : Clean c) (hs : c.store hasher src = .ok (hash, c')) {i : ℕ}
    (hi : i ∈ (c.content hash').getD []) : c'.slot i = c.slot i := by
  rcases store_ok hs with ⟨-, ⟨existing, -, -, rfl⟩ | ⟨-, kept, idxs, n, hn, hf, hlen, rfl⟩⟩
  · rfl
  · have hni : i ∉ idxs := fun hmem => (h.taken hf i hmem).2.2.2 hash' hi
    rw [slot, copyBlocks_other (index_lt_of_length (hlen.trans hn)) hni]
    exact growToFit_slot c n i

theorem store_content_other {hasher : List UInt8 → Hash} {src : List UInt8} {hash hash' : Hash}
    (hs : c.store hasher src = .ok (hash, c')) (hne : hash' ≠ hash) :
    c'.content hash' = c.content hash' := by
  rcases store_ok hs with ⟨-, ⟨existing, -, -, rfl⟩ | ⟨-, kept, idxs, n, -, -, -, rfl⟩⟩
  · rfl
  · exact Function.update_of_ne hne _ _

theorem store_held_other {hasher : List UInt8 → Hash} {src : List UInt8} {hash hash' : Hash}
    (h : Clean c) (hs : c.store hasher src = .ok (hash, c')) (hne : hash' ≠ hash) :
    c'.held hash' = c.held hash' := by
  unfold held
  rw [store_content_other hs hne]
  exact List.map_congr_left fun i hi => by rw [store_slot_other h hs hi]

/-- What the slots of a new content hold: at place `p` a block of it whose 16-bit index
is `p`, or nothing yet where there is no such block. -/
theorem store_slots {hasher : List UInt8 → Hash} {src : List UInt8} {hash : Hash}
    (h : Clean c) (hs : c.store hasher src = .ok (hash, c')) (hnew : c.content hash = none) :
    ∃ idxs, c'.content hash = some idxs ∧ idxs.length = blockCount src.length ∧
      ∀ p, ∀ hp : p < idxs.length,
        ((∀ k, k * blockSize < src.length → (UInt16.ofNat k).toNat ≠ p) ∧
            c'.slot idxs[p] = Slot.blank) ∨
          ∃ k, k * blockSize < src.length ∧ (UInt16.ofNat k).toNat = p ∧
            Filled (c'.slot idxs[p]) (UInt16.ofNat k) (chunk src k) := by
  rcases store_ok hs with ⟨-, ⟨existing, he, -, -⟩ | ⟨-, kept, idxs, n, hn, hf, hlen, rfl⟩⟩
  · rw [hnew] at he
    cases he
  · refine ⟨idxs, by simp, hlen.trans hn, fun p hp => ?_⟩
    have hg := growToFit_clean h n
    have hnd : idxs.Nodup := (List.nodup_append.mp (hf ▸ hg.partition.free_nodup)).2.1
    have hslot := copyBlocks_slot hnd (le_refl src.length) (index_lt_of_length (hlen.trans hn))
      (fun i hi => (h.taken hf i hi).2.1) hp
    simp only [UInt16.zero_add] at hslot
    rcases hslot with ⟨hmiss, hs'⟩ | hhit
    · refine .inl ⟨hmiss, hs'.trans ?_⟩
      rw [← slot, growToFit_slot]
      exact (h.taken hf _ (List.getElem_mem hp)).1
    · exact .inr hhit

/-- Whatever is found under a new hash is a block of the content stored under it. -/
theorem store_lookup_sound {hasher : List UInt8 → Hash} {src : List UInt8} {hash : Hash}
    (h : Clean c) (hs : c.store hasher src = .ok (hash, c')) (hnew : c.content hash = none)
    {index : BlockIndex} {bytes : List UInt8}
    (hl : (c'.held hash).lookup index = some bytes) :
    ∃ k, (k * blockSize < src.length ∨ k = 0) ∧ index = UInt16.ofNat k ∧ bytes = chunk src k := by
  obtain ⟨idxs, hc, hlen, hslots⟩ := store_slots h hs hnew
  obtain ⟨before, rest, hsplit, hfirst⟩ := List.lookup_eq_some_iff.mp hl
  have hheld : c'.held hash = idxs.map fun i => ((c'.slot i).blockIndex, (c'.slot i).bytes) := by
    simp [held, hc]
  have hget : (c'.held hash)[before.length]? = some (index, bytes) := by simp [hsplit]
  rw [hheld, List.getElem?_map, Option.map_eq_some_iff] at hget
  obtain ⟨i, hi, hpair⟩ := hget
  obtain ⟨hp, rfl⟩ := List.getElem?_eq_some_iff.mp hi
  simp only [Prod.mk.injEq] at hpair
  obtain ⟨rfl, rfl⟩ := hpair
  rcases hslots _ hp with ⟨hmiss, hblank⟩ | ⟨k, hk, -, hfill⟩
  · -- A slot left blank has index 0, and `find` stops at the first slot of the vector.
    refine ⟨0, .inr rfl, by simp [hblank, Slot.blank], ?_⟩
    by_cases hnil : src = []
    · simp [hblank, hnil, chunk, Slot.bytes, Slot.blank]
    · exfalso
      have hpos : 0 < src.length := List.length_pos_iff.mpr hnil
      have h0 : 0 < idxs.length := by omega
      rcases hslots 0 h0 with ⟨hmiss0, -⟩ | ⟨k, -, hk0, hfill⟩
      · exact hmiss0 0 (by simpa using hpos) (by simp)
      · have hb : before ≠ [] := by
          intro hb
          simp only [hb, List.length_nil] at hmiss
          exact hmiss 0 (by simpa using hpos) (by simp)
        obtain ⟨pair, before', rfl⟩ := List.exists_cons_of_ne_nil hb
        have hhead : (c'.held hash)[0]? = some pair := by simp [hsplit]
        rw [hheld, List.getElem?_map, List.getElem?_eq_getElem h0] at hhead
        simp only [Option.map_some, Option.some.injEq] at hhead
        have hzero : pair.1 = 0 := by
          rw [← hhead, hfill.blockIndex]
          exact UInt16.toNat_inj.mp (by simpa using hk0)
        have hne := hfirst pair List.mem_cons_self
        rw [hblank, hzero] at hne
        simp [Slot.blank] at hne
  · exact ⟨k, .inl hk, hfill.blockIndex, hfill.bytes⟩

/-- The slots of a new content of at most 65536 blocks are filled with its blocks, in order. -/
theorem store_filled {hasher : List UInt8 → Hash} {src : List UInt8} {hash : Hash}
    (h : Clean c) (hs : c.store hasher src = .ok (hash, c')) (hnew : c.content hash = none)
    (hsrc : src ≠ []) (hcount : blockCount src.length ≤ 65536) :
    ∃ idxs, c'.content hash = some idxs ∧ idxs.length = blockCount src.length ∧
      ∀ p, ∀ hp : p < idxs.length, Filled (c'.slot idxs[p]) (UInt16.ofNat p) (chunk src p) := by
  obtain ⟨idxs, hc, hlen, hslots⟩ := store_slots h hs hnew
  have hpos : 0 < src.length := List.length_pos_iff.mpr hsrc
  have hmod : ∀ k, k < blockCount src.length → (UInt16.ofNat k).toNat = k := by
    intro k hk
    rw [UInt16.toNat_ofNat', Nat.mod_eq_of_lt (by omega)]
  refine ⟨idxs, hc, hlen, fun p hp => ?_⟩
  have hpn : p < blockCount src.length := hlen ▸ hp
  rcases hslots p hp with ⟨hmiss, -⟩ | ⟨k, hk, hkp, hfill⟩
  · exact (hmiss p (mul_lt_of_lt_blockCount hpos hpn) (hmod p hpn)).elim
  · obtain rfl : k = p := (hmod k (lt_blockCount hk)).symm.trans hkp
    exact hfill

/-- A new content of at most 65536 blocks is held block by block, in order. -/
theorem store_held_new {hasher : List UInt8 → Hash} {src : List UInt8} {hash : Hash}
    (h : Clean c) (hs : c.store hasher src = .ok (hash, c')) (hnew : c.content hash = none)
    (hsrc : src ≠ []) (hcount : blockCount src.length ≤ 65536) :
    c'.held hash =
      (List.range (blockCount src.length)).map fun k => (UInt16.ofNat k, chunk src k) := by
  obtain ⟨idxs, hc, hlen, hfilled⟩ := store_filled h hs hnew hsrc hcount
  apply List.ext_getElem (by simp [held, hc, hlen])
  intro p hp hp'
  have hpi : p < idxs.length := by simpa [held, hc] using hp
  have hfill := hfilled p hpi
  simp [held, hc, hfill.blockIndex, hfill.bytes]

theorem freeSlotsFrom_of_frozen {count : ℕ} {idxs : List ℕ} {slots : List Slot}
    (h : ∀ i ∈ idxs.take count, (slotAt slots i).frozen = true) :
    freeSlotsFrom count idxs slots = (idxs, slots) := by
  induction idxs generalizing count with
  | nil => cases count <;> rfl
  | cons idx idxs ih =>
    cases count with
    | zero => rfl
    | succ count =>
      rw [List.take_succ_cons, List.forall_mem_cons] at h
      simp [freeSlotsFrom, h.1, ih h.2]

/-- With only frozen slots to look at, `free_slots` does nothing. -/
theorem freeSlots_of_tailFrozen {count : ℕ} (h : TailFrozen c count) : c.freeSlots count = c := by
  unfold freeSlots
  split_ifs
  · rfl
  · rw [freeSlotsFrom_of_frozen]
    · simp
    · rw [List.take_reverse]
      exact fun i hi => h i (List.mem_reverse.mp hi)

theorem ensureCapacity_of_noEviction {count : ℕ} (h : NoEviction c (.ensureCapacity count)) :
    (c.ensureCapacity count).2 = c ∨ (c.ensureCapacity count).2 = c.growToFit count := by
  unfold ensureCapacity
  split_ifs with hlt hcap
  · exact .inr rfl
  · refine .inl (freeSlots_of_tailFrozen ?_)
    exact (h.resolve_left (by omega)).resolve_left hcap
  · exact .inl rfl

theorem freeze_clean {ref : BlockRef} {enable : Bool} (h : Clean c)
    (hf : c.freeze ref enable = .ok c') : Clean c' := by
  refine ⟨freeze_accounting h.toSlotAccounting hf, ?_⟩
  rcases freeze_ok hf with rfl | ⟨idx, idxs, hfind, -, rfl⟩
  · exact h.free_blank
  · intro i hi
    have hocc := h.entry_occupied ref.hash idx (mem_of_find hfind)
    have hne : i ≠ idx := fun he => h.partition.disjoint i hi (he ▸ hocc)
    have hb := h.free_blank i hi
    simpa [slot, hne] using hb

theorem Clean.with_order (h : Clean c) {idxs : List ℕ} (hp : idxs.Perm c.occupiedIdxs) :
    Clean { c with occupiedIdxs := idxs } :=
  ⟨h.toSlotAccounting.with_order hp, h.free_blank⟩

/-- Without eviction a call keeps the free slots blank. -/
theorem step_clean {hasher : List UInt8 → Hash} {op : Op} (h : Clean c) (hop : NoEviction c op)
    (hs : c.step hasher op = .ok c') : Clean c' := by
  cases op with
  | growToFit count =>
    simp only [step, Except.ok.injEq] at hs
    exact hs ▸ growToFit_clean h count
  | freeSlots count =>
    simp only [step, Except.ok.injEq, freeSlots_of_tailFrozen hop] at hs
    exact hs ▸ h
  | ensureCapacity count =>
    simp only [step, Except.ok.injEq] at hs
    rcases ensureCapacity_of_noEviction hop with he | he
    · rw [← hs, he]
      exact h
    · rw [← hs, he]
      exact growToFit_clean h count
  | reserveSlot =>
    obtain ⟨idx, hr⟩ := map_snd_ok hs
    obtain ⟨kept, hf, rfl⟩ := reserveSlot_ok hr
    exact (growToFit_clean h 1).occupy hf
  | reserveSlots count =>
    obtain ⟨idxs, hr⟩ := map_snd_ok hs
    obtain ⟨kept, hf, -, rfl⟩ := reserveSlots_ok hr
    exact (growToFit_clean h count).occupy hf
  | promote idx =>
    obtain ⟨idxs, hp, rfl⟩ := promote_ok hs
    exact h.with_order hp
  | store src =>
    obtain ⟨hash, hr⟩ := map_snd_ok hs
    exact store_clean h hr
  | storeBlock ref expectedSize src =>
    obtain ⟨found, hr⟩ := map_snd_ok hs
    exact storeBlock_clean h hr
  | find ref =>
    simp only [step, Except.ok.injEq] at hs
    exact hs ▸ h
  | frozen ref enable => exact freeze_clean h hs
  | validateData m => exact map_const_ok hs ▸ h
  | missingBlocks m => exact map_const_ok hs ▸ h

/-- Only the two stores change what the cache holds, as long as nothing is evicted. -/
theorem step_held {hasher : List UInt8 → Hash} {op : Op} (hop : NoEviction c op)
    (hstore : ∀ src, op ≠ .store src)
    (hblock : ∀ ref expectedSize src, op ≠ .storeBlock ref expectedSize src)
    (hs : c.step hasher op = .ok c') : c'.held = c.held := by
  cases op with
  | growToFit count =>
    simp only [step, Except.ok.injEq] at hs
    rw [← hs, growToFit_held]
  | freeSlots count =>
    simp only [step, Except.ok.injEq, freeSlots_of_tailFrozen hop] at hs
    rw [hs]
  | ensureCapacity count =>
    simp only [step, Except.ok.injEq] at hs
    rcases ensureCapacity_of_noEviction hop with he | he
    · rw [← hs, he]
    · rw [← hs, he, growToFit_held]
  | reserveSlot =>
    obtain ⟨idx, hr⟩ := map_snd_ok hs
    obtain ⟨kept, -, rfl⟩ := reserveSlot_ok hr
    rw [occupy_held, growToFit_held]
  | reserveSlots count =>
    obtain ⟨idxs, hr⟩ := map_snd_ok hs
    obtain ⟨kept, -, -, rfl⟩ := reserveSlots_ok hr
    rw [occupy_held, growToFit_held]
  | promote idx => exact promote_held hs
  | store src => exact (hstore src rfl).elim
  | storeBlock ref expectedSize src => exact (hblock ref expectedSize src rfl).elim
  | find ref =>
    simp only [step, Except.ok.injEq] at hs
    rw [hs]
  | frozen ref enable => exact freeze_held hs
  | validateData m => rw [map_const_ok hs]
  | missingBlocks m => rw [map_const_ok hs]

end Clean

end YingSma.ContentCache
