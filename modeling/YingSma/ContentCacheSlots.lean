import YingSma.ContentCache
import YingSma.SlotPool
import YingSma.TransitionRuns

/-! Slot accounting of `ContentCache`: which calls keep the free list, the LRU list
and the content map in step, and what a bounded cache does when it is full. -/
namespace YingSma.ContentCache
open SlotPool TransitionRuns

/-- The free and the occupied indices partition the slots, and the index vectors of
the content map mention occupied slots only, none of them twice. -/
structure SlotAccounting (c : ContentCache) : Prop where
  partition : Partition c.slots.length c.freeIdxs c.occupiedIdxs
  content_occupied : ∀ hash idxs, c.content hash = some idxs → ∀ idx ∈ idxs, idx ∈ c.occupiedIdxs
  content_nodup : ∀ hash idxs, c.content hash = some idxs → idxs.Nodup

theorem new_accounting (capacity : ℕ) : SlotAccounting (new capacity) where
  partition := by simpa [new] using Partition.range (capacity / blockSize)
  content_occupied := by simp [new]
  content_nodup := by simp [new]

@[simp] theorem slotAt_modify (slots : List Slot) (f : Slot → Slot) (idx i : ℕ) :
    slotAt (slots.modify idx f) i =
      if i = idx ∧ idx < slots.length then f (slotAt slots i) else slotAt slots i := by
  simp only [slotAt, List.getD_eq_getElem?_getD, List.getElem?_modify]
  by_cases h : i = idx
  · subst i
    by_cases hlt : idx < slots.length <;> simp [hlt]
  · simp [h, Ne.symm h]

/-- Accounting reads nothing of the slots but their number. -/
theorem SlotAccounting.with_slots {c : ContentCache} (h : SlotAccounting c) {slots : List Slot}
    (hlen : slots.length = c.slots.length) : SlotAccounting { c with slots := slots } :=
  ⟨by simpa [hlen] using h.partition, h.content_occupied, h.content_nodup⟩

theorem SlotAccounting.with_order {c : ContentCache} (h : SlotAccounting c) {idxs : List ℕ}
    (hp : idxs.Perm c.occupiedIdxs) : SlotAccounting { c with occupiedIdxs := idxs } :=
  ⟨h.partition.perm hp, fun hash l he i hi => hp.mem_iff.mpr (h.content_occupied hash l he i hi),
    h.content_nodup⟩

theorem SlotAccounting.with_content {c : ContentCache} (h : SlotAccounting c) (hash : Hash)
    {idxs : List ℕ} (hocc : ∀ idx ∈ idxs, idx ∈ c.occupiedIdxs) (hnd : idxs.Nodup) :
    SlotAccounting { c with content := Function.update c.content hash (some idxs) } where
  partition := h.partition
  content_occupied := by
    intro hash' idxs' he
    by_cases hh : hash' = hash
    · subst hash'
      simp only [Function.update_self, Option.some.injEq] at he
      exact he ▸ hocc
    · simp only [Function.update_of_ne hh] at he
      exact h.content_occupied hash' idxs' he
  content_nodup := by
    intro hash' idxs' he
    by_cases hh : hash' = hash
    · subst hash'
      simp only [Function.update_self, Option.some.injEq] at he
      exact he ▸ hnd
    · simp only [Function.update_of_ne hh] at he
      exact h.content_nodup hash' idxs' he

theorem SlotAccounting.entry_occupied {c : ContentCache} (h : SlotAccounting c) (hash : Hash) :
    ∀ idx ∈ (c.content hash).getD [], idx ∈ c.occupiedIdxs := by
  cases he : c.content hash with
  | none => simp
  | some idxs => exact h.content_occupied hash idxs he

theorem SlotAccounting.entry_nodup {c : ContentCache} (h : SlotAccounting c) (hash : Hash) :
    ((c.content hash).getD []).Nodup := by
  cases he : c.content hash with
  | none => simp
  | some idxs => exact h.content_nodup hash idxs he

section Growing

variable (c : ContentCache) (count : ℕ)

@[simp] theorem growToFit_content : (c.growToFit count).content = c.content := by
  unfold growToFit
  split_ifs <;> rfl

theorem growToFit_with_content (content : Hash → Option (List ℕ)) :
    { c with content := content }.growToFit count =
      { c.growToFit count with content := content } := by
  unfold growToFit
  split_ifs <;> rfl

@[simp] theorem growToFit_capacity : (c.growToFit count).capacity = c.capacity := by
  unfold growToFit
  split_ifs <;> rfl

@[simp] theorem growToFit_occupiedIdxs : (c.growToFit count).occupiedIdxs = c.occupiedIdxs := by
  unfold growToFit
  split_ifs <;> rfl

theorem growToFit_free_length : (c.growToFit count).freeIdxs.length = max count c.freeIdxs.length := by
  unfold growToFit
  split_ifs with h
  · omega
  · simp only [List.length_append, List.length_range']
    omega

theorem growToFit_accounting {c : ContentCache} (h : SlotAccounting c) (count : ℕ) :
    SlotAccounting (c.growToFit count) := by
  unfold growToFit
  split_ifs with hc
  · exact h
  · exact ⟨by simpa using h.partition.grow _, h.content_occupied, h.content_nodup⟩

end Growing

section Eviction

theorem reset_frozen (slots : List Slot) (idx i : ℕ) :
    (slotAt (slots.modify idx Slot.reset) i).frozen = (slotAt slots i).frozen := by
  rw [slotAt_modify]
  split_ifs <;> rfl

/-- The walk visits exactly `count` elements and drops the unfrozen ones among them. -/
theorem freeSlotsFrom_idxs (count : ℕ) (idxs : List ℕ) (slots : List Slot) :
    (freeSlotsFrom count idxs slots).1 =
      (idxs.take count).filter (fun i => (slotAt slots i).frozen) ++ idxs.drop count := by
  induction idxs generalizing count slots with
  | nil => cases count <;> simp [freeSlotsFrom]
  | cons idx idxs ih =>
    cases count with
    | zero => simp [freeSlotsFrom]
    | succ count =>
      by_cases hf : (slotAt slots idx).frozen = true
      · simp [freeSlotsFrom, hf, ih]
      · have hr := ih count (slots.modify idx Slot.reset)
        simp only [reset_frozen] at hr
        simp [freeSlotsFrom, hf, hr]

theorem freeSlotsFrom_length (count : ℕ) (idxs : List ℕ) (slots : List Slot) :
    (freeSlotsFrom count idxs slots).2.length = slots.length := by
  induction idxs generalizing count slots with
  | nil => cases count <;> simp [freeSlotsFrom]
  | cons idx idxs ih =>
    cases count with
    | zero => simp [freeSlotsFrom]
    | succ count =>
      simp only [freeSlotsFrom]
      split_ifs
      · exact ih count slots
      · exact (ih count _).trans (List.length_modify _ _ _)

variable (c : ContentCache) (count : ℕ)

theorem freeSlots_occupiedIdxs :
    (c.freeSlots count).occupiedIdxs =
      keepTail (fun i => (c.slot i).frozen) count c.occupiedIdxs := by
  unfold freeSlots
  split_ifs with h
  · simp [h, keepTail]
  · simp only [freeSlotsFrom_idxs, keepTail, List.reverse_append, List.reverse_drop,
      List.reverse_reverse, List.length_reverse]
    rw [← List.filter_reverse, List.reverse_take]
    simp only [List.reverse_reverse, List.length_reverse]
    rfl

@[simp] theorem freeSlots_freeIdxs : (c.freeSlots count).freeIdxs = c.freeIdxs := by
  unfold freeSlots
  split_ifs <;> rfl

@[simp] theorem freeSlots_content : (c.freeSlots count).content = c.content := by
  unfold freeSlots
  split_ifs <;> rfl

@[simp] theorem freeSlots_slots_length : (c.freeSlots count).slots.length = c.slots.length := by
  unfold freeSlots
  split_ifs
  · rfl
  · exact freeSlotsFrom_length _ _ _

/-- The last `count` occupied slots, which `free_slots(count)` looks at, are all frozen. -/
def TailFrozen : Prop :=
  ∀ i ∈ c.occupiedIdxs.drop (c.occupiedIdxs.length - count), (c.slot i).frozen = true

/-- An evicted index is on no list any more, so accounting survives only where nothing
is evicted. -/
theorem freeSlots_accounting_iff {c : ContentCache} (h : SlotAccounting c) (count : ℕ) :
    SlotAccounting (c.freeSlots count) ↔ TailFrozen c count := by
  have hsub := keepTail_sublist (fun i => (c.slot i).frozen) count c.occupiedIdxs
  have heq := keepTail_eq_self_iff (fun i => (c.slot i).frozen) count c.occupiedIdxs
  rw [← freeSlots_occupiedIdxs] at hsub heq
  have hp : Partition (c.freeSlots count).slots.length (c.freeSlots count).freeIdxs
      (c.freeSlots count).occupiedIdxs ↔ TailFrozen c count := by
    rw [freeSlots_slots_length, freeSlots_freeIdxs, h.partition.sublist_iff hsub, heq, TailFrozen]
  constructor
  · intro h'
    exact hp.mp h'.partition
  · intro ht
    refine ⟨hp.mpr ht, ?_, ?_⟩
    · rw [freeSlots_content, heq.mpr ht]
      exact h.content_occupied
    · rw [freeSlots_content]
      exact h.content_nodup

end Eviction

section Reserving

variable {c c' : ContentCache} {count : ℕ}

/-- `ensure_capacity` succeeds only without evicting: by slots that are free already,
or by growing. -/
theorem ensureCapacity_fst_iff (c : ContentCache) (count : ℕ) :
    (c.ensureCapacity count).1 = count ↔ count ≤ c.freeIdxs.length ∨ c.capacity = 0 := by
  unfold ensureCapacity
  split_ifs with hlt hcap
  · simp [growToFit_free_length, hcap]
  · simp only [freeSlots_freeIdxs, hcap, or_false, min_eq_left_iff]
  · simp only [min_eq_left_iff]
    omega

theorem ensureCapacity_snd (h : (c.ensureCapacity count).1 = count) :
    (c.ensureCapacity count).2 = c.growToFit count := by
  rw [ensureCapacity_fst_iff] at h
  unfold ensureCapacity
  split_ifs with hlt hcap
  · rfl
  · omega
  · simp [growToFit, not_lt.mp hlt]

/-- Move `idxs`, the end of the free list, to the head of the LRU list. -/
def occupy (c : ContentCache) (kept idxs : List ℕ) : ContentCache :=
  { c with freeIdxs := kept, occupiedIdxs := idxs ++ c.occupiedIdxs }

theorem SlotAccounting.occupy (h : SlotAccounting c) {kept idxs : List ℕ}
    (hf : c.freeIdxs = kept ++ idxs) : SlotAccounting (c.occupy kept idxs) where
  partition := (hf ▸ h.partition).take
  content_occupied := fun hash l he i hi =>
    List.mem_append.mpr (.inr (h.content_occupied hash l he i hi))
  content_nodup := h.content_nodup

theorem reserveSlots_ok {idxs : List ℕ} (h : c.reserveSlots count = .ok (idxs, c')) :
    ∃ kept, (c.growToFit count).freeIdxs = kept ++ idxs ∧ idxs.length = count ∧
      c' = (c.growToFit count).occupy kept idxs := by
  unfold reserveSlots at h
  dsimp only at h
  split_ifs at h with hc
  rw [ensureCapacity_snd hc] at h
  simp only [Except.ok.injEq, Prod.mk.injEq] at h
  obtain ⟨rfl, rfl⟩ := h
  refine ⟨_, (List.take_append_drop _ _).symm, ?_, rfl⟩
  rw [List.length_drop, growToFit_free_length]
  omega

theorem reserveSlot_ok {idx : ℕ} (h : c.reserveSlot = .ok (idx, c')) :
    ∃ kept, (c.growToFit 1).freeIdxs = kept ++ [idx] ∧
      c' = (c.growToFit 1).occupy kept [idx] := by
  unfold reserveSlot at h
  dsimp only at h
  split_ifs at h with hc
  rw [ensureCapacity_snd hc] at h
  simp only [Except.ok.injEq, Prod.mk.injEq] at h
  obtain ⟨rfl, rfl⟩ := h
  have hne : (c.growToFit 1).freeIdxs ≠ [] := by
    have hlen := growToFit_free_length c 1
    intro he
    rw [he, List.length_nil] at hlen
    omega
  refine ⟨_, ?_, rfl⟩
  rw [List.getLastD_eq_getLast?, List.getLast?_eq_some_getLast hne]
  exact (List.dropLast_append_getLast hne).symm

/-- A reservation goes through exactly when no eviction is needed for it. -/
theorem reserveSlots_isOk_iff :
    (c.reserveSlots count).isOk ↔ count ≤ c.freeIdxs.length ∨ c.capacity = 0 := by
  rw [← ensureCapacity_fst_iff]
  unfold reserveSlots
  dsimp only
  split_ifs with h <;> simp [h, Except.isOk, Except.toBool]

theorem reserveSlot_isOk_iff :
    c.reserveSlot.isOk ↔ 1 ≤ c.freeIdxs.length ∨ c.capacity = 0 := by
  rw [← ensureCapacity_fst_iff]
  unfold reserveSlot
  dsimp only
  split_ifs with h <;> simp [h, Except.isOk, Except.toBool]

theorem reserveSlot_isOk_with_content (content : Hash → Option (List ℕ)) :
    { c with content := content }.reserveSlot.isOk ↔ c.reserveSlot.isOk := by
  rw [reserveSlot_isOk_iff, reserveSlot_isOk_iff]

theorem reserveSlots_accounting {idxs : List ℕ} (h : SlotAccounting c)
    (hr : c.reserveSlots count = .ok (idxs, c')) : SlotAccounting c' := by
  obtain ⟨kept, hf, -, rfl⟩ := reserveSlots_ok hr
  exact (growToFit_accounting h count).occupy hf

theorem reserveSlot_accounting {idx : ℕ} (h : SlotAccounting c)
    (hr : c.reserveSlot = .ok (idx, c')) : SlotAccounting c' := by
  obtain ⟨kept, hf, rfl⟩ := reserveSlot_ok hr
  exact (growToFit_accounting h 1).occupy hf

end Reserving

section Storing

variable {c c' : ContentCache}

/-- A successful search of `promote` takes the index it looks for out of the list. -/
theorem promoteFrom_perm {idx : ℕ} : ∀ {idxs others : List ℕ},
    promoteFrom idx idxs = .ok (some others) → (idx :: others).Perm idxs
  | [], others, h => by simp [promoteFrom] at h
  | [i], others, h => by
    by_cases hi : i = idx
    · simp only [promoteFrom, hi, if_true, Except.ok.injEq, Option.some.injEq] at h
      simp [hi, ← h]
    · simp [promoteFrom, hi] at h
  | i :: j :: rest, others, h => by
    by_cases hi : i = idx
    · simp only [promoteFrom, hi, if_true, Except.ok.injEq, Option.some.injEq] at h
      simp [hi, ← h]
    · simp only [promoteFrom, hi, if_false] at h
      cases hr : promoteFrom idx rest with
      | error e => simp [hr] at h
      | ok found =>
        cases found with
        | none => simp [hr] at h
        | some l =>
          simp only [hr, Option.map_some, Except.ok.injEq, Option.some.injEq] at h
          subst h
          have hp : (idx :: l).Perm rest := promoteFrom_perm hr
          have hswap : (idx :: i :: j :: l).Perm (i :: j :: idx :: l) :=
            (List.Perm.swap _ _ _).trans ((List.Perm.swap _ _ _).cons i)
          exact hswap.trans ((hp.cons j).cons i)

theorem promote_ok {idx : ℕ} (h : c.promote idx = .ok c') :
    ∃ idxs, idxs.Perm c.occupiedIdxs ∧ c' = { c with occupiedIdxs := idxs } := by
  unfold promote at h
  split at h
  · next others hf =>
    simp only [Except.ok.injEq] at h
    exact ⟨_, promoteFrom_perm hf, h.symm⟩
  · simp only [Except.ok.injEq] at h
    exact ⟨_, List.Perm.refl _, h.symm⟩
  · cases h

theorem promote_accounting {idx : ℕ} (h : SlotAccounting c) (hp : c.promote idx = .ok c') :
    SlotAccounting c' := by
  obtain ⟨idxs, hperm, rfl⟩ := promote_ok hp
  exact h.with_order hperm

theorem setFrozen_ok {idx : ℕ} {enable : Bool} (h : c.setFrozen idx enable = .ok c') :
    ∃ idxs, idxs.Perm c.occupiedIdxs ∧
      c' = { c with
        slots := c.slots.modify idx fun s => { s with frozen := enable }
        occupiedIdxs := idxs } := by
  unfold setFrozen at h
  dsimp only at h
  split_ifs at h
  · exact promote_ok h
  · simp only [Except.ok.injEq] at h
    exact ⟨_, List.Perm.refl _, h.symm⟩

theorem freeze_ok {ref : BlockRef} {enable : Bool} (h : c.freeze ref enable = .ok c') :
    c' = c ∨ ∃ idx idxs, c.find ref = some idx ∧ idxs.Perm c.occupiedIdxs ∧
      c' = { c with
        slots := c.slots.modify idx fun s => { s with frozen := enable }
        occupiedIdxs := idxs } := by
  unfold freeze at h
  split at h
  · next idx hfind =>
    obtain ⟨idxs, hp⟩ := setFrozen_ok h
    exact .inr ⟨idx, idxs, hfind, hp⟩
  · simp only [Except.ok.injEq] at h
    exact .inl h.symm

theorem freeze_accounting {ref : BlockRef} {enable : Bool} (h : SlotAccounting c)
    (hf : c.freeze ref enable = .ok c') : SlotAccounting c' := by
  rcases freeze_ok hf with rfl | ⟨idx, idxs, -, hperm, rfl⟩
  · exact h
  · have hlen : (c.slots.modify idx fun s => { s with frozen := enable }).length =
        c.slots.length := List.length_modify _ _ _
    exact (h.with_order hperm).with_slots hlen

theorem copyBlocks_length (takenIdxs : List ℕ) (fuel : ℕ) (blockIndex : BlockIndex)
    (rest : List UInt8) (slots : List Slot) :
    (copyBlocks takenIdxs fuel blockIndex rest slots).length = slots.length := by
  induction fuel generalizing blockIndex rest slots with
  | zero => rfl
  | succ fuel ih =>
    simp only [copyBlocks]
    split_ifs
    · rfl
    · exact (ih _ _ _).trans (List.length_modify _ _ _)

/-- What a successful `store` has done: nothing when the hash is known, else a stretch
of the free list holds the blocks and is the index vector of the hash. -/
theorem store_ok {hasher : List UInt8 → Hash} {src : List UInt8} {hash : Hash}
    (hs : c.store hasher src = .ok (hash, c')) :
    hash = hasher src ∧
      ((∃ existing, c.content hash = some existing ∧ existing.length = blockCount src.length ∧
          c' = c) ∨
        (c.content hash = none ∧ ∃ kept idxs n, n = blockCount src.length ∧
          (c.growToFit n).freeIdxs = kept ++ idxs ∧ idxs.length = n ∧
          c' = { (c.growToFit n).occupy kept idxs with
            slots := copyBlocks idxs src.length 0 src (c.growToFit n).slots
            content := Function.update c.content hash (some idxs) })) := by
  unfold store at hs
  dsimp only at hs
  cases he : c.content (hasher src) with
  | some existing =>
    simp only [he] at hs
    split_ifs at hs with hl
    simp only [Except.ok.injEq, Prod.mk.injEq] at hs
    obtain ⟨rfl, rfl⟩ := hs
    exact ⟨rfl, .inl ⟨existing, he, hl, rfl⟩⟩
  | none =>
    simp only [he] at hs
    cases hr : c.reserveSlots (blockCount src.length) with
    | error e => simp only [hr, reduceCtorEq] at hs
    | ok taken =>
      obtain ⟨takenIdxs, c₁⟩ := taken
      simp only [hr, Except.ok.injEq, Prod.mk.injEq] at hs
      obtain ⟨kept, hf, hlen, rfl⟩ := reserveSlots_ok hr
      obtain ⟨rfl, rfl⟩ := hs
      refine ⟨rfl, .inr ⟨he, kept, takenIdxs, _, rfl, hf, hlen, ?_⟩⟩
      simp only [occupy, growToFit_content]

theorem store_isOk {hasher : List UInt8 → Hash} {src : List UInt8}
    (hn : c.content (hasher src) = none) (hr : (c.reserveSlots (blockCount src.length)).isOk) :
    (c.store hasher src).isOk := by
  unfold store
  simp only [hn]
  split
  · next e he => simp [he, Except.isOk, Except.toBool] at hr
  · rfl

theorem store_accounting {hasher : List UInt8 → Hash} {src : List UInt8} {hash : Hash}
    (h : SlotAccounting c) (hs : c.store hasher src = .ok (hash, c')) : SlotAccounting c' := by
  rcases store_ok hs with ⟨-, ⟨existing, -, -, rfl⟩ | ⟨-, kept, idxs, n, -, hf, -, rfl⟩⟩
  · exact h
  · have hg := growToFit_accounting h n
    have hnd : idxs.Nodup := (List.nodup_append.mp (hf ▸ hg.partition.free_nodup)).2.1
    have ho := (hg.occupy hf).with_slots
      (copyBlocks_length idxs src.length 0 src (c.growToFit n).slots)
    have hc := ho.with_content hash (fun idx hi => List.mem_append.mpr (.inl hi)) hnd
    simpa only [occupy, growToFit_content] using hc

theorem find_eq (c : ContentCache) (ref : BlockRef) :
    c.find ref =
      ((c.content ref.hash).getD []).find? fun idx => (c.slot idx).blockIndex = ref.index := by
  unfold find
  cases c.content ref.hash <;> rfl

/-- What a `store` of one block has done: nothing when the block is found, else a slot
off the free list holds the bytes, under the block index it had before, and ends the
index vector of the hash. -/
theorem storeBlock_ok {ref : BlockRef} {expectedSize : ℕ} {src : List UInt8} {found : Option ℕ}
    (hs : c.storeBlock ref expectedSize src = .ok (found, c')) :
    (found = none ∧ (c.find ref).isSome ∧ c' = c) ∨
      ∃ idx kept, ∃ hle : src.length ≤ blockSize,
        found = some idx ∧ c.find ref = none ∧ (c.growToFit 1).freeIdxs = kept ++ [idx] ∧
        c' = { (c.growToFit 1).occupy kept [idx] with
          slots := (c.growToFit 1).slots.modify idx fun s => s.write src expectedSize hle
          content := Function.update c.content ref.hash
            (some ((c.content ref.hash).getD [] ++ [idx])) } := by
  unfold storeBlock at hs
  dsimp only at hs
  split at hs
  · next hany =>
    simp only [Except.ok.injEq, Prod.mk.injEq] at hs
    obtain ⟨rfl, rfl⟩ := hs
    have hfound : (c.find ref).isSome := by
      rw [find_eq, List.isSome_find?]
      exact hany
    refine .inl ⟨rfl, hfound, ?_⟩
    cases he : c.content ref.hash with
    | none => simp [find, he] at hfound
    | some idxs => rw [Option.getD_some, ← he, Function.update_eq_self]
  · next hany =>
    have hnone : c.find ref = none := by
      rw [find_eq, ← Option.not_isSome_iff_eq_none, List.isSome_find?]
      exact hany
    split at hs
    · cases hs
    · next idx c₁ hr =>
      obtain ⟨kept, hf, rfl⟩ := reserveSlot_ok hr
      split_ifs at hs with hle
      simp only [Except.ok.injEq, Prod.mk.injEq] at hs
      obtain ⟨rfl, rfl⟩ := hs
      rw [growToFit_with_content] at hf
      refine .inr ⟨idx, kept, hle, rfl, hnone, hf, ?_⟩
      simp only [growToFit_with_content, occupy, Function.update_idem]

theorem storeBlock_isOk {ref : BlockRef} {expectedSize : ℕ} {src : List UInt8}
    (hle : src.length ≤ blockSize) (hr : c.reserveSlot.isOk) :
    (c.storeBlock ref expectedSize src).isOk := by
  unfold storeBlock
  dsimp only
  split
  · rfl
  · split
    · next e he =>
      have hok := (reserveSlot_isOk_with_content (Function.update c.content ref.hash
        (some ((c.content ref.hash).getD [])))).mpr hr
      rw [he] at hok
      cases hok
    · simp [Except.isOk, Except.toBool]

theorem storeBlock_accounting {ref : BlockRef} {expectedSize : ℕ} {src : List UInt8}
    {found : Option ℕ} (h : SlotAccounting c)
    (hs : c.storeBlock ref expectedSize src = .ok (found, c')) : SlotAccounting c' := by
  rcases storeBlock_ok hs with ⟨-, -, rfl⟩ | ⟨idx, kept, hle, -, -, hf, rfl⟩
  · exact h
  · have hg := growToFit_accounting h 1
    -- The slot comes from the free list, so no index vector mentions it yet.
    have hfresh : idx ∉ c.occupiedIdxs := by
      simpa using hg.partition.disjoint idx (by simp [hf])
    have hlen : ((c.growToFit 1).slots.modify idx fun s => s.write src expectedSize hle).length =
        (c.growToFit 1).slots.length := List.length_modify _ _ _
    have ho := (hg.occupy hf).with_slots hlen
    have hocc : ∀ i ∈ (c.content ref.hash).getD [] ++ [idx], i ∈ [idx] ++ c.occupiedIdxs := by
      intro i hi
      rcases List.mem_append.mp hi with hi | hi
      · exact List.mem_append.mpr (.inr (h.entry_occupied ref.hash i hi))
      · exact List.mem_append.mpr (.inl hi)
    have hnd : ((c.content ref.hash).getD [] ++ [idx]).Nodup := by
      apply (h.entry_nodup ref.hash).append (List.nodup_singleton idx)
      intro i hi hj
      rw [List.mem_singleton] at hj
      exact hfresh (h.entry_occupied ref.hash idx (hj ▸ hi))
    have hc := ho.with_content ref.hash (by simpa [occupy] using hocc) hnd
    simpa only [occupy, growToFit_content] using hc

end Storing

section Runs

/-- The call evicts nothing: `free_slots` finds only frozen slots to look at. -/
def NoEviction (c : ContentCache) : Op → Prop
  | .freeSlots count => TailFrozen c count
  | .ensureCapacity count =>
      count ≤ c.freeIdxs.length ∨ c.capacity = 0 ∨ TailFrozen c (count - c.freeIdxs.length)
  | _ => True

variable {c c' : ContentCache}

theorem ensureCapacity_accounting_iff (h : SlotAccounting c) (count : ℕ) :
    SlotAccounting (c.ensureCapacity count).2 ↔
      count ≤ c.freeIdxs.length ∨ c.capacity = 0 ∨ TailFrozen c (count - c.freeIdxs.length) := by
  unfold ensureCapacity
  split_ifs with hlt hcap
  · simp only [growToFit_accounting h, hcap, true_or, or_true]
  · rw [freeSlots_accounting_iff h]
    simp only [hcap, false_or, or_iff_right (Nat.not_le.mpr hlt)]
  · simp only [h, not_lt.mp hlt, true_or]

/-- Accounting survives a call exactly when the call evicts nothing. -/
theorem step_accounting_iff (hasher : List UInt8 → Hash) (h : SlotAccounting c) (op : Op) :
    NoEviction c op ↔ ∀ c', c.step hasher op = .ok c' → SlotAccounting c' := by
  have keeps : ∀ {x : Except Fault ContentCache}, (∀ c', x = .ok c' → SlotAccounting c') →
      (True ↔ ∀ c', x = .ok c' → SlotAccounting c') := fun hx => (iff_true_left trivial).mpr hx
  cases op with
  | growToFit count =>
    exact keeps fun c' hs => by
      simp only [step, Except.ok.injEq] at hs
      exact hs ▸ growToFit_accounting h count
  | freeSlots count => simp [NoEviction, step, freeSlots_accounting_iff h]
  | ensureCapacity count => simp [NoEviction, step, ensureCapacity_accounting_iff h]
  | reserveSlot =>
    exact keeps fun c' hs => by
      obtain ⟨idx, hr⟩ := map_snd_ok hs
      exact reserveSlot_accounting h hr
  | reserveSlots count =>
    exact keeps fun c' hs => by
      obtain ⟨idxs, hr⟩ := map_snd_ok hs
      exact reserveSlots_accounting h hr
  | promote idx => exact keeps fun c' hs => promote_accounting h hs
  | store src =>
    exact keeps fun c' hs => by
      obtain ⟨hash, hr⟩ := map_snd_ok hs
      exact store_accounting h hr
  | storeBlock ref expectedSize src =>
    exact keeps fun c' hs => by
      obtain ⟨found, hr⟩ := map_snd_ok hs
      exact storeBlock_accounting h hr
  | find ref =>
    exact keeps fun c' hs => by
      simp only [step, Except.ok.injEq] at hs
      exact hs ▸ h
  | frozen ref enable => exact keeps fun c' hs => freeze_accounting h hs
  | validateData m =>
    exact keeps fun c' hs => map_const_ok hs ▸ h
  | missingBlocks m =>
    exact keeps fun c' hs => map_const_ok hs ▸ h

/-- The accounting of a cache holds throughout a run exactly when no call evicts. -/
theorem accounting_always_iff (hasher : List UInt8 → Hash) (capacity : ℕ) (ops : List Op) :
    Always (step hasher) SlotAccounting (new capacity) ops ↔
      Each (step hasher) NoEviction (new capacity) ops :=
  always_iff_each (fun _ op h => step_accounting_iff hasher h op) (new_accounting capacity) ops

/-- One slot, filled by a block and then evicted: the slot is on neither list any more,
while the content map still has it. -/
theorem accounting_lost :
    ¬ Always (step fun _ => default) SlotAccounting (new 1024)
      [.storeBlock ⟨default, 0⟩ 1 [7], .ensureCapacity 1] := by
  rintro ⟨-, h⟩
  have h₁ := h _ rfl
  have h₂ := h₁.2 _ rfl
  have hc := h₂.partition.cover 0
  revert hc
  decide +kernel

end Runs

section Bounded

variable {c c' : ContentCache}

theorem nextPowerOfTwoFrom_pos (t fuel : ℕ) {pow : ℕ} (h : 0 < pow) :
    0 < nextPowerOfTwoFrom t fuel pow := by
  induction fuel generalizing pow with
  | zero => exact h
  | succ fuel ih =>
    simp only [nextPowerOfTwoFrom]
    split_ifs
    · exact ih (by omega)
    · exact h

theorem new_capacity_pos {capacity : ℕ} (h : 0 < capacity) : 0 < (new capacity).capacity := by
  simp only [new, Nat.pos_iff_ne_zero.mp h, if_false]
  exact nextPowerOfTwoFrom_pos capacity 64 one_pos

@[simp] theorem freeSlots_capacity (c : ContentCache) (count : ℕ) :
    (c.freeSlots count).capacity = c.capacity := by
  unfold freeSlots
  split_ifs <;> rfl

theorem ensureCapacity_capacity (c : ContentCache) (count : ℕ) :
    (c.ensureCapacity count).2.capacity = c.capacity := by
  unfold ensureCapacity
  split_ifs <;> simp

/-- No call changes the capacity. -/
theorem step_capacity {hasher : List UInt8 → Hash} {op : Op} (h : c.step hasher op = .ok c') :
    c'.capacity = c.capacity := by
  cases op with
  | growToFit count => simp only [step, Except.ok.injEq] at h; simp [← h]
  | freeSlots count => simp only [step, Except.ok.injEq] at h; simp [← h]
  | ensureCapacity count =>
    simp only [step, Except.ok.injEq] at h
    exact h ▸ ensureCapacity_capacity c count
  | reserveSlot =>
    obtain ⟨idx, hr⟩ := map_snd_ok h
    obtain ⟨kept, -, rfl⟩ := reserveSlot_ok hr
    exact growToFit_capacity c 1
  | reserveSlots count =>
    obtain ⟨idxs, hr⟩ := map_snd_ok h
    obtain ⟨kept, -, -, rfl⟩ := reserveSlots_ok hr
    exact growToFit_capacity c count
  | promote idx =>
    obtain ⟨idxs, -, rfl⟩ := promote_ok h
    rfl
  | store src =>
    obtain ⟨hash, hs⟩ := map_snd_ok h
    rcases store_ok hs with ⟨-, ⟨existing, -, -, rfl⟩ | ⟨-, kept, idxs, n, -, -, -, rfl⟩⟩
    · rfl
    · exact growToFit_capacity c n
  | storeBlock ref expectedSize src =>
    obtain ⟨found, hs⟩ := map_snd_ok h
    rcases storeBlock_ok hs with ⟨-, -, rfl⟩ | ⟨idx, kept, hle, -, -, -, rfl⟩
    · rfl
    · exact growToFit_capacity c 1
  | find ref => simp only [step, Except.ok.injEq] at h; rw [h]
  | frozen ref enable =>
    obtain rfl | ⟨idx, idxs, -, -, rfl⟩ := freeze_ok h <;> rfl
  | validateData m => rw [map_const_ok h]
  | missingBlocks m => rw [map_const_ok h]

/-- The slots that are free or can be freed. -/
def reclaimable (c : ContentCache) : ℕ :=
  c.freeIdxs.length + (c.occupiedIdxs.filter fun i => !(c.slot i).frozen).length

/-- What making room for `k` slots should come to: exactly the missing slots are taken
from the unfrozen ones nearest the tail, and whatever needs `k` slots goes through. -/
structure MakesRoom (c : ContentCache) (k : ℕ) : Prop where
  returns : (c.ensureCapacity k).1 = k
  evicted : (c.ensureCapacity k).2.occupiedIdxs =
    eraseLast (fun i => !(c.slot i).frozen) (k - c.freeIdxs.length) c.occupiedIdxs
  evicted_count : (c.ensureCapacity k).2.occupiedIdxs.length + (k - c.freeIdxs.length) =
    c.occupiedIdxs.length
  reserves : (c.reserveSlots k).isOk
  reserves_one : k = 1 → c.reserveSlot.isOk
  stores : ∀ hasher src, blockCount src.length = k → c.content (hasher src) = none →
    (c.store hasher src).isOk
  stores_block : k = 1 → ∀ ref expectedSize src, src.length ≤ blockSize →
    (c.storeBlock ref expectedSize src).isOk

theorem makesRoom_iff (hcap : 0 < c.capacity) (k : ℕ) :
    MakesRoom c k ↔ k ≤ c.freeIdxs.length := by
  have hfst := ensureCapacity_fst_iff c k
  constructor
  · intro h
    have hk := hfst.mp h.returns
    omega
  · intro hk
    have hsame : c.ensureCapacity k = (k, c) := by
      simp only [ensureCapacity, Nat.not_lt.mpr hk, if_false, min_eq_left hk]
    have hreserves : (c.reserveSlots k).isOk := reserveSlots_isOk_iff.mpr (.inl hk)
    refine ⟨hfst.mpr (.inl hk), ?_, ?_, hreserves, ?_, ?_, ?_⟩
    · simp [hsame, Nat.sub_eq_zero_of_le hk]
    · simp [hsame, Nat.sub_eq_zero_of_le hk]
    · rintro rfl
      exact reserveSlot_isOk_iff.mpr (.inl hk)
    · intro hasher src hn hnew
      exact store_isOk hnew (hn ▸ hreserves)
    · rintro rfl ref expectedSize src hle
      exact storeBlock_isOk hle (reserveSlot_isOk_iff.mpr (.inl hk))

/-- A bounded cache makes room exactly where no room has to be made: in a reachable
state every promise about `k` reclaimable slots holds if they are all free, or there
are fewer than `k`. -/
theorem bounded_eviction_iff {capacity : ℕ} (hcap : 0 < capacity) (hasher : List UInt8 → Hash)
    {ops : List Op} (hrun : run (step hasher) (new capacity) ops = .ok c) (k : ℕ) :
    (k ≤ c.reclaimable → MakesRoom c k) ↔ k ≤ c.freeIdxs.length ∨ c.reclaimable < k := by
  have hpos : 0 < c.capacity :=
    run_invariant (fun c => 0 < c.capacity)
      (fun _ _ _ h hs => (step_capacity hs).symm ▸ h) (new_capacity_pos hcap) hrun
  rw [makesRoom_iff hpos, or_comm, ← Nat.not_le]
  exact Decidable.imp_iff_not_or

theorem bounded_eviction_one_free :
    ∃ c, run (step fun _ => default) (new 2048) [.storeBlock ⟨default, 0⟩ 1 [7]] = .ok c ∧
      ((1 ≤ c.reclaimable → MakesRoom c 1) ↔ 1 ≤ c.freeIdxs.length ∨ c.reclaimable < 1) := by
  have hpos : 0 < 2048 := by decide
  have hrun : ∃ c, run (step fun _ => default) (new 2048) [.storeBlock ⟨default, 0⟩ 1 [7]] = .ok c :=
    ⟨_, rfl⟩
  obtain ⟨c, hc⟩ := hrun
  exact ⟨c, hc, bounded_eviction_iff hpos (fun _ => default) hc 1⟩

/-- The single slot holds an unfrozen block, and still no room can be made. -/
theorem bounded_eviction_fails :
    ∃ c, run (step fun _ => default) (new 1024) [.storeBlock ⟨default, 0⟩ 1 [7]] = .ok c ∧
      1 ≤ c.reclaimable ∧ ¬ MakesRoom c 1 := by
  refine ⟨_, rfl, by decide +kernel, fun h => ?_⟩
  have hr := h.returns
  revert hr
  decide +kernel

end Bounded

end YingSma.ContentCache
