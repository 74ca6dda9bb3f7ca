import YingSma.ContentCacheBlocks

/-! The two caches of a node over the calls that go through. A bounded cache never gives
up a block, since a call that would have to make room fails. -/
namespace YingSma.ContentCache
open SlotPool

/-- A bounded cache of `n` slots, in which every known hash has its first block. -/
structure Bounded (n : ℕ) (c : ContentCache) : Prop extends Clean c where
  bounded : c.capacity ≠ 0
  length_slots : c.slots.length = n
  first_block : ∀ hash idxs, c.content hash = some idxs → (c.blockAt ⟨hash, 0⟩).isSome

/-- A cache filled with blocks of their own only, which all sit under index 0. -/
structure FirstOnly (c : ContentCache) : Prop extends Clean c where
  index_zero : ∀ ref, (c.blockAt ref).isSome → ref.index = 0

/-- What is found in `c` is found in `c'` too. -/
def Retains (c c' : ContentCache) : Prop :=
  ∀ ref bytes, c.blockAt ref = some bytes → c'.blockAt ref = some bytes

theorem Retains.refl (c : ContentCache) : Retains c c := fun _ _ h => h

theorem Retains.trans {a b c : ContentCache} (hab : Retains a b) (hbc : Retains b c) :
    Retains a c :=
  fun ref bytes h => hbc ref bytes (hab ref bytes h)

theorem Retains.of_held {c c' : ContentCache} (h : c'.held = c.held) : Retains c c' := by
  intro ref bytes hb
  rwa [blockAt_eq_lookup, h, ← blockAt_eq_lookup]

section Counting

variable {c : ContentCache} {n : ℕ}

theorem length_le_of_lt {idxs : List ℕ} (hnd : idxs.Nodup) (hlt : ∀ i ∈ idxs, i < n) :
    idxs.length ≤ n := by
  have hsub : idxs ⊆ List.range n := fun i hi => List.mem_range.mpr (hlt i hi)
  have hh := (hnd.subperm hsub).length_le
  rwa [List.length_range] at hh

theorem Bounded.free_le (h : Bounded n c) : c.freeIdxs.length ≤ n := by
  apply length_le_of_lt h.partition.free_nodup
  intro i hi
  exact h.length_slots ▸ h.partition.lt_of_free hi

theorem Bounded.entry_le (h : Bounded n c) {hash : Hash} {idxs : List ℕ}
    (he : c.content hash = some idxs) : idxs.length ≤ n := by
  apply length_le_of_lt (h.content_nodup hash idxs he)
  intro i hi
  exact h.length_slots ▸ h.partition.lt_of_occupied (h.content_occupied hash idxs he i hi)

theorem growToFit_of_le {count : ℕ} (h : count ≤ c.freeIdxs.length) : c.growToFit count = c := by
  simp [growToFit, h]

end Counting

section Steps

variable {c c' : ContentCache} {n : ℕ}

/-- A new content goes into a bounded cache only where enough slots are free. -/
theorem store_room (hcap : c.capacity ≠ 0) {hasher : List UInt8 → Hash} {src : List UInt8}
    {hash : Hash} (hs : c.store hasher src = .ok (hash, c')) (hnew : c.content hash = none) :
    blockCount src.length ≤ c.freeIdxs.length := by
  have hhash : hash = hasher src := (store_ok hs).1
  unfold store at hs
  simp only [← hhash, hnew] at hs
  cases hr : c.reserveSlots (blockCount src.length) with
  | error e => simp only [hr, reduceCtorEq] at hs
  | ok taken =>
    have hok : (c.reserveSlots (blockCount src.length)).isOk := by
      rw [hr]
      rfl
    exact (reserveSlots_isOk_iff.mp hok).resolve_right hcap

theorem storeBlock_room (hcap : c.capacity ≠ 0) {ref : BlockRef} {expectedSize idx : ℕ}
    {src : List UInt8} (hs : c.storeBlock ref expectedSize src = .ok (some idx, c')) :
    1 ≤ c.freeIdxs.length := by
  unfold storeBlock at hs
  dsimp only at hs
  split at hs
  · simp only [Except.ok.injEq, Prod.mk.injEq, reduceCtorEq, false_and] at hs
  · split at hs
    · cases hs
    · next taken c₁ hr =>
      have hok : c.reserveSlot.isOk := by
        rw [← reserveSlot_isOk_with_content
          (Function.update c.content ref.hash (some ((c.content ref.hash).getD []))), hr]
        rfl
      exact (reserveSlot_isOk_iff.mp hok).resolve_right hcap

theorem storeBlock_retains (h : Clean c) {ref : BlockRef} {expectedSize : ℕ} {src : List UInt8}
    {found : Option ℕ} (hs : c.storeBlock ref expectedSize src = .ok (found, c')) :
    Retains c c' := by
  cases found with
  | none =>
    rcases storeBlock_ok hs with ⟨-, -, rfl⟩ | ⟨idx, kept, hle, he, -⟩
    · exact Retains.refl c'
    · cases he
  | some idx =>
    intro ref' bytes hb
    rw [storeBlock_blockAt h hs ref', hb]
    simp

theorem store_retains (h : Clean c) {hasher : List UInt8 → Hash} {src : List UInt8} {hash : Hash}
    (hs : c.store hasher src = .ok (hash, c')) : Retains c c' := by
  rcases store_ok hs with ⟨-, ⟨existing, -, -, rfl⟩ | ⟨hnew, -⟩⟩
  · exact Retains.refl c'
  · intro ref bytes hb
    have hne : ref.hash ≠ hash := by
      intro hh
      rw [blockAt_eq_lookup, hh, held, hnew] at hb
      cases hb
    rwa [blockAt_eq_lookup, store_held_other h hs hne, ← blockAt_eq_lookup]

/-- The blocks of a new content, as they are found. -/
theorem store_blockAt (h : Clean c) {hasher : List UInt8 → Hash} {src : List UInt8} {hash : Hash}
    (hs : c.store hasher src = .ok (hash, c')) (hnew : c.content hash = none) (hsrc : src ≠ [])
    (hcount : blockCount src.length ≤ 65536) {k : ℕ} (hk : k < blockCount src.length) :
    c'.blockAt ⟨hash, UInt16.ofNat k⟩ = some (chunk src k) := by
  rw [blockAt_eq_lookup, store_held_new h hs hnew hsrc hcount, List.lookup_eq_some_iff]
  obtain ⟨m, hm⟩ : ∃ m, blockCount src.length = k + (m + 1) := ⟨blockCount src.length - k - 1, by omega⟩
  have hsplit : List.range (blockCount src.length) =
      List.range k ++ k :: (List.range m).map fun j => k + (j + 1) := by
    rw [hm, List.range_add, List.range_succ_eq_map, List.map_cons, List.map_map]
    rfl
  refine ⟨(List.range k).map fun j => (UInt16.ofNat j, chunk src j),
    ((List.range m).map fun j => k + (j + 1)).map fun j => (UInt16.ofNat j, chunk src j), ?_, ?_⟩
  · rw [hsplit, List.map_append, List.map_cons]
  · intro pair hp
    obtain ⟨j, hj, rfl⟩ := List.mem_map.mp hp
    have hlt := List.mem_range.mp hj
    rw [bne_iff_ne]
    intro he
    have hmod := congrArg UInt16.toNat he
    rw [UInt16.toNat_ofNat', UInt16.toNat_ofNat', Nat.mod_eq_of_lt (by omega),
      Nat.mod_eq_of_lt (by omega)] at hmod
    omega

theorem new_bounded {capacity : ℕ} (h : 0 < capacity) :
    Bounded (capacity / blockSize) (new capacity) where
  toClean := new_clean capacity
  bounded := (new_capacity_pos h).ne'
  length_slots := List.length_replicate
  first_block := by simp [new]

theorem Bounded.storeBlock (h : Bounded n c) {ref : BlockRef} {expectedSize : ℕ}
    {src : List UInt8} {found : Option ℕ}
    (hs : c.storeBlock ref expectedSize src = .ok (found, c')) : Bounded n c' := by
  have hretains := storeBlock_retains h.toClean hs
  have hclean := storeBlock_clean h.toClean hs
  cases found with
  | none =>
    rcases storeBlock_ok hs with ⟨-, -, rfl⟩ | ⟨idx, kept, hle, he, -⟩
    · exact h
    · cases he
  | some idx =>
    have hroom := growToFit_of_le (storeBlock_room h.bounded hs)
    have hat := storeBlock_blockAt h.toClean hs
    rcases storeBlock_ok hs with ⟨he, -⟩ | ⟨idx, kept, hle, -, -, -, hc'⟩
    · cases he
    · rw [hroom] at hc'
      refine ⟨hclean, ?_, ?_, ?_⟩
      · rw [hc']
        exact h.bounded
      · rw [hc']
        exact (List.length_modify _ _ _).trans h.length_slots
      · intro hash idxs hidxs
        by_cases hh : hash = ref.hash
        · subst hh
          rw [hat, if_pos rfl, if_pos rfl]
          cases c.blockAt ⟨ref.hash, 0⟩ <;> rfl
        · rw [hat, if_neg hh]
          rw [hc'] at hidxs
          simp only [Function.update_of_ne hh] at hidxs
          exact h.first_block hash idxs hidxs

theorem Bounded.store (h : Bounded n c) (hn : n ≤ 65536) {hasher : List UInt8 → Hash}
    {src : List UInt8} {hash : Hash} (hsrc : src ≠ [])
    (hs : c.store hasher src = .ok (hash, c')) : Bounded n c' := by
  have hclean := store_clean h.toClean hs
  have hother : ∀ hash' ≠ hash, c'.held hash' = c.held hash' :=
    fun _ hne => store_held_other h.toClean hs hne
  rcases store_ok hs with ⟨-, ⟨existing, -, -, rfl⟩ | ⟨hnew, kept, idxs, m, hm, -, -, hc'⟩⟩
  · exact h
  · have hroom := store_room h.bounded hs hnew
    rw [hm, growToFit_of_le hroom] at hc'
    refine ⟨hclean, ?_, ?_, ?_⟩
    · rw [hc']
      exact h.bounded
    · rw [hc']
      exact (copyBlocks_length _ _ _ _ _).trans h.length_slots
    · intro hash' idxs' hidxs
      by_cases hh : hash' = hash
      · subst hh
        have hcount := hroom.trans (h.free_le.trans hn)
        have hpos : 0 < blockCount src.length := Nat.lt_of_lt_of_le one_pos (Nat.le_add_right 1 _)
        rw [show (0 : BlockIndex) = UInt16.ofNat 0 from rfl,
          store_blockAt h.toClean hs hnew hsrc hcount hpos]
        rfl
      · rw [blockAt_eq_lookup, hother hash' hh, ← blockAt_eq_lookup]
        rw [hc'] at hidxs
        simp only [Function.update_of_ne hh] at hidxs
        exact h.first_block hash' idxs' hidxs

theorem Bounded.freeze (h : Bounded n c) {ref : BlockRef} {enable : Bool}
    (hf : c.freeze ref enable = .ok c') : Bounded n c' := by
  have hheld := freeze_held hf
  have hclean := freeze_clean h.toClean hf
  rcases freeze_ok hf with rfl | ⟨idx, idxs, -, -, rfl⟩
  · exact h
  · refine ⟨hclean, h.bounded, (List.length_modify _ _ _).trans h.length_slots, ?_⟩
    intro hash idxs' hidxs
    rw [blockAt_eq_lookup, hheld, ← blockAt_eq_lookup]
    exact h.first_block hash idxs' hidxs

theorem new_firstOnly (capacity : ℕ) : FirstOnly (new capacity) where
  toClean := new_clean capacity
  index_zero := by simp [blockAt, find, new]

theorem FirstOnly.storeBlock (h : FirstOnly c) {ref : BlockRef} {expectedSize : ℕ}
    {src : List UInt8} {found : Option ℕ}
    (hs : c.storeBlock ref expectedSize src = .ok (found, c')) : FirstOnly c' := by
  refine ⟨storeBlock_clean h.toClean hs, fun ref' hb => ?_⟩
  cases found with
  | none =>
    rcases storeBlock_ok hs with ⟨-, -, rfl⟩ | ⟨idx, kept, hle, he, -⟩
    · exact h.index_zero ref' hb
    · cases he
  | some idx =>
    rw [storeBlock_blockAt h.toClean hs] at hb
    by_contra hindex
    have hold : c.blockAt ref' = none := by
      rw [← Option.not_isSome_iff_eq_none]
      exact fun hold => hindex (h.index_zero ref' hold)
    simp [hold, hindex] at hb

end Steps

end YingSma.ContentCache
