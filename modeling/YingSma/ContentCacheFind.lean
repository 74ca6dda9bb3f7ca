import YingSma.ContentCacheBlocks

/-! What `find` returns over runs of an unbounded cache. A block stored on its own
keeps the blank slot's index 0, so that only first blocks are found again. -/
namespace YingSma.ContentCache
open SlotPool TransitionRuns

/-- One of the calls made so far has stored `bytes` under `ref`: as a block of its own,
or as block `k` of a content, whose index has 16 bits. -/
def StoredUnder (hasher : List UInt8 → Hash) (past : List Op) (ref : BlockRef)
    (bytes : List UInt8) : Prop :=
  (∃ expectedSize, .storeBlock ref expectedSize bytes ∈ past) ∨
    ∃ src k, .store src ∈ past ∧ hasher src = ref.hash ∧ ref.index = UInt16.ofNat k ∧
      (k * blockSize < src.length ∨ k = 0) ∧ bytes = chunk src k

theorem StoredUnder.later {hasher : List UInt8 → Hash} {past : List Op} {ref : BlockRef}
    {bytes : List UInt8} (h : StoredUnder hasher past ref bytes) (op : Op) :
    StoredUnder hasher (past ++ [op]) ref bytes := by
  rcases h with ⟨expectedSize, hp⟩ | ⟨src, k, hp, hk⟩
  · exact .inl ⟨expectedSize, List.mem_append.mpr (.inl hp)⟩
  · exact .inr ⟨src, k, List.mem_append.mpr (.inl hp), hk⟩

/-- A stored block is found with its bytes and changes no other block, it is refused only
when its reference is held already, and no block is found under a foreign reference. -/
def FindExact (hasher : List UInt8 → Hash) : List Op × ContentCache → Op → Prop
  | (past, c), .storeBlock ref expectedSize src =>
      match c.storeBlock ref expectedSize src with
      | .ok (some _, c') => c'.blockAt ref = some src ∧
          ∀ ref', ref' ≠ ref → c'.blockAt ref' = c.blockAt ref'
      | .ok (none, _) => ∃ bytes, StoredUnder hasher past ref bytes
      | .error _ => blockSize < src.length
  | (past, c), .find ref =>
      ∀ bytes, c.blockAt ref = some bytes → StoredUnder hasher past ref bytes
  | _, _ => True

/-- The call stores a block of its own at index 0 only, unless it is refused or the block
does not fit a slot. -/
def StoresFirstBlock (c : ContentCache) : Op → Prop
  | .storeBlock ref _ src => blockSize < src.length ∨ ref.index = 0 ∨ (c.find ref).isSome
  | _ => True

/-- What holds of an unbounded cache as long as only first blocks are stored. -/
structure Sound (hasher : List UInt8 → Hash) (past : List Op) (c : ContentCache) : Prop where
  unbounded : c.capacity = 0
  clean : Clean c
  stored : ∀ ref bytes, c.blockAt ref = some bytes → StoredUnder hasher past ref bytes

section Steps

variable {hasher : List UInt8 → Hash} {past : List Op} {c c' : ContentCache} {op : Op}

theorem Sound.of_held (h : Sound hasher past c) (hcap : c'.capacity = c.capacity)
    (hclean : Clean c') (hheld : c'.held = c.held) : Sound hasher (past ++ [op]) c' where
  unbounded := hcap.trans h.unbounded
  clean := hclean
  stored := by
    intro ref bytes hb
    rw [blockAt_eq_lookup, hheld, ← blockAt_eq_lookup] at hb
    exact (h.stored ref bytes hb).later op

theorem noEviction_of_unbounded (hcap : c.capacity = 0) (hop : ∀ count, op ≠ .freeSlots count) :
    NoEviction c op := by
  cases op with
  | freeSlots count => exact (hop count rfl).elim
  | ensureCapacity count => exact .inr (.inl hcap)
  | _ => trivial

/-- A store that goes through is exact just for the index 0 of a blank slot. -/
theorem storeBlock_exact_iff (h : Clean c) {ref : BlockRef} {expectedSize idx : ℕ}
    {src : List UInt8} (hs : c.storeBlock ref expectedSize src = .ok (some idx, c')) :
    (c'.blockAt ref = some src ∧ ∀ ref', ref' ≠ ref → c'.blockAt ref' = c.blockAt ref') ↔
      ref.index = 0 := by
  have hat := storeBlock_blockAt h hs
  have hnone : c.blockAt ref = none := by
    rcases storeBlock_ok hs with ⟨he, -⟩ | ⟨-, -, -, -, hnone, -⟩
    · cases he
    · exact (find_eq_none_iff c ref).mp hnone
  constructor
  · rintro ⟨hb, -⟩
    rw [hat ref, if_pos rfl, hnone, Option.none_or] at hb
    by_contra hindex
    simp [hindex] at hb
  · intro hindex
    refine ⟨by simp [hat ref, hnone, hindex], fun ref' hne => ?_⟩
    rw [hat ref']
    by_cases hh : ref'.hash = ref.hash
    · have hi : ref'.index ≠ 0 := fun hi => hne (BlockRef.ext hh (hi.trans hindex.symm))
      rw [if_pos hh, if_neg hi, Option.or_none]
    · rw [if_neg hh]

theorem storesFirstBlock_iff {ref : BlockRef} {expectedSize idx : ℕ} {src : List UInt8}
    (hs : c.storeBlock ref expectedSize src = .ok (some idx, c')) :
    StoresFirstBlock c (.storeBlock ref expectedSize src) ↔ ref.index = 0 := by
  rcases storeBlock_ok hs with ⟨he, -⟩ | ⟨-, -, hle, -, hnone, -⟩
  · cases he
  · simp [StoresFirstBlock, hnone, Nat.not_lt.mpr hle]

theorem storeBlock_sound (h : Sound hasher past c) {ref : BlockRef} {expectedSize : ℕ}
    {src : List UInt8} {found : Option ℕ}
    (hfirst : StoresFirstBlock c (.storeBlock ref expectedSize src))
    (hs : c.storeBlock ref expectedSize src = .ok (found, c')) {ref' : BlockRef}
    {bytes : List UInt8} (hb : c'.blockAt ref' = some bytes) :
    StoredUnder hasher (past ++ [.storeBlock ref expectedSize src]) ref' bytes := by
  cases found with
  | none =>
    rcases storeBlock_ok hs with ⟨-, -, rfl⟩ | ⟨idx, kept, hle, he, -⟩
    · exact (h.stored ref' bytes hb).later _
    · cases he
  | some idx =>
    rw [storeBlock_blockAt h.clean hs] at hb
    cases hold : c.blockAt ref' with
    | some old =>
      simp only [hold, Option.some_or, ite_self, Option.some.injEq] at hb
      exact hb ▸ (h.stored ref' old hold).later _
    | none =>
      simp only [hold, Option.none_or] at hb
      split_ifs at hb with hh hi
      simp only [Option.some.injEq] at hb
      subst hb
      have hindex : ref.index = 0 := (storesFirstBlock_iff hs).mp hfirst
      have href : ref' = ref := BlockRef.ext hh (hi.trans hindex.symm)
      exact .inl ⟨expectedSize, by simp [href]⟩

theorem store_sound (h : Sound hasher past c) {src : List UInt8} {hash : Hash}
    (hs : c.store hasher src = .ok (hash, c')) {ref : BlockRef} {bytes : List UInt8}
    (hb : c'.blockAt ref = some bytes) : StoredUnder hasher (past ++ [.store src]) ref bytes := by
  rcases store_ok hs with ⟨hhash, ⟨existing, -, -, rfl⟩ | ⟨hnew, -⟩⟩
  · exact (h.stored ref bytes hb).later _
  · rw [blockAt_eq_lookup] at hb
    by_cases hh : ref.hash = hash
    · rw [hh] at hb
      obtain ⟨k, hk, hindex, hbytes⟩ := store_lookup_sound h.clean hs hnew hb
      exact .inr ⟨src, k, by simp, hhash ▸ hh.symm, hindex, hk, hbytes⟩
    · rw [store_held_other h.clean hs hh, ← blockAt_eq_lookup] at hb
      exact (h.stored ref bytes hb).later _

theorem step_sound (h : Sound hasher past c) (hop : ∀ count, op ≠ .freeSlots count)
    (hfirst : StoresFirstBlock c op) (hs : c.step hasher op = .ok c') :
    Sound hasher (past ++ [op]) c' := by
  have hno := noEviction_of_unbounded h.unbounded hop
  have hcap := step_capacity hs
  have hclean := step_clean h.clean hno hs
  by_cases hstore : ∃ src, op = .store src
  · obtain ⟨src, rfl⟩ := hstore
    obtain ⟨hash, hr⟩ := map_snd_ok hs
    exact ⟨hcap.trans h.unbounded, hclean, fun ref bytes hb => store_sound h hr hb⟩
  · by_cases hblock : ∃ ref expectedSize src, op = .storeBlock ref expectedSize src
    · obtain ⟨ref, expectedSize, src, rfl⟩ := hblock
      obtain ⟨found, hr⟩ := map_snd_ok hs
      exact ⟨hcap.trans h.unbounded, hclean, fun ref' bytes hb => storeBlock_sound h hfirst hr hb⟩
    · simp only [not_exists] at hstore hblock
      exact h.of_held hcap hclean (step_held hno hstore hblock hs)

/-- With nothing but first blocks stored so far, a call behaves exactly as it should
when it stores a first block again, and only then. -/
theorem findExact_iff (h : Sound hasher past c) :
    FindExact hasher (past, c) op ↔ StoresFirstBlock c op := by
  cases op with
  | storeBlock ref expectedSize src =>
    cases hs : c.storeBlock ref expectedSize src with
    | error e =>
      have hlong : blockSize < src.length := by
        by_contra hle
        have hok : (c.storeBlock ref expectedSize src).isOk :=
          storeBlock_isOk (not_lt.mp hle) (reserveSlot_isOk_iff.mpr (.inr h.unbounded))
        rw [hs] at hok
        cases hok
      simp only [FindExact, hs, StoresFirstBlock, hlong, true_or]
    | ok r =>
      obtain ⟨found, c'⟩ := r
      cases found with
      | none =>
        rcases storeBlock_ok hs with ⟨-, hfound, -⟩ | ⟨idx, kept, hle, he, -⟩
        · obtain ⟨bytes, hb⟩ := (find_isSome_iff c ref).mp hfound
          refine iff_of_true ?_ (.inr (.inr hfound))
          simp only [FindExact, hs]
          exact ⟨bytes, h.stored ref bytes hb⟩
        · cases he
      | some idx =>
        simp only [FindExact, hs]
        rw [storesFirstBlock_iff hs, storeBlock_exact_iff h.clean hs]
  | find ref => exact iff_of_true (h.stored ref) trivial
  | _ => exact Iff.rfl

end Steps

theorem new_sound (hasher : List UInt8 → Hash) : Sound hasher [] (new 0) where
  unbounded := rfl
  clean := new_clean 0
  stored := by simp [blockAt, find, new]

/-- Over every run of an unbounded cache, which never frees slots: each call does what
it should exactly when only first blocks are stored on their own. -/
theorem find_exact_iff (hasher : List UInt8 → Hash) {ops : List Op}
    (hops : ∀ op ∈ ops, ∀ count, op ≠ .freeSlots count) :
    Each (recorded (step hasher)) (FindExact hasher) ([], new 0) ops ↔
      Each (step hasher) StoresFirstBlock (new 0) ops := by
  refine Iff.trans ?_ (each_recorded [] (new 0) ops)
  refine each_congr (fun s : List Op × ContentCache => Sound hasher s.1 s.2) ?_ ?_ ?_
  · rintro ⟨past, c⟩ op hmem ⟨past', c'⟩ h hfirst hs
    obtain ⟨hs, rfl⟩ := recorded_ok hs
    exact step_sound h (hops op hmem) hfirst hs
  · rintro ⟨past, c⟩ op - h
    exact findExact_iff h
  · exact new_sound hasher

theorem find_exact_first_block :
    Each (recorded (step fun _ => default)) (FindExact fun _ => default) ([], new 0)
        [.storeBlock ⟨default, 0⟩ 1 [7], .find ⟨default, 0⟩] ↔
      Each (step fun _ => default) StoresFirstBlock (new 0)
        [.storeBlock ⟨default, 0⟩ 1 [7], .find ⟨default, 0⟩] :=
  find_exact_iff (fun _ => default) (by simp)

/-- Block 1 of a hash, stored on its own, is not found again; its bytes are found under
index 0 instead. -/
theorem find_foreign_bytes :
    ∃ c, (new 0).storeBlock ⟨default, 1⟩ 1 [7] = .ok (some 0, c) ∧
      c.blockAt ⟨default, 1⟩ = none ∧ c.blockAt ⟨default, 0⟩ = some [7] ∧
      ¬ Each (recorded (step fun _ => default)) (FindExact fun _ => default) ([], new 0)
        [.storeBlock ⟨default, 1⟩ 1 [7]] := by
  refine ⟨_, rfl, by decide +kernel, by decide +kernel, ?_⟩
  rintro ⟨h, -⟩
  have hb : (_ : Option (List UInt8)) = some [7] := h.1
  revert hb
  decide +kernel

end YingSma.ContentCache
