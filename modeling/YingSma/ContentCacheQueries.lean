import Mathlib.Data.List.Range
import Mathlib.Data.List.Perm.Subperm
import YingSma.ContentCacheBlocks

/-! What a cache answers about the blocks of a content: `missing_blocks` marks the index of every
slot, `validate_data` counts the slots and adds up their sizes. -/
namespace YingSma.ContentCache
open TransitionRuns

/-- The slots of the hash, in the order they were entered. -/
def slotIdxs (c : ContentCache) (hash : Hash) : List ℕ := (c.content hash).getD []

/-- `missing_blocks` does not skip the slot. -/
def full (c : ContentCache) (idx : ℕ) : Bool := (c.slot idx).expectedSize ≤ (c.slot idx).size

/-- The index of the block in the slot. -/
def indexAt (c : ContentCache) (idx : ℕ) : ℕ := (c.slot idx).blockIndex.toNat

/-- The indices below `n` whose block is not found, or not complete. -/
def absent (c : ContentCache) (hash : Hash) (n : ℕ) : List ℕ :=
  (List.range n).filter fun i => !((c.find ⟨hash, UInt16.ofNat i⟩).any c.complete)

/-- Both queries answer by the blocks that are absent, `n` being the block count: the marks stay
inside the vector and are counted off without going below zero, and nothing is aborted. -/
structure QueriesAgree (c : ContentCache) (m : ContentMetadata) (n : ℕ) : Prop where
  marks : ∃ missing blockCount,
    c.markPresent (c.slotIdxs m.hash) (List.replicate n true) (UInt64.ofNat n) =
      .ok (missing, blockCount) ∧ blockCount.toNat + (c.slotIdxs m.hash).countP c.full = n
  missing : ∃ idxs, c.missingBlocks m = .ok idxs ∧ idxs.map UInt16.toNat = c.absent m.hash n
  validates : ∃ valid, c.validateData m = .ok valid ∧ (valid ↔ c.missingBlocks m = .ok [])

/-- The slots of the hash are such as the metadata describe them. -/
structure Described (c : ContentCache) (m : ContentMetadata) (n : ℕ) : Prop where
  count_le : n ≤ 65536
  inside : ∀ idx ∈ c.slotIdxs m.hash, c.full idx → c.indexAt idx < n
  few : (c.slotIdxs m.hash).countP c.full ≤ n
  first : ∀ idx ∈ c.slotIdxs m.hash, c.full idx →
    (c.find ⟨m.hash, (c.slot idx).blockIndex⟩).any c.complete
  known : n = 0 → (c.content m.hash).isSome
  exact : (c.content m.hash).isSome → (c.slotIdxs m.hash).length = n →
    (∀ idx ∈ c.slotIdxs m.hash, c.full idx) ∧ ((c.slotIdxs m.hash).map c.indexAt).Nodup ∧
      ((c.slotIdxs m.hash).map fun idx => (c.slot idx).size).sum = m.size.toNat
  surplus : n < (c.slotIdxs m.hash).length →
    ∃ i < n, ∀ idx ∈ c.slotIdxs m.hash, c.full idx → c.indexAt idx ≠ i

section Marks

variable {c : ContentCache}

theorem set_false_getD (missing : List Bool) (k i : ℕ) :
    (missing.set k false).getD i false ↔ missing.getD i false ∧ k ≠ i := by
  simp only [List.getD_eq_getElem?_getD, List.getElem?_set]
  by_cases hki : k = i
  · subst hki
    by_cases hlt : k < missing.length <;> simp [hlt]
  · simp [hki]

/-- The loop marks the indices of the slots it does not skip, and counts as many. -/
theorem markPresent_ok {idxs : List ℕ} {missing : List Bool} (count : UInt64)
    (hinside : ∀ idx ∈ idxs, c.full idx → c.indexAt idx < missing.length) :
    ∃ missing', c.markPresent idxs missing count =
        .ok (missing', count - UInt64.ofNat (idxs.countP c.full)) ∧
      missing'.length = missing.length ∧
      ∀ i, missing'.getD i false ↔
        missing.getD i false ∧ ∀ idx ∈ idxs, c.full idx → c.indexAt idx ≠ i := by
  induction idxs generalizing missing count with
  | nil => exact ⟨missing, by simp [markPresent], rfl, by simp⟩
  | cons idx idxs ih =>
    rw [List.forall_mem_cons] at hinside
    simp only [List.forall_mem_cons]
    by_cases hfull : c.full idx
    · have hnot : ¬ (c.slot idx).size < (c.slot idx).expectedSize :=
        not_lt.mpr (by simpa [full] using hfull)
      have hlt : (c.slot idx).blockIndex.toNat < missing.length := hinside.1 hfull
      obtain ⟨missing', hok, hlength, hget⟩ :=
        @ih (missing.set (c.slot idx).blockIndex.toNat false) (count - 1)
          (by simpa using hinside.2)
      refine ⟨missing', ?_, ?_, ?_⟩
      · have hcount : count - 1 - UInt64.ofNat (idxs.countP c.full) =
            count - UInt64.ofNat (idxs.countP c.full + 1) := by
          rw [UInt64.ofNat_add]
          grind
        rw [markPresent, if_neg hnot, if_pos hlt, hok, List.countP_cons_of_pos hfull, hcount]
      · rw [hlength, List.length_set]
      · intro i
        rw [hget, set_false_getD, and_assoc, forall_prop_of_true hfull]
        rfl
    · have hlt : (c.slot idx).size < (c.slot idx).expectedSize := by simpa [full] using hfull
      obtain ⟨missing', hok, hlength, hget⟩ := ih count hinside.2
      refine ⟨missing', ?_, hlength, ?_⟩
      · rw [markPresent, if_pos hlt, hok, List.countP_cons_of_neg hfull]
      · intro i
        rw [hget, and_iff_right fun h => absurd h hfull]

/-- A loop that returns has stayed inside the vector. -/
theorem markPresent_inside {idxs : List ℕ} {missing : List Bool} {count : UInt64}
    {out : List Bool × UInt64} (hok : c.markPresent idxs missing count = .ok out) :
    ∀ idx ∈ idxs, c.full idx → c.indexAt idx < missing.length := by
  induction idxs generalizing missing count with
  | nil => simp
  | cons idx idxs ih =>
    rw [markPresent] at hok
    split_ifs at hok with hshort hlt
    · refine List.forall_mem_cons.mpr ⟨fun hfull => ?_, ih hok⟩
      exact absurd hshort (not_lt.mpr (by simpa [full] using hfull))
    · refine List.forall_mem_cons.mpr ⟨fun _ => hlt, fun i hi hfull => ?_⟩
      have hrest := ih hok i hi hfull
      rwa [List.length_set] at hrest

end Marks

section Answers

variable {c : ContentCache} {m : ContentMetadata} {n : ℕ}

/-- The indices below `n` that no slot marks. -/
def unmarked (c : ContentCache) (hash : Hash) (n : ℕ) : List ℕ :=
  (List.range n).filter fun i => ∀ idx ∈ c.slotIdxs hash, c.full idx → c.indexAt idx ≠ i

theorem mem_unmarked {hash : Hash} {i : ℕ} : i ∈ c.unmarked hash n ↔
    i < n ∧ ∀ idx ∈ c.slotIdxs hash, c.full idx → c.indexAt idx ≠ i := by
  simp [unmarked]

theorem mem_absent {hash : Hash} {i : ℕ} : i ∈ c.absent hash n ↔
    i < n ∧ ¬ (c.find ⟨hash, UInt16.ofNat i⟩).any c.complete := by
  simp [absent]

theorem blockCount_lt (hcount : m.blockCount = .ok n) : n < 2 ^ 32 := by
  unfold ContentMetadata.blockCount at hcount
  split_ifs at hcount
  obtain rfl := Except.ok.inj hcount
  exact UInt32.toNat_lt _

/-- The counter goes down by one for each mark. -/
theorem counter_toNat {k : ℕ} (hn : n < 2 ^ 32) (hk : k ≤ n) :
    (UInt64.ofNat n - UInt64.ofNat k).toNat = n - k := by
  rw [← UInt64.ofNat_sub hk, UInt64.toNat_ofNat', Nat.mod_eq_of_lt (by omega)]

theorem marks_iff (hn : n < 2 ^ 32) (hash : Hash) :
    (∃ missing blockCount,
      c.markPresent (c.slotIdxs hash) (List.replicate n true) (UInt64.ofNat n) =
        .ok (missing, blockCount) ∧ blockCount.toNat + (c.slotIdxs hash).countP c.full = n) ↔
      (∀ idx ∈ c.slotIdxs hash, c.full idx → c.indexAt idx < n) ∧
        (c.slotIdxs hash).countP c.full ≤ n := by
  constructor
  · rintro ⟨missing, blockCount, hok, hsum⟩
    have hinside := markPresent_inside hok
    rw [List.length_replicate] at hinside
    exact ⟨hinside, hsum ▸ Nat.le_add_left _ _⟩
  · rintro ⟨hinside, hfew⟩
    obtain ⟨missing, hok, -, -⟩ := @markPresent_ok c _ (List.replicate n true) (UInt64.ofNat n)
      (by rwa [List.length_replicate])
    refine ⟨missing, _, hok, ?_⟩
    rw [counter_toNat hn hfew]
    exact Nat.sub_add_cancel hfew

theorem missingBlocks_ok (hcount : m.blockCount = .ok n)
    (hinside : ∀ idx ∈ c.slotIdxs m.hash, c.full idx → c.indexAt idx < n)
    (hfew : (c.slotIdxs m.hash).countP c.full ≤ n) :
    c.missingBlocks m = .ok ((c.unmarked m.hash n).map UInt16.ofNat) := by
  have hn := blockCount_lt hcount
  obtain ⟨missing, hok, hlength, hget⟩ := @markPresent_ok c _ (List.replicate n true) (UInt64.ofNat n)
    (by rwa [List.length_replicate])
  rw [List.length_replicate] at hlength
  have hsmall : (UInt64.ofNat n - UInt64.ofNat ((c.slotIdxs m.hash).countP c.full)).toNat < 2 ^ 62 := by
    rw [counter_toNat hn hfew]
    omega
  have hfilter : (List.range n).filter (fun i => missing.getD i false) = c.unmarked m.hash n := by
    apply List.filter_congr
    intro i hi
    have hlt := List.mem_range.mp hi
    rw [Bool.eq_iff_iff, hget, decide_eq_true_iff, and_iff_right]
    simp [hlt]
  unfold slotIdxs at hok hsmall
  simp only [missingBlocks, hcount, hok, if_pos hsmall, hlength, hfilter]

/-- A block found complete is in a slot that is not skipped, under its own index. -/
theorem find_full {hash : Hash} {i : ℕ} (hi : i < 65536)
    (hfound : (c.find ⟨hash, UInt16.ofNat i⟩).any c.complete) :
    ∃ idx ∈ c.slotIdxs hash, c.full idx ∧ c.indexAt idx = i := by
  obtain ⟨idx, hidx, hcomplete⟩ := (Option.any_eq_true _ _).mp hfound
  have hmem := mem_of_find hidx
  rw [find_eq] at hidx
  have hindex : (c.slot idx).blockIndex = UInt16.ofNat i := by simpa using List.find?_some hidx
  refine ⟨idx, hmem, ?_, ?_⟩
  · have hsize : (c.slot idx).size = (c.slot idx).expectedSize := by
      simpa [complete] using hcomplete
    simp [full, hsize]
  · rw [indexAt, hindex, UInt16.toNat_ofNat', Nat.mod_eq_of_lt hi]

/-- Of more blocks than there are indices, the block `65536` is reported missing as block `0`. -/
theorem le_of_agree (hagree : ((c.unmarked m.hash n).map UInt16.ofNat).map UInt16.toNat =
    c.absent m.hash n) : n ≤ 65536 := by
  by_contra hn
  have hsmall : ∀ i ∈ c.absent m.hash n, i < 65536 := by
    intro i hi
    rw [← hagree, List.map_map] at hi
    obtain ⟨k, -, rfl⟩ := List.mem_map.mp hi
    exact UInt16.toNat_lt _
  have hfree : 65536 ∈ c.unmarked m.hash n := by
    refine mem_unmarked.mpr ⟨by omega, fun idx _ _ => ?_⟩
    exact Nat.ne_of_lt (UInt16.toNat_lt _)
  have hzero : 0 ∈ c.absent m.hash n := by
    rw [← hagree, List.map_map]
    exact List.mem_map.mpr ⟨65536, hfree, rfl⟩
  have hlast : 65536 ∈ c.absent m.hash n :=
    mem_absent.mpr ⟨by omega, (mem_absent.mp hzero).2⟩
  exact absurd (hsmall _ hlast) (lt_irrefl _)

/-- Marked by a slot is what is found complete, as far as 16 bits go, if the slot found first
is. -/
theorem missing_iff (hinside : ∀ idx ∈ c.slotIdxs m.hash, c.full idx → c.indexAt idx < n) :
    ((c.unmarked m.hash n).map UInt16.ofNat).map UInt16.toNat = c.absent m.hash n ↔
      n ≤ 65536 ∧ ∀ idx ∈ c.slotIdxs m.hash, c.full idx →
        (c.find ⟨m.hash, (c.slot idx).blockIndex⟩).any c.complete := by
  have hsame (hn : n ≤ 65536) :
      ((c.unmarked m.hash n).map UInt16.ofNat).map UInt16.toNat = c.unmarked m.hash n := by
    rw [List.map_map]
    conv_rhs => rw [← List.map_id (c.unmarked m.hash n)]
    apply List.map_congr_left
    intro i hi
    have hlt := (mem_unmarked.mp hi).1
    simp only [Function.comp_apply, UInt16.toNat_ofNat', id_eq]
    omega
  constructor
  · intro hagree
    have hn := le_of_agree hagree
    refine ⟨hn, fun idx hidx hfull => ?_⟩
    rw [hsame hn] at hagree
    by_contra hnot
    have hmem : c.indexAt idx ∈ c.absent m.hash n := by
      refine mem_absent.mpr ⟨hinside idx hidx hfull, ?_⟩
      rwa [indexAt, UInt16.ofNat_toNat]
    rw [← hagree] at hmem
    exact (mem_unmarked.mp hmem).2 idx hidx hfull rfl
  · rintro ⟨hn, hfirst⟩
    rw [hsame hn]
    apply List.filter_congr
    intro i hi
    have hlt := List.mem_range.mp hi
    rw [Bool.eq_iff_iff, decide_eq_true_iff, Bool.not_eq_true', ← Bool.not_eq_true]
    constructor
    · intro hfree hfound
      obtain ⟨idx, hidx, hfull, hindex⟩ := find_full (by omega) hfound
      exact hfree idx hidx hfull hindex
    · rintro hnot idx hidx hfull rfl
      refine hnot ?_
      rw [indexAt, UInt16.ofNat_toNat]
      exact hfirst idx hidx hfull

/-- A list of the indices of the slots that are not skipped. -/
def marks (c : ContentCache) (hash : Hash) : List ℕ :=
  ((c.slotIdxs hash).filter c.full).map c.indexAt

theorem mem_marks {hash : Hash} {i : ℕ} :
    i ∈ c.marks hash ↔ ∃ idx ∈ c.slotIdxs hash, c.full idx ∧ c.indexAt idx = i := by
  simp [marks, and_assoc]

theorem unmarked_eq_nil_iff {hash : Hash} :
    c.unmarked hash n = [] ↔ List.range n ⊆ c.marks hash := by
  rw [List.eq_nil_iff_forall_not_mem]
  refine forall_congr' fun i => ?_
  rw [mem_unmarked, List.mem_range, mem_marks]
  push Not
  exact Iff.rfl

theorem marks_length {hash : Hash} : (c.marks hash).length = (c.slotIdxs hash).countP c.full := by
  rw [marks, List.length_map, List.countP_eq_length_filter]

/-- Fewer slots than blocks leave a block unmarked. -/
theorem unmarked_of_few {hash : Hash} (hfew : (c.slotIdxs hash).length < n) :
    c.unmarked hash n ≠ [] := by
  intro hnil
  have hle := (List.nodup_range.subperm (unmarked_eq_nil_iff.mp hnil)).length_le
  have hcount := @List.countP_le_length _ c.full (c.slotIdxs hash)
  rw [List.length_range, marks_length] at hle
  omega

/-- With as many slots as blocks, every block is marked when no slot is skipped and no two slots
have one index. -/
theorem covered_iff {hash : Hash} (hlength : (c.slotIdxs hash).length = n)
    (hinside : ∀ idx ∈ c.slotIdxs hash, c.full idx → c.indexAt idx < n) :
    c.unmarked hash n = [] ↔
      (∀ idx ∈ c.slotIdxs hash, c.full idx) ∧ ((c.slotIdxs hash).map c.indexAt).Nodup := by
  rw [unmarked_eq_nil_iff]
  constructor
  · intro hcovered
    have hsub := List.nodup_range.subperm hcovered
    have hle := hsub.length_le
    have hcount := @List.countP_le_length _ c.full (c.slotIdxs hash)
    rw [List.length_range, marks_length] at hle
    have hall : ∀ idx ∈ c.slotIdxs hash, c.full idx :=
      List.countP_eq_length.mp (by omega)
    have hperm := hsub.perm_of_length_le (by rw [marks_length, List.length_range]; omega)
    have hnodup := hperm.nodup_iff.mp List.nodup_range
    rw [marks, List.filter_eq_self.mpr hall] at hnodup
    exact ⟨hall, hnodup⟩
  · rintro ⟨hall, hnodup⟩
    have hmarks : c.marks hash = (c.slotIdxs hash).map c.indexAt := by
      rw [marks, List.filter_eq_self.mpr hall]
    have hsub : c.marks hash ⊆ List.range n := by
      intro i hi
      obtain ⟨idx, hidx, hfull, rfl⟩ := mem_marks.mp hi
      exact List.mem_range.mpr (hinside idx hidx hfull)
    rw [← hmarks] at hnodup
    have hperm := (hnodup.subperm hsub).perm_of_length_le
      (by rw [hmarks, List.length_map, List.length_range, hlength])
    exact hperm.symm.subset

theorem missingBlocks_nil_iff (hcount : m.blockCount = .ok n)
    (hinside : ∀ idx ∈ c.slotIdxs m.hash, c.full idx → c.indexAt idx < n)
    (hfew : (c.slotIdxs m.hash).countP c.full ≤ n) :
    c.missingBlocks m = .ok [] ↔ c.unmarked m.hash n = [] := by
  rw [missingBlocks_ok hcount hinside hfew, Except.ok.injEq, List.map_eq_nil_iff]

/-- `validate_data` answers as `missing_blocks` does, where that stays inside its vector. -/
theorem validates_iff (hcount : m.blockCount = .ok n)
    (hinside : ∀ idx ∈ c.slotIdxs m.hash, c.full idx → c.indexAt idx < n)
    (hfew : (c.slotIdxs m.hash).countP c.full ≤ n) :
    (∃ valid, c.validateData m = .ok valid ∧ (valid ↔ c.missingBlocks m = .ok [])) ↔
      (n = 0 → (c.content m.hash).isSome) ∧
      ((c.content m.hash).isSome → (c.slotIdxs m.hash).length = n →
        (∀ idx ∈ c.slotIdxs m.hash, c.full idx) ∧ ((c.slotIdxs m.hash).map c.indexAt).Nodup ∧
          ((c.slotIdxs m.hash).map fun idx => (c.slot idx).size).sum = m.size.toNat) ∧
      (n < (c.slotIdxs m.hash).length →
        ∃ i < n, ∀ idx ∈ c.slotIdxs m.hash, c.full idx → c.indexAt idx ≠ i) := by
  rw [missingBlocks_nil_iff hcount hinside hfew]
  have hsurplus : (∃ i < n, ∀ idx ∈ c.slotIdxs m.hash, c.full idx → c.indexAt idx ≠ i) ↔
      c.unmarked m.hash n ≠ [] := by
    simp only [ne_eq, List.eq_nil_iff_forall_not_mem, mem_unmarked, not_forall, not_not]
  rw [hsurplus]
  cases hcontent : c.content m.hash with
  | none =>
    have hslots : c.slotIdxs m.hash = [] := by simp [slotIdxs, hcontent]
    have hfree : c.unmarked m.hash n = [] ↔ n = 0 := by simp [unmarked, hslots]
    simp [validateData, hcontent, hslots, hfree]
  | some slotIdxs =>
    have hslots : c.slotIdxs m.hash = slotIdxs := by simp [ContentCache.slotIdxs, hcontent]
    have hcov := @covered_iff c n m.hash
    have hless := @unmarked_of_few c n m.hash
    rw [hslots] at hcov hless hinside ⊢
    simp only [validateData, hcontent, hcount, Option.isSome_some, implies_true, true_and,
      forall_const]
    rcases lt_trichotomy slotIdxs.length n with hlt | heq | hgt
    · simp [hlt.ne, hlt.not_gt, hless hlt]
    · have hcovered := hcov heq hinside
      by_cases hsize : (slotIdxs.map fun idx => (c.slot idx).size).sum = m.size.toNat
      · simp [heq, hsize, hcovered]
      · simp [heq, hsize]
    · simp [hgt.ne', hgt]

theorem agree_iff_described (hcount : m.blockCount = .ok n) :
    QueriesAgree c m n ↔ Described c m n := by
  have hn := blockCount_lt hcount
  constructor
  · rintro ⟨hmarks, ⟨idxs, hidxs, hmissing⟩, hvalid⟩
    obtain ⟨hinside, hfew⟩ := (marks_iff hn m.hash).mp hmarks
    rw [missingBlocks_ok hcount hinside hfew] at hidxs
    obtain rfl := Except.ok.inj hidxs
    obtain ⟨hle, hfirst⟩ := (missing_iff hinside).mp hmissing
    obtain ⟨hknown, hexact, hsurplus⟩ := (validates_iff hcount hinside hfew).mp hvalid
    exact ⟨hle, hinside, hfew, hfirst, hknown, hexact, hsurplus⟩
  · rintro ⟨hle, hinside, hfew, hfirst, hknown, hexact, hsurplus⟩
    exact ⟨(marks_iff hn m.hash).mpr ⟨hinside, hfew⟩,
      ⟨_, missingBlocks_ok hcount hinside hfew, (missing_iff hinside).mpr ⟨hle, hfirst⟩⟩,
      (validates_iff hcount hinside hfew).mpr ⟨hknown, hexact, hsurplus⟩⟩

end Answers

/-- The two queries agree just on metadata that describe the slots. -/
theorem queries_agree_iff (c : ContentCache) (m : ContentMetadata) (hblock : m.blockSize ≠ 0) :
    ∃ n, m.blockCount = .ok n ∧ (QueriesAgree c m n ↔ Described c m n) := by
  have hcount : m.blockCount = .ok (1 + (m.size - 1) / m.blockSize).toNat := if_neg hblock
  exact ⟨_, hcount, agree_iff_described hcount⟩

/-- Metadata of a content of `size` bytes, under the default hash. -/
def sized (size : UInt32) : ContentMetadata :=
  ⟨default, size, 1024, [], ⟨[]⟩, ⟨0, 0⟩, ⟨0⟩, 0, 0, 0⟩

/-- The metadata of a content of two bytes, one of which is stored. -/
theorem queries_agree_iff_stored :
    ∃ c, run (step fun _ => default) (new 0) [.storeBlock ⟨default, 0⟩ 1 [7]] = .ok c ∧
      ∃ n, (sized 2).blockCount = .ok n ∧
        (QueriesAgree c (sized 2) n ↔ Described c (sized 2) n) := by
  have hrun : run (step fun _ => default) (new 0) [.storeBlock ⟨default, 0⟩ 1 [7]] = .ok _ := rfl
  exact ⟨_, hrun, queries_agree_iff _ (sized 2) (by decide)⟩

/-- One byte is stored of the two the metadata speak of: the assertion on the sum fails. -/
theorem validate_aborts :
    ∃ c, run (step fun _ => default) (new 0) [.storeBlock ⟨default, 0⟩ 1 [7]] = .ok c ∧
      (sized 2).blockCount = .ok 1 ∧ ¬ QueriesAgree c (sized 2) 1 := by
  have hrun : run (step fun _ => default) (new 0) [.storeBlock ⟨default, 0⟩ 1 [7]] = .ok _ := rfl
  refine ⟨_, hrun, by decide, fun hagree => ?_⟩
  obtain ⟨valid, hvalid, -⟩ := hagree.validates
  exact absurd hvalid (by decide +kernel +revert)

end YingSma.ContentCache
