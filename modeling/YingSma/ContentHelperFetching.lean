import Mathlib.Algebra.Order.Floor.Div
import YingSma.ContentHelper

/-! How many blocks a content is said to have, and which of them are put into the queue of blocks to
be fetched. The sizes are those a peer sends. -/
namespace YingSma

namespace ContentMetadata

/-- No division by zero, and the size divided by the size of a block and rounded up. -/
structure CountsBlocks (m : ContentMetadata) : Prop where
  divides : m.blockCount ≠ .error .divisionByZero
  counts : m.blockSize ≠ 0 → m.blockCount = .ok (m.size.toNat ⌈/⌉ m.blockSize.toNat)

section Counting

variable {m : ContentMetadata}

theorem toNat_pos {x : UInt32} (hx : x ≠ 0) : 0 < x.toNat := by
  rw [Nat.pos_iff_ne_zero]
  exact fun hzero => hx (UInt32.toNat_inj.mp hzero)

/-- Less one, the size of a content that is not empty does not wrap around. -/
theorem blockCount_eq_ceilDiv (hblock : m.blockSize ≠ 0) (hsize : m.size ≠ 0) :
    m.blockCount = .ok (m.size.toNat ⌈/⌉ m.blockSize.toNat) := by
  have hpos := toNat_pos hsize
  have hlt := m.size.toNat_lt
  have hdiv : (m.size.toNat - 1) / m.blockSize.toNat ≤ m.size.toNat - 1 := Nat.div_le_self _ _
  have hless : (m.size - 1).toNat = m.size.toNat - 1 := by
    have hle : (1 : UInt32).toNat ≤ m.size.toNat := hpos
    rw [UInt32.toNat_sub_of_le _ _ (UInt32.le_iff_toNat_le.mpr hle)]
    rfl
  have hceil : m.size.toNat ⌈/⌉ m.blockSize.toNat = 1 + (m.size.toNat - 1) / m.blockSize.toNat := by
    have hadd : m.size.toNat + m.blockSize.toNat - 1 = m.size.toNat - 1 + m.blockSize.toNat := by omega
    rw [Nat.ceilDiv_eq_add_pred_div, hadd, Nat.add_div_right _ (toNat_pos hblock), Nat.add_comm]
  rw [blockCount, if_neg hblock, hceil, UInt32.toNat_add, UInt32.toNat_div, hless, UInt32.toNat_one,
    Nat.mod_eq_of_lt (by omega)]

/-- Nor does anything come of an empty content whose blocks are single bytes. -/
theorem blockCount_empty (hsize : m.size = 0) (hblock : m.blockSize ≠ 0) :
    m.blockCount = .ok (m.size.toNat ⌈/⌉ m.blockSize.toNat) ↔ m.blockSize = 1 := by
  have hwrap : (m.size - 1).toNat = 2 ^ 32 - 1 := by rw [hsize]; rfl
  have hzero : m.size.toNat = 0 := by rw [hsize]; rfl
  rw [blockCount, if_neg hblock, Except.ok.injEq, hzero, zero_ceilDiv, UInt32.toNat_add,
    UInt32.toNat_div, hwrap, UInt32.toNat_one, ← UInt32.toNat_inj, UInt32.toNat_one]
  constructor
  · intro hnone
    by_contra hne
    have htwo : 2 ≤ m.blockSize.toNat := by
      have hpos := toNat_pos hblock
      omega
    have hhalf : (2 ^ 32 - 1) / m.blockSize.toNat ≤ (2 ^ 32 - 1) / 2 := Nat.div_le_div_left htwo (by decide)
    rw [Nat.mod_eq_of_lt (by omega)] at hnone
    exact absurd hnone (by simp)
  · intro hone
    rw [hone]
    rfl

theorem countsBlocks_iff :
    m.CountsBlocks ↔ m.blockSize ≠ 0 ∧ (m.size ≠ 0 ∨ m.blockSize = 1) := by
  constructor
  · rintro ⟨hdivides, hcounts⟩
    have hblock : m.blockSize ≠ 0 := fun hzero => hdivides (if_pos hzero)
    refine ⟨hblock, or_iff_not_imp_left.mpr fun hsize => ?_⟩
    exact (blockCount_empty (not_not.mp hsize) hblock).mp (hcounts hblock)
  · rintro ⟨hblock, hnonempty⟩
    have hcounts : m.blockCount = .ok (m.size.toNat ⌈/⌉ m.blockSize.toNat) := by
      by_cases hsize : m.size = 0
      · exact (blockCount_empty hsize hblock).mpr (hnonempty.resolve_left (not_not.mpr hsize))
      · exact blockCount_eq_ceilDiv hblock hsize
    exact ⟨by simp [hcounts], fun _ => hcounts⟩

end Counting

end ContentMetadata

namespace ContentHelper
open StateActions

/-- New metadata that are discovered and fetched of themselves. -/
structure Fetches (env : Surroundings) (h : ContentHelper) (m : ContentMetadata) : Prop where
  divisible : m.blockSize ≠ 0
  fresh : (h.rmt.find? fun r => r.data.hash = m.hash) = none
  interesting : env.containsAny m.types
  auto : h.autoFetch

/-- What `discover` does with such metadata before it calls `do_auto_fetch`. -/
def enqueue (env : Surroundings) (m : ContentMetadata) : Action Unit := do
  modify fun h => { h with rmt := h.rmt ++ [⟨m, env.now⟩] }
  record (.interestingContent m)
  let blockCount ← attempt m.blockCount
  modify fun h => { h with
    autoFetchQueue := h.autoFetchQueue ++
      (List.range blockCount).map fun i => ⟨m.hash, UInt16.ofNat i⟩ }

/-- The references are those of the blocks below `n`, each of them once. -/
def AllBlocks (refs : List BlockRef) (hash : Hash) (n : ℕ) : Prop :=
  (refs.map fun ref => (ref.hash, ref.index.toNat)).Perm ((List.range n).map fun i => (hash, i))

/-- The queue is extended by all the blocks before it is worked off. -/
def QueuesBlocks (env : Surroundings) (h : ContentHelper) (m : ContentMetadata) : Prop :=
  ∃ n h' refs, m.blockCount = .ok n ∧ enqueue env m h = .ok ((), h') ∧
    discover env m h = (do doAutoFetch env; pure true : Action Bool) h' ∧
    h'.autoFetchQueue = h.autoFetchQueue ++ refs ∧ AllBlocks refs m.hash n

section Fetching

variable {env : Surroundings} {h : ContentHelper} {m : ContentMetadata}

/-- Sixteen bits tell that many blocks apart. -/
theorem allBlocks_iff {hash : Hash} {n : ℕ} :
    AllBlocks ((List.range n).map fun i => ⟨hash, UInt16.ofNat i⟩) hash n ↔ n ≤ 65536 := by
  unfold AllBlocks
  rw [List.map_map]
  constructor
  · intro hperm
    by_contra hmany
    have hlast : (hash, 65536) ∈ (List.range n).map fun i => (hash, i) :=
      List.mem_map.mpr ⟨65536, List.mem_range.mpr (by omega), rfl⟩
    obtain ⟨i, -, heq⟩ := List.mem_map.mp (hperm.mem_iff.mpr hlast)
    have hindex : (UInt16.ofNat i).toNat = 65536 := congrArg Prod.snd heq
    exact absurd (UInt16.toNat_lt (UInt16.ofNat i)) (by omega)
  · intro hfew
    apply List.Perm.of_eq
    apply List.map_congr_left
    intro i hi
    have hlt := List.mem_range.mp hi
    simp only [Function.comp_apply, UInt16.toNat_ofNat', Nat.mod_eq_of_lt (by omega : i < 2 ^ 16)]

theorem enqueue_run {n : ℕ} (hcount : m.blockCount = .ok n) :
    enqueue env m h = .ok ((), { h with
      rmt := h.rmt ++ [⟨m, env.now⟩]
      effects := h.effects ++ [.interestingContent m]
      autoFetchQueue := h.autoFetchQueue ++ (List.range n).map fun i => ⟨m.hash, UInt16.ofNat i⟩ }) := by
  unfold enqueue
  rw [hcount]
  rfl

theorem discover_fetches (hf : Fetches env h m) :
    discover env m h = (do
      enqueue env m
      doAutoFetch env
      pure true : Action Bool) h := by
  have hcount : m.blockCount = .ok (1 + (m.size - 1) / m.blockSize).toNat := if_neg hf.divisible
  unfold discover
  rw [bind_run_ok (get_run h)]
  simp only [hf.fresh, hf.interesting, hf.auto, if_true, hcount]
  rw [bind_run_ok (enqueue_run hcount)]
  rfl

theorem queuesBlocks_iff (hf : Fetches env h m) {n : ℕ} (hcount : m.blockCount = .ok n) :
    QueuesBlocks env h m ↔ n ≤ 65536 := by
  constructor
  · rintro ⟨n', h', refs, hcount', hqueue, -, hrefs, hall⟩
    obtain rfl := Except.ok.inj (hcount.symm.trans hcount')
    rw [enqueue_run hcount] at hqueue
    obtain ⟨-, rfl⟩ := Prod.mk.inj (Except.ok.inj hqueue)
    obtain rfl := List.append_cancel_left hrefs
    exact allBlocks_iff.mp hall
  · intro hfew
    refine ⟨n, _, _, hcount, enqueue_run hcount, ?_, rfl, allBlocks_iff.mpr hfew⟩
    rw [discover_fetches hf, bind_run_ok (enqueue_run hcount)]

/-- As many blocks as there are indices, as far as the blocks are counted right. -/
theorem queuesBlocks_iff_size (hf : Fetches env h m) (hcounts : m.CountsBlocks) :
    QueuesBlocks env h m ↔ m.size.toNat ≤ 65536 * m.blockSize.toNat := by
  rw [queuesBlocks_iff hf (hcounts.counts hf.divisible),
    ceilDiv_le_iff_le_smul (ContentMetadata.toNat_pos hf.divisible), smul_eq_mul, Nat.mul_comm]

end Fetching

/-- Blocks are counted right and queued, each of them once, unless the sizes are too small or too
large for the arithmetic. -/
theorem counts_and_queues_iff (env : Surroundings) (h : ContentHelper) (m : ContentMetadata) :
    (m.CountsBlocks ∧ (Fetches env h m → QueuesBlocks env h m)) ↔
      m.blockSize ≠ 0 ∧ (m.size ≠ 0 ∨ m.blockSize = 1) ∧
        (Fetches env h m → m.size.toNat ≤ 65536 * m.blockSize.toNat) := by
  rw [← and_assoc, ← ContentMetadata.countsBlocks_iff]
  exact and_congr_right fun hcounts => imp_congr_right fun hf => queuesBlocks_iff_size hf hcounts

/-- Metadata that divide by zero. -/
def blockless : ContentMetadata := ⟨default, 1, 0, [], ⟨[]⟩, ⟨0, 0⟩, ⟨1⟩, 0, 0, 0⟩

theorem blockless_divides : ¬ blockless.CountsBlocks := fun hcounts => hcounts.divides rfl

end ContentHelper

end YingSma
