import Mathlib.Algebra.Group.Nat.Even
import YingSma.ContentCacheBlocks

/-! The LRU list of `ContentCache`. The search of `promote` looks at every other index only, and a
slot that is frozen stays as it is until it is unfrozen. -/
namespace YingSma.ContentCache
open SlotPool TransitionRuns

section Promotion

/-- `promote` returns, the index is at the head if it was in the list, and the others keep their
order. -/
def PromotesToFront (c : ContentCache) (idx : ℕ) : Prop :=
  c.promote idx = .ok { c with
    occupiedIdxs :=
      if idx ∈ c.occupiedIdxs then idx :: c.occupiedIdxs.erase idx else c.occupiedIdxs }

/-- The index is at one of the places the search looks at. -/
def AtEvenPlace (idx : ℕ) (idxs : List ℕ) : Prop := ∃ k, idxs[2 * k]? = some idx

theorem atEvenPlace_cons_cons {idx i j : ℕ} {idxs : List ℕ} :
    AtEvenPlace idx (i :: j :: idxs) ↔ i = idx ∨ AtEvenPlace idx idxs := by
  constructor
  · rintro ⟨k, hk⟩
    cases k with
    | zero => exact .inl (Option.some.inj hk)
    | succ k => exact .inr ⟨k, hk⟩
  · rintro (rfl | ⟨k, hk⟩)
    · exact ⟨0, rfl⟩
    · exact ⟨k + 1, hk⟩

theorem AtEvenPlace.mem {idx : ℕ} {idxs : List ℕ} (h : AtEvenPlace idx idxs) : idx ∈ idxs := by
  obtain ⟨k, hk⟩ := h
  exact List.mem_of_getElem? hk

theorem even_length_cons_cons (i j : ℕ) (idxs : List ℕ) :
    Even (i :: j :: idxs).length ↔ Even idxs.length := by
  rw [List.length_cons, List.length_cons, Nat.even_add_one, Nat.even_add_one, not_not]

theorem promoteFrom_found {idx : ℕ} {idxs : List ℕ} (hnodup : idxs.Nodup)
    (h : AtEvenPlace idx idxs) : promoteFrom idx idxs = .ok (some (idxs.erase idx)) := by
  induction idxs using promoteFrom.induct idx with
  | case1 => cases h.mem
  | case2 => rw [promoteFrom, if_pos rfl, List.erase_cons_head]
  | case3 i hne => exact (hne (List.mem_singleton.mp h.mem).symm).elim
  | case4 j rest => rw [promoteFrom, if_pos rfl, List.erase_cons_head]
  | case5 i j rest hne found hfound ih =>
    have hrest := (atEvenPlace_cons_cons.mp h).resolve_left hne
    have hj : j ≠ idx := by
      rintro rfl
      exact (List.nodup_cons.mp (List.nodup_cons.mp hnodup).2).1 hrest.mem
    have hok := ih (List.nodup_cons.mp (List.nodup_cons.mp hnodup).2).2 hrest
    rw [promoteFrom, if_neg hne, hok, List.erase_cons_tail (by simpa using hne),
      List.erase_cons_tail (by simpa using hj)]
    rfl
  | case6 i j rest hne e herror ih =>
    have hrest := (atEvenPlace_cons_cons.mp h).resolve_left hne
    have hok := ih (List.nodup_cons.mp (List.nodup_cons.mp hnodup).2).2 hrest
    rw [hok] at herror
    cases herror

/-- A search that finds nothing ends at the end of a list of even length, and goes past it
otherwise. -/
theorem promoteFrom_missed {idx : ℕ} {idxs : List ℕ} (h : ¬ AtEvenPlace idx idxs) :
    promoteFrom idx idxs = if Even idxs.length then .ok none else .error .pastEnd := by
  induction idxs using promoteFrom.induct idx with
  | case1 => rfl
  | case2 => exact (h ⟨0, rfl⟩).elim
  | case3 i hne =>
    rw [promoteFrom, if_neg hne]
    rfl
  | case4 j rest => exact (h ⟨0, rfl⟩).elim
  | case5 i j rest hne found hfound ih =>
    have hrest := ih fun hrest => h (atEvenPlace_cons_cons.mpr (.inr hrest))
    rw [promoteFrom, if_neg hne, hrest]
    simp only [even_length_cons_cons]
    split_ifs <;> rfl
  | case6 i j rest hne e herror ih =>
    have hrest := ih fun hrest => h (atEvenPlace_cons_cons.mpr (.inr hrest))
    rw [promoteFrom, if_neg hne, hrest]
    simp only [even_length_cons_cons]
    split_ifs <;> rfl

/-- Promotion works for an index at an even place, and for one that is not in a list of even
length. -/
theorem promotes_to_front_iff {c : ContentCache} (hnodup : c.occupiedIdxs.Nodup) (idx : ℕ) :
    PromotesToFront c idx ↔
      AtEvenPlace idx c.occupiedIdxs ∨ idx ∉ c.occupiedIdxs ∧ Even c.occupiedIdxs.length := by
  unfold PromotesToFront promote
  by_cases heven : AtEvenPlace idx c.occupiedIdxs
  · refine iff_of_true ?_ (.inl heven)
    rw [promoteFrom_found hnodup heven, if_pos heven.mem]
  · rw [promoteFrom_missed heven, or_iff_right heven]
    by_cases hlength : Even c.occupiedIdxs.length
    · rw [if_pos hlength, and_iff_left hlength]
      constructor
      · intro h hmem
        have hidxs := congrArg ContentCache.occupiedIdxs (Except.ok.inj h)
        rw [if_pos hmem] at hidxs
        exact heven ⟨0, by rw [hidxs]; rfl⟩
      · intro hmem
        rw [if_neg hmem]
    · rw [if_neg hlength]
      exact iff_of_false (by simp) fun h => hlength h.2

/-- Two occupied slots, of which the first one is promoted. -/
theorem promotes_to_front_head :
    PromotesToFront { new 2048 with occupiedIdxs := [0, 1], freeIdxs := [] } 0 ↔
      AtEvenPlace 0 [0, 1] ∨ 0 ∉ [0, 1] ∧ Even [0, 1].length :=
  promotes_to_front_iff (by decide : [0, 1].Nodup) 0

/-- The second one is passed over. -/
theorem promote_passes_over :
    ∃ c : ContentCache, c.occupiedIdxs.Nodup ∧ c.occupiedIdxs = [0, 1] ∧
      c.promote 1 = .ok c ∧ ¬ PromotesToFront c 1 := by
  have hpromote : ({ new 2048 with occupiedIdxs := [0, 1], freeIdxs := [] } : ContentCache).promote 1 =
      .ok { new 2048 with occupiedIdxs := [0, 1], freeIdxs := [] } := rfl
  refine ⟨_, ?_, rfl, hpromote, fun h => ?_⟩
  · decide
  · have hidxs := congrArg ContentCache.occupiedIdxs (Except.ok.inj (hpromote.symm.trans h))
    exact absurd hidxs (by decide)

end Promotion

section Freezing

/-- A call of the cache, or of a `BlockData` that was handed out for slot `idx` at any time. -/
inductive Call
  | op (op : Op)
  | frozen (idx : ℕ) (enable : Bool)

def call (hasher : List UInt8 → Hash) (c : ContentCache) : Call → Except Fault ContentCache
  | .op op => c.step hasher op
  | .frozen idx enable => c.setFrozen idx enable

/-- The call is `frozen(false)` for slot `i`. -/
def Unfreezes (i : ℕ) (c : ContentCache) : Call → Prop
  | .op (.frozen ref false) => c.find ref = some i
  | .frozen idx false => idx = i
  | _ => False

/-- Slot `i` is still occupied and as it was, and is not handed out. -/
structure Survives (i : ℕ) (s : Slot) (c : ContentCache) : Prop where
  slot_eq : c.slot i = s
  occupied : i ∈ c.occupiedIdxs
  reserveSlot : ∀ idx c', c.reserveSlot = .ok (idx, c') → idx ≠ i
  reserveSlots : ∀ count idxs c', c.reserveSlots count = .ok (idxs, c') → i ∉ idxs

/-- The lists have no index in common and none beyond the slots. Evicted slots may be on neither. -/
structure Separate (c : ContentCache) : Prop where
  disjoint : ∀ i ∈ c.freeIdxs, i ∉ c.occupiedIdxs
  free_nodup : c.freeIdxs.Nodup
  free_lt : ∀ i ∈ c.freeIdxs, i < c.slots.length
  occupied_lt : ∀ i ∈ c.occupiedIdxs, i < c.slots.length

theorem new_separate (capacity : ℕ) : Separate (new capacity) where
  disjoint i _ := List.not_mem_nil
  free_nodup := List.nodup_range
  free_lt i hi := by
    rw [new, List.length_replicate]
    exact List.mem_range.mp hi
  occupied_lt i hi := by cases hi

section Steps

variable {hasher : List UInt8 → Hash} {c c' : ContentCache} {i : ℕ}

/-- What a call does to an occupied slot that it does not unfreeze. -/
structure Spares (i : ℕ) (c c' : ContentCache) : Prop where
  slot_eq : c'.slot i = c.slot i
  occupied : i ∈ c.occupiedIdxs → i ∈ c'.occupiedIdxs

theorem growToFit_separate (h : Separate c) (count : ℕ) : Separate (c.growToFit count) := by
  unfold growToFit
  split_ifs
  · exact h
  · constructor
    case disjoint =>
      intro i hi hocc
      rcases List.mem_append.mp hi with hfree | hnew
      · exact h.disjoint i hfree hocc
      · have hlt := h.occupied_lt i hocc
        have hge := (List.mem_range'_1.mp hnew).1
        omega
    case free_nodup =>
      apply h.free_nodup.append List.nodup_range'
      intro i hi hj
      have hlt := h.free_lt i hi
      have hge := (List.mem_range'_1.mp hj).1
      omega
    case free_lt =>
      intro i hi
      rw [List.length_append, List.length_replicate]
      rcases List.mem_append.mp hi with hfree | hnew
      · exact Nat.lt_add_right _ (h.free_lt i hfree)
      · exact (List.mem_range'_1.mp hnew).2
    case occupied_lt =>
      intro i hi
      rw [List.length_append]
      exact Nat.lt_add_right _ (h.occupied_lt i hi)

theorem growToFit_spares (c : ContentCache) (count i : ℕ) : Spares i c (c.growToFit count) where
  slot_eq := growToFit_slot c count i
  occupied hi := by rwa [growToFit_occupiedIdxs]

theorem freeSlots_separate (h : Separate c) (count : ℕ) : Separate (c.freeSlots count) := by
  have hsub : (c.freeSlots count).occupiedIdxs ⊆ c.occupiedIdxs := by
    rw [freeSlots_occupiedIdxs]
    exact (keepTail_sublist _ _ _).subset
  constructor
  case disjoint =>
    rw [freeSlots_freeIdxs]
    exact fun i hi hocc => h.disjoint i hi (hsub hocc)
  case free_nodup =>
    rw [freeSlots_freeIdxs]
    exact h.free_nodup
  case free_lt =>
    rw [freeSlots_freeIdxs, freeSlots_slots_length]
    exact h.free_lt
  case occupied_lt =>
    rw [freeSlots_slots_length]
    exact fun i hi => h.occupied_lt i (hsub hi)

/-- The walk resets other slots only. -/
theorem freeSlotsFrom_slotAt {slots : List Slot} (hfrozen : (slotAt slots i).frozen) (count : ℕ)
    (idxs : List ℕ) : slotAt (freeSlotsFrom count idxs slots).2 i = slotAt slots i := by
  induction idxs generalizing count slots with
  | nil => cases count <;> rfl
  | cons idx idxs ih =>
    cases count with
    | zero => rfl
    | succ count =>
      rw [freeSlotsFrom]
      split_ifs with hidx
      · exact ih hfrozen count
      · have hne : i ≠ idx := by
          rintro rfl
          exact hidx hfrozen
        have hsame : slotAt (slots.modify idx Slot.reset) i = slotAt slots i :=
          slotAt_modify_of_ne slots Slot.reset hne
        rw [ih (hsame ▸ hfrozen) count, hsame]

theorem mem_keepTail {p : ℕ → Bool} {l : List ℕ} (n : ℕ) (hi : i ∈ l) (hp : p i) :
    i ∈ keepTail p n l := by
  unfold keepTail
  rw [← List.take_append_drop (l.length - n) l] at hi
  rcases List.mem_append.mp hi with hi | hi
  · exact List.mem_append_left _ hi
  · exact List.mem_append_right _ (List.mem_filter.mpr ⟨hi, hp⟩)

theorem freeSlots_spares (hfrozen : (c.slot i).frozen) (count : ℕ) : Spares i c (c.freeSlots count) where
  slot_eq := by
    unfold freeSlots
    split_ifs
    · rfl
    · exact freeSlotsFrom_slotAt hfrozen count _
  occupied hi := by
    rw [freeSlots_occupiedIdxs]
    exact mem_keepTail count hi hfrozen

theorem Separate.occupy (h : Separate c) {kept idxs : List ℕ} (hf : c.freeIdxs = kept ++ idxs) :
    Separate (c.occupy kept idxs) where
  disjoint j hj hocc := by
    have hnodup := hf ▸ h.free_nodup
    rcases List.mem_append.mp hocc with htaken | hold
    · exact (List.nodup_append.mp hnodup).2.2 j hj j htaken rfl
    · exact h.disjoint j (hf ▸ List.mem_append_left _ hj) hold
  free_nodup := (List.nodup_append.mp (hf ▸ h.free_nodup)).1
  free_lt j hj := h.free_lt j (hf ▸ List.mem_append_left _ hj)
  occupied_lt j hj := by
    rcases List.mem_append.mp hj with htaken | hold
    · exact h.free_lt j (hf ▸ List.mem_append_right _ htaken)
    · exact h.occupied_lt j hold

/-- An occupied slot is not among those that are taken off the free list. -/
theorem Separate.not_taken (h : Separate c) {count : ℕ} {kept idxs : List ℕ}
    (hf : (c.growToFit count).freeIdxs = kept ++ idxs) (hocc : i ∈ c.occupiedIdxs) : i ∉ idxs := by
  intro hi
  apply (growToFit_separate h count).disjoint i
  · rw [hf]
    exact List.mem_append_right _ hi
  · rwa [growToFit_occupiedIdxs]

theorem occupy_spares (c : ContentCache) (count : ℕ) (kept idxs : List ℕ) (i : ℕ) :
    Spares i c ((c.growToFit count).occupy kept idxs) where
  slot_eq := growToFit_slot c count i
  occupied hi := by
    apply List.mem_append_right
    rwa [growToFit_occupiedIdxs]

theorem Separate.with_slots (h : Separate c) {slots : List Slot} (hlen : slots.length = c.slots.length)
    (content : Hash → Option (List ℕ)) :
    Separate { c with slots := slots, content := content } where
  disjoint := h.disjoint
  free_nodup := h.free_nodup
  free_lt j hj := (h.free_lt j hj).trans_eq hlen.symm
  occupied_lt j hj := (h.occupied_lt j hj).trans_eq hlen.symm

theorem Separate.with_order (h : Separate c) {idxs : List ℕ} (hperm : idxs.Perm c.occupiedIdxs) :
    Separate { c with occupiedIdxs := idxs } where
  disjoint j hj hocc := h.disjoint j hj (hperm.mem_iff.mp hocc)
  free_nodup := h.free_nodup
  free_lt := h.free_lt
  occupied_lt j hj := h.occupied_lt j (hperm.mem_iff.mp hj)

theorem store_separate {src : List UInt8} {hash : Hash} (h : Separate c)
    (hs : c.store hasher src = .ok (hash, c')) : Separate c' := by
  rcases store_ok hs with ⟨-, ⟨existing, -, -, rfl⟩ | ⟨-, kept, idxs, n, -, hf, -, rfl⟩⟩
  · exact h
  · exact ((growToFit_separate h n).occupy hf).with_slots
      (copyBlocks_length idxs src.length 0 src (c.growToFit n).slots) _

theorem store_spares {src : List UInt8} {hash : Hash} (h : Separate c) (hocc : i ∈ c.occupiedIdxs)
    (hs : c.store hasher src = .ok (hash, c')) : Spares i c c' := by
  rcases store_ok hs with ⟨-, ⟨existing, -, -, rfl⟩ | ⟨-, kept, idxs, n, hn, hf, hlen, rfl⟩⟩
  · exact ⟨rfl, id⟩
  · have hspares := occupy_spares c n kept idxs i
    refine ⟨?_, hspares.occupied⟩
    rw [slot, copyBlocks_other (index_lt_of_length (hlen.trans hn)) (h.not_taken hf hocc)]
    exact hspares.slot_eq

theorem storeBlock_separate {ref : BlockRef} {expectedSize : ℕ} {src : List UInt8} {found : Option ℕ}
    (h : Separate c) (hs : c.storeBlock ref expectedSize src = .ok (found, c')) : Separate c' := by
  rcases storeBlock_ok hs with ⟨-, -, rfl⟩ | ⟨idx, kept, hle, -, -, hf, rfl⟩
  · exact h
  · have hlen : ((c.growToFit 1).slots.modify idx fun s => s.write src expectedSize hle).length =
        (c.growToFit 1).slots.length := List.length_modify _ _ _
    exact ((growToFit_separate h 1).occupy hf).with_slots hlen _

theorem storeBlock_spares {ref : BlockRef} {expectedSize : ℕ} {src : List UInt8} {found : Option ℕ}
    (h : Separate c) (hocc : i ∈ c.occupiedIdxs)
    (hs : c.storeBlock ref expectedSize src = .ok (found, c')) : Spares i c c' := by
  rcases storeBlock_ok hs with ⟨-, -, rfl⟩ | ⟨idx, kept, hle, -, -, hf, rfl⟩
  · exact ⟨rfl, id⟩
  · have hspares := occupy_spares c 1 kept [idx] i
    have hne : i ≠ idx := fun he => h.not_taken hf hocc (List.mem_singleton.mpr he)
    refine ⟨?_, hspares.occupied⟩
    rw [slot, slotAt_modify_of_ne _ _ hne]
    exact hspares.slot_eq

/-- To freeze a frozen slot again changes nothing of it. -/
theorem modify_frozen_spares {idx : ℕ} {enable : Bool} {idxs : List ℕ} (hfrozen : (c.slot i).frozen)
    (hkeep : idx = i → enable = true) (hperm : idxs.Perm c.occupiedIdxs) :
    Spares i c { c with
      slots := c.slots.modify idx fun s => { s with frozen := enable }
      occupiedIdxs := idxs } where
  slot_eq := by
    by_cases hidx : i = idx
    · obtain rfl := hkeep hidx.symm
      have hsame : { c.slot i with frozen := true } = c.slot i := by
        rw [← hfrozen]
      simp only [slot, slotAt_modify] at hsame ⊢
      rw [hsame, ite_self]
    · exact slotAt_modify_of_ne _ _ hidx
  occupied hi := hperm.mem_iff.mpr hi

theorem modify_frozen_separate {idx : ℕ} {enable : Bool} {idxs : List ℕ} (h : Separate c)
    (hperm : idxs.Perm c.occupiedIdxs) : Separate { c with
      slots := c.slots.modify idx fun s => { s with frozen := enable }
      occupiedIdxs := idxs } := by
  have hlen : (c.slots.modify idx fun s => { s with frozen := enable }).length = c.slots.length :=
    List.length_modify _ _ _
  exact (h.with_order hperm).with_slots hlen c.content

theorem ensureCapacity_separate (h : Separate c) (count : ℕ) :
    Separate (c.ensureCapacity count).2 := by
  unfold ensureCapacity
  split_ifs
  · exact growToFit_separate h count
  · exact freeSlots_separate h _
  · exact h

theorem ensureCapacity_spares (hfrozen : (c.slot i).frozen) (count : ℕ) :
    Spares i c (c.ensureCapacity count).2 := by
  unfold ensureCapacity
  split_ifs
  · exact growToFit_spares c count i
  · exact freeSlots_spares hfrozen _
  · exact ⟨rfl, id⟩

theorem call_separate {a : Call} (h : Separate c) (hs : call hasher c a = .ok c') : Separate c' := by
  cases a with
  | frozen idx enable =>
    obtain ⟨idxs, hperm, rfl⟩ := setFrozen_ok hs
    exact modify_frozen_separate h hperm
  | op op =>
    cases op with
    | growToFit count => exact Except.ok.inj hs ▸ growToFit_separate h count
    | freeSlots count => exact Except.ok.inj hs ▸ freeSlots_separate h count
    | ensureCapacity count => exact Except.ok.inj hs ▸ ensureCapacity_separate h count
    | reserveSlot =>
      obtain ⟨idx, hr⟩ := map_snd_ok hs
      obtain ⟨kept, hf, rfl⟩ := reserveSlot_ok hr
      exact (growToFit_separate h 1).occupy hf
    | reserveSlots count =>
      obtain ⟨idxs, hr⟩ := map_snd_ok hs
      obtain ⟨kept, hf, -, rfl⟩ := reserveSlots_ok hr
      exact (growToFit_separate h count).occupy hf
    | promote idx =>
      obtain ⟨idxs, hperm, rfl⟩ := promote_ok hs
      exact h.with_order hperm
    | store src =>
      obtain ⟨hash, hr⟩ := map_snd_ok hs
      exact store_separate h hr
    | storeBlock ref expectedSize src =>
      obtain ⟨found, hr⟩ := map_snd_ok hs
      exact storeBlock_separate h hr
    | find ref => exact Except.ok.inj hs ▸ h
    | frozen ref enable =>
      obtain rfl | ⟨idx, idxs, -, hperm, rfl⟩ := freeze_ok hs
      · exact h
      · exact modify_frozen_separate h hperm
    | validateData m => exact map_const_ok hs ▸ h
    | missingBlocks m => exact map_const_ok hs ▸ h

theorem call_spares {a : Call} (h : Separate c) (hocc : i ∈ c.occupiedIdxs) (hfrozen : (c.slot i).frozen)
    (ha : ¬ Unfreezes i c a) (hs : call hasher c a = .ok c') : Spares i c c' := by
  cases a with
  | frozen idx enable =>
    obtain ⟨idxs, hperm, rfl⟩ := setFrozen_ok hs
    refine modify_frozen_spares hfrozen (fun hidx => ?_) hperm
    cases enable with
    | true => rfl
    | false => exact (ha hidx).elim
  | op op =>
    cases op with
    | growToFit count => exact Except.ok.inj hs ▸ growToFit_spares c count i
    | freeSlots count => exact Except.ok.inj hs ▸ freeSlots_spares hfrozen count
    | ensureCapacity count => exact Except.ok.inj hs ▸ ensureCapacity_spares hfrozen count
    | reserveSlot =>
      obtain ⟨idx, hr⟩ := map_snd_ok hs
      obtain ⟨kept, hf, rfl⟩ := reserveSlot_ok hr
      exact occupy_spares c 1 kept [idx] i
    | reserveSlots count =>
      obtain ⟨idxs, hr⟩ := map_snd_ok hs
      obtain ⟨kept, hf, -, rfl⟩ := reserveSlots_ok hr
      exact occupy_spares c count kept idxs i
    | promote idx =>
      obtain ⟨idxs, hperm, rfl⟩ := promote_ok hs
      exact ⟨rfl, hperm.mem_iff.mpr⟩
    | store src =>
      obtain ⟨hash, hr⟩ := map_snd_ok hs
      exact store_spares h hocc hr
    | storeBlock ref expectedSize src =>
      obtain ⟨found, hr⟩ := map_snd_ok hs
      exact storeBlock_spares h hocc hr
    | find ref => exact Except.ok.inj hs ▸ ⟨rfl, id⟩
    | frozen ref enable =>
      obtain rfl | ⟨idx, idxs, hfind, hperm, rfl⟩ := freeze_ok hs
      · exact ⟨rfl, id⟩
      · refine modify_frozen_spares hfrozen (fun hidx => ?_) hperm
        cases enable with
        | true => rfl
        | false => exact (ha (hidx ▸ hfind)).elim
    | validateData m => exact map_const_ok hs ▸ ⟨rfl, id⟩
    | missingBlocks m => exact map_const_ok hs ▸ ⟨rfl, id⟩

theorem Separate.survives (h : Separate c) (hocc : i ∈ c.occupiedIdxs) : Survives i (c.slot i) c where
  slot_eq := rfl
  occupied := hocc
  reserveSlot idx c' hr := by
    obtain ⟨kept, hf, -⟩ := reserveSlot_ok hr
    rintro rfl
    exact h.not_taken hf hocc (List.mem_singleton_self idx)
  reserveSlots count idxs c' hr := by
    obtain ⟨kept, hf, -, -⟩ := reserveSlots_ok hr
    exact h.not_taken hf hocc

end Steps

end Freezing

end YingSma.ContentCache
