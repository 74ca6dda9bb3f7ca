import Mathlib.Data.List.Range
import Mathlib.Data.List.Nodup
import Mathlib.Data.List.Perm.Subperm
import Mathlib.Tactic.Common

/-! A pool of numbered slots, each either free or occupied, and the eviction of
list elements counted from the tail. -/
namespace YingSma.SlotPool

/-- The two lists share out the indices `0, …, n - 1` between them, each index once. -/
structure Partition (n : ℕ) (free occupied : List ℕ) : Prop where
  free_nodup : free.Nodup
  occupied_nodup : occupied.Nodup
  disjoint : ∀ i ∈ free, i ∉ occupied
  cover : ∀ i, i ∈ free ∨ i ∈ occupied ↔ i < n

namespace Partition

variable {n : ℕ} {free occupied : List ℕ}

theorem range (n : ℕ) : Partition n (List.range n) [] :=
  ⟨List.nodup_range, List.nodup_nil, by simp, by simp⟩

theorem lt_of_free (h : Partition n free occupied) {i : ℕ} (hi : i ∈ free) : i < n :=
  (h.cover i).mp (.inl hi)

theorem lt_of_occupied (h : Partition n free occupied) {i : ℕ} (hi : i ∈ occupied) : i < n :=
  (h.cover i).mp (.inr hi)

/-- New slots enter the pool at the end of the free list. -/
theorem grow (h : Partition n free occupied) (k : ℕ) :
    Partition (n + k) (free ++ List.range' n k) occupied where
  free_nodup := by
    apply h.free_nodup.append List.nodup_range'
    intro i hi hj
    have hlt := h.lt_of_free hi
    have hge := (List.mem_range'_1.mp hj).1
    omega
  occupied_nodup := h.occupied_nodup
  disjoint := by
    intro i hi ho
    rcases List.mem_append.mp hi with hf | hr
    · exact h.disjoint i hf ho
    · have hlt := h.lt_of_occupied ho
      have hge := (List.mem_range'_1.mp hr).1
      omega
  cover := by
    intro i
    have hc := h.cover i
    simp only [List.mem_append, List.mem_range'_1]
    constructor
    · rintro ((hf | hr) | ho)
      · exact Nat.lt_add_right k (hc.mp (.inl hf))
      · exact hr.2
      · exact Nat.lt_add_right k (hc.mp (.inr ho))
    · intro hi
      by_cases hn : i < n
      · rcases hc.mpr hn with hf | ho
        · exact .inl (.inl hf)
        · exact .inr ho
      · exact .inl (.inr ⟨by omega, hi⟩)

/-- A stretch at the end of the free list moves to the head of the occupied one. -/
theorem take {kept taken : List ℕ} (h : Partition n (kept ++ taken) occupied) :
    Partition n kept (taken ++ occupied) where
  free_nodup := (List.nodup_append.mp h.free_nodup).1
  occupied_nodup := by
    apply (List.nodup_append.mp h.free_nodup).2.1.append h.occupied_nodup
    intro i hi ho
    exact h.disjoint i (List.mem_append.mpr (.inr hi)) ho
  disjoint := by
    intro i hk hi
    rcases List.mem_append.mp hi with ht | ho
    · exact (List.nodup_append.mp h.free_nodup).2.2 i hk i ht rfl
    · exact h.disjoint i (List.mem_append.mpr (.inl hk)) ho
  cover := by
    intro i
    rw [← h.cover i, List.mem_append, List.mem_append, or_assoc]

theorem perm {occupied' : List ℕ} (h : Partition n free occupied)
    (hp : occupied'.Perm occupied) : Partition n free occupied' where
  free_nodup := h.free_nodup
  occupied_nodup := hp.nodup_iff.mpr h.occupied_nodup
  disjoint := fun i hi ho => h.disjoint i hi (hp.mem_iff.mp ho)
  cover := fun i => by rw [hp.mem_iff, h.cover i]

/-- Dropping entries of the occupied list while the free list stays keeps the
partition only when nothing is dropped. -/
theorem sublist_iff {occupied' : List ℕ} (h : Partition n free occupied)
    (hs : occupied'.Sublist occupied) : Partition n free occupied' ↔ occupied' = occupied := by
  constructor
  · intro h'
    have hsub : occupied ⊆ occupied' := by
      intro i hi
      rcases (h'.cover i).mpr (h.lt_of_occupied hi) with hf | ho
      · exact (h.disjoint i hf hi).elim
      · exact ho
    exact hs.eq_of_length_le (h.occupied_nodup.subperm hsub).length_le
  · rintro rfl
    exact h

end Partition

variable {α : Type*}

/-- Keep of the last `n` elements only those that `p` holds of. -/
def keepTail (p : α → Bool) (n : ℕ) (l : List α) : List α :=
  l.take (l.length - n) ++ (l.drop (l.length - n)).filter p

theorem keepTail_sublist (p : α → Bool) (n : ℕ) (l : List α) : (keepTail p n l).Sublist l := by
  have h : (keepTail p n l).Sublist (l.take (l.length - n) ++ l.drop (l.length - n)) :=
    (List.Sublist.refl _).append List.filter_sublist
  rwa [List.take_append_drop] at h

theorem keepTail_eq_self_iff (p : α → Bool) (n : ℕ) (l : List α) :
    keepTail p n l = l ↔ ∀ x ∈ l.drop (l.length - n), p x = true := by
  have hl : l = l.take (l.length - n) ++ l.drop (l.length - n) := (List.take_append_drop _ _).symm
  constructor
  · intro h
    have hf : (l.drop (l.length - n)).filter p = l.drop (l.length - n) :=
      List.append_cancel_left (h.trans hl)
    exact List.filter_eq_self.mp hf
  · intro h
    unfold keepTail
    rw [List.filter_eq_self.mpr h]
    exact List.take_append_drop _ _

/-- Remove the first `n` elements that `p` holds of. -/
def eraseFirst (p : α → Bool) : ℕ → List α → List α
  | 0, l => l
  | _ + 1, [] => []
  | n + 1, x :: l => if p x then eraseFirst p n l else x :: eraseFirst p (n + 1) l

/-- Remove the `n` elements nearest the tail that `p` holds of. -/
def eraseLast (p : α → Bool) (n : ℕ) (l : List α) : List α :=
  (eraseFirst p n l.reverse).reverse

@[simp] theorem eraseLast_zero (p : α → Bool) (l : List α) : eraseLast p 0 l = l := by
  simp [eraseLast, eraseFirst]

end YingSma.SlotPool
