import Mathlib.Algebra.BigOperators.Group.Finset.Piecewise
import Mathlib.Algebra.Order.BigOperators.Group.Finset

/-! Threads as a function to the places where they stand: what a step of one thread does to a sum
over all of them. -/
namespace YingSma.ThreadTotals

variable {T P M : Type*} [Fintype T] [AddCommMonoid M]

/-- What all the threads weigh together. -/
def total (weight : P → M) (places : T → P) : M := ∑ t, weight (places t)

theorem total_congr {weight : P → M} {places places' : T → P}
    (h : ∀ t, weight (places' t) = weight (places t)) :
    total weight places' = total weight places :=
  Finset.sum_congr rfl fun t _ => h t

theorem total_zero {weight : P → M} {places : T → P} (h : ∀ t, weight (places t) = 0) :
    total weight places = 0 :=
  Finset.sum_eq_zero fun t _ => h t

theorem total_pos {weight : P → ℕ} {places : T → P} (h : total weight places ≠ 0) :
    ∃ t, weight (places t) ≠ 0 := by
  by_contra hnone
  push Not at hnone
  exact h (total_zero hnone)

theorem total_le {weight : P → ℕ} {places : T → P} {bound : ℕ} (h : ∀ p, weight p ≤ bound) :
    total weight places ≤ bound * Fintype.card T := by
  have hsum : total weight places ≤ ∑ _t : T, bound := Finset.sum_le_sum fun t _ => h (places t)
  simpa [Nat.mul_comm] using hsum

variable [DecidableEq T]

theorem le_total {weight : P → ℕ} {places : T → P} (t : T) :
    weight (places t) ≤ total weight places := by
  rw [total, ← Finset.sum_erase_add _ _ (Finset.mem_univ t)]
  exact Nat.le_add_left _ _

/-- One thread goes to another place. -/
theorem total_update (weight : P → M) (places : T → P) (t : T) (p : P) :
    total weight (Function.update places t p) + weight (places t) =
      total weight places + weight p := by
  have hcomp : ∀ t', weight (Function.update places t p t') =
      Function.update (fun t' => weight (places t')) t (weight p) t' :=
    fun t' => Function.apply_update (fun _ => weight) places t p t'
  have hsum := Finset.sum_erase_add Finset.univ (fun t' => weight (places t')) (Finset.mem_univ t)
  simp only [total, hcomp]
  rw [Finset.sum_update_of_mem (Finset.mem_univ t), ← Finset.erase_eq, ← hsum]
  rw [add_assoc, add_comm]

end YingSma.ThreadTotals
