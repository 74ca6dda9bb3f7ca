import Mathlib.Data.List.Basic
import Mathlib.Data.Nat.ModEq
import Mathlib.Tactic.Common

/-! Queues kept in a ring of cells: the elements follow one another from some cell on, and after
the last cell comes the first. -/
namespace YingSma.RingWindow

variable {α : Type*} {cells queue : List α} {start j : ℕ} {x y : α}

/-- The cells hold the queue from `start` on. -/
def Holds (cells : List α) (start : ℕ) (queue : List α) : Prop :=
  ∀ k, k < queue.length → cells[(start + k) % cells.length]? = queue[k]?

theorem holds_nil (cells : List α) (start : ℕ) : Holds cells start [] := by
  intro k hk
  cases hk

theorem holds_mod : Holds cells (start % cells.length) queue ↔ Holds cells start queue := by
  simp only [Holds, Nat.mod_add_mod]

theorem holds_cons :
    Holds cells start (x :: queue) ↔
      cells[start % cells.length]? = some x ∧ Holds cells (start + 1) queue := by
  constructor
  · intro h
    refine ⟨h 0 (Nat.succ_pos _), fun k hk => ?_⟩
    have hk' := h (k + 1) (Nat.succ_lt_succ hk)
    rwa [← Nat.add_assoc, Nat.add_right_comm] at hk'
  · rintro ⟨hx, h⟩ k hk
    cases k with
    | zero => exact hx
    | succ k =>
      rw [← Nat.add_assoc, Nat.add_right_comm]
      exact h k (Nat.lt_of_succ_lt_succ hk)

theorem holds_append {queue' : List α} :
    Holds cells start (queue ++ queue') ↔
      Holds cells start queue ∧ Holds cells (start + queue.length) queue' := by
  induction queue generalizing start with
  | nil => simp [holds_nil]
  | cons x queue ih =>
    rw [List.cons_append, holds_cons, holds_cons, ih, List.length_cons, and_assoc,
      Nat.add_assoc, Nat.add_comm 1]

/-- The queue in a list that starts with it. -/
theorem holds_front (queue rest : List α) : Holds (queue ++ rest) 0 queue := by
  intro k hk
  have hlt : k < (queue ++ rest).length := by
    rw [List.length_append]
    omega
  rw [Nat.zero_add, Nat.mod_eq_of_lt hlt, List.getElem?_append_left hk]

/-- Different places less than a turn apart are different cells. -/
theorem slot_ne {n i j : ℕ} (hi : i < n) (hj : j < n) (hne : i ≠ j) :
    (start + i) % n ≠ (start + j) % n := by
  intro h
  have hmod : i % n = j % n := Nat.ModEq.add_left_cancel' start h
  rw [Nat.mod_eq_of_lt hi, Nat.mod_eq_of_lt hj] at hmod
  exact hne hmod

/-- A cell behind the queue can be written. -/
theorem Holds.set (h : Holds cells start queue) (hqueue : queue.length ≤ j)
    (hj : j < cells.length) (y : α) :
    Holds (cells.set ((start + j) % cells.length) y) start queue := by
  intro k hk
  rw [List.length_set, List.getElem?_set_ne]
  · exact h k hk
  · exact slot_ne hj (by omega) (by omega)

/-- Writing the next free cell makes the queue longer. -/
theorem Holds.push (h : Holds cells start queue) (hqueue : queue.length < cells.length) (y : α) :
    Holds (cells.set ((start + queue.length) % cells.length) y) start (queue ++ [y]) := by
  refine holds_append.mpr ⟨h.set le_rfl hqueue y, holds_cons.mpr ⟨?_, holds_nil _ _⟩⟩
  rw [List.length_set, List.getElem?_set_self (Nat.mod_lt _ (by omega))]

/-- Once its first element is out of the queue its cell can be written. -/
theorem Holds.pop (h : Holds cells start (x :: queue)) (hqueue : queue.length < cells.length)
    (y : α) : Holds (cells.set (start % cells.length) y) (start + 1) queue := by
  have hturn : (start + 1 + (cells.length - 1)) % cells.length = start % cells.length := by
    rw [show start + 1 + (cells.length - 1) = start + cells.length by omega, Nat.add_mod_right]
  rw [← hturn]
  exact (holds_cons.mp h).2.set (by omega) (by omega) y

/-- In a full ring the newest element takes the cell of the oldest. -/
theorem Holds.overwrite (h : Holds cells start (x :: queue))
    (hqueue : queue.length + 1 = cells.length) (y : α) :
    Holds (cells.set (start % cells.length) y) (start + 1) (queue ++ [y]) := by
  refine holds_append.mpr ⟨h.pop (by omega) y, holds_cons.mpr ⟨?_, holds_nil _ _⟩⟩
  rw [List.length_set, show start + 1 + queue.length = start + cells.length by omega,
    Nat.add_mod_right, List.getElem?_set_self (Nat.mod_lt _ (by omega))]

end YingSma.RingWindow
