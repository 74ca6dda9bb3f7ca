import Mathlib.Tactic
import Mathlib.Algebra.BigOperators.Group.Finset.Basic

/-! Sparse 0/1 programs: rows with upper bounds, columns with objective coefficients and
the nonzero entries of the matrix, listed in the order in which they are loaded. -/
namespace YingSma

structure MatrixEntry (ι κ R : Type) where
  row : ι
  col : κ
  coef : R
  deriving DecidableEq

def MatrixEntry.renumber {ι κ ι' κ' R : Type} (f : ι → ι') (g : κ → κ') (e : MatrixEntry ι κ R) :
    MatrixEntry ι' κ' R :=
  ⟨f e.row, g e.col, e.coef⟩

structure SparseProgram (ι κ R : Type) where
  rowBounds : List (ι × R)
  objCoefs : List (κ × R)
  entries : List (MatrixEntry ι κ R)

namespace SparseProgram

variable {ι κ ι' κ' R : Type}

/-- The entries of row `i`, applied to the column values `y`. -/
def rowSum [DecidableEq ι] [Semiring R] (entries : List (MatrixEntry ι κ R)) (y : κ → R) (i : ι) : R :=
  (entries.map fun e => if e.row = i then e.coef * y e.col else 0).sum

/-- The column values `y` keep all rows within their bounds. -/
def Satisfies [DecidableEq ι] [Semiring R] [LE R] (p : SparseProgram ι κ R) (y : κ → R) : Prop :=
  ∀ b ∈ p.rowBounds, rowSum p.entries y b.1 ≤ b.2

def objective [Semiring R] (p : SparseProgram ι κ R) (y : κ → R) : R :=
  (p.objCoefs.map fun c => c.2 * y c.1).sum

/-- Every column that is given a coefficient is 0 or 1. -/
def Binary [Semiring R] (p : SparseProgram ι κ R) (y : κ → R) : Prop :=
  ∀ c ∈ p.objCoefs, y c.1 = 0 ∨ y c.1 = 1

/-- What a solver may answer with. -/
structure Feasible [DecidableEq ι] [Semiring R] [LE R] (p : SparseProgram ι κ R) (y : κ → R) : Prop where
  satisfies : p.Satisfies y
  binary : ∀ c ∈ p.objCoefs, y c.1 = 0 ∨ y c.1 = 1

instance [DecidableEq ι] [DecidableEq R] [Semiring R] [LE R] [DecidableLE R] (p : SparseProgram ι κ R)
    (y : κ → R) : Decidable (p.Feasible y) :=
  decidable_of_iff ((∀ b ∈ p.rowBounds, rowSum p.entries y b.1 ≤ b.2) ∧
      ∀ c ∈ p.objCoefs, y c.1 = 0 ∨ y c.1 = 1)
    ⟨fun ⟨hsatisfies, hbinary⟩ => ⟨hsatisfies, hbinary⟩,
      fun ⟨hsatisfies, hbinary⟩ => ⟨hsatisfies, hbinary⟩⟩

/-- The same program under other row and column numbers. -/
def renumber (f : ι → ι') (g : κ → κ') (p : SparseProgram ι κ R) : SparseProgram ι' κ' R where
  rowBounds := p.rowBounds.map fun b => (f b.1, b.2)
  objCoefs := p.objCoefs.map fun c => (g c.1, c.2)
  entries := p.entries.map (MatrixEntry.renumber f g)

section Sums

variable [DecidableEq ι] [Semiring R] (y : κ → R) (i : ι)

theorem rowSum_append (es es' : List (MatrixEntry ι κ R)) :
    rowSum (es ++ es') y i = rowSum es y i + rowSum es' y i := by
  simp [rowSum]

theorem rowSum_flatMap_range (n : ℕ) (f : ℕ → List (MatrixEntry ι κ R)) :
    rowSum ((List.range n).flatMap f) y i = ∑ k ∈ Finset.range n, rowSum (f k) y i := by
  induction n with
  | zero => rfl
  | succ n ih =>
    rw [List.range_succ, List.flatMap_append, rowSum_append, ih, Finset.sum_range_succ]
    simp

/-- Rows other than the one asked for add nothing. -/
theorem rowSum_of_ne {es : List (MatrixEntry ι κ R)} (h : ∀ e ∈ es, e.row ≠ i) :
    rowSum es y i = 0 := by
  apply List.sum_eq_zero
  intro v hv
  obtain ⟨e, he, rfl⟩ := List.mem_map.mp hv
  exact if_neg (h e he)

/-- Of the stretches of a matrix, only the one with the row asked for counts. -/
theorem rowSum_flatMap_single {n k : ℕ} (hk : k < n) (f : ℕ → List (MatrixEntry ι κ R))
    (h : ∀ k' < n, k' ≠ k → ∀ e ∈ f k', e.row ≠ i) :
    rowSum ((List.range n).flatMap f) y i = rowSum (f k) y i := by
  rw [rowSum_flatMap_range]
  apply Finset.sum_eq_single_of_mem k (Finset.mem_range.mpr hk)
  intro k' hk' hne
  exact rowSum_of_ne y i (h k' (Finset.mem_range.mp hk') hne)

end Sums

section Renumbering

variable [Semiring R] {f : ι → ι'} {p : SparseProgram ι κ R}

/-- Renumbering is harmless where it keeps the rows apart. -/
theorem satisfies_renumber [DecidableEq ι] [DecidableEq ι'] [LE R] (g : κ → κ')
    (hf : ∀ e ∈ p.entries, ∀ b ∈ p.rowBounds, f e.row = f b.1 → e.row = b.1) (y : κ' → R) :
    (p.renumber f g).Satisfies y ↔ p.Satisfies (y ∘ g) := by
  have hsum : ∀ b ∈ p.rowBounds,
      rowSum (p.renumber f g).entries y (f b.1) = rowSum p.entries (y ∘ g) b.1 := by
    intro b hb
    simp only [rowSum, renumber, List.map_map]
    refine congrArg List.sum (List.map_congr_left fun e he => ?_)
    have hiff : f e.row = f b.1 ↔ e.row = b.1 := ⟨hf e he b hb, fun h => h ▸ rfl⟩
    simp only [Function.comp_apply, MatrixEntry.renumber, hiff]
  constructor
  · intro h b hb
    exact hsum b hb ▸ h (f b.1, b.2) (List.mem_map_of_mem hb)
  · intro h b' hb'
    obtain ⟨b, hb, rfl⟩ := List.mem_map.mp hb'
    exact (hsum b hb).symm ▸ h b hb

theorem objective_renumber (f : ι → ι') (g : κ → κ') (p : SparseProgram ι κ R) (y : κ' → R) :
    (p.renumber f g).objective y = p.objective (y ∘ g) := by
  simp only [objective, renumber, List.map_map]
  rfl

end Renumbering

end SparseProgram

end YingSma
