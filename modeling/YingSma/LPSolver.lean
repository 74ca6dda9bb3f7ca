import YingSma.Messages
import YingSma.SparseProgram

/-! `LPSolver::solve`: which blocks to cache at which time, as a 0/1 program for GLPK. The
utilities and sums are rational numbers, and a matrix is a function of its two indices. -/
namespace YingSma.LPSolver

/-- The arguments of `solve`. -/
structure Input where
  maxTtl : ℕ
  numOfBlocks : ℕ
  storage : ℕ
  bandwidth : ℕ
  numOfNeighbor : ℕ
  ttlPerBlock : ℕ → ℕ → ℤ
  utility : ℕ → ℕ → ℚ

/-- The conversion of a `size_t` to the `int` that GLPK takes. -/
def toInt (x : ℕ) : ℤ := Int.bmod x (2 ^ 32)

section Rows

variable (inp : Input)

def numOfRows : ℕ :=
  (inp.maxTtl + 2) + (inp.maxTtl + 1) + inp.numOfBlocks * (inp.maxTtl + 1)

/-- The upper bounds of the rows, in the order of `row_index`. -/
def rowUpperBounds : List ℚ :=
  ((List.range (inp.maxTtl + 2)).map fun _ => (inp.storage : ℚ)) ++
    ((List.range (inp.maxTtl + 1)).map fun _ => (inp.bandwidth : ℚ)) ++
    (List.range inp.numOfBlocks).flatMap fun _ => (List.range (inp.maxTtl + 1)).map fun _ => 0

end Rows

section Columns

variable (inp : Input)

def numOfCols : ℕ := (inp.maxTtl + 2) * inp.numOfBlocks

/-- The objective coefficient of block `c` at time `t`: at time 0 what all neighbours gain
by it, later minus what those gain whose deadline has just passed. -/
def objCoef (c t : ℕ) : ℚ :=
  if t = 0 then ((List.range inp.numOfNeighbor).map fun k => inp.utility k c).sum
  else
    -1 * ((List.range inp.numOfNeighbor).map fun k =>
      if inp.ttlPerBlock k c = -1 then 0
      else if inp.ttlPerBlock k c + 1 = t then inp.utility k c
      else 0).sum

/-- The coefficients of the columns, in the order of `col_index`. -/
def colObjCoefs : List ℚ :=
  (List.range inp.numOfBlocks).flatMap fun c => (List.range (inp.maxTtl + 2)).map (objCoef inp c)

end Columns

section Matrix

variable (inp : Input)

/-- At every time at most `storage` blocks are cached. -/
def constraintSet1 : List (MatrixEntry ℕ ℕ ℚ) :=
  (List.range (inp.maxTtl + 2)).flatMap fun t => (List.range inp.numOfBlocks).flatMap fun c =>
    [⟨1 + t, 1 + c * (inp.maxTtl + 2) + t, 1⟩]

/-- In every slot at most `bandwidth` blocks are given up. -/
def constraintSet2 : List (MatrixEntry ℕ ℕ ℚ) :=
  (List.range (inp.maxTtl + 1)).flatMap fun t => (List.range inp.numOfBlocks).flatMap fun c =>
    [⟨inp.maxTtl + 3 + t, 1 + c * (inp.maxTtl + 2) + t, 1⟩,
      ⟨inp.maxTtl + 3 + t, 1 + c * (inp.maxTtl + 2) + t + 1, -1⟩]

/-- A block is not cached again. The third set is commented out. -/
def constraintSet4 : List (MatrixEntry ℕ ℕ ℚ) :=
  (List.range inp.numOfBlocks).flatMap fun c => (List.range (inp.maxTtl + 1)).flatMap fun t =>
    [⟨2 * inp.maxTtl + 4 + c * (inp.maxTtl + 1) + t, 1 + c * (inp.maxTtl + 2) + t, -1⟩,
      ⟨2 * inp.maxTtl + 4 + c * (inp.maxTtl + 1) + t, 1 + c * (inp.maxTtl + 2) + t + 1, 1⟩]

/-- The program in `size_t` numbers. `row_index` and `col_index` count from 1. -/
def program : SparseProgram ℕ ℕ ℚ where
  rowBounds := ((rowUpperBounds inp).zipIdx 1).map Prod.swap
  objCoefs := ((colObjCoefs inp).zipIdx 1).map Prod.swap
  entries := constraintSet1 inp ++ constraintSet2 inp ++ constraintSet4 inp

end Matrix

/-- What GLPK is given: the arguments of `glp_add_rows` and `glp_add_cols`, the number of
entries of `glp_load_matrix`, and the program in `int` numbers. -/
structure GlpProblem where
  rows : ℤ
  cols : ℤ
  ne : ℤ
  program : SparseProgram ℤ ℤ ℚ

/-- What GLPK insists on, or else it ends the program: its limits on the size of a problem,
and that every row and column that is named, bounded or given a coefficient has been added. -/
structure GlpProblem.Accepted (p : GlpProblem) : Prop where
  rows_range : 1 ≤ p.rows ∧ p.rows ≤ 100000000
  row_added : ∀ b ∈ p.program.rowBounds, 1 ≤ b.1 ∧ b.1 ≤ p.rows
  cols_range : 1 ≤ p.cols ∧ p.cols ≤ 100000000
  col_added : ∀ c ∈ p.program.objCoefs, 1 ≤ c.1 ∧ c.1 ≤ p.cols
  ne_range : 0 ≤ p.ne ∧ p.ne ≤ 500000000

instance (p : GlpProblem) : Decidable p.Accepted :=
  decidable_of_iff ((1 ≤ p.rows ∧ p.rows ≤ 100000000) ∧
      (∀ b ∈ p.program.rowBounds, 1 ≤ b.1 ∧ b.1 ≤ p.rows) ∧ (1 ≤ p.cols ∧ p.cols ≤ 100000000) ∧
      (∀ c ∈ p.program.objCoefs, 1 ≤ c.1 ∧ c.1 ≤ p.cols) ∧ 0 ≤ p.ne ∧ p.ne ≤ 500000000)
    ⟨fun ⟨hrows, hrow, hcols, hcol, hne⟩ => ⟨hrows, hrow, hcols, hcol, hne⟩,
      fun ⟨hrows, hrow, hcols, hcol, hne⟩ => ⟨hrows, hrow, hcols, hcol, hne⟩⟩

/-- GLPK reads as many entries of the arrays as it is told. -/
def problem (inp : Input) : GlpProblem :=
  let ne := toInt (program inp).entries.length
  { rows := toInt (numOfRows inp)
    cols := toInt (numOfCols inp)
    ne := ne
    program := { program inp with entries := (program inp).entries.take ne.toNat }.renumber toInt toInt }

/-- `sched_result[c][t] = value` -/
def writeCell (sched : List (List ℕ)) (c t value : ℕ) : Except Fault (List (List ℕ)) :=
  match sched[c]? with
  | some row => if t < row.length then .ok (sched.set c (row.set t value)) else .error .outOfBounds
  | none => .error .outOfBounds

/-- The loop that translates the result vector, from index `it` on. -/
def translate (maxTtl : ℕ) (result : ℕ → ℕ) :
    List ℕ → List (List ℕ) → Except Fault (List (List ℕ))
  | [], sched => .ok sched
  | it :: its, sched =>
      match writeCell sched (it / (maxTtl + 2)) (it % (maxTtl + 2)) (result it) with
      | .ok sched => translate maxTtl result its sched
      | .error e => .error e

/-- `solve`, with the column values `glp_intopt` leaves for a problem as `intopt`. -/
def solve (intopt : GlpProblem → ℤ → ℚ) (inp : Input) (sched : List (List ℕ)) :
    Except Fault (ℚ × List (List ℕ)) :=
  let answer := intopt (problem inp)
  let result := fun i => (answer (toInt (i + 1))).floor.toNat
  match translate inp.maxTtl result (List.range (numOfCols inp)) sched with
  | .ok sched => .ok ((problem inp).program.objective answer, sched)
  | .error e => .error e

end YingSma.LPSolver
