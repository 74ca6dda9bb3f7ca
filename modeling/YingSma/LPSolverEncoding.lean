import YingSma.LPSolver

/-! The program `solve` loads is the scheduling problem: each schedule constraint is one
row, each block and time is one column, and the objective is the utility gained. -/
namespace YingSma.LPSolver
open SparseProgram

section Flattening

variable {w n a r a' r' : ℕ}

theorem flat_lt (ha : a < n) (hr : r < w) : a * w + r < n * w := by
  have hle : (a + 1) * w ≤ n * w := Nat.mul_le_mul_right w ha
  rw [Nat.succ_mul] at hle
  omega

/-- A flattened index determines its two parts. -/
theorem flat_inj (hr : r < w) (hr' : r' < w) (h : a * w + r = a' * w + r') : a = a' ∧ r = r' := by
  have hle : ∀ {b b' : ℕ}, b < b' → b * w + w ≤ b' * w := fun hb =>
    (Nat.succ_mul _ w).symm.trans_le (Nat.mul_le_mul_right w hb)
  rcases lt_trichotomy a a' with hlt | rfl | hgt
  · have := hle hlt
    omega
  · exact ⟨rfl, by omega⟩
  · have := hle hgt
    omega

/-- Numbering a matrix row by row. -/
theorem zipIdx_flatMap_range {α : Type} (g : ℕ → ℕ → α) (n w s : ℕ) :
    ((List.range n).flatMap fun c => (List.range w).map (g c)).zipIdx s =
      (List.range n).flatMap fun c => (List.range w).map fun t => (g c t, s + c * w + t) := by
  have hblock : ∀ c s, ((List.range w).map (g c)).zipIdx s =
      (List.range w).map fun t => (g c t, s + t) := by
    intro c s
    apply List.ext_getElem (by simp)
    intro k hk _
    simp
  induction n with
  | zero => rfl
  | succ n ih =>
    have hlen : ((List.range n).flatMap fun c => (List.range w).map (g c)).length = n * w := by
      simp [List.length_flatMap]
    rw [List.range_succ, List.flatMap_append, List.flatMap_append, List.zipIdx_append, ih, hlen]
    simp [hblock]

theorem nodup_flatMap_range {α : Type} {f : ℕ → List α} (hf : ∀ k < n, (f k).Nodup)
    (hapart : ∀ k < n, ∀ k' < n, ∀ e ∈ f k, e ∈ f k' → k = k') :
    ((List.range n).flatMap f).Nodup := by
  rw [List.nodup_flatMap]
  refine ⟨fun k hk => hf k (List.mem_range.mp hk), ?_⟩
  refine List.nodup_range.pairwise_of_forall_ne fun k hk k' hk' hne e he he' => hne ?_
  exact hapart k (List.mem_range.mp hk) k' (List.mem_range.mp hk') e he he'

end Flattening

section Entries

variable (inp : Input)

/-- The column of block `c` at time `t`. -/
def column (c t : ℕ) : ℕ := 1 + c * (inp.maxTtl + 2) + t

/-- The place of an entry in the matrix. -/
def place {ι κ : Type} (e : MatrixEntry ι κ ℚ) : ι × κ := (e.row, e.col)

variable {inp} {e : MatrixEntry ℕ ℕ ℚ}

theorem mem_constraintSet1 : e ∈ constraintSet1 inp ↔ ∃ t < inp.maxTtl + 2, ∃ c < inp.numOfBlocks,
    e = ⟨1 + t, column inp c t, 1⟩ := by
  simp [constraintSet1, column]

theorem mem_constraintSet2 : e ∈ constraintSet2 inp ↔ ∃ t < inp.maxTtl + 1, ∃ c < inp.numOfBlocks,
    e = ⟨inp.maxTtl + 3 + t, column inp c t, 1⟩ ∨
      e = ⟨inp.maxTtl + 3 + t, column inp c (t + 1), -1⟩ := by
  simp [constraintSet2, column, Nat.add_assoc]

theorem mem_constraintSet4 : e ∈ constraintSet4 inp ↔ ∃ c < inp.numOfBlocks, ∃ t < inp.maxTtl + 1,
    e = ⟨2 * inp.maxTtl + 4 + c * (inp.maxTtl + 1) + t, column inp c t, -1⟩ ∨
      e = ⟨2 * inp.maxTtl + 4 + c * (inp.maxTtl + 1) + t, column inp c (t + 1), 1⟩ := by
  simp [constraintSet4, column, Nat.add_assoc]

theorem column_pos (inp : Input) (c t : ℕ) : 1 ≤ column inp c t := by
  unfold column
  omega

theorem column_le {c t : ℕ} (hc : c < inp.numOfBlocks) (ht : t < inp.maxTtl + 2) :
    column inp c t ≤ numOfCols inp := by
  have hlt := flat_lt hc ht
  unfold column numOfCols
  rw [Nat.mul_comm (inp.maxTtl + 2)]
  omega

theorem column_inj {c t c' t' : ℕ} (ht : t < inp.maxTtl + 2) (ht' : t' < inp.maxTtl + 2)
    (h : column inp c t = column inp c' t') : c = c' ∧ t = t' := by
  unfold column at h
  exact flat_inj ht ht' (by omega)

theorem constraintSet1_row (he : e ∈ constraintSet1 inp) :
    1 ≤ e.row ∧ e.row < inp.maxTtl + 3 := by
  obtain ⟨t, ht, c, -, rfl⟩ := mem_constraintSet1.mp he
  dsimp only
  omega

theorem constraintSet2_row (he : e ∈ constraintSet2 inp) :
    inp.maxTtl + 3 ≤ e.row ∧ e.row < 2 * inp.maxTtl + 4 := by
  obtain ⟨t, ht, c, -, rfl | rfl⟩ := mem_constraintSet2.mp he <;> dsimp only <;> omega

theorem constraintSet4_row (he : e ∈ constraintSet4 inp) :
    2 * inp.maxTtl + 4 ≤ e.row ∧ e.row ≤ numOfRows inp := by
  obtain ⟨c, hc, t, ht, h⟩ := mem_constraintSet4.mp he
  have hrow : e.row = 2 * inp.maxTtl + 4 + (c * (inp.maxTtl + 1) + t) := by
    obtain rfl | rfl := h <;> exact Nat.add_assoc _ _ _
  have hlt := flat_lt hc ht
  unfold numOfRows
  omega

theorem mem_entries : e ∈ (program inp).entries ↔
    (e ∈ constraintSet1 inp ∨ e ∈ constraintSet2 inp) ∨ e ∈ constraintSet4 inp := by
  simp only [program, List.mem_append]

theorem entry_row_range (he : e ∈ (program inp).entries) : 1 ≤ e.row ∧ e.row ≤ numOfRows inp := by
  have hrows : 2 * inp.maxTtl + 3 ≤ numOfRows inp := by
    unfold numOfRows
    omega
  rcases mem_entries.mp he with (he | he) | he
  · have h := constraintSet1_row he
    omega
  · have h := constraintSet2_row he
    omega
  · have h := constraintSet4_row he
    omega

theorem entry_col_range (he : e ∈ (program inp).entries) : 1 ≤ e.col ∧ e.col ≤ numOfCols inp := by
  have hcol : ∃ c < inp.numOfBlocks, ∃ t < inp.maxTtl + 2, e.col = column inp c t := by
    rcases mem_entries.mp he with (he | he) | he
    · obtain ⟨t, ht, c, hc, rfl⟩ := mem_constraintSet1.mp he
      exact ⟨c, hc, t, ht, rfl⟩
    · rcases mem_constraintSet2.mp he with ⟨t, ht, c, hc, rfl | rfl⟩
      · exact ⟨c, hc, t, by omega, rfl⟩
      · exact ⟨c, hc, t + 1, by omega, rfl⟩
    · rcases mem_constraintSet4.mp he with ⟨c, hc, t, ht, rfl | rfl⟩
      · exact ⟨c, hc, t, by omega, rfl⟩
      · exact ⟨c, hc, t + 1, by omega, rfl⟩
  obtain ⟨c, hc, t, ht, h⟩ := hcol
  exact h ▸ ⟨column_pos inp c t, column_le hc ht⟩

section Places

variable (inp : Input)

theorem constraintSet1_nodup : ((constraintSet1 inp).map place).Nodup := by
  simp only [constraintSet1, List.map_flatMap, List.map_cons, List.map_nil, place]
  refine nodup_flatMap_range (fun t ht => nodup_flatMap_range (fun c _ => List.nodup_singleton _) ?_) ?_
  · intro c _ c' _ q hq hq'
    simp only [List.mem_singleton] at hq hq'
    exact (column_inj ht ht (Prod.mk.inj (hq.symm.trans hq')).2).1
  · intro t _ t' _ q hq hq'
    simp only [List.mem_flatMap, List.mem_singleton] at hq hq'
    obtain ⟨c, -, rfl⟩ := hq
    obtain ⟨c', -, h⟩ := hq'
    have hrow := (Prod.mk.inj h).1
    omega

theorem constraintSet2_nodup : ((constraintSet2 inp).map place).Nodup := by
  simp only [constraintSet2, List.map_flatMap, List.map_cons, List.map_nil, place]
  refine nodup_flatMap_range (fun t ht => nodup_flatMap_range (fun c _ => ?_) ?_) ?_
  · simp
  · intro c _ c' _ q hq hq'
    -- The two columns are those of times `t` and `t + 1`, on both sides.
    have hcol : ∀ d, q ∈ [(inp.maxTtl + 3 + t, 1 + d * (inp.maxTtl + 2) + t),
        (inp.maxTtl + 3 + t, 1 + d * (inp.maxTtl + 2) + t + 1)] →
        ∃ t' < inp.maxTtl + 2, q.2 = column inp d t' := by
      intro d hd
      simp only [List.mem_cons, List.not_mem_nil, or_false] at hd
      rcases hd with rfl | rfl
      · exact ⟨t, by omega, rfl⟩
      · exact ⟨t + 1, by omega, rfl⟩
    obtain ⟨s, hs, h⟩ := hcol c hq
    obtain ⟨s', hs', h'⟩ := hcol c' hq'
    exact (column_inj hs hs' (h.symm.trans h')).1
  · intro t _ t' _ q hq hq'
    have hrow : ∀ s, (q ∈ (List.range inp.numOfBlocks).flatMap fun c =>
        [(inp.maxTtl + 3 + s, 1 + c * (inp.maxTtl + 2) + s),
          (inp.maxTtl + 3 + s, 1 + c * (inp.maxTtl + 2) + s + 1)]) → q.1 = inp.maxTtl + 3 + s := by
      intro s hs
      simp only [List.mem_flatMap, List.mem_cons, List.not_mem_nil, or_false] at hs
      obtain ⟨c, -, rfl | rfl⟩ := hs <;> rfl
    have h := (hrow t hq).symm.trans (hrow t' hq')
    omega

theorem constraintSet4_nodup : ((constraintSet4 inp).map place).Nodup := by
  simp only [constraintSet4, List.map_flatMap, List.map_cons, List.map_nil, place]
  have hrow : ∀ c t q, q ∈ [(2 * inp.maxTtl + 4 + c * (inp.maxTtl + 1) + t,
        1 + c * (inp.maxTtl + 2) + t),
      (2 * inp.maxTtl + 4 + c * (inp.maxTtl + 1) + t, 1 + c * (inp.maxTtl + 2) + t + 1)] →
      q.1 = 2 * inp.maxTtl + 4 + (c * (inp.maxTtl + 1) + t) := by
    intro c t q hq
    simp only [List.mem_cons, List.not_mem_nil, or_false] at hq
    obtain rfl | rfl := hq <;> exact Nat.add_assoc _ _ _
  refine nodup_flatMap_range (fun c _ => nodup_flatMap_range (fun t _ => ?_) ?_) ?_
  · simp
  · intro t ht t' ht' q hq hq'
    have h := (hrow c t q hq).symm.trans (hrow c t' q hq')
    omega
  · intro c _ c' _ q hq hq'
    obtain ⟨t, ht, hq⟩ := List.mem_flatMap.mp hq
    obtain ⟨t', ht', hq'⟩ := List.mem_flatMap.mp hq'
    have h := (hrow c t q hq).symm.trans (hrow c' t' q hq')
    exact (flat_inj (List.mem_range.mp ht) (List.mem_range.mp ht') (Nat.add_left_cancel h)).1

/-- No place of the matrix is filled twice. -/
theorem entries_nodup : ((program inp).entries.map place).Nodup := by
  have happart : ∀ {l l' : List (MatrixEntry ℕ ℕ ℚ)}, (∀ e ∈ l, ∀ e' ∈ l', e.row < e'.row) →
      (l.map place).Disjoint (l'.map place) := by
    intro l l' hlt q hq hq'
    obtain ⟨e, he, rfl⟩ := List.mem_map.mp hq
    obtain ⟨e', he', h⟩ := List.mem_map.mp hq'
    exact (hlt e he e' he').ne (congrArg Prod.fst h).symm
  have hentries : (program inp).entries =
      constraintSet1 inp ++ (constraintSet2 inp ++ constraintSet4 inp) := List.append_assoc _ _ _
  rw [hentries, List.map_append]
  refine (constraintSet1_nodup inp).append ?_ (happart ?_)
  · rw [List.map_append]
    refine (constraintSet2_nodup inp).append (constraintSet4_nodup inp) (happart ?_)
    intro e he e' he'
    exact (constraintSet2_row he).2.trans_le (constraintSet4_row he').1
  · intro e he e' he'
    have h := constraintSet1_row he
    rcases List.mem_append.mp he' with he' | he'
    · have h' := constraintSet2_row he'
      omega
    · have h' := constraintSet4_row he'
      omega

end Places

end Entries

section Constraints

variable (inp : Input) (y : ℕ → ℚ)

theorem rowSum_entries (i : ℕ) : rowSum (program inp).entries y i =
    rowSum (constraintSet1 inp) y i + rowSum (constraintSet2 inp) y i +
      rowSum (constraintSet4 inp) y i := by
  rw [program, rowSum_append, rowSum_append]

theorem rowSum_storage {t : ℕ} (ht : t < inp.maxTtl + 2) :
    rowSum (program inp).entries y (1 + t) = ∑ c ∈ Finset.range inp.numOfBlocks, y (column inp c t) := by
  have h₂ : rowSum (constraintSet2 inp) y (1 + t) = 0 := rowSum_of_ne y _ fun e he => by
    have h := constraintSet2_row he
    omega
  have h₄ : rowSum (constraintSet4 inp) y (1 + t) = 0 := rowSum_of_ne y _ fun e he => by
    have h := constraintSet4_row he
    omega
  rw [rowSum_entries, h₂, h₄, add_zero, add_zero, constraintSet1,
    rowSum_flatMap_single y (1 + t) ht, rowSum_flatMap_range]
  · apply Finset.sum_congr rfl
    intro c _
    simp [rowSum, column]
  · intro t' _ hne e he
    obtain ⟨c, -, he⟩ := List.mem_flatMap.mp he
    rw [List.mem_singleton.mp he]
    dsimp only
    omega

theorem rowSum_bandwidth {t : ℕ} (ht : t < inp.maxTtl + 1) :
    rowSum (program inp).entries y (inp.maxTtl + 3 + t) =
      ∑ c ∈ Finset.range inp.numOfBlocks, (y (column inp c t) - y (column inp c (t + 1))) := by
  have h₁ : rowSum (constraintSet1 inp) y (inp.maxTtl + 3 + t) = 0 := rowSum_of_ne y _ fun e he => by
    have h := constraintSet1_row he
    omega
  have h₄ : rowSum (constraintSet4 inp) y (inp.maxTtl + 3 + t) = 0 := rowSum_of_ne y _ fun e he => by
    have h := constraintSet4_row he
    omega
  rw [rowSum_entries, h₁, h₄, add_zero, zero_add, constraintSet2,
    rowSum_flatMap_single y (inp.maxTtl + 3 + t) ht, rowSum_flatMap_range]
  · apply Finset.sum_congr rfl
    intro c _
    simp [rowSum, column, sub_eq_add_neg, Nat.add_assoc]
  · intro t' _ hne e he
    obtain ⟨c, -, he⟩ := List.mem_flatMap.mp he
    simp only [List.mem_cons, List.not_mem_nil, or_false] at he
    obtain rfl | rfl := he <;> dsimp only <;> omega

theorem rowSum_once {c t : ℕ} (hc : c < inp.numOfBlocks) (ht : t < inp.maxTtl + 1) :
    rowSum (program inp).entries y (2 * inp.maxTtl + 4 + c * (inp.maxTtl + 1) + t) =
      y (column inp c (t + 1)) - y (column inp c t) := by
  have h₁ : rowSum (constraintSet1 inp) y (2 * inp.maxTtl + 4 + c * (inp.maxTtl + 1) + t) = 0 :=
    rowSum_of_ne y _ fun e he => by
      have h := constraintSet1_row he
      omega
  have h₂ : rowSum (constraintSet2 inp) y (2 * inp.maxTtl + 4 + c * (inp.maxTtl + 1) + t) = 0 :=
    rowSum_of_ne y _ fun e he => by
      have h := constraintSet2_row he
      omega
  have hrow : ∀ {c' t' : ℕ}, t' < inp.maxTtl + 1 →
      2 * inp.maxTtl + 4 + c' * (inp.maxTtl + 1) + t' =
        2 * inp.maxTtl + 4 + c * (inp.maxTtl + 1) + t → c' = c ∧ t' = t :=
    fun ht' h => flat_inj ht' ht (by omega)
  rw [rowSum_entries, h₁, h₂, add_zero, zero_add, constraintSet4, rowSum_flatMap_single y _ hc,
    rowSum_flatMap_single y _ ht]
  · simp [rowSum, column, Nat.add_assoc]
    ring
  · intro t' ht' hne e he
    simp only [List.mem_cons, List.not_mem_nil, or_false] at he
    obtain rfl | rfl := he <;> exact fun h => hne (hrow ht' h).2
  · intro c' _ hne e he
    obtain ⟨t', ht', he⟩ := List.mem_flatMap.mp he
    simp only [List.mem_cons, List.not_mem_nil, or_false] at he
    obtain rfl | rfl := he <;> exact fun h => hne (hrow (List.mem_range.mp ht') h).1

theorem rowBounds_eq : (program inp).rowBounds =
    ((List.range (inp.maxTtl + 2)).map fun t => (1 + t, (inp.storage : ℚ))) ++
      ((List.range (inp.maxTtl + 1)).map fun t => (inp.maxTtl + 3 + t, (inp.bandwidth : ℚ))) ++
      (List.range inp.numOfBlocks).flatMap fun c => (List.range (inp.maxTtl + 1)).map fun t =>
        (2 * inp.maxTtl + 4 + c * (inp.maxTtl + 1) + t, 0) := by
  have hblock : ∀ (n s : ℕ) (b : ℚ), ((List.range n).map fun _ => b).zipIdx s =
      (List.range n).map fun t => (b, s + t) := by
    intro n s b
    apply List.ext_getElem (by simp)
    intro k hk _
    simp
  simp only [program, rowUpperBounds, List.zipIdx_append, hblock, zipIdx_flatMap_range,
    List.map_append, List.map_map, List.map_flatMap, List.length_append, List.length_map,
    List.length_range]
  have h₂ : 1 + (inp.maxTtl + 2) = inp.maxTtl + 3 := by omega
  have h₄ : 1 + (inp.maxTtl + 2 + (inp.maxTtl + 1)) = 2 * inp.maxTtl + 4 := by omega
  rw [h₂, h₄]
  rfl

/-- The rows, read as constraints on the columns. -/
theorem satisfies_iff : (program inp).Satisfies y ↔
    (∀ t < inp.maxTtl + 2, ∑ c ∈ Finset.range inp.numOfBlocks, y (column inp c t) ≤ inp.storage) ∧
      (∀ t < inp.maxTtl + 1, ∑ c ∈ Finset.range inp.numOfBlocks,
        (y (column inp c t) - y (column inp c (t + 1))) ≤ inp.bandwidth) ∧
      ∀ c < inp.numOfBlocks, ∀ t < inp.maxTtl + 1, y (column inp c (t + 1)) ≤ y (column inp c t) := by
  unfold Satisfies
  rw [rowBounds_eq]
  simp only [List.forall_mem_append, List.forall_mem_map, List.mem_range, List.mem_flatMap]
  rw [and_assoc]
  refine and_congr ?_ (and_congr ?_ ?_)
  · exact forall₂_congr fun t ht => by rw [rowSum_storage inp y ht]
  · exact forall₂_congr fun t ht => by rw [rowSum_bandwidth inp y ht]
  · constructor
    · intro h c hc t ht
      have hrow := h _ ⟨c, hc, List.mem_map_of_mem (List.mem_range.mpr ht)⟩
      rw [rowSum_once inp y hc ht] at hrow
      exact sub_nonpos.mp hrow
    · rintro h b ⟨c, hc, hb⟩
      obtain ⟨t, ht, rfl⟩ := List.mem_map.mp hb
      rw [rowSum_once inp y hc (List.mem_range.mp ht)]
      exact sub_nonpos.mpr (h c hc t (List.mem_range.mp ht))

end Constraints

section Objective

variable (inp : Input)

theorem objCoefs_eq : (program inp).objCoefs =
    (List.range inp.numOfBlocks).flatMap fun c => (List.range (inp.maxTtl + 2)).map fun t =>
      (column inp c t, objCoef inp c t) := by
  simp only [program, colObjCoefs, zipIdx_flatMap_range, List.map_flatMap, List.map_map]
  rfl

theorem list_sum_range (n : ℕ) (f : ℕ → ℚ) :
    ((List.range n).map f).sum = ∑ k ∈ Finset.range n, f k := rfl

theorem objective_eq (y : ℕ → ℚ) : (program inp).objective y =
    ∑ c ∈ Finset.range inp.numOfBlocks, ∑ t ∈ Finset.range (inp.maxTtl + 2),
      objCoef inp c t * y (column inp c t) := by
  simp only [objective, objCoefs_eq, List.map_flatMap, List.map_map]
  rw [List.flatMap_def, List.sum_flatten, List.map_map, list_sum_range]
  exact Finset.sum_congr rfl fun c _ => rfl

/-- `x c t`: block `c` is cached at time `t`. -/
abbrev Assignment := ℕ → ℕ → Bool

/-- The assignment sits in the columns of the blocks and times. -/
def Placed (x : Assignment) (y : ℕ → ℚ) : Prop :=
  ∀ c < inp.numOfBlocks, ∀ t < inp.maxTtl + 2, y (column inp c t) = (x c t).toNat

/-- What the rows stand for. -/
structure Schedule (x : Assignment) : Prop where
  storage : ∀ t ≤ inp.maxTtl + 1, ∑ c ∈ Finset.range inp.numOfBlocks, (x c t).toNat ≤ inp.storage
  bandwidth : ∀ t ≤ inp.maxTtl, ∑ c ∈ Finset.range inp.numOfBlocks,
    (((x c t).toNat : ℤ) - (x c (t + 1)).toNat) ≤ inp.bandwidth
  once : ∀ c < inp.numOfBlocks, ∀ t ≤ inp.maxTtl, (x c (t + 1)).toNat ≤ (x c t).toNat

/-- Neighbour `k` gains by block `c`: it is cached at first, and given up by the deadline. -/
def Gains (x : Assignment) (k c : ℕ) : Prop :=
  x c 0 = true ∧ (inp.ttlPerBlock k c = -1 ∨ (inp.maxTtl : ℤ) < inp.ttlPerBlock k c ∨
    x c (inp.ttlPerBlock k c + 1).toNat = false)

instance (x : Assignment) (k c : ℕ) : Decidable (Gains inp x k c) :=
  inferInstanceAs (Decidable (_ ∧ _))

variable {inp} {x : Assignment} {y : ℕ → ℚ}

theorem satisfies_iff_schedule (hxy : Placed inp x y) :
    (program inp).Satisfies y ↔ Schedule inp x := by
  have hstorage : ∀ t < inp.maxTtl + 2,
      ∑ c ∈ Finset.range inp.numOfBlocks, y (column inp c t) =
        ((∑ c ∈ Finset.range inp.numOfBlocks, (x c t).toNat : ℕ) : ℚ) := by
    intro t ht
    rw [Nat.cast_sum]
    exact Finset.sum_congr rfl fun c hc => hxy c (Finset.mem_range.mp hc) t ht
  have hbandwidth : ∀ t < inp.maxTtl + 1,
      ∑ c ∈ Finset.range inp.numOfBlocks, (y (column inp c t) - y (column inp c (t + 1))) =
        ((∑ c ∈ Finset.range inp.numOfBlocks, (((x c t).toNat : ℤ) - (x c (t + 1)).toNat) : ℤ) : ℚ) := by
    intro t ht
    rw [Int.cast_sum]
    apply Finset.sum_congr rfl
    intro c hc
    rw [hxy c (Finset.mem_range.mp hc) t (by omega), hxy c (Finset.mem_range.mp hc) (t + 1) (by omega)]
    push_cast
    rfl
  rw [satisfies_iff]
  constructor
  · rintro ⟨hs, hb, ho⟩
    refine ⟨fun t ht => ?_, fun t ht => ?_, fun c hc t ht => ?_⟩
    · have h := hs t (by omega)
      rw [hstorage t (by omega)] at h
      exact_mod_cast h
    · have h := hb t (by omega)
      rw [hbandwidth t (by omega)] at h
      exact_mod_cast h
    · have h := ho c hc t (by omega)
      rw [hxy c hc t (by omega), hxy c hc (t + 1) (by omega)] at h
      exact_mod_cast h
  · rintro ⟨hs, hb, ho⟩
    refine ⟨fun t ht => ?_, fun t ht => ?_, fun c hc t ht => ?_⟩
    · rw [hstorage t ht]
      exact_mod_cast hs t (by omega)
    · rw [hbandwidth t ht]
      exact_mod_cast hb t (by omega)
    · rw [hxy c hc t (by omega), hxy c hc (t + 1) (by omega)]
      exact_mod_cast ho c hc t (by omega)

/-- A block that is not cached at first is never cached. -/
theorem Schedule.cached_first (h : Schedule inp x) {c t : ℕ} (hc : c < inp.numOfBlocks)
    (ht : t ≤ inp.maxTtl + 1) (hx : x c t = true) : x c 0 = true := by
  induction t with
  | zero => exact hx
  | succ t ih =>
    apply ih (by omega)
    have hle := h.once c hc t (by omega)
    rw [hx] at hle
    cases hxt : x c t with
    | true => rfl
    | false =>
      rw [hxt] at hle
      exact absurd hle (by decide)

/-- The objective coefficients of one block, sorted by neighbour. -/
theorem sum_objCoef (c : ℕ) (v : ℕ → ℚ) :
    ∑ t ∈ Finset.range (inp.maxTtl + 2), objCoef inp c t * v t =
      ∑ k ∈ Finset.range inp.numOfNeighbor, (inp.utility k c * v 0 -
        ∑ t ∈ Finset.range (inp.maxTtl + 1),
          (if inp.ttlPerBlock k c = -1 then 0
            else if inp.ttlPerBlock k c + 1 = (t + 1 : ℕ) then inp.utility k c else 0) * v (t + 1)) := by
  have hlater : ∀ t, objCoef inp c (t + 1) = -∑ k ∈ Finset.range inp.numOfNeighbor,
      (if inp.ttlPerBlock k c = -1 then 0
        else if inp.ttlPerBlock k c + 1 = (t + 1 : ℕ) then inp.utility k c else 0) := by
    intro t
    rw [objCoef, if_neg (Nat.succ_ne_zero t), list_sum_range, neg_one_mul]
  have hfirst : objCoef inp c 0 = ∑ k ∈ Finset.range inp.numOfNeighbor, inp.utility k c := by
    rw [objCoef, if_pos rfl, list_sum_range]
  rw [Finset.sum_range_succ', hfirst, Finset.sum_sub_distrib, ← Finset.sum_mul,
    Finset.sum_comm, add_comm, sub_eq_add_neg, ← Finset.sum_neg_distrib]
  refine congrArg _ (Finset.sum_congr rfl fun t _ => ?_)
  rw [hlater, neg_mul, Finset.sum_mul]

/-- What the columns of block `c` add to the objective on account of neighbour `k`. -/
theorem Schedule.gain (h : Schedule inp x) {k c : ℕ} (hc : c < inp.numOfBlocks)
    (httl : -1 ≤ inp.ttlPerBlock k c) :
    inp.utility k c * (x c 0).toNat - ∑ t ∈ Finset.range (inp.maxTtl + 1),
      (if inp.ttlPerBlock k c = -1 then 0
        else if inp.ttlPerBlock k c + 1 = (t + 1 : ℕ) then inp.utility k c else 0) *
        ((x c (t + 1)).toNat : ℚ) =
      if Gains inp x k c then inp.utility k c else 0 := by
  rcases httl.eq_or_lt with hnone | hsome
  · simp only [← hnone, if_true, zero_mul, Finset.sum_const_zero, sub_zero, Gains, true_or, and_true]
    cases x c 0 <;> simp
  · obtain ⟨d, hd⟩ := Int.eq_ofNat_of_zero_le (show 0 ≤ inp.ttlPerBlock k c by omega)
    have hcoef : ∀ t : ℕ, (if inp.ttlPerBlock k c = -1 then 0
        else if inp.ttlPerBlock k c + 1 = (t + 1 : ℕ) then inp.utility k c else 0) =
        if d = t then inp.utility k c else 0 := by
      intro t
      rw [if_neg (by omega), hd]
      exact if_congr (by push_cast; omega) rfl rfl
    have hnext : (inp.ttlPerBlock k c + 1).toNat = d + 1 := by omega
    simp only [hcoef, ite_mul, zero_mul, Finset.sum_ite_eq, Finset.mem_range, Gains, hnext]
    have hfirst : d < inp.maxTtl + 1 → x c (d + 1) = true → x c 0 = true := fun hlt =>
      h.cached_first hc (by omega)
    by_cases hlt : d < inp.maxTtl + 1
    · have hin : ¬ (inp.maxTtl : ℤ) < inp.ttlPerBlock k c := by omega
      rw [if_pos hlt]
      cases hx : x c 0 with
      | true => cases x c (d + 1) <;> simp [hin, hsome.ne']
      | false =>
        cases hx' : x c (d + 1) with
        | true => exact absurd (hfirst hlt hx') (by simp [hx])
        | false => simp
    · have hout : (inp.maxTtl : ℤ) < inp.ttlPerBlock k c := by omega
      rw [if_neg hlt]
      cases x c 0 <;> simp [hout]

theorem objective_eq_gains (hxy : Placed inp x y) (h : Schedule inp x)
    (httl : ∀ k < inp.numOfNeighbor, ∀ c < inp.numOfBlocks, -1 ≤ inp.ttlPerBlock k c) :
    (program inp).objective y =
      ∑ k ∈ Finset.range inp.numOfNeighbor, ∑ c ∈ Finset.range inp.numOfBlocks,
        if Gains inp x k c then inp.utility k c else 0 := by
  rw [objective_eq]
  refine Eq.trans (Finset.sum_congr rfl fun c hc => ?_) Finset.sum_comm
  have hc := Finset.mem_range.mp hc
  have hplaced : ∀ t ∈ Finset.range (inp.maxTtl + 2), objCoef inp c t * y (column inp c t) =
      objCoef inp c t * ((x c t).toNat : ℚ) := fun t ht => by
    rw [hxy c hc t (Finset.mem_range.mp ht)]
  rw [Finset.sum_congr rfl hplaced, sum_objCoef c fun t => ((x c t).toNat : ℚ)]
  exact Finset.sum_congr rfl fun k hk => h.gain hc (httl k (Finset.mem_range.mp hk) c hc)

end Objective

end YingSma.LPSolver
