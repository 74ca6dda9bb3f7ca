import YingSma.LPSolverEncoding

/-! What `solve` hands to GLPK, as long as GLPK takes it, is the scheduling problem, and
the answer is written back as a schedule. -/
namespace YingSma.LPSolver
open SparseProgram

section Loading

theorem toInt_of_lt {i : ℕ} (h : i < 2 ^ 31) : toInt i = i := by
  unfold toInt
  exact Int.bmod_eq_of_le (by omega) (by omega)

theorem numbered_range {l : List ℚ} {b : ℕ × ℚ} (hb : b ∈ (l.zipIdx 1).map Prod.swap) :
    1 ≤ b.1 ∧ b.1 ≤ l.length := by
  obtain ⟨⟨v, i⟩, hi, rfl⟩ := List.mem_map.mp hb
  have hle := List.le_snd_of_mem_zipIdx hi
  have hlt := List.snd_lt_add_of_mem_zipIdx hi
  simp only [Prod.swap] at *
  omega

/-- The rows or columns are counted from 1. Number 2 ^ 31, had it to be given, would be
negative. -/
theorem length_lt_of_added {l : List ℚ}
    (hadded : ∀ b ∈ ((l.zipIdx 1).map Prod.swap).map fun b => (toInt b.1, b.2), 1 ≤ b.1) :
    l.length < 2 ^ 31 := by
  by_contra hge
  have hlt : 2 ^ 31 - 1 < (l.zipIdx 1).length := by
    rw [List.length_zipIdx]
    omega
  have h := hadded _ (List.mem_map_of_mem (List.mem_map_of_mem (List.getElem_mem hlt)))
  rw [List.getElem_zipIdx] at h
  simp only [Prod.swap] at h
  revert h
  decide

theorem added_of_length_le {l : List ℚ} (hlen : l.length ≤ 100000000) {b : ℤ × ℚ}
    (hb : b ∈ ((l.zipIdx 1).map Prod.swap).map fun b => (toInt b.1, b.2)) :
    1 ≤ b.1 ∧ b.1 ≤ toInt l.length := by
  obtain ⟨b, hmem, rfl⟩ := List.mem_map.mp hb
  have hrange := numbered_range hmem
  dsimp only
  rw [toInt_of_lt (by omega), toInt_of_lt (by omega)]
  omega

variable {inp : Input}

theorem length_rowUpperBounds : (rowUpperBounds inp).length = numOfRows inp := by
  simp [rowUpperBounds, numOfRows, List.length_flatMap, Nat.add_assoc]

theorem length_colObjCoefs : (colObjCoefs inp).length = numOfCols inp := by
  simp [colObjCoefs, numOfCols, List.length_flatMap, Nat.mul_comm]

theorem length_entries : (program inp).entries.length =
    inp.numOfBlocks * (inp.maxTtl + 2) + 4 * (inp.numOfBlocks * (inp.maxTtl + 1)) := by
  simp only [program, constraintSet1, constraintSet2, constraintSet4, List.length_append,
    List.length_flatMap, List.length_cons, List.length_nil, List.map_const', List.length_range,
    List.sum_replicate, smul_eq_mul]
  ring

theorem rows_lt_of_accepted (h : (problem inp).Accepted) : numOfRows inp < 2 ^ 31 := by
  rw [← length_rowUpperBounds]
  exact length_lt_of_added fun b hb => (h.row_added b hb).1

theorem cols_lt_of_accepted (h : (problem inp).Accepted) : numOfCols inp < 2 ^ 31 := by
  rw [← length_colObjCoefs]
  exact length_lt_of_added fun b hb => (h.col_added b hb).1

/-- The problem is of a size that GLPK takes. -/
structure Fits (inp : Input) : Prop where
  blocks : 1 ≤ inp.numOfBlocks
  rows : numOfRows inp ≤ 100000000
  cols : numOfCols inp ≤ 100000000

theorem Fits.entries (h : Fits inp) : (program inp).entries.length ≤ 500000000 := by
  have hcols := h.cols
  have hle : inp.numOfBlocks * (inp.maxTtl + 1) ≤ inp.numOfBlocks * (inp.maxTtl + 2) :=
    Nat.mul_le_mul_left _ (Nat.le_succ _)
  rw [numOfCols, Nat.mul_comm] at hcols
  rw [length_entries]
  omega

theorem fits_of_accepted (h : (problem inp).Accepted) : Fits inp := by
  have hrows := h.rows_range
  have hcols := h.cols_range
  simp only [problem, toInt_of_lt (rows_lt_of_accepted h), toInt_of_lt (cols_lt_of_accepted h)]
    at hrows hcols
  refine ⟨?_, by omega, by omega⟩
  by_contra hn
  rw [numOfCols, Nat.lt_one_iff.mp (not_le.mp hn), Nat.mul_zero] at hcols
  exact absurd hcols.1 (by decide)

theorem accepted_of_fits (h : Fits inp) : (problem inp).Accepted := by
  have hrows := h.rows
  have hcols := h.cols
  have hentries := h.entries
  have hrowpos : 1 ≤ numOfRows inp := by
    unfold numOfRows
    omega
  have hcolpos : 1 ≤ numOfCols inp := Nat.mul_pos (Nat.succ_pos _) h.blocks
  constructor
  · simp only [problem]
    rw [toInt_of_lt (by omega)]
    omega
  · intro b hb
    have hadded := added_of_length_le (length_rowUpperBounds.trans_le hrows) hb
    rw [length_rowUpperBounds] at hadded
    simpa only [problem] using hadded
  · simp only [problem]
    rw [toInt_of_lt (by omega)]
    omega
  · intro b hb
    have hadded := added_of_length_le (length_colObjCoefs.trans_le hcols) hb
    rw [length_colObjCoefs] at hadded
    simpa only [problem] using hadded
  · simp only [problem]
    rw [toInt_of_lt (by omega)]
    omega

/-- GLPK takes the problem exactly when there is a block and its limits are kept. -/
theorem accepted_iff : (problem inp).Accepted ↔ Fits inp := ⟨fits_of_accepted, accepted_of_fits⟩

/-- All entries are loaded. -/
theorem problem_program (h : Fits inp) :
    (problem inp).program = (program inp).renumber toInt toInt := by
  have hentries := h.entries
  simp only [problem]
  rw [toInt_of_lt (by omega), Int.toNat_natCast, List.take_length]

theorem problem_entries (h : Fits inp) : (problem inp).program.entries =
    (program inp).entries.map fun e => ⟨(e.row : ℤ), (e.col : ℤ), e.coef⟩ := by
  have hrows := h.rows
  have hcols := h.cols
  rw [problem_program h]
  apply List.map_congr_left
  intro e he
  have hrow := entry_row_range he
  have hcol := entry_col_range he
  rw [MatrixEntry.renumber, toInt_of_lt (by omega), toInt_of_lt (by omega)]

theorem problem_satisfies_iff (h : Fits inp) (y : ℤ → ℚ) :
    (problem inp).program.Satisfies y ↔ (program inp).Satisfies (y ∘ toInt) := by
  rw [problem_program h]
  refine satisfies_renumber toInt (fun e he b hb heq => ?_) y
  have hrows := h.rows
  have hrow := entry_row_range he
  have hbound : b.1 ≤ numOfRows inp := length_rowUpperBounds ▸ (numbered_range hb).2
  rw [toInt_of_lt (by omega), toInt_of_lt (by omega)] at heq
  exact_mod_cast heq

end Loading

section Result

/-- `sched_result[c][t]` -/
def cell (sched : List (List ℕ)) (c t : ℕ) : ℕ := ((sched[c]?).getD [])[t]?.getD 0

/-- The matrix has `n` rows of at least `w` elements. -/
def Sized (n w : ℕ) (sched : List (List ℕ)) : Prop := ∀ c < n, ∃ row, sched[c]? = some row ∧ w ≤ row.length

variable {n w : ℕ} {sched : List (List ℕ)}

theorem writeCell_ok (hsized : Sized n w sched) {c t : ℕ} (hc : c < n) (ht : t < w) (value : ℕ) :
    ∃ sched', writeCell sched c t value = .ok sched' ∧ Sized n w sched' ∧
      ∀ c' t', cell sched' c' t' = if c' = c ∧ t' = t then value else cell sched c' t' := by
  obtain ⟨row, hrow, hlen⟩ := hsized c hc
  have hclt : c < sched.length := (List.getElem?_eq_some_iff.mp hrow).1
  refine ⟨sched.set c (row.set t value), ?_, ?_, ?_⟩
  · simp only [writeCell, hrow, if_pos (ht.trans_le hlen)]
  · intro c' hc'
    by_cases h : c' = c
    · subst h
      exact ⟨row.set t value, by simp [hclt], by simpa using hlen⟩
    · obtain ⟨row', hrow', hlen'⟩ := hsized c' hc'
      exact ⟨row', by rwa [List.getElem?_set_ne (Ne.symm h)], hlen'⟩
  · intro c' t'
    unfold cell
    by_cases h : c' = c
    · subst h
      by_cases h' : t' = t
      · subst h'
        simp [hclt, ht.trans_le hlen]
      · rw [List.getElem?_set_self hclt, hrow]
        simp [h', Ne.symm h']
    · rw [List.getElem?_set_ne (Ne.symm h), if_neg (fun hh => h hh.1)]

/-- The translation writes each result where its index says. -/
theorem translate_ok {maxTtl : ℕ} (result : ℕ → ℕ) {its : List ℕ}
    (hsized : Sized n (maxTtl + 2) sched) (hits : ∀ it ∈ its, it / (maxTtl + 2) < n) :
    ∃ sched', translate maxTtl result its sched = .ok sched' ∧
      ∀ c t, t < maxTtl + 2 → cell sched' c t =
        if c * (maxTtl + 2) + t ∈ its then result (c * (maxTtl + 2) + t) else cell sched c t := by
  induction its generalizing sched with
  | nil => exact ⟨sched, rfl, by simp⟩
  | cons it its ih =>
    rw [List.forall_mem_cons] at hits
    obtain ⟨sched₁, hwrite, hsized₁, hcell₁⟩ :=
      writeCell_ok hsized hits.1 (Nat.mod_lt it (Nat.succ_pos _)) (result it)
    obtain ⟨sched₂, hrest, hcell₂⟩ := ih hsized₁ hits.2
    refine ⟨sched₂, by simp only [translate, hwrite, hrest], fun c t ht => ?_⟩
    rw [hcell₂ c t ht, hcell₁ c t]
    have hhere : (c = it / (maxTtl + 2) ∧ t = it % (maxTtl + 2)) ↔ c * (maxTtl + 2) + t = it := by
      constructor
      · rintro ⟨rfl, rfl⟩
        exact Nat.div_add_mod' it (maxTtl + 2)
      · intro h
        exact flat_inj ht (Nat.mod_lt it (Nat.succ_pos _)) (h.trans (Nat.div_add_mod' it _).symm)
    simp only [hhere, List.mem_cons]
    split_ifs with h₁ h₂ h₃ <;> simp_all

theorem translate_length {maxTtl : ℕ} {result : ℕ → ℕ} {its : List ℕ} {sched' : List (List ℕ)}
    (h : translate maxTtl result its sched = .ok sched') : sched'.length = sched.length := by
  induction its generalizing sched with
  | nil => rw [Except.ok.inj h]
  | cons it its ih =>
    unfold translate writeCell at h
    cases hrow : sched[it / (maxTtl + 2)]? with
    | none =>
      rw [hrow] at h
      cases h
    | some row =>
      rw [hrow] at h
      by_cases hlt : it % (maxTtl + 2) < row.length
      · simp only [if_pos hlt] at h
        rw [ih h, List.length_set]
      · simp only [if_neg hlt] at h
        cases h

end Result

section Encoding

variable (inp : Input)

/-- The blocks `sched_result` marks as cached at time `t`. -/
def cachedAt (sched : List (List ℕ)) (t : ℕ) : Finset ℕ :=
  (Finset.range inp.numOfBlocks).filter fun c => cell sched c t = 1

/-- The blocks given up, and so broadcast, in slot `t`. -/
def broadcastAt (sched : List (List ℕ)) (t : ℕ) : Finset ℕ :=
  (Finset.range inp.numOfBlocks).filter fun c => cell sched c t = 1 ∧ cell sched c (t + 1) = 0

section Programs

variable {ι : Type} [Semiring ι] [LE ι] [DecidableEq ι]

/-- The assignment sits in the columns `1 + c * (max_ttl + 2) + t`. -/
def Assigned (x : Assignment) (y : ι → ℚ) : Prop :=
  ∀ c < inp.numOfBlocks, ∀ t < inp.maxTtl + 2,
    y (1 + c * (inp.maxTtl + 2) + t) = (x c t).toNat

/-- The program is the scheduling problem. -/
structure Encodes (p : SparseProgram ι ι ℚ) : Prop where
  distinct : (p.entries.map place).Nodup
  in_range : ∀ e ∈ p.entries,
    (1 ≤ e.row ∧ e.row ≤ numOfRows inp) ∧ 1 ≤ e.col ∧ e.col ≤ numOfCols inp
  satisfies_iff : ∀ x y, Assigned inp x y → (p.Satisfies y ↔ Schedule inp x)
  objective_eq : ∀ x y, Assigned inp x y → Schedule inp x →
    p.objective y = ∑ k ∈ Finset.range inp.numOfNeighbor, ∑ c ∈ Finset.range inp.numOfBlocks,
      if Gains inp x k c then inp.utility k c else 0

end Programs

/-- A feasible answer is translated into a schedule. -/
def Translates : Prop :=
  ∀ intopt sched, (problem inp).program.Feasible (intopt (problem inp)) →
    Sized inp.numOfBlocks (inp.maxTtl + 2) sched →
    ∃ sched', solve intopt inp sched =
        .ok ((problem inp).program.objective (intopt (problem inp)), sched') ∧
      (∀ c < inp.numOfBlocks, ∀ t ≤ inp.maxTtl + 1,
        (cell sched' c t : ℚ) = intopt (problem inp) (1 + c * (inp.maxTtl + 2) + t)) ∧
      (∀ t ≤ inp.maxTtl + 1, (cachedAt inp sched' t).card ≤ inp.storage) ∧
      ∀ t ≤ inp.maxTtl, (broadcastAt inp sched' t).card ≤ inp.bandwidth

variable {inp}

theorem assigned_nat {x : Assignment} {y : ℕ → ℚ} (hxy : Assigned inp x y) : Placed inp x y :=
  fun c hc t ht => by simpa only [Nat.cast_id, column] using hxy c hc t ht

theorem Fits.toInt_column (h : Fits inp) {c t : ℕ} (hc : c < inp.numOfBlocks)
    (ht : t < inp.maxTtl + 2) :
    toInt (column inp c t) = 1 + (c : ℤ) * ((inp.maxTtl : ℤ) + 2) + t := by
  have hcols := h.cols
  have hle := column_le hc ht
  rw [toInt_of_lt (by omega), column]
  push_cast
  rfl

theorem assigned_int (h : Fits inp) {x : Assignment} {y : ℤ → ℚ} (hxy : Assigned inp x y) :
    Placed inp x (y ∘ toInt) := fun c hc t ht => by
  rw [Function.comp_apply, h.toInt_column hc ht, hxy c hc t ht]

section Distinct

theorem problem_nodup (h : Fits inp) : ((problem inp).program.entries.map place).Nodup := by
  rw [problem_entries h, List.map_map]
  have hcast : Function.Injective fun q : ℕ × ℕ => ((q.1 : ℤ), (q.2 : ℤ)) := by
    rintro ⟨a, b⟩ ⟨a', b'⟩ heq
    simpa using heq
  have hplaces := (entries_nodup inp).map hcast
  rwa [List.map_map] at hplaces

theorem problem_in_range (h : Fits inp) {e : MatrixEntry ℤ ℤ ℚ}
    (he : e ∈ (problem inp).program.entries) :
    (1 ≤ e.row ∧ e.row ≤ numOfRows inp) ∧ 1 ≤ e.col ∧ e.col ≤ numOfCols inp := by
  rw [problem_entries h] at he
  obtain ⟨e', he', rfl⟩ := List.mem_map.mp he
  have hrow := entry_row_range he'
  have hcol := entry_col_range he'
  dsimp only
  omega

end Distinct

section Answer

/-- The assignment an answer stands for. -/
def answered (inp : Input) (y : ℤ → ℚ) : Assignment := fun c t => y (toInt (column inp c t)) = 1

variable {y : ℤ → ℚ}

theorem answered_eq (h : Fits inp) (hy : (problem inp).program.Binary y) {c t : ℕ}
    (hc : c < inp.numOfBlocks) (ht : t < inp.maxTtl + 2) :
    y (toInt (column inp c t)) = (answered inp y c t).toNat := by
  have hmem : (toInt (column inp c t), objCoef inp c t) ∈ (problem inp).program.objCoefs := by
    rw [problem_program h]
    refine List.mem_map.mpr ⟨(column inp c t, objCoef inp c t), ?_, rfl⟩
    rw [objCoefs_eq]
    exact List.mem_flatMap.mpr ⟨c, List.mem_range.mpr hc,
      List.mem_map.mpr ⟨t, List.mem_range.mpr ht, rfl⟩⟩
  have hbinary : y (toInt (column inp c t)) = 0 ∨ y (toInt (column inp c t)) = 1 := by
    simpa only using hy _ hmem
  rcases hbinary with hval | hval
  · simp [answered, hval]
  · simp [answered, hval]

theorem answered_schedule (h : Fits inp) (hy : (problem inp).program.Feasible y) :
    Schedule inp (answered inp y) := by
  refine (satisfies_iff_schedule (y := y ∘ toInt) ?_).mp ((problem_satisfies_iff h y).mp hy.satisfies)
  exact fun c hc t ht => answered_eq h hy.binary hc ht

/-- The translation reads the answer off column by column. -/
theorem solve_ok (h : Fits inp) {intopt : GlpProblem → ℤ → ℚ} {sched : List (List ℕ)}
    (hy : (problem inp).program.Binary (intopt (problem inp)))
    (hsized : Sized inp.numOfBlocks (inp.maxTtl + 2) sched) :
    ∃ sched', solve intopt inp sched =
        .ok ((problem inp).program.objective (intopt (problem inp)), sched') ∧
      sched'.length = sched.length ∧ ∀ c < inp.numOfBlocks, ∀ t < inp.maxTtl + 2,
        cell sched' c t = (answered inp (intopt (problem inp)) c t).toNat := by
  have hits : ∀ it ∈ List.range (numOfCols inp), it / (inp.maxTtl + 2) < inp.numOfBlocks :=
    fun it hit => Nat.div_lt_of_lt_mul (List.mem_range.mp hit)
  obtain ⟨sched', htranslate, hcell⟩ := translate_ok
    (fun i => (intopt (problem inp) (toInt (i + 1))).floor.toNat) hsized hits
  refine ⟨sched', by simp only [solve, htranslate], translate_length htranslate, ?_⟩
  intro c hc t ht
  have hcolumn : c * (inp.maxTtl + 2) + t + 1 = column inp c t := by
    unfold column
    omega
  have hin : c * (inp.maxTtl + 2) + t < numOfCols inp := by
    have hle := column_le hc ht
    omega
  rw [hcell c t ht, if_pos (List.mem_range.mpr hin)]
  rw [hcolumn, answered_eq h hy hc ht]
  exact congrArg Int.toNat (Rat.floor_intCast ((answered inp (intopt (problem inp)) c t).toNat : ℤ))

variable {x : Assignment} {sched : List (List ℕ)} {t : ℕ}

theorem cachedAt_card (hcell : ∀ c < inp.numOfBlocks, cell sched c t = (x c t).toNat) :
    (cachedAt inp sched t).card = ∑ c ∈ Finset.range inp.numOfBlocks, (x c t).toNat := by
  rw [cachedAt, Finset.card_filter]
  apply Finset.sum_congr rfl
  intro c hc
  rw [hcell c (Finset.mem_range.mp hc)]
  cases x c t <;> rfl

theorem broadcastAt_card (h : Schedule inp x) (ht : t ≤ inp.maxTtl)
    (hcell : ∀ c < inp.numOfBlocks, cell sched c t = (x c t).toNat)
    (hnext : ∀ c < inp.numOfBlocks, cell sched c (t + 1) = (x c (t + 1)).toNat) :
    ((broadcastAt inp sched t).card : ℤ) =
      ∑ c ∈ Finset.range inp.numOfBlocks, (((x c t).toNat : ℤ) - (x c (t + 1)).toNat) := by
  rw [broadcastAt, Finset.card_filter, Nat.cast_sum]
  apply Finset.sum_congr rfl
  intro c hc
  have hc := Finset.mem_range.mp hc
  have honce := h.once c hc t ht
  rw [hcell c hc, hnext c hc]
  revert honce
  cases x c t <;> cases x c (t + 1) <;> decide

theorem rowUpperBounds_nonneg {v : ℚ} (hv : v ∈ rowUpperBounds inp) : 0 ≤ v := by
  rcases List.mem_append.mp hv with hv | hv
  · rcases List.mem_append.mp hv with hv | hv
    · obtain ⟨-, -, rfl⟩ := List.mem_map.mp hv
      exact Nat.cast_nonneg _
    · obtain ⟨-, -, rfl⟩ := List.mem_map.mp hv
      exact Nat.cast_nonneg _
  · obtain ⟨-, -, hv⟩ := List.mem_flatMap.mp hv
    obtain ⟨-, -, rfl⟩ := List.mem_map.mp hv
    exact le_rfl

/-- Caching nothing is always possible. -/
theorem zero_feasible (inp : Input) : (problem inp).program.Feasible fun _ => 0 where
  satisfies := by
    intro b hb
    obtain ⟨b', hb', rfl⟩ := List.mem_map.mp hb
    obtain ⟨⟨v, i⟩, hv, rfl⟩ := List.mem_map.mp hb'
    have hsum : ∀ es : List (MatrixEntry ℤ ℤ ℚ), ∀ i, rowSum es (fun _ => 0) i = 0 := by
      intro es i
      simp [rowSum]
    rw [hsum]
    exact rowUpperBounds_nonneg (List.fst_mem_of_mem_zipIdx hv)
  binary := fun _ _ => .inl rfl

end Answer

/-- The deadlines a neighbour may give: none, or one that can be passed. -/
def ValidTtl (inp : Input) : Prop :=
  ∀ k < inp.numOfNeighbor, ∀ c < inp.numOfBlocks,
    inp.ttlPerBlock k c = -1 ∨ 0 ≤ inp.ttlPerBlock k c ∧ inp.ttlPerBlock k c < 2 ^ 31 - 1

theorem ValidTtl.le (h : ValidTtl inp) :
    ∀ k < inp.numOfNeighbor, ∀ c < inp.numOfBlocks, -1 ≤ inp.ttlPerBlock k c := by
  intro k hk c hc
  have hkc := h k hk c hc
  omega

theorem program_encodes (h : ValidTtl inp) : Encodes inp (program inp) where
  distinct := entries_nodup inp
  in_range := fun _ he => ⟨entry_row_range he, entry_col_range he⟩
  satisfies_iff := fun _ _ hxy => satisfies_iff_schedule (assigned_nat hxy)
  objective_eq := fun _ _ hxy hx => objective_eq_gains (assigned_nat hxy) hx h.le

theorem problem_encodes (h : ValidTtl inp) (hfits : Fits inp) :
    Encodes inp (problem inp).program where
  distinct := problem_nodup hfits
  in_range := fun _ he => problem_in_range hfits he
  satisfies_iff := fun _ y hxy =>
    (problem_satisfies_iff hfits y).trans (satisfies_iff_schedule (assigned_int hfits hxy))
  objective_eq := fun _ y hxy hx => by
    rw [problem_program hfits, objective_renumber]
    exact objective_eq_gains (assigned_int hfits hxy) hx h.le

theorem solve_translates (h : Fits inp) : Translates inp := by
  intro intopt sched hy hsized
  obtain ⟨sched', hsolve, -, hcell⟩ := solve_ok h hy.binary hsized
  have hschedule := answered_schedule h hy
  refine ⟨sched', hsolve, fun c hc t ht => ?_, fun t ht => ?_, fun t ht => ?_⟩
  · rw [hcell c hc t (by omega), ← h.toInt_column hc (by omega)]
    exact (answered_eq h hy.binary hc (by omega)).symm
  · rw [cachedAt_card fun c hc => hcell c hc t (by omega)]
    exact hschedule.storage t ht
  · have hcard := broadcastAt_card hschedule ht (fun c hc => hcell c hc t (by omega))
      fun c hc => hcell c hc (t + 1) (by omega)
    have hle := hschedule.bandwidth t ht
    omega

/-- The program is the scheduling problem of its arguments, whatever their size, and as
long as GLPK takes it what is loaded is that program. -/
theorem solve_encodes (inp : Input) (httl : ValidTtl inp) :
    Encodes inp (program inp) ∧
      ((problem inp).Accepted → Encodes inp (problem inp).program ∧ Translates inp) := by
  refine ⟨program_encodes httl, fun haccepted => ?_⟩
  have hfits := fits_of_accepted haccepted
  exact ⟨problem_encodes httl hfits, solve_translates hfits⟩

/-- The arguments of `test_lpsolver`. -/
def testInput : Input where
  maxTtl := 10
  numOfBlocks := 3
  storage := 20
  bandwidth := 1
  numOfNeighbor := 4
  ttlPerBlock := fun k c =>
    ([[0, -1, -1], [-1, 0, 10], [0, 0, -1], [0, -1, 2]].getD k []).getD c (-1)
  utility := fun k c =>
    ([[1, 0, 0], [0, 1 / 2, 1 / 2], [7 / 10, 3 / 10, 0], [1 / 2, 0, 1 / 2]].getD k []).getD c 0

theorem testInput_encodes : (problem testInput).Accepted ∧
    Encodes testInput (problem testInput).program ∧ Translates testInput := by
  have haccepted : (problem testInput).Accepted :=
    accepted_of_fits ⟨by decide, by decide, by decide⟩
  have httl : ValidTtl testInput := by
    unfold ValidTtl
    decide
  exact ⟨haccepted, (solve_encodes testInput httl).2 haccepted⟩

end Encoding

end YingSma.LPSolver
