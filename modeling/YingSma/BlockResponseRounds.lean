import YingSma.BlockResponseScheduler

/-! What one call of `BlockResponseScheduler::sched` does with the blocks it schedules: their
numbers, the commands given about them, and the set that is left. -/
namespace YingSma.BlockResponseScheduler
open EntryTable LPSolver TransitionRuns

section Sets

variable {s : BlockSet} {block other : BlockRef}

theorem mem_insert : block ∈ (s.insert other).blocks ↔ block = other ∨ block ∈ s.blocks :=
  List.mem_insert_iff

theorem mem_erase : block ∈ (s.erase other).blocks ↔ block ≠ other ∧ block ∈ s.blocks :=
  s.nodup.mem_erase_iff

theorem mem_foldl_insert (blocks : List BlockRef) :
    block ∈ (blocks.foldl BlockSet.insert s).blocks ↔ block ∈ s.blocks ∨ block ∈ blocks := by
  induction blocks generalizing s with
  | nil => simp
  | cons b blocks ih =>
    rw [List.foldl_cons, ih, mem_insert, List.mem_cons]
    tauto

theorem mem_merged (s : BlockResponseScheduler) : block ∈ s.merged.blockToSchedule.blocks ↔
    block ∈ s.blockToSchedule.blocks ∨ block ∈ s.blockArrivedBuf.blocks :=
  mem_foldl_insert _

end Sets

section Numbers

variable {round : Round}

/-- The requests after `get_utility` has been called with a block for these neighbours. -/
def askedFor (round : Round) (block : BlockRef) (neighbors : List NodeId)
    (requests : BlockRequestScheduler) : BlockRequestScheduler :=
  neighbors.foldl (fun requests nodeId => (requests.getUtility round.now nodeId block).2) requests

/-- The requests after this has been done for some blocks. -/
def askedForAll (round : Round) (blocks : List BlockRef) (requests : BlockRequestScheduler) :
    BlockRequestScheduler :=
  blocks.foldl (fun requests block => askedFor round block round.neighbors requests) requests

/-- What `get_utility` and `get_ttl` answer when they find these requests. -/
def Answers (round : Round) (nodeId : NodeId) (block : BlockRef) (requests : BlockRequestScheduler)
    (utility : ℚ) (ttl : ℤ) : Prop :=
  (requests.getUtility round.now nodeId block).1 = utility ∧
    (requests.getUtility round.now nodeId block).2.getTtl round.now round.schedInterval nodeId
      block = .ok ttl

/-- A column has the answers about a block, each as of when it is asked for. -/
def Filled (round : Round) (block : BlockRef) (neighbors : List NodeId)
    (requests : BlockRequestScheduler) (col : List (ℚ × ℤ)) : Prop :=
  ∀ i nodeId, neighbors[i]? = some nodeId → ∃ value, col[i]? = some value ∧
    Answers round nodeId block (askedFor round block (neighbors.take i) requests) value.1 value.2

theorem column_ok {block : BlockRef} {neighbors : List NodeId} {col : List (ℚ × ℤ)}
    {requests requests' : BlockRequestScheduler}
    (h : column round block neighbors requests = .ok (col, requests')) :
    requests' = askedFor round block neighbors requests ∧
      Filled round block neighbors requests col := by
  induction neighbors generalizing requests col with
  | nil =>
    obtain ⟨-, rfl⟩ := by simpa [column] using h
    exact ⟨rfl, fun i nodeId hi => by cases hi⟩
  | cons nodeId neighbors ih =>
    rw [column] at h
    obtain ⟨ttl, httl, hrest⟩ := bind_ok h
    obtain ⟨⟨rest, requests₁⟩, hcol, hresult⟩ := bind_ok hrest
    obtain ⟨rfl, rfl⟩ := Prod.mk.inj (Except.ok.inj hresult)
    obtain ⟨hasked, hfilled⟩ := ih hcol
    refine ⟨hasked, fun i other hi => ?_⟩
    cases i with
    | zero =>
      obtain rfl := Option.some.inj hi
      exact ⟨_, rfl, rfl, httl⟩
    | succ i => exact hfilled i other hi

/-- The blocks are numbered in the order they come, and each fills the column of its number. -/
theorem number_ok {blocks : List BlockRef} {seq : ℕ} {blockToSeq blockToSeq' : List (BlockRef × ℕ)}
    {columns : List (List (ℚ × ℤ))} {requests requests' : BlockRequestScheduler}
    (hnodup : blocks.Nodup) (hnew : ∀ block ∈ blocks, blockToSeq.lookup block = none)
    (h : number round blocks seq blockToSeq requests = .ok (blockToSeq', columns, requests')) :
    blockToSeq' = blockToSeq ++ blocks.zipIdx seq ∧ requests' = askedForAll round blocks requests ∧
      columns.length = blocks.length ∧ ∀ c block, blocks[c]? = some block → ∃ col,
        columns[c]? = some col ∧ Filled round block round.neighbors
          (askedForAll round (blocks.take c) requests) col := by
  induction blocks generalizing seq blockToSeq columns requests with
  | nil =>
    obtain ⟨rfl, rfl, rfl⟩ := by simpa [number] using h
    exact ⟨by simp, rfl, rfl, fun c block hc => by cases hc⟩
  | cons block blocks ih =>
    rw [number] at h
    obtain ⟨⟨col, requests₁⟩, hcol, hrest⟩ := bind_ok h
    obtain ⟨⟨blockToSeq₁, cols, requests₂⟩, hnumber, hresult⟩ := bind_ok hrest
    obtain ⟨hblock, hnodup⟩ := List.nodup_cons.mp hnodup
    rw [List.forall_mem_cons] at hnew
    rw [insertNew_new hnew.1] at hnumber
    have hlater : ∀ b ∈ blocks, (blockToSeq ++ [(block, seq)]).lookup b = none := by
      intro b hb
      have hne : b ≠ block := by
        rintro rfl
        exact hblock hb
      rw [List.lookup_append, hnew.2 b hb, Option.none_or, lookup_cons_ne [] hne, List.lookup_nil]
    obtain ⟨rfl, rfl, rfl⟩ := by simpa using hresult
    obtain ⟨hasked, hfilled⟩ := column_ok hcol
    subst hasked
    obtain ⟨hseq, hall, hlength, hcols⟩ := ih hnodup hlater hnumber
    refine ⟨?_, hall, by rw [List.length_cons, List.length_cons, hlength], fun c other hc => ?_⟩
    · rw [hseq, List.append_assoc, List.zipIdx_cons, List.singleton_append]
    · cases c with
      | zero =>
        obtain rfl := Option.some.inj hc
        exact ⟨col, rfl, hfilled⟩
      | succ c => exact hcols c other hc

/-- The search finds the block with the number, in whatever order it goes through the map. -/
theorem getBlockid_ok (order : Iteration (BlockRef × ℕ)) {blocks : List BlockRef} {c : ℕ}
    {block : BlockRef} (hblock : blocks[c]? = some block) :
    getBlockid (order.order blocks.zipIdx) c = .ok block := by
  have hmem : ∀ entry, entry ∈ order.order blocks.zipIdx ↔ blocks[entry.2]? = some entry.1 := by
    intro entry
    rw [(order.perm _).mem_iff, List.mem_zipIdx_iff_getElem?]
  have hfind : ((order.order blocks.zipIdx).find? fun entry => entry.2 = c) = some (block, c) := by
    refine find_of_unique Prod.snd ((hmem (block, c)).mpr hblock) fun entry he hc => ?_
    have hentry := (hmem entry).mp he
    rw [hc, hblock] at hentry
    exact Prod.ext (Option.some.inj hentry).symm hc
  rw [getBlockid, hfind]

end Numbers

section Results

/-- The columns of the blocks to be kept in the cache. -/
def kept (x : List (List ℕ)) (cs : List ℕ) : List ℕ := cs.filter fun c => cell x c 0 = 1

/-- The columns of the blocks that are not. -/
def dropped (x : List (List ℕ)) (cs : List ℕ) : List ℕ := cs.filter fun c => ¬ cell x c 0 = 1

/-- The columns of the blocks to be given up at once. -/
def sent (x : List (List ℕ)) (cs : List ℕ) : List ℕ :=
  cs.filter fun c => cell x c 0 = 1 ∧ cell x c 1 = 0

/-- The commands for the blocks of these columns. -/
def commandsFor (name : ℕ → BlockRef) (x : List (List ℕ)) (cs : List ℕ) : Commands where
  freeze := (kept x cs).map name
  unfreeze := (dropped x cs).map name
  broadcast := (sent x cs).map name

variable {blockToSeq : List (BlockRef × ℕ)} {x : List (List ℕ)} {name : ℕ → BlockRef}

/-- The loop gives the commands for the columns it goes through, and takes what is broadcast out
of the set. -/
theorem dispatch_ok {cs : List ℕ} (hname : ∀ c ∈ cs, getBlockid blockToSeq c = .ok (name c))
    (commands : Commands) (toSchedule : BlockSet) :
    ∃ toSchedule', dispatch blockToSeq x cs commands toSchedule =
        .ok (⟨commands.freeze ++ (commandsFor name x cs).freeze,
          commands.unfreeze ++ (commandsFor name x cs).unfreeze,
          commands.broadcast ++ (commandsFor name x cs).broadcast⟩, toSchedule') ∧
      ∀ block, block ∈ toSchedule'.blocks ↔
        block ∈ toSchedule.blocks ∧ block ∉ (commandsFor name x cs).broadcast := by
  induction cs generalizing commands toSchedule with
  | nil => exact ⟨toSchedule, by simp [dispatch, commandsFor, kept, dropped, sent], by
      simp [commandsFor, sent]⟩
  | cons c cs ih =>
    rw [List.forall_mem_cons] at hname
    have ih := fun commands toSchedule => ih hname.2 commands toSchedule
    have hbind : ∀ f : BlockRef → Except Fault (Commands × BlockSet),
        (getBlockid blockToSeq c >>= f) = f (name c) := by
      intro f
      rw [hname.1]
      rfl
    rw [dispatch, hbind]
    by_cases hkept : cell x c 0 = 1
    · by_cases hsent : cell x c 1 = 0
      · obtain ⟨toSchedule', hrest, hmem⟩ := ih
          { commands with
            freeze := commands.freeze ++ [name c]
            broadcast := commands.broadcast ++ [name c] } (toSchedule.erase (name c))
        refine ⟨toSchedule', ?_, ?_⟩
        · rw [if_pos hkept, if_pos hsent, hrest]
          simp [commandsFor, kept, dropped, sent, hkept, hsent]
        · intro block
          rw [hmem, mem_erase]
          simp [commandsFor, sent, hkept, hsent]
          tauto
      · obtain ⟨toSchedule', hrest, hmem⟩ := ih
          { commands with freeze := commands.freeze ++ [name c] } toSchedule
        refine ⟨toSchedule', ?_, ?_⟩
        · rw [if_pos hkept, if_neg hsent, hrest]
          simp [commandsFor, kept, dropped, sent, hkept, hsent]
        · intro block
          rw [hmem]
          simp [commandsFor, sent, hsent]
    · obtain ⟨toSchedule', hrest, hmem⟩ := ih
        { commands with unfreeze := commands.unfreeze ++ [name c] } toSchedule
      refine ⟨toSchedule', ?_, ?_⟩
      · rw [if_neg hkept, hrest]
        simp [commandsFor, kept, dropped, sent, hkept]
      · intro block
        rw [hmem]
        simp [commandsFor, sent, hkept]

end Results

section Solving

variable {round : Round} {inp : Input} {x : List (List ℕ)}

/-- An answer of the solver is a matrix of zeros and ones, one row for each block. -/
theorem solved_ok (h : solved round inp = .ok x) :
    ∃ answer, round.solver.intopt (problem inp) = some answer ∧ x.length = inp.numOfBlocks ∧
      (∀ c < inp.numOfBlocks, ∀ t < inp.maxTtl + 2, cell x c t = 0 ∨ cell x c t = 1) ∧
      (∀ c < inp.numOfBlocks, ∀ t < inp.maxTtl + 2,
        (cell x c t : ℚ) = answer (1 + c * (inp.maxTtl + 2) + t)) ∧
      ((problem inp).program.Feasible answer →
        (cachedAt inp x 0).card ≤ inp.storage ∧ (broadcastAt inp x 0).card ≤ inp.bandwidth) := by
  unfold solved at h
  cases hanswer : round.solver.intopt (problem inp) with
  | none =>
    rw [hanswer] at h
    cases h
  | some answer =>
    rw [hanswer] at h
    obtain ⟨⟨value, x'⟩, hsolve, rfl⟩ := map_eq_ok h
    have hfits := fits_of_accepted (round.solver.accepts _ _ hanswer)
    have hbinary := round.solver.binary _ _ hanswer
    have hsized : Sized inp.numOfBlocks (inp.maxTtl + 2)
        (List.replicate inp.numOfBlocks (List.replicate (inp.maxTtl + 2) 0)) := by
      intro c hc
      exact ⟨_, List.getElem?_replicate_of_lt hc, by simp⟩
    obtain ⟨x₁, hsolve₁, hlength, hcell⟩ :=
      @solve_ok _ hfits (fun _ => answer) _ hbinary hsized
    rw [hsolve₁] at hsolve
    obtain ⟨-, rfl⟩ := Prod.mk.inj (Except.ok.inj hsolve)
    refine ⟨answer, rfl, by rw [hlength, List.length_replicate], ?_, ?_, ?_⟩
    · intro c hc t ht
      rw [hcell c hc t ht]
      cases answered inp answer c t <;> simp
    · intro c hc t ht
      rw [hcell c hc t ht, ← hfits.toInt_column hc ht]
      exact (answered_eq hfits hbinary hc ht).symm
    · intro hfeasible
      obtain ⟨x₂, hsolve₂, -, hstorage, hbandwidth⟩ :=
        solve_translates hfits (fun _ => answer) _ hfeasible hsized
      rw [hsolve₁] at hsolve₂
      obtain ⟨-, rfl⟩ := Prod.mk.inj (Except.ok.inj hsolve₂)
      exact ⟨hstorage 0 (Nat.zero_le _), hbandwidth 0 (Nat.zero_le _)⟩

end Solving

/-- The blocks of a call of `sched` in the order of their numbers, and the problem that it poses:
a column for each block, with the answers of all neighbours about just this block. -/
structure Posed (round : Round) (requests : BlockRequestScheduler) (s : BlockResponseScheduler)
    (blocks : List BlockRef) (inp : Input) : Prop where
  distinct : blocks.Nodup
  all : ∀ block, block ∈ blocks ↔
    block ∈ s.blockToSchedule.blocks ∨ block ∈ s.blockArrivedBuf.blocks
  maxTtl_eq : inp.maxTtl = maxTtl
  numOfBlocks_eq : inp.numOfBlocks = blocks.length
  storage_eq : inp.storage = storage
  bandwidth_eq : inp.bandwidth = bandwidth
  numOfNeighbor_eq : inp.numOfNeighbor = round.neighbors.length
  filled : ∀ c block, blocks[c]? = some block → ∀ i nodeId, round.neighbors[i]? = some nodeId →
    Answers round nodeId block (askedFor round block (round.neighbors.take i)
      (askedForAll round (blocks.take c) requests)) (inp.utility i c) (inp.ttlPerBlock i c)

/-- The solver answers, and the matrix is its answer. -/
def Solved (round : Round) (inp : Input) (x : List (List ℕ)) : Prop :=
  ∃ answer, round.solver.intopt (problem inp) = some answer ∧
    ∀ c < inp.numOfBlocks, ∀ t ≤ inp.maxTtl + 1,
      (cell x c t : ℚ) = answer (1 + c * (inp.maxTtl + 2) + t)

/-- What a call of `sched` has done: the blocks in the order of their numbers, the problem that was
posed about them, and the matrix of the solver. -/
structure Dispatched (round : Round) (requests : BlockRequestScheduler) (s : BlockResponseScheduler)
    (commands : Commands) (requests' : BlockRequestScheduler) (s' : BlockResponseScheduler)
    (blocks : List BlockRef) (inp : Input) (x : List (List ℕ)) : Prop
    extends Posed round requests s blocks inp where
  asked : requests' = askedForAll round blocks requests
  numbered : blocks ≠ [] → s'.blockToSeq = blocks.zipIdx
  found : blocks ≠ [] → ∀ c block, blocks[c]? = some block →
    getBlockid (round.seqOrder.order s'.blockToSeq) c = .ok block
  solution : blocks ≠ [] → Solved round inp x
  binary : ∀ c < blocks.length, ∀ t ≤ maxTtl + 1, cell x c t = 0 ∨ cell x c t = 1
  apart : (commands.freeze ++ commands.unfreeze).Perm blocks
  freeze : ∀ c block, blocks[c]? = some block → (block ∈ commands.freeze ↔ cell x c 0 = 1)
  broadcast : ∀ c block, blocks[c]? = some block →
    (block ∈ commands.broadcast ↔ cell x c 0 = 1 ∧ cell x c 1 = 0)
  once : commands.broadcast.Nodup ∧ commands.broadcast ⊆ blocks
  arrived : s'.blockArrivedBuf.blocks = []
  left : ∀ block, block ∈ s'.blockToSchedule.blocks ↔ block ∈ blocks ∧ block ∉ commands.broadcast
  feasible : ∀ answer, round.solver.intopt (problem inp) = some answer →
    (problem inp).program.Feasible answer →
    commands.freeze.length ≤ storage ∧ commands.broadcast.length ≤ bandwidth

section Calls

variable {round : Round} {requests requests' : BlockRequestScheduler}
  {s s' : BlockResponseScheduler} {commands : Commands}

theorem map_range_getD (blocks : List BlockRef) (default_ : BlockRef) :
    (List.range blocks.length).map (fun c => blocks.getD c default_) = blocks := by
  apply List.ext_getElem
  · simp
  · intro c h₁ h₂
    simp [h₂]

theorem mem_filter_map {blocks : List BlockRef} (hnodup : blocks.Nodup) (default_ : BlockRef)
    (p : ℕ → Bool) {c : ℕ} {block : BlockRef} (hblock : blocks[c]? = some block) :
    block ∈ ((List.range blocks.length).filter p).map (fun c => blocks.getD c default_) ↔ p c := by
  obtain ⟨hc, rfl⟩ := List.getElem?_eq_some_iff.mp hblock
  rw [List.mem_map]
  constructor
  · rintro ⟨c', hc', heq⟩
    obtain ⟨hlt, hp⟩ := List.mem_filter.mp hc'
    have hlt := List.mem_range.mp hlt
    rw [List.getD_eq_getElem?_getD, List.getElem?_eq_getElem hlt, Option.getD_some] at heq
    rwa [← (hnodup.getElem_inj_iff).mp heq]
  · intro hp
    refine ⟨c, List.mem_filter.mpr ⟨List.mem_range.mpr hc, hp⟩, ?_⟩
    rw [List.getD_eq_getElem?_getD, List.getElem?_eq_getElem hc, Option.getD_some]

theorem sched_nothing (hnone : s.merged.blockToSchedule.blocks = []) :
    s.sched round requests = .ok (⟨[], [], []⟩, requests, s.merged) := by
  unfold sched
  rw [if_pos (List.length_eq_zero_iff.mpr hnone)]

/-- With nothing to schedule, the arrivals included, there is nothing to be done. -/
theorem dispatched_nothing (hnone : s.merged.blockToSchedule.blocks = []) :
    Dispatched round requests s ⟨[], [], []⟩ requests s.merged [] (input round []) [] where
  distinct := List.nodup_nil
  all block := by rw [← mem_merged, hnone]
  maxTtl_eq := rfl
  numOfBlocks_eq := rfl
  storage_eq := rfl
  bandwidth_eq := rfl
  numOfNeighbor_eq := rfl
  filled c block hblock := by cases hblock
  asked := rfl
  numbered hne := (hne rfl).elim
  found hne := (hne rfl).elim
  solution hne := (hne rfl).elim
  binary c hc := absurd hc (Nat.not_lt_zero c)
  apart := .nil
  freeze c block hblock := by cases hblock
  broadcast c block hblock := by cases hblock
  once := ⟨List.nodup_nil, List.Subset.refl _⟩
  arrived := rfl
  left block := by simp [hnone]
  feasible _ _ _ := ⟨Nat.zero_le _, Nat.zero_le _⟩

theorem card_filter_range (p : ℕ → Prop) [DecidablePred p] (n : ℕ) :
    ((Finset.range n).filter p).card = ((List.range n).filter fun c => p c).length := rfl

/-- Once the blocks have been numbered, the problem is about them. -/
theorem posed_of_number {blocks : List BlockRef} {blockToSeq : List (BlockRef × ℕ)}
    {columns : List (List (ℚ × ℤ))}
    (horder : blocks = round.blockOrder.order s.merged.blockToSchedule.blocks)
    (hnumber : number round blocks 0 [] requests = .ok (blockToSeq, columns, requests')) :
    Posed round requests s blocks (input round columns) ∧ blockToSeq = blocks.zipIdx ∧
      requests' = askedForAll round blocks requests := by
  have hperm : blocks.Perm s.merged.blockToSchedule.blocks := horder ▸ round.blockOrder.perm _
  have hdistinct : blocks.Nodup := hperm.nodup_iff.mpr s.merged.blockToSchedule.nodup
  obtain ⟨hseq, hasked, hlength, hfilled⟩ := number_ok hdistinct (fun _ _ => rfl) hnumber
  refine ⟨⟨hdistinct, fun block => ?_, rfl, hlength, rfl, rfl, rfl, ?_⟩, hseq, hasked⟩
  · rw [hperm.mem_iff, mem_merged]
  · intro c block hblock i nodeId hnode
    obtain ⟨col, hcol, hanswers⟩ := hfilled c block hblock
    obtain ⟨value, hvalue, hanswer⟩ := hanswers i nodeId hnode
    simpa only [input, List.getD_eq_getElem?_getD, hcol, Option.getD_some, hvalue] using hanswer

/-- What the commands for all columns say of the blocks they are about. -/
theorem dispatched_some {blocks : List BlockRef} {inp : Input} {x : List (List ℕ)}
    {toSchedule : BlockSet} (default_ : BlockRef) (hposed : Posed round requests s blocks inp)
    (hsolved : solved round inp = .ok x)
    (hleft : ∀ block, block ∈ toSchedule.blocks ↔ block ∈ s.merged.blockToSchedule.blocks ∧
      block ∉ (commandsFor (fun c => blocks.getD c default_) x (List.range blocks.length)).broadcast) :
    Dispatched round requests s
      (commandsFor (fun c => blocks.getD c default_) x (List.range blocks.length))
      (askedForAll round blocks requests)
      { s.merged with blockToSchedule := toSchedule, blockToSeq := blocks.zipIdx }
      blocks inp x := by
  have hdistinct := hposed.distinct
  have hlength := hposed.numOfBlocks_eq
  obtain ⟨answer, hanswer, -, hbinary, hcells, hfeasible⟩ := solved_ok hsolved
  constructor
  case toPosed => exact hposed
  case asked => rfl
  case numbered => exact fun _ => rfl
  case found => exact fun _ c block hblock => getBlockid_ok round.seqOrder hblock
  case solution =>
    exact fun _ => ⟨answer, hanswer, fun c hc t ht => hcells c hc t (Nat.lt_succ_of_le ht)⟩
  case binary =>
    rw [hlength, hposed.maxTtl_eq] at hbinary
    exact fun c hc t ht => hbinary c hc t (Nat.lt_succ_of_le ht)
  case apart =>
    have hsplit := (List.filter_append_perm (fun c => decide (cell x c 0 = 1))
      (List.range blocks.length)).map fun c => blocks.getD c default_
    rw [List.map_append, map_range_getD] at hsplit
    simpa [commandsFor, kept, dropped] using hsplit
  case freeze =>
    intro c block hblock
    exact (mem_filter_map hdistinct default_ _ hblock).trans decide_eq_true_iff
  case broadcast =>
    intro c block hblock
    exact (mem_filter_map hdistinct default_ _ hblock).trans decide_eq_true_iff
  case once =>
    have hsub := (List.filter_sublist (p := fun c => decide (cell x c 0 = 1 ∧ cell x c 1 = 0))
      (l := List.range blocks.length)).map fun c => blocks.getD c default_
    rw [map_range_getD] at hsub
    exact ⟨hsub.nodup hdistinct, hsub.subset⟩
  case arrived => rfl
  case left =>
    intro block
    rw [hleft, mem_merged, hposed.all]
  case feasible =>
    intro answer' hanswer' hfeasible'
    rw [hanswer] at hanswer'
    obtain rfl := Option.some.inj hanswer'
    obtain ⟨hstorage, hbandwidth⟩ := hfeasible hfeasible'
    rw [cachedAt, hlength, card_filter_range, hposed.storage_eq] at hstorage
    rw [broadcastAt, hlength, card_filter_range, hposed.bandwidth_eq] at hbandwidth
    simp only [commandsFor, List.length_map]
    exact ⟨hstorage, hbandwidth⟩

/-- With the problem posed and solved, the loop over the result goes through. -/
theorem dispatch_dispatches {blocks : List BlockRef} {inp : Input} {x : List (List ℕ)}
    (hposed : Posed round requests s blocks inp) (hsolved : solved round inp = .ok x) :
    ∃ commands toSchedule, dispatch (round.seqOrder.order blocks.zipIdx) x (List.range x.length)
        ⟨[], [], []⟩ s.merged.blockToSchedule = .ok (commands, toSchedule) ∧
      Dispatched round requests s commands (askedForAll round blocks requests)
        { s.merged with blockToSchedule := toSchedule, blockToSeq := blocks.zipIdx }
        blocks inp x := by
  obtain ⟨answer, -, hlength, -⟩ := solved_ok hsolved
  rw [hlength, hposed.numOfBlocks_eq]
  have hname : ∀ c ∈ List.range blocks.length,
      getBlockid (round.seqOrder.order blocks.zipIdx) c = .ok (blocks.getD c ⟨default, 0⟩) := by
    intro c hc
    have hlt := List.mem_range.mp hc
    apply getBlockid_ok
    rw [List.getD_eq_getElem?_getD, List.getElem?_eq_getElem hlt, Option.getD_some]
  obtain ⟨toSchedule, hall, hleft⟩ :=
    dispatch_ok (x := x) hname ⟨[], [], []⟩ s.merged.blockToSchedule
  exact ⟨_, toSchedule, hall, dispatched_some _ hposed hsolved hleft⟩

/-- One call of `sched`. -/
theorem sched_ok (h : s.sched round requests = .ok (commands, requests', s')) :
    ∃ blocks inp x, Dispatched round requests s commands requests' s' blocks inp x := by
  by_cases hnone : s.merged.blockToSchedule.blocks = []
  · rw [sched_nothing hnone] at h
    obtain ⟨rfl, rfl, rfl⟩ := by simpa using h
    exact ⟨[], _, [], dispatched_nothing hnone⟩
  · unfold sched at h
    rw [if_neg fun hlen => hnone (List.length_eq_zero_iff.mp hlen)] at h
    obtain ⟨⟨blockToSeq, columns, requests₁⟩, hnumber, hrest⟩ := bind_ok h
    obtain ⟨x, hsolved, hrest⟩ := bind_ok hrest
    obtain ⟨⟨commands₁, toSchedule⟩, hdispatch, hresult⟩ := bind_ok hrest
    obtain ⟨hposed, rfl, rfl⟩ := posed_of_number rfl hnumber
    obtain ⟨commands₂, toSchedule₂, hall, hdispatched⟩ := dispatch_dispatches hposed hsolved
    rw [hall] at hdispatch
    obtain ⟨rfl, rfl⟩ := Prod.mk.inj (Except.ok.inj hdispatch)
    obtain ⟨rfl, rfl, rfl⟩ := by simpa using hresult
    exact ⟨_, _, x, hdispatched⟩

/-- `get_utility` may erase from the table, but not from the queue. -/
theorem getUtility_requestQueue (now : TimePoint) (nodeId : NodeId) (block : BlockRef) :
    (requests.getUtility now nodeId block).2.requestQueue = requests.requestQueue := by
  unfold BlockRequestScheduler.getUtility
  cases requests.requestDescTable.lookup nodeId with
  | none => rfl
  | some descs =>
    dsimp only
    cases BlockRequestScheduler.utilitySums now block descs 0 0 <;> rfl

theorem column_requestQueue {block : BlockRef} {neighbors : List NodeId} {col : List (ℚ × ℤ)}
    (h : column round block neighbors requests = .ok (col, requests')) :
    requests'.requestQueue = requests.requestQueue := by
  induction neighbors generalizing requests col with
  | nil =>
    obtain ⟨-, rfl⟩ := by simpa [column] using h
    rfl
  | cons nodeId neighbors ih =>
    rw [column] at h
    obtain ⟨ttl, -, hrest⟩ := bind_ok h
    obtain ⟨⟨rest, requests₁⟩, hcol, hresult⟩ := bind_ok hrest
    obtain ⟨-, rfl⟩ := by simpa using hresult
    exact (ih hcol).trans (getUtility_requestQueue _ _ _)

theorem number_requestQueue {blocks : List BlockRef} {seq : ℕ}
    {blockToSeq blockToSeq' : List (BlockRef × ℕ)} {columns : List (List (ℚ × ℤ))}
    (h : number round blocks seq blockToSeq requests = .ok (blockToSeq', columns, requests')) :
    requests'.requestQueue = requests.requestQueue := by
  induction blocks generalizing seq blockToSeq blockToSeq' columns requests with
  | nil =>
    obtain ⟨-, -, rfl⟩ := by simpa [number] using h
    rfl
  | cons block blocks ih =>
    rw [number] at h
    obtain ⟨⟨col, requests₁⟩, hcol, hrest⟩ := bind_ok h
    obtain ⟨⟨blockToSeq₁, cols, requests₂⟩, hnumber, hresult⟩ := bind_ok hrest
    obtain ⟨-, -, rfl⟩ := by simpa using hresult
    exact (ih hnumber).trans (column_requestQueue hcol)

theorem sched_requestQueue (h : s.sched round requests = .ok (commands, requests', s')) :
    requests'.requestQueue = requests.requestQueue := by
  unfold sched at h
  dsimp only at h
  split_ifs at h
  · obtain ⟨-, rfl, -⟩ := by simpa using h
    rfl
  · obtain ⟨⟨blockToSeq, columns, requests₁⟩, hnumber, hrest⟩ := bind_ok h
    obtain ⟨x, -, hrest⟩ := bind_ok hrest
    obtain ⟨⟨commands₁, toSchedule⟩, -, hresult⟩ := bind_ok hrest
    obtain ⟨-, rfl, -⟩ := by simpa using hresult
    exact number_requestQueue hnumber

theorem getTtl_error {now : TimePoint} {schedInterval : UInt32} {nodeId : NodeId} {block : BlockRef}
    {e : Fault} (h : requests.getTtl now schedInterval nodeId block = .error e) :
    e = .divisionByZero ∧ schedInterval = 0 := by
  unfold BlockRequestScheduler.getTtl at h
  cases hdescs : requests.requestDescTable.lookup nodeId with
  | none =>
    rw [hdescs] at h
    cases h
  | some descs =>
    cases hfind : descs.find? fun d => d.block = block with
    | none => simp [hdescs, hfind] at h
    | some d =>
      simp only [hdescs, hfind] at h
      split_ifs at h with hlate hzero
      exact ⟨(Except.error.inj h).symm, hzero⟩

theorem column_error {block : BlockRef} {neighbors : List NodeId} {e : Fault}
    (h : column round block neighbors requests = .error e) :
    e = .divisionByZero ∧ round.schedInterval = 0 := by
  induction neighbors generalizing requests with
  | nil => cases h
  | cons nodeId neighbors ih =>
    rw [column] at h
    rcases bind_error h with httl | ⟨ttl, -, hrest⟩
    · exact getTtl_error httl
    · rcases bind_error hrest with hcol | ⟨out, -, hpure⟩
      · exact ih hcol
      · cases hpure

theorem number_error {blocks : List BlockRef} {seq : ℕ} {blockToSeq : List (BlockRef × ℕ)}
    {e : Fault} (h : number round blocks seq blockToSeq requests = .error e) :
    e = .divisionByZero ∧ round.schedInterval = 0 := by
  induction blocks generalizing seq blockToSeq requests with
  | nil => cases h
  | cons block blocks ih =>
    rw [number] at h
    rcases bind_error h with hcol | ⟨col, -, hrest⟩
    · exact column_error hcol
    · rcases bind_error hrest with hnumber | ⟨out, -, hpure⟩
      · exact ih hnumber
      · cases hpure

/-- Nothing is wrong with an answer: it is GLPK itself that ends the program. -/
theorem solved_error {inp : Input} {e : Fault} (h : solved round inp = .error e) :
    e = .assertFailed "glp_error" ∧ round.solver.intopt (problem inp) = none := by
  unfold solved at h
  cases hanswer : round.solver.intopt (problem inp) with
  | none =>
    rw [hanswer] at h
    exact ⟨(Except.error.inj h).symm, rfl⟩
  | some answer =>
    have hsized : Sized inp.numOfBlocks (inp.maxTtl + 2)
        (List.replicate inp.numOfBlocks (List.replicate (inp.maxTtl + 2) 0)) :=
      fun c hc => ⟨_, List.getElem?_replicate_of_lt hc, by simp⟩
    obtain ⟨x, hsolve, -⟩ := @solve_ok _ (fits_of_accepted (round.solver.accepts _ _ hanswer))
      (fun _ => answer) _ (round.solver.binary _ _ hanswer) hsized
    simp [hanswer, hsolve, Except.map] at h

/-- A call can fail when the interval is zero, and it fails if the solver does not answer the
problem posed; otherwise it does not. -/
theorem sched_error {e : Fault} (h : s.sched round requests = .error e) :
    e = .divisionByZero ∧ round.schedInterval = 0 ∨
      e = .assertFailed "glp_error" ∧ ∃ blocks inp, blocks ≠ [] ∧
        Posed round requests s blocks inp ∧ round.solver.intopt (problem inp) = none := by
  by_cases hnone : s.merged.blockToSchedule.blocks = []
  · rw [sched_nothing hnone] at h
    cases h
  · unfold sched at h
    rw [if_neg fun hlen => hnone (List.length_eq_zero_iff.mp hlen)] at h
    rcases bind_error h with hnumber | ⟨⟨blockToSeq, columns, requests₁⟩, hnumber, hrest⟩
    · exact .inl (number_error hnumber)
    · obtain ⟨hposed, rfl, rfl⟩ := posed_of_number rfl hnumber
      rcases bind_error hrest with hsolved | ⟨x, hsolved, hrest⟩
      · obtain ⟨he, hrefused⟩ := solved_error hsolved
        have hsome : round.blockOrder.order s.merged.blockToSchedule.blocks ≠ [] := fun hnil =>
          hnone (List.nil_perm.mp (hnil ▸ round.blockOrder.perm _))
        exact .inr ⟨he, _, _, hsome, hposed, hrefused⟩
      · obtain ⟨commands, toSchedule, hall, -⟩ := dispatch_dispatches hposed hsolved
        rw [hall] at hrest
        cases hrest

end Calls

/-- A call of `sched` poses the problem of its blocks, finds the block of each of its columns, and
leaves and sends what the answer says. It does so whenever the interval is not zero and the solver
answers. Until then a block that has arrived stays where it is. -/
def LosesNothing (s : Schedulers) : SchedOp → Prop
  | .schedResponses round =>
      (∀ e, s.step (.schedResponses round) = .error e →
        e = .divisionByZero ∧ round.schedInterval = 0 ∨
          e = .assertFailed "glp_error" ∧ ∃ blocks inp, blocks ≠ [] ∧
            Posed round s.requests s.responses blocks inp ∧
            round.solver.intopt (problem inp) = none) ∧
      ∀ s', s.step (.schedResponses round) = .ok s' → ∃ commands blocks inp x,
        s.responses.sched round s.requests = .ok (commands, s'.requests, s'.responses) ∧
        Dispatched round s.requests s.responses commands s'.requests s'.responses blocks inp x
  | .addResponse block => ∃ s', s.step (.addResponse block) = .ok s' ∧
      s'.responses.blockToSchedule = s.responses.blockToSchedule ∧
      ∀ other, other ∈ s'.responses.blockArrivedBuf.blocks ↔
        other = block ∨ other ∈ s.responses.blockArrivedBuf.blocks
  | op => ∃ s', s.step op = .ok s' ∧ s'.responses = s.responses

theorem schedResponses_losesNothing (s : Schedulers) (round : Round) :
    LosesNothing s (.schedResponses round) := by
  constructor
  · intro e he
    cases hsched : s.responses.sched round s.requests with
    | error e' =>
      rw [Schedulers.step, hsched] at he
      obtain rfl := Except.error.inj he
      exact sched_error hsched
    | ok out =>
      rw [Schedulers.step, hsched] at he
      cases he
  · intro s' hs
    obtain ⟨⟨commands, requests, responses⟩, hsched, rfl⟩ := map_eq_ok hs
    obtain ⟨blocks, inp, x, hd⟩ := sched_ok hsched
    exact ⟨commands, blocks, inp, x, hsched, hd⟩

end YingSma.BlockResponseScheduler
