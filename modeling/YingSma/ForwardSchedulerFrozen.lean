import YingSma.ContentHelperFrozen
import YingSma.ForwardScheduler

/-! Which blocks are frozen after `BlockResponseScheduler::sched`. A block that is broadcast is no
longer scheduled, and then nobody unfreezes it. -/
namespace YingSma.ForwardScheduler
open StateActions TransitionRuns ContentHelper LPSolver

section Commands

variable {env : Surroundings} {h h' : ContentHelper}

theorem forEach_broadcast_ok {blocks : List BlockRef} {u : Unit}
    (hrun : forEach (fun block => discard (broadcast env block)) blocks h = .ok (u, h')) :
    ∃ es, h' = h.emit es := by
  induction blocks generalizing h with
  | nil =>
    obtain rfl : h = h' := by simpa [forEach, pure_run] using hrun
    exact ⟨[], (emit_nil h).symm⟩
  | cons block blocks ih =>
    rw [forEach, bind_run_ok (discard_run (broadcast_run env h block))] at hrun
    obtain ⟨es, rfl⟩ := ih hrun
    exact ⟨_, emit_emit _ _ _⟩

/-- The blocks to freeze are frozen, then those to unfreeze are unfrozen. -/
theorem carryOut_ok {commands : Commands} {u : Unit} (hsound : SoundApart h)
    (hrun : carryOut env commands h = .ok (u, h')) :
    SoundApart h' ∧ ∃ c, FrozenAs true commands.freeze h.cache c ∧
      FrozenAs false commands.unfreeze c h'.cache := by
  obtain ⟨count, h₁, hfreeze, hrest⟩ := bind_eq_ok hrun
  obtain ⟨count', h₂, hunfreeze, hbroadcast⟩ := bind_eq_ok hrest
  obtain ⟨hsound₁, -, hfrozen⟩ := frozen_ok hsound hfreeze
  obtain ⟨hsound₂, -, hunfrozen⟩ := frozen_ok hsound₁ hunfreeze
  obtain ⟨es, rfl⟩ := forEach_broadcast_ok hbroadcast
  exact ⟨⟨⟨hsound₂.cache, hsound₂.store⟩, hsound₂.apart⟩, _, hfrozen, hunfrozen⟩

end Commands

section Calls

variable {hasher : List UInt8 → Hash} {env : Surroundings} {n n' : Node}

theorem schedResponses_ok {round : Round} (hs : n.schedResponses env round = .ok n') :
    ∃ commands requests responses,
      n.schedulers.responses.sched { round with now := env.now } n.schedulers.requests =
        .ok (commands, requests, responses) ∧
      ∃ u, carryOut env commands n.content = .ok (u, n'.content) := by
  obtain ⟨⟨commands, requests, responses⟩, hsched, hcall⟩ := bind_ok hs
  have hcall : Node.callContent env (carryOut env commands)
      { n with schedulers := ⟨requests, responses⟩ } = .ok n' := hcall
  exact ⟨commands, requests, responses, hsched, callContent_ok hcall⟩

theorem step_soundApart {act : Surroundings × Act} (hsound : SoundApart n.content)
    (hs : step hasher n act = .ok n') : SoundApart n'.content := by
  obtain ⟨env, act⟩ := act
  cases act with
  | call op =>
    obtain ⟨u, hcall⟩ := callContent_ok hs
    have hstep : ContentHelper.step hasher n.content (env, op) = .ok n'.content := by
      rw [ContentHelper.step, hcall]
      rfl
    exact ContentHelper.step_soundApart hsound hstep
  | schedRequests =>
    simp only [step, Node.schedRequests] at hs
    split_ifs at hs
    · obtain rfl := Except.ok.inj hs
      exact hsound
    · obtain ⟨u, hcall⟩ := callContent_ok hs
      have hstep : ContentHelper.step hasher n.content
          (env, .request (n.schedulers.requests.sched env.now).1) = .ok n'.content := by
        rw [ContentHelper.step, perform, hcall]
        rfl
      exact ContentHelper.step_soundApart hsound hstep
  | schedResponses round =>
    obtain ⟨commands, requests, responses, -, u, hcarry⟩ := schedResponses_ok hs
    exact (carryOut_ok hsound hcarry).1

end Calls

/-- The block waits for `sched`, or was left by it. -/
def Scheduled (s : BlockResponseScheduler) (block : BlockRef) : Prop :=
  block ∈ s.blockToSchedule.blocks ∨ block ∈ s.blockArrivedBuf.blocks

/-- What is relied on: the solver answers with what it was asked for, and the blocks to be
scheduled are in the cache. -/
structure WellSupplied (n : Node) (round : Round) : Prop where
  feasible : ∀ p y, round.solver.intopt p = some y → p.program.Feasible y
  present : ∀ block, Scheduled n.schedulers.responses block → (n.content.cache.find block).isSome

/-- The frozen slots hold the blocks that the solver has chosen, no more of them than the storage
allows, and what it has not chosen is not frozen. -/
structure FrozenAsChosen (c : ContentCache) (blocks : List BlockRef) (x : List (List ℕ)) : Prop where
  chosen : ∀ idx, (c.slot idx).frozen →
    ∃ k block, blocks[k]? = some block ∧ cell x k 0 = 1 ∧ c.find block = some idx
  count : c.slots.countP Slot.frozen ≤ BlockResponseScheduler.storage
  others : ∀ block idx, c.find block = some idx →
    (∀ k, blocks[k]? = some block → cell x k 0 ≠ 1) → ¬ (c.slot idx).frozen

/-- Only blocks that are scheduled again are frozen. -/
def OnlyScheduledFrozen (n : Node) : Prop :=
  ∀ idx, (n.content.cache.slot idx).frozen →
    ∃ block, Scheduled n.schedulers.responses block ∧ n.content.cache.find block = some idx

/-- After a call of `sched` the frozen slots are accounted for. -/
def AccountsForFrozen (hasher : List UInt8 → Hash) (n : Node) (act : Surroundings × Act) : Prop :=
  match act.2 with
  | .schedResponses round => WellSupplied n round → ∀ n', step hasher n act = .ok n' →
      ∃ commands requests responses blocks inp x,
        n.schedulers.responses.sched { round with now := act.1.now } n.schedulers.requests =
          .ok (commands, requests, responses) ∧
        BlockResponseScheduler.Dispatched { round with now := act.1.now } n.schedulers.requests
          n.schedulers.responses commands requests responses blocks inp x ∧
        FrozenAsChosen n'.content.cache blocks x
  | _ => True

/-- Before a call of `sched` that returns, only blocks that are scheduled again are frozen. -/
def FindsOnlyScheduledFrozen (hasher : List UInt8 → Hash) (n : Node) (act : Surroundings × Act) :
    Prop :=
  match act.2 with
  | .schedResponses round =>
      WellSupplied n round → (step hasher n act).isOk → OnlyScheduledFrozen n
  | _ => True

section Rounds

variable {round : Round} {requests requests' : BlockRequestScheduler}
  {s s' : BlockResponseScheduler} {commands : Commands} {blocks : List BlockRef} {inp : Input}
  {x : List (List ℕ)}

/-- The blocks to freeze are those that have been chosen. -/
theorem mem_freeze_iff
    (hd : BlockResponseScheduler.Dispatched round requests s commands requests' s' blocks inp x)
    {block : BlockRef} :
    block ∈ commands.freeze ↔ ∃ k, blocks[k]? = some block ∧ cell x k 0 = 1 := by
  constructor
  · intro hmem
    have hblock := hd.apart.mem_iff.mp (List.mem_append_left _ hmem)
    obtain ⟨k, hk⟩ := List.mem_iff_getElem?.mp hblock
    exact ⟨k, hk, (hd.freeze k block hk).mp hmem⟩
  · rintro ⟨k, hk, hone⟩
    exact (hd.freeze k block hk).mpr hone

theorem freeze_length_le
    (hd : BlockResponseScheduler.Dispatched round requests s commands requests' s' blocks inp x)
    (hfeasible : ∀ p y, round.solver.intopt p = some y → p.program.Feasible y) :
    commands.freeze.length ≤ BlockResponseScheduler.storage := by
  by_cases hnone : blocks = []
  · have hapart := hd.apart
    rw [hnone, List.perm_nil, List.append_eq_nil_iff] at hapart
    rw [hapart.1]
    exact Nat.zero_le _
  · obtain ⟨answer, hanswer, -⟩ := hd.solution hnone
    exact (hd.feasible answer hanswer (hfeasible _ _ hanswer)).1

/-- Slots that are found as one of some blocks are at most as many as these blocks. -/
theorem countP_frozen_le {c : ContentCache} {found : List BlockRef}
    (hfound : ∀ idx, (c.slot idx).frozen → ∃ block ∈ found, c.find block = some idx) :
    c.slots.countP Slot.frozen ≤ found.length := by
  have hslots : c.slots = (List.range c.slots.length).map c.slot := by
    apply List.ext_getElem
    · simp
    · intro i hi _
      simp [ContentCache.slot, ContentCache.slotAt, hi]
  have hsub : (List.range c.slots.length).filter (Slot.frozen ∘ c.slot) ⊆
      found.filterMap c.find := by
    intro idx hidx
    obtain ⟨block, hblock, hfind⟩ := hfound idx (List.mem_filter.mp hidx).2
    exact List.mem_filterMap.mpr ⟨block, hblock, hfind⟩
  have hnodup := (@List.nodup_range c.slots.length).filter (Slot.frozen ∘ c.slot)
  rw [hslots, List.countP_map, List.countP_eq_length_filter]
  exact (hnodup.subperm hsub).length_le.trans (List.length_filterMap_le _ _)

variable {c c₁ c' : ContentCache}

/-- What is frozen in the end was chosen, or was frozen before and is not scheduled. -/
theorem frozen_after_iff
    (hd : BlockResponseScheduler.Dispatched round requests s commands requests' s' blocks inp x)
    (hapart : ContentCache.Apart c.content) (hfreeze : FrozenAs true commands.freeze c c₁)
    (hunfreeze : FrozenAs false commands.unfreeze c₁ c') (idx : ℕ) :
    (c'.slot idx).frozen ↔ (∃ block ∈ commands.freeze, c.find block = some idx) ∨
      (c.slot idx).frozen ∧ ∀ block, Scheduled s block → c.find block ≠ some idx := by
  have hmem : ∀ block, Scheduled s block ↔ block ∈ commands.freeze ∨ block ∈ commands.unfreeze := by
    intro block
    rw [← List.mem_append, hd.apart.mem_iff, hd.all]
    rfl
  by_cases hchosen : ∃ block ∈ commands.freeze, c.find block = some idx
  · obtain ⟨block, hblock, hfind⟩ := hchosen
    -- No block to unfreeze is in the same slot.
    have hkeep : ∀ other ∈ commands.unfreeze, c₁.find other ≠ some idx := by
      intro other hother hfind'
      rw [hfreeze.find] at hfind'
      obtain rfl := hapart.find_inj hfind hfind'
      have hnodup := hd.apart.nodup_iff.mpr hd.distinct
      exact (List.nodup_append.mp hnodup).2.2 block hblock block hother rfl
    rw [hunfreeze.other idx hkeep, hfreeze.found block hblock idx hfind]
    exact iff_of_true rfl (.inl ⟨block, hblock, hfind⟩)
  · have hsame := hfreeze.other idx fun block hblock hfind => hchosen ⟨block, hblock, hfind⟩
    by_cases hdropped : ∃ block ∈ commands.unfreeze, c.find block = some idx
    · obtain ⟨block, hblock, hfind⟩ := hdropped
      rw [hunfreeze.found block hblock idx ((hfreeze.find block).trans hfind)]
      apply iff_of_false Bool.false_ne_true
      rintro (hin | ⟨-, hnone⟩)
      · exact hchosen hin
      · exact hnone block ((hmem block).mpr (.inr hblock)) hfind
    · rw [hunfreeze.other idx fun block hblock hfind =>
        hdropped ⟨block, hblock, (hfreeze.find block).symm.trans hfind⟩, hsame]
      constructor
      · intro hfrozen
        refine .inr ⟨hfrozen, fun block hblock hfind => ?_⟩
        rcases (hmem block).mp hblock with hin | hin
        · exact hchosen ⟨block, hin, hfind⟩
        · exact hdropped ⟨block, hin, hfind⟩
      · rintro (hin | ⟨hfrozen, -⟩)
        · exact (hchosen hin).elim
        · exact hfrozen

/-- What is frozen is accounted for if nothing but scheduled blocks was frozen. -/
theorem frozenAsChosen_iff
    (hd : BlockResponseScheduler.Dispatched round requests s commands requests' s' blocks inp x)
    (hfeasible : ∀ p y, round.solver.intopt p = some y → p.program.Feasible y)
    (hapart : ContentCache.Apart c.content) (hfreeze : FrozenAs true commands.freeze c c₁)
    (hunfreeze : FrozenAs false commands.unfreeze c₁ c') :
    FrozenAsChosen c' blocks x ↔ ∀ idx, (c.slot idx).frozen →
      ∃ block, Scheduled s block ∧ c.find block = some idx := by
  have hafter := frozen_after_iff hd hapart hfreeze hunfreeze
  have hfind : ∀ block, c'.find block = c.find block := fun block =>
    (hunfreeze.find block).trans (hfreeze.find block)
  constructor
  · intro hchosen idx hfrozen
    by_contra hnone
    simp only [not_exists, not_and] at hnone
    obtain ⟨k, block, hk, -, hblock⟩ := hchosen.chosen idx ((hafter idx).mpr (.inr ⟨hfrozen, hnone⟩))
    exact hnone block ((hd.all block).mp (List.mem_of_getElem? hk)) ((hfind block).symm.trans hblock)
  · intro honly
    have hin : ∀ idx, (c'.slot idx).frozen → ∃ block ∈ commands.freeze, c'.find block = some idx := by
      intro idx hfrozen
      rcases (hafter idx).mp hfrozen with ⟨block, hblock, hfound⟩ | ⟨hbefore, hnone⟩
      · exact ⟨block, hblock, (hfind block).trans hfound⟩
      · obtain ⟨block, hblock, hfound⟩ := honly idx hbefore
        exact (hnone block hblock hfound).elim
    refine ⟨?_, (countP_frozen_le hin).trans (freeze_length_le hd hfeasible), ?_⟩
    · intro idx hfrozen
      obtain ⟨block, hblock, hfound⟩ := hin idx hfrozen
      obtain ⟨k, hk, hone⟩ := (mem_freeze_iff hd).mp hblock
      exact ⟨k, block, hk, hone, hfound⟩
    · intro block idx hfound hnot hfrozen
      obtain ⟨other, hother, hfound'⟩ := hin idx hfrozen
      have hapart' : ContentCache.Apart c'.content :=
        (hunfreeze.content.trans hfreeze.content).symm ▸ hapart
      obtain rfl := hapart'.find_inj hfound hfound'
      obtain ⟨k, hk, hone⟩ := (mem_freeze_iff hd).mp hother
      exact hnot k hk hone

end Rounds

section Runs

variable {hasher : List UInt8 → Hash} {n : Node}

theorem new_soundApart (flags : Flags) (id : NodeId) : SoundApart (new flags id).content :=
  ⟨⟨(build_sound flags id).cache, (build_sound flags id).store⟩, (build_soundApart flags id).apart⟩

theorem accountsForFrozen_iff (hsound : SoundApart n.content) (act : Surroundings × Act) :
    AccountsForFrozen hasher n act ↔ FindsOnlyScheduledFrozen hasher n act := by
  obtain ⟨env, act⟩ := act
  cases act with
  | call op => rfl
  | schedRequests => rfl
  | schedResponses round =>
    constructor
    · intro haccounts hsupplied hok
      cases hs : step hasher n (env, .schedResponses round) with
      | error e =>
        rw [hs] at hok
        cases hok
      | ok n' =>
        obtain ⟨commands, requests, responses, blocks, inp, x, hsched, hd, hchosen⟩ :=
          haccounts hsupplied n' hs
        obtain ⟨commands', requests', responses', hsched', u, hcarry⟩ := schedResponses_ok hs
        rw [hsched] at hsched'
        obtain ⟨rfl, rfl, rfl⟩ := by simpa using hsched'
        obtain ⟨-, c, hfreeze, hunfreeze⟩ := carryOut_ok hsound hcarry
        exact (frozenAsChosen_iff hd hsupplied.feasible hsound.apart hfreeze hunfreeze).mp hchosen
    · intro honly hsupplied n' hs
      obtain ⟨commands, requests, responses, hsched, u, hcarry⟩ := schedResponses_ok hs
      obtain ⟨blocks, inp, x, hd⟩ := BlockResponseScheduler.sched_ok hsched
      obtain ⟨-, c, hfreeze, hunfreeze⟩ := carryOut_ok hsound hcarry
      have hbefore := honly hsupplied (by
        rw [hs]
        rfl)
      exact ⟨commands, requests, responses, blocks, inp, x, hsched, hd,
        (frozenAsChosen_iff hd hsupplied.feasible hsound.apart hfreeze hunfreeze).mpr hbefore⟩

/-- The frozen slots are accounted for throughout a run in which every call of `sched` finds only
blocks frozen that are scheduled again, and not otherwise. -/
theorem frozen_accounted_iff (hasher : List UInt8 → Hash) (flags : Flags) (id : NodeId)
    (acts : List (Surroundings × Act)) :
    Each (step hasher) (AccountsForFrozen hasher) (new flags id) acts ↔
      Each (step hasher) (FindsOnlyScheduledFrozen hasher) (new flags id) acts := by
  apply each_congr fun n : Node => SoundApart n.content
  · exact fun n act _ n' hsound _ hs => step_soundApart hsound hs
  · exact fun n act _ hsound => accountsForFrozen_iff hsound act
  · exact new_soundApart flags id

end Runs

section Leak

/-- A solver that has one answer only, where it is one. -/
def answering (y : ℤ → ℚ) : Solver where
  intopt p := if p.Accepted ∧ p.program.Feasible y then some y else none
  accepts p y' h := by
    split_ifs at h with hy
    exact hy.1
  binary p y' h := by
    split_ifs at h with hy
    obtain rfl := Option.some.inj h
    exact hy.2.binary

theorem answering_feasible {y : ℤ → ℚ} (p : GlpProblem) (y' : ℤ → ℚ)
    (h : (answering y).intopt p = some y') : p.program.Feasible y' := by
  simp only [answering] at h
  split_ifs at h with hy
  obtain rfl := Option.some.inj h
  exact hy.2

/-- No neighbours, and an answer that keeps the first block until it is broadcast at once. -/
def lonelyRound : Round where
  now := 0
  schedInterval := 1000
  neighbors := []
  blockOrder := ⟨id, List.Perm.refl⟩
  seqOrder := ⟨id, List.Perm.refl⟩
  solver := answering fun k => if k = 1 then 1 else 0

theorem length_singleton_byte (b : UInt8) : [b].length = (1 : UInt32).toNat := rfl

/-- A block arrives and is broadcast in the next round. -/
def broadcastOnce : List (Surroundings × Act) :=
  [(sampleSurroundings, .call (.receiveBlockResponse ⟨⟨default, 0⟩, 1, [7], length_singleton_byte 7⟩)),
    (sampleSurroundings, .schedResponses lonelyRound)]

/-- In the round after that the slot of the block is still frozen. -/
def leaks (n : Node) : Bool :=
  (n.content.cache.slot 15).frozen && n.schedulers.responses.blockToSchedule.blocks = [] &&
    n.schedulers.responses.blockArrivedBuf.blocks = [] &&
      (step (fun _ => default) n (sampleSurroundings, .schedResponses lonelyRound)).isOk

theorem frozen_leaks : ¬ Each (step fun _ => default) (AccountsForFrozen fun _ => default)
    (new ⟨true, true, true, true⟩ ⟨1⟩)
    (broadcastOnce ++ [(sampleSurroundings, .schedResponses lonelyRound)]) := by
  have hleaks : (match run (step fun _ => default) (new ⟨true, true, true, true⟩ ⟨1⟩) broadcastOnce with
      | .ok n => leaks n
      | .error _ => false) = true := by decide +kernel
  intro hall
  obtain ⟨-, hlast⟩ := (each_append _ _ _).mp hall
  cases hrun : run (step fun _ => default) (new ⟨true, true, true, true⟩ ⟨1⟩) broadcastOnce with
  | error e =>
    rw [hrun] at hleaks
    cases hleaks
  | ok n =>
    rw [hrun] at hleaks
    simp only [leaks, Bool.and_eq_true, decide_eq_true_eq] at hleaks
    obtain ⟨⟨⟨hfrozen, hscheduled⟩, harrived⟩, hok⟩ := hleaks
    have hnone : ∀ block, ¬ Scheduled n.schedulers.responses block := by
      simp [Scheduled, hscheduled, harrived]
    have hsound : SoundApart n.content :=
      run_invariant (fun n : Node => SoundApart n.content)
        (fun n act n' hsound hs => step_soundApart hsound hs)
        (new_soundApart ⟨true, true, true, true⟩ ⟨1⟩) hrun
    have hsupplied : WellSupplied n lonelyRound :=
      ⟨answering_feasible, fun block hblock => (hnone block hblock).elim⟩
    obtain ⟨block, hblock, -⟩ :=
      (accountsForFrozen_iff hsound _).mp (hlast n hrun).1 hsupplied hok 15 hfrozen
    exact hnone block hblock

end Leak

end YingSma.ForwardScheduler
