import YingSma.BlockRequestScheduler
import YingSma.TransitionRuns

/-! The table of `BlockRequestScheduler`: what each call leaves of a neighbour's requests, and the
one request that is held for a block. -/
namespace YingSma.BlockRequestScheduler
open EntryTable TransitionRuns

/-- The calls that change the scheduler. -/
inductive Call
  | addRequests (nodeId : NodeId) (requests : List BlockRequestArgs)
  | getUtility (nodeId : NodeId) (block : BlockRef)
  | fwdRequests (maxNumOfRequests : ℕ)

/-- A call at the time `c.1`. None of them fails. -/
def step (s : BlockRequestScheduler) (c : TimePoint × Call) : Except Fault BlockRequestScheduler :=
  .ok (match c.2 with
    | .addRequests nodeId requests => s.addRequests c.1 nodeId requests
    | .getUtility nodeId block => (s.getUtility c.1 nodeId block).2
    | .fwdRequests maxNumOfRequests => (s.fwdRequests c.1 maxNumOfRequests).2)

/-- The requests of a neighbour. -/
def descsOf (s : BlockRequestScheduler) (nodeId : NodeId) : Option (List BlockRequestDesc) :=
  s.requestDescTable.lookup nodeId

/-- `d` is a request of the neighbour for the block. -/
def Held (s : BlockRequestScheduler) (nodeId : NodeId) (block : BlockRef) (d : BlockRequestDesc) :
    Prop :=
  ∃ descs, s.descsOf nodeId = some descs ∧ d ∈ descs ∧ d.block = block

/-- `get_utility` divides by a total of zero, and what it returns is not a number. -/
def DividesByZero (s : BlockRequestScheduler) (now : TimePoint) (nodeId : NodeId)
    (block : BlockRef) : Prop :=
  ∃ descs target, s.descsOf nodeId = some descs ∧ utilitySums now block descs 0 0 = some (target, 0)

/-- All utilities are positive. -/
def PositiveUtilities (s : BlockRequestScheduler) : Prop :=
  ∀ nodeId descs, s.descsOf nodeId = some descs → ∀ d ∈ descs, 0 < floatValue d.utility

/-- A neighbour has one request for a block at most. -/
def OneEach (s : BlockRequestScheduler) : Prop :=
  ∀ nodeId descs, s.descsOf nodeId = some descs → (descs.map BlockRequestDesc.block).Nodup

section Holding

variable {s : BlockRequestScheduler} {nodeId : NodeId} {block : BlockRef} {d e : BlockRequestDesc}

theorem held_unique (hone : OneEach s) (hd : s.Held nodeId block d) (he : s.Held nodeId block e) :
    d = e := by
  obtain ⟨descs, hdescs, hmem, hblock⟩ := hd
  obtain ⟨descs', hdescs', hmem', hblock'⟩ := he
  obtain rfl := Option.some.inj (hdescs.symm.trans hdescs')
  exact List.inj_on_of_nodup_map (hone nodeId descs hdescs) hmem hmem' (hblock.trans hblock'.symm)

/-- The first request for the block is the one there is. -/
theorem find_held (hone : OneEach s) {descs : List BlockRequestDesc}
    (hdescs : s.descsOf nodeId = some descs) (hd : s.Held nodeId block d) :
    (descs.find? fun d => d.block = block) = some d := by
  obtain ⟨descs', hdescs', hmem, hblock⟩ := hd
  obtain rfl := Option.some.inj (hdescs.symm.trans hdescs')
  rw [← hblock]
  refine find_of_unique BlockRequestDesc.block hmem fun e he hsame => ?_
  exact List.inj_on_of_nodup_map (hone nodeId descs hdescs) he hmem hsame

theorem find_not_held (hnone : ∀ d, ¬ s.Held nodeId block d) {descs : List BlockRequestDesc}
    (hdescs : s.descsOf nodeId = some descs) : (descs.find? fun d => d.block = block) = none := by
  rw [List.find?_eq_none]
  intro d hd hblock
  exact hnone d ⟨descs, hdescs, hd, by simpa using hblock⟩

end Holding

section Inserting

variable {now : TimePoint} {nodeId : NodeId} {s : BlockRequestScheduler}

/-- What `insert_request` leaves of a neighbour's requests. -/
def keptBeside (now : TimePoint) (block : BlockRef) (descs : List BlockRequestDesc) :
    List BlockRequestDesc :=
  descs.filter fun d => d.block ≠ block ∧ ¬ d.expireTime < now

theorem descsOf_insertRequest (request : BlockRequestArgs) (m : NodeId) :
    (s.insertRequest now nodeId request).descsOf m =
      if m = nodeId then
        some (keptBeside now request.block ((s.descsOf nodeId).getD []) ++
          [.ofArgs now nodeId request])
      else s.descsOf m := by
  unfold descsOf insertRequest
  cases hdescs : s.requestDescTable.lookup nodeId with
  | none =>
    dsimp only
    rw [lookup_insert hdescs]
    rfl
  | some descs =>
    refine (lookup_update nodeId (fun descs => keptBeside now request.block descs ++
      [.ofArgs now nodeId request]) s.requestDescTable m).trans ?_
    rw [hdescs]
    rfl

theorem oneEach_insertRequest (request : BlockRequestArgs) (hone : OneEach s) :
    OneEach (s.insertRequest now nodeId request) := by
  intro m descs hdescs
  rw [descsOf_insertRequest] at hdescs
  split_ifs at hdescs with hm
  · obtain rfl := Option.some.inj hdescs
    rw [List.map_append, List.map_singleton]
    have hold : (((s.descsOf nodeId).getD []).map BlockRequestDesc.block).Nodup := by
      cases hheld : s.descsOf nodeId with
      | none => exact List.nodup_nil
      | some held => exact hone nodeId held hheld
    refine (hold.sublist (List.filter_sublist.map _)).append (List.nodup_singleton _) ?_
    intro block hblock hnew
    obtain ⟨d, hd, rfl⟩ := List.mem_map.mp hblock
    have hother := (List.mem_filter.mp hd).2
    simp only [decide_eq_true_eq] at hother
    exact hother.1 (List.mem_singleton.mp hnew)
  · exact hone m descs hdescs

end Inserting

section Summing

variable {now : TimePoint} {block : BlockRef} {descs : List BlockRequestDesc}

/-- The request for the block has expired. -/
def outdated (now : TimePoint) (block : BlockRef) (d : BlockRequestDesc) : Bool :=
  d.block = block ∧ d.expireTime < now

/-- The utilities of the requests together. -/
def totalUtility (descs : List BlockRequestDesc) : ℚ := (descs.map fun d => floatValue d.utility).sum

theorem utilitySums_append {before : List BlockRequestDesc}
    (hother : ∀ d ∈ before, d.block ≠ block) (descs : List BlockRequestDesc) (target total : ℚ) :
    utilitySums now block (before ++ descs) target total =
      utilitySums now block descs target (total + totalUtility before) := by
  induction before generalizing total with
  | nil => simp [totalUtility]
  | cons d before ih =>
    rw [List.forall_mem_cons] at hother
    rw [List.cons_append, utilitySums, if_neg hother.1, ih hother.2]
    simp only [totalUtility, List.map_cons, List.sum_cons, add_assoc]

/-- Without a request for the block, the total is all there is. -/
theorem utilitySums_absent (hother : ∀ d ∈ descs, d.block ≠ block) :
    utilitySums now block descs 0 0 = some (0, totalUtility descs) := by
  have hsums := @utilitySums_append now block descs hother [] 0 0
  rwa [List.append_nil, zero_add] at hsums

/-- The request for the block is the target, unless it has expired. -/
theorem utilitySums_held (hone : (descs.map BlockRequestDesc.block).Nodup) {d : BlockRequestDesc}
    (hd : d ∈ descs) (hblock : d.block = block) :
    utilitySums now block descs 0 0 =
      if d.expireTime < now then none else some (floatValue d.utility, totalUtility descs) := by
  obtain ⟨before, behind, rfl⟩ := List.append_of_mem hd
  rw [List.map_append, List.map_cons, List.nodup_middle, List.nodup_cons, hblock] at hone
  have hother : ∀ e, e ∈ before ∨ e ∈ behind → e.block ≠ block := by
    rintro e he rfl
    apply hone.1
    rw [← List.map_append]
    exact List.mem_map_of_mem (List.mem_append.mpr he)
  have hbehind := @utilitySums_append now block behind (fun e he => hother e (.inr he)) []
    (floatValue d.utility) (0 + totalUtility before + floatValue d.utility)
  rw [List.append_nil, utilitySums] at hbehind
  rw [utilitySums_append (fun e he => hother e (.inl he)), utilitySums, if_pos hblock, hbehind]
  simp only [totalUtility, List.map_append, List.map_cons, List.sum_append, List.sum_cons, zero_add,
    add_assoc]

theorem utilitySums_none (target total : ℚ) :
    utilitySums now block descs target total = none ↔ ∃ d ∈ descs, outdated now block d := by
  induction descs generalizing target total with
  | nil => simp [utilitySums]
  | cons d descs ih =>
    rw [utilitySums, List.exists_mem_cons_iff]
    split_ifs with hblock hexpired
    · simp [outdated, hblock, hexpired]
    · rw [ih, or_iff_right (by simp [outdated, hexpired])]
    · rw [ih, or_iff_right (by simp [outdated, hblock])]

end Summing

section Asking

variable {now : TimePoint} {nodeId : NodeId} {block : BlockRef} {s : BlockRequestScheduler}

/-- `get_utility` takes an expired request for the block out of the neighbour's. -/
theorem descsOf_getUtility (m : NodeId) :
    (s.getUtility now nodeId block).2.descsOf m =
      if m = nodeId then (s.descsOf nodeId).map (List.eraseP (outdated now block))
      else s.descsOf m := by
  unfold descsOf getUtility
  cases hdescs : s.requestDescTable.lookup nodeId with
  | none =>
    dsimp only
    split_ifs with hm
    · rw [hm, hdescs, Option.map_none]
    · rfl
  | some descs =>
    dsimp only
    cases hsums : utilitySums now block descs 0 0 with
    | none =>
      refine (lookup_update nodeId (List.eraseP (outdated now block)) s.requestDescTable m).trans ?_
      rw [hdescs]
    | some sums =>
      have hkept : descs.eraseP (outdated now block) = descs := by
        apply List.eraseP_of_forall_not
        intro d hd hexpired
        have hnone := (utilitySums_none 0 0).mpr ⟨d, hd, hexpired⟩
        rw [hsums] at hnone
        cases hnone
      dsimp only
      rw [Option.map_some, hkept]
      split_ifs with hm
      · rw [hm, hdescs]
      · rfl

/-- With one request for each block there is one to erase. -/
theorem eraseP_outdated {descs : List BlockRequestDesc}
    (hone : (descs.map BlockRequestDesc.block).Nodup) :
    descs.eraseP (outdated now block) = descs.filter fun d => !outdated now block d := by
  induction descs with
  | nil => rfl
  | cons d descs ih =>
    rw [List.map_cons, List.nodup_cons] at hone
    cases hexpired : outdated now block d with
    | true =>
      have hblock : d.block = block := by
        simp only [outdated, decide_eq_true_eq] at hexpired
        exact hexpired.1
      have hothers : ∀ e ∈ descs, outdated now block e = false := by
        intro e he
        have hne : e.block ≠ block := by
          rintro rfl
          exact hone.1 (hblock ▸ List.mem_map_of_mem he)
        simp [outdated, hne]
      rw [List.eraseP_cons_of_pos hexpired, List.filter_cons_of_neg (by simp [hexpired]),
        List.filter_eq_self.mpr fun e he => by simp [hothers e he]]
    | false =>
      rw [List.eraseP_cons_of_neg (by simp [hexpired]),
        List.filter_cons_of_pos (by simp [hexpired]), ih hone.2]

theorem held_getUtility (hone : OneEach s) {m : NodeId} {b : BlockRef} {d : BlockRequestDesc} :
    (s.getUtility now nodeId block).2.Held m b d ↔
      s.Held m b d ∧ ¬ (m = nodeId ∧ outdated now block d) := by
  unfold Held
  simp only [descsOf_getUtility]
  by_cases hm : m = nodeId
  · subst hm
    simp only [if_pos]
    constructor
    · rintro ⟨descs', hdescs', hd, hblock⟩
      obtain ⟨descs, hdescs, rfl⟩ := Option.map_eq_some_iff.mp hdescs'
      rw [eraseP_outdated (hone m descs hdescs), List.mem_filter] at hd
      exact ⟨⟨descs, hdescs, hd.1, hblock⟩, fun h => by simp [h.2] at hd⟩
    · rintro ⟨⟨descs, hdescs, hd, hblock⟩, hlive⟩
      refine ⟨_, Option.map_eq_some_iff.mpr ⟨descs, hdescs, rfl⟩, ?_, hblock⟩
      rw [eraseP_outdated (hone m descs hdescs), List.mem_filter]
      exact ⟨hd, by simpa using hlive⟩
  · simp [hm]

theorem getUtility_sums {descs : List BlockRequestDesc} (hdescs : s.descsOf nodeId = some descs) :
    (s.getUtility now nodeId block).1 =
      ((utilitySums now block descs 0 0).map fun sums => sums.1 / sums.2).getD 0 := by
  unfold getUtility
  rw [show s.requestDescTable.lookup nodeId = some descs from hdescs]
  dsimp only
  cases utilitySums now block descs 0 0 <;> rfl

theorem getUtility_not_held (hnone : ∀ d, ¬ s.Held nodeId block d) :
    (s.getUtility now nodeId block).1 = 0 := by
  cases hdescs : s.descsOf nodeId with
  | none =>
    unfold getUtility
    rw [show s.requestDescTable.lookup nodeId = none from hdescs]
  | some descs =>
    have hother : ∀ d ∈ descs, d.block ≠ block := fun d hd hblock =>
      hnone d ⟨descs, hdescs, hd, hblock⟩
    rw [getUtility_sums hdescs, utilitySums_absent hother]
    exact zero_div _

theorem totalUtility_pos {descs : List BlockRequestDesc} (hdescs : descs ≠ [])
    (hpos : ∀ d ∈ descs, 0 < floatValue d.utility) : 0 < totalUtility descs := by
  unfold totalUtility
  apply List.sum_pos
  · intro x hx
    obtain ⟨d, hd, rfl⟩ := List.mem_map.mp hx
    exact hpos d hd
  · simpa using hdescs

/-- Without a request for the block the total is zero only if there is none at all. -/
theorem dividesByZero_not_held (hpos : PositiveUtilities s)
    (hnone : ∀ d, ¬ s.Held nodeId block d) :
    s.DividesByZero now nodeId block ↔ s.descsOf nodeId = some [] := by
  constructor
  · rintro ⟨descs, target, hdescs, hsums⟩
    have hother : ∀ d ∈ descs, d.block ≠ block := fun d hd hblock =>
      hnone d ⟨descs, hdescs, hd, hblock⟩
    rw [utilitySums_absent hother] at hsums
    have htotal : totalUtility descs = 0 := (Prod.mk.inj (Option.some.inj hsums)).2
    rw [hdescs]
    by_contra hne
    exact (totalUtility_pos (fun h => hne (congrArg some h)) (hpos nodeId descs hdescs)).ne' htotal
  · intro hempty
    exact ⟨[], 0, hempty, rfl⟩

section Held

variable {d : BlockRequestDesc}

theorem not_dividesByZero_held (hone : OneEach s) (hpos : PositiveUtilities s)
    (hd : s.Held nodeId block d) : ¬ s.DividesByZero now nodeId block := by
  rintro ⟨descs, target, hdescs, hsums⟩
  obtain ⟨descs', hdescs', hmem, hblock⟩ := hd
  obtain rfl := Option.some.inj (hdescs.symm.trans hdescs')
  rw [utilitySums_held (hone nodeId descs hdescs) hmem hblock] at hsums
  split_ifs at hsums
  have htotal : totalUtility descs = 0 := (Prod.mk.inj (Option.some.inj hsums)).2
  exact (totalUtility_pos (List.ne_nil_of_mem hmem) (hpos nodeId descs hdescs)).ne' htotal

/-- Only a request that has expired has no utility. -/
theorem getUtility_eq_zero (hone : OneEach s) (hpos : PositiveUtilities s)
    (hd : s.Held nodeId block d) :
    (s.getUtility now nodeId block).1 = 0 ↔ d.expireTime < now := by
  obtain ⟨descs, hdescs, hmem, hblock⟩ := hd
  have htotal := totalUtility_pos (List.ne_nil_of_mem hmem) (hpos nodeId descs hdescs)
  have htarget := hpos nodeId descs hdescs d hmem
  rw [getUtility_sums hdescs, utilitySums_held (hone nodeId descs hdescs) hmem hblock]
  split_ifs with hexpired
  · exact iff_of_true rfl hexpired
  · exact iff_of_false (div_pos htarget htotal).ne' hexpired

end Held

theorem oneEach_getUtility (hone : OneEach s) : OneEach (s.getUtility now nodeId block).2 := by
  intro m descs hdescs
  rw [descsOf_getUtility] at hdescs
  split_ifs at hdescs with hm
  · obtain ⟨held, hheld, rfl⟩ := Option.map_eq_some_iff.mp hdescs
    exact (hone nodeId held hheld).sublist (List.eraseP_sublist.map _)
  · exact hone m descs hdescs

end Asking

section Calls

variable {s s' : BlockRequestScheduler} {c : TimePoint × Call}

theorem addRequests_invariant {P : BlockRequestScheduler → Prop} {now : TimePoint}
    {nodeId : NodeId}
    (hinsert : ∀ s request, P s → P (s.insertRequest now nodeId request))
    (requests : List BlockRequestArgs) (hs : P s) : P (s.addRequests now nodeId requests) := by
  unfold addRequests
  induction requests generalizing s with
  | nil => exact hs
  | cons request requests ih => exact ih (hinsert s request hs)

theorem step_oneEach (hone : OneEach s) (hs : step s c = .ok s') : OneEach s' := by
  obtain ⟨now, call⟩ := c
  obtain rfl := Except.ok.inj hs
  cases call with
  | addRequests nodeId requests =>
    exact addRequests_invariant (fun s request h => oneEach_insertRequest request h) requests hone
  | getUtility nodeId block => exact oneEach_getUtility hone
  | fwdRequests maxNumOfRequests => exact hone

theorem run_oneEach {calls : List (TimePoint × Call)} (hr : run step new calls = .ok s) :
    OneEach s := by
  refine run_invariant OneEach (fun _ _ _ hone hs => step_oneEach hone hs) ?_ hr
  intro nodeId descs hdescs
  cases hdescs

end Calls

end YingSma.BlockRequestScheduler
