import Mathlib.Algebra.Order.Field.Rat
import YingSma.BlockRequestHistory
import YingSma.BlockRequestTtl

/-! The utilities that `get_utility` returns for the blocks a neighbour has requested, as shares of
one. Expired requests that were not asked for are still in the total, and a neighbour all of whose
requests were erased has a total of zero. -/
namespace YingSma.BlockRequestScheduler
open TransitionRuns

/-- What `get_utility` returns for some blocks in turn, all at one instant. -/
def shares (now : TimePoint) (nodeId : NodeId) : List BlockRef → BlockRequestScheduler → List ℚ
  | [], _ => []
  | block :: blocks, s =>
      let out := s.getUtility now nodeId block
      out.1 :: shares now nodeId blocks out.2

/-- There is no division by zero, a utility is between 0 and 1, and the utilities of all the blocks
of a neighbour with an unexpired request are 1 together, in whatever order they are asked for. -/
structure Normalised (s : TimePoint × BlockRequestScheduler) : Prop where
  divides : ∀ nodeId block, ¬ s.2.DividesByZero s.1 nodeId block
  range : ∀ nodeId block,
    0 ≤ (s.2.getUtility s.1 nodeId block).1 ∧ (s.2.getUtility s.1 nodeId block).1 ≤ 1
  total : ∀ nodeId descs, s.2.descsOf nodeId = some descs →
    (∃ d ∈ descs, s.1 ≤ d.expireTime) →
    ∀ blocks, blocks.Perm (descs.map BlockRequestDesc.block) →
      (shares s.1 nodeId blocks s.2).sum = 1

/-- There are requests, and of these none or all have expired. -/
def Uniform (now : TimePoint) (descs : List BlockRequestDesc) : Prop :=
  descs ≠ [] ∧ ((∀ d ∈ descs, now ≤ d.expireTime) ∨ ∀ d ∈ descs, d.expireTime < now)

/-- The call adds requests of the neighbour. -/
def Call.Adds (nodeId : NodeId) : Call → Prop
  | .addRequests nodeId' requests => nodeId' = nodeId ∧ requests ≠ []
  | _ => False

/-- A neighbour's requests without the expired one for the block that is asked for. -/
def leftOf (now : TimePoint) (call : Call) (nodeId : NodeId) (descs : List BlockRequestDesc) :
    List BlockRequestDesc :=
  match call with
  | .getUtility nodeId' block =>
      if nodeId = nodeId' then descs.eraseP (outdated now block) else descs
  | _ => descs

/-- Of every neighbour in the table that the call does not add requests of, there are requests left,
and none of them or all have expired by then. -/
def UniformLeft (s : TimePoint × BlockRequestScheduler) (c : ℕ × Call) : Prop :=
  ∀ nodeId descs, s.2.descsOf nodeId = some descs →
    c.2.Adds nodeId ∨ Uniform (s.1 + c.1) (leftOf (s.1 + c.1) c.2 nodeId descs)

/-- The requests of a call have positive utilities. -/
def Call.Positive : Call → Prop
  | .addRequests _ requests => ∀ request ∈ requests, 0 < floatValue request.utility
  | _ => True

section Shares

variable {now : TimePoint} {nodeId : NodeId} {block : BlockRef} {s : BlockRequestScheduler}
  {descs : List BlockRequestDesc}

/-- Without an expired request for the block nothing is erased. -/
theorem getUtility_kept (hdescs : s.descsOf nodeId = some descs)
    (hlive : ∀ d ∈ descs, ¬ outdated now block d) : (s.getUtility now nodeId block).2 = s := by
  unfold getUtility
  rw [show s.requestDescTable.lookup nodeId = some descs from hdescs]
  cases hsums : utilitySums now block descs 0 0 with
  | none =>
    obtain ⟨d, hd, hexpired⟩ := (utilitySums_none 0 0).mp hsums
    exact absurd hexpired (hlive d hd)
  | some sums => simp only [hsums]

/-- The utility of an unexpired request. -/
theorem getUtility_alive (hone : OneEach s) (hdescs : s.descsOf nodeId = some descs)
    {d : BlockRequestDesc} (hd : d ∈ descs) (halive : now ≤ d.expireTime) :
    (s.getUtility now nodeId d.block).1 = floatValue d.utility / totalUtility descs := by
  rw [getUtility_sums hdescs, utilitySums_held (hone nodeId descs hdescs) hd rfl,
    if_neg halive.not_gt]
  rfl

/-- Blocks without an unexpired request have no utility, one after the other. -/
theorem shares_expired (hone : OneEach s) (blocks : List BlockRef)
    (hexpired : ∀ block ∈ blocks, ∀ d, s.Held nodeId block d → d.expireTime < now) :
    (shares now nodeId blocks s).sum = 0 := by
  induction blocks generalizing s with
  | nil => rfl
  | cons block blocks ih =>
    rw [List.forall_mem_cons] at hexpired
    have hzero : (s.getUtility now nodeId block).1 = 0 := by
      by_cases hheld : ∃ d, s.Held nodeId block d
      · obtain ⟨d, hd⟩ := hheld
        obtain ⟨descs, hdescs, hmem, hblock⟩ := id hd
        rw [getUtility_sums hdescs, utilitySums_held (hone nodeId descs hdescs) hmem hblock,
          if_pos (hexpired.1 d hd)]
        rfl
      · exact getUtility_not_held fun d hd => hheld ⟨d, hd⟩
    rw [shares, List.sum_cons, hzero, zero_add]
    exact ih (oneEach_getUtility hone) fun b hb d hd =>
      hexpired.2 b hb d ((held_getUtility hone).mp hd).1

/-- While nothing is erased, every block is asked for in the same state. -/
theorem shares_alive (hdescs : s.descsOf nodeId = some descs) (blocks rest : List BlockRef)
    (hlive : ∀ block ∈ blocks, ∀ d ∈ descs, ¬ outdated now block d) :
    (shares now nodeId (blocks ++ rest) s).sum =
      (blocks.map fun block => (s.getUtility now nodeId block).1).sum +
        (shares now nodeId rest s).sum := by
  induction blocks with
  | nil => simp
  | cons block blocks ih =>
    rw [List.forall_mem_cons] at hlive
    rw [List.cons_append, shares, getUtility_kept hdescs hlive.1, List.sum_cons, ih hlive.2,
      List.map_cons, List.sum_cons, add_assoc]

theorem sum_map_utility_div (descs : List BlockRequestDesc) (total : ℚ) :
    (descs.map fun d => floatValue d.utility / total).sum = totalUtility descs / total := by
  unfold totalUtility
  simp only [div_eq_mul_inv]
  exact List.sum_map_mul_right descs _ _

/-- The blocks of the unexpired requests first, then the others. -/
theorem shares_split (hone : OneEach s) (hdescs : s.descsOf nodeId = some descs) :
    (shares now nodeId
      ((descs.filter fun d => now ≤ d.expireTime).map BlockRequestDesc.block ++
        (descs.filter fun d => !decide (now ≤ d.expireTime)).map BlockRequestDesc.block) s).sum =
      totalUtility (descs.filter fun d => now ≤ d.expireTime) / totalUtility descs := by
  have hunique : ∀ d ∈ descs, ∀ e ∈ descs, e.block = d.block → e = d := fun d hd e he hblock =>
    held_unique hone ⟨descs, hdescs, he, hblock⟩ ⟨descs, hdescs, hd, rfl⟩
  have hlive : ∀ block ∈ (descs.filter fun d => now ≤ d.expireTime).map BlockRequestDesc.block,
      ∀ e ∈ descs, ¬ outdated now block e := by
    intro block hblock e he hexpired
    obtain ⟨d, hd, rfl⟩ := List.mem_map.mp hblock
    obtain ⟨hd, halive⟩ := List.mem_filter.mp hd
    simp only [outdated, decide_eq_true_eq] at halive hexpired
    obtain rfl := hunique d hd e he hexpired.1
    exact halive.not_gt hexpired.2
  have hexpired : ∀ block ∈ (descs.filter fun d => !decide (now ≤ d.expireTime)).map
      BlockRequestDesc.block, ∀ e, s.Held nodeId block e → e.expireTime < now := by
    rintro block hblock e hheld
    obtain ⟨d, hd, rfl⟩ := List.mem_map.mp hblock
    obtain ⟨hd, hdead⟩ := List.mem_filter.mp hd
    obtain rfl := held_unique hone hheld ⟨descs, hdescs, hd, rfl⟩
    simpa using hdead
  rw [shares_alive hdescs _ _ hlive, shares_expired hone _ hexpired, add_zero, List.map_map,
    ← sum_map_utility_div]
  refine congrArg List.sum (List.map_congr_left fun d hd => ?_)
  obtain ⟨hd, halive⟩ := List.mem_filter.mp hd
  exact getUtility_alive hone hdescs hd (by simpa using halive)

theorem totalUtility_filter (p : BlockRequestDesc → Bool) (descs : List BlockRequestDesc) :
    totalUtility descs =
      totalUtility (descs.filter p) + totalUtility (descs.filter fun d => !p d) := by
  have hperm := List.filter_append_perm p descs
  unfold totalUtility
  rw [← (hperm.map _).sum_eq, List.map_append, List.sum_append]

/-- If none has expired, the shares are one together in any order. -/
theorem shares_all_alive (hone : OneEach s) (hpos : PositiveUtilities s)
    (hdescs : s.descsOf nodeId = some descs) (hne : descs ≠ [])
    (halive : ∀ d ∈ descs, now ≤ d.expireTime) {blocks : List BlockRef}
    (hblocks : blocks.Perm (descs.map BlockRequestDesc.block)) :
    (shares now nodeId blocks s).sum = 1 := by
  have hlive : ∀ block ∈ blocks, ∀ e ∈ descs, ¬ outdated now block e := by
    intro block _ e he hexpired
    simp only [outdated, decide_eq_true_eq] at hexpired
    exact (halive e he).not_gt hexpired.2
  have hshares := shares_alive hdescs blocks [] hlive
  have htotal := totalUtility_pos hne (hpos nodeId descs hdescs)
  rw [List.append_nil] at hshares
  rw [hshares, (hblocks.map _).sum_eq, List.map_map, shares, List.sum_nil, add_zero,
    ← div_self htotal.ne', ← sum_map_utility_div]
  refine congrArg List.sum (List.map_congr_left fun d hd => ?_)
  exact getUtility_alive hone hdescs hd (halive d hd)

/-- If one has expired, there is an order in which less than one is given out. -/
theorem shares_mixed (hone : OneEach s) (hpos : PositiveUtilities s)
    (hdescs : s.descsOf nodeId = some descs) {e : BlockRequestDesc} (he : e ∈ descs)
    (hexpired : e.expireTime < now) :
    ∃ blocks : List BlockRef, blocks.Perm (descs.map BlockRequestDesc.block) ∧
      (shares now nodeId blocks s).sum < 1 := by
  refine ⟨_, ?_, (shares_split hone hdescs).trans_lt ?_⟩
  · rw [← List.map_append]
    exact (List.filter_append_perm _ descs).map _
  · have hdead : e ∈ descs.filter fun d => !decide (now ≤ d.expireTime) :=
      List.mem_filter.mpr ⟨he, by simpa using hexpired⟩
    have hlost : 0 < totalUtility (descs.filter fun d => !decide (now ≤ d.expireTime)) :=
      totalUtility_pos (List.ne_nil_of_mem hdead) fun d hd =>
        hpos nodeId descs hdescs d (List.mem_of_mem_filter hd)
    have htotal := totalUtility_pos (List.ne_nil_of_mem he) (hpos nodeId descs hdescs)
    rw [div_lt_one htotal, totalUtility_filter (fun d => decide (now ≤ d.expireTime)) descs]
    exact lt_add_of_pos_right _ hlost

theorem getUtility_range (hone : OneEach s) (hpos : PositiveUtilities s) :
    0 ≤ (s.getUtility now nodeId block).1 ∧ (s.getUtility now nodeId block).1 ≤ 1 := by
  by_cases hheld : ∃ d, s.Held nodeId block d
  · obtain ⟨d, descs, hdescs, hmem, rfl⟩ := hheld
    rcases lt_or_ge d.expireTime now with hexpired | halive
    · rw [(getUtility_eq_zero hone hpos ⟨descs, hdescs, hmem, rfl⟩).mpr hexpired]
      exact ⟨le_rfl, zero_le_one⟩
    · have hutilities : ∀ x ∈ descs.map fun d => floatValue d.utility, 0 ≤ x := by
        intro x hx
        obtain ⟨e, he, rfl⟩ := List.mem_map.mp hx
        exact (hpos nodeId descs hdescs e he).le
      have htotal := totalUtility_pos (List.ne_nil_of_mem hmem) (hpos nodeId descs hdescs)
      rw [getUtility_alive hone hdescs hmem halive]
      refine ⟨div_nonneg (hpos nodeId descs hdescs d hmem).le htotal.le, ?_⟩
      rw [div_le_one htotal]
      exact List.single_le_sum hutilities _ (List.mem_map_of_mem hmem)
  · rw [getUtility_not_held fun d hd => hheld ⟨d, hd⟩]
    exact ⟨le_rfl, zero_le_one⟩

/-- The utilities are normalised as long as each neighbour's requests are uniform. -/
theorem normalised_iff (hone : OneEach s) (hpos : PositiveUtilities s) :
    Normalised (now, s) ↔ ∀ nodeId descs, s.descsOf nodeId = some descs → Uniform now descs := by
  constructor
  · intro h nodeId descs hdescs
    refine ⟨?_, ?_⟩
    · rintro rfl
      exact h.divides nodeId ⟨default, 0⟩ ⟨[], 0, hdescs, rfl⟩
    · by_contra! hmixed
      obtain ⟨⟨e, he, hexpired⟩, halive⟩ := hmixed
      obtain ⟨blocks, hblocks, hsum⟩ := shares_mixed hone hpos hdescs he hexpired
      exact hsum.ne (h.total nodeId descs hdescs halive blocks hblocks)
  · intro h
    refine ⟨fun nodeId block => ?_, fun nodeId block => getUtility_range hone hpos, ?_⟩
    · by_cases hheld : ∃ d, s.Held nodeId block d
      · obtain ⟨d, hd⟩ := hheld
        exact not_dividesByZero_held hone hpos hd
      · rw [dividesByZero_not_held hpos fun d hd => hheld ⟨d, hd⟩]
        intro hempty
        exact (h nodeId [] hempty).1 rfl
    · rintro nodeId descs hdescs ⟨d, hd, halive⟩ blocks hblocks
      obtain ⟨hne, hall | hnone⟩ := h nodeId descs hdescs
      · exact shares_all_alive hone hpos hdescs hne hall hblocks
      · exact absurd (hnone d hd) halive.not_gt

end Shares

section Calls

variable {now : TimePoint} {nodeId m : NodeId} {s : BlockRequestScheduler}

/-- After an insertion none of the neighbour's requests has expired. -/
theorem insertRequest_alive (request : BlockRequestArgs) :
    ∃ descs, (s.insertRequest now nodeId request).descsOf nodeId = some descs ∧ descs ≠ [] ∧
      ∀ d ∈ descs, now ≤ d.expireTime := by
  refine ⟨_, (descsOf_insertRequest request nodeId).trans (if_pos rfl), by simp, fun d hd => ?_⟩
  rcases List.mem_append.mp hd with hd | hd
  · have hkept := (List.mem_filter.mp hd).2
    simp only [decide_eq_true_eq] at hkept
    exact not_lt.mp hkept.2
  · obtain rfl := List.mem_singleton.mp hd
    exact le_add_of_nonneg_right (Int.mul_nonneg (Int.natCast_nonneg _) (by decide))

theorem addRequests_alive {requests : List BlockRequestArgs} (hne : requests ≠ []) :
    ∃ descs, (s.addRequests now nodeId requests).descsOf nodeId = some descs ∧ descs ≠ [] ∧
      ∀ d ∈ descs, now ≤ d.expireTime := by
  obtain ⟨before, request, rfl⟩ := (List.eq_nil_or_concat' requests).resolve_left hne
  rw [BlockRequestScheduler.addRequests, List.foldl_append]
  exact insertRequest_alive request

variable {s' : BlockRequestScheduler} {call : Call}

theorem descsOf_step (hs : step s (now, call) = .ok s') (hadds : ¬ call.Adds m) :
    s'.descsOf m = (s.descsOf m).map (leftOf now call m) := by
  obtain rfl := Except.ok.inj hs
  cases call with
  | addRequests nodeId requests =>
    have hsame : (s.addRequests now nodeId requests).descsOf m = s.descsOf m := by
      by_cases hm : m = nodeId
      · have hnil : requests = [] := by
          by_contra hne
          exact hadds ⟨hm.symm, hne⟩
        rw [hnil]
        rfl
      · exact descsOf_addRequests_of_ne hm requests
    exact hsame.trans Option.map_id'.symm
  | getUtility nodeId block =>
    refine (descsOf_getUtility m).trans ?_
    cases hdescs : s.descsOf m with
    | none =>
      split_ifs with hm
      · rw [← hm, hdescs]
        rfl
      · rfl
    | some descs =>
      rw [Option.map_some, leftOf]
      split_ifs with hm
      · rw [← hm, hdescs]
        rfl
      · rfl
  | fwdRequests maxNumOfRequests => exact Option.map_id'.symm

/-- The requests are uniform after a call exactly if the call leaves them so. -/
theorem uniform_step (hs : step s (now, call) = .ok s') :
    (∀ m descs, s'.descsOf m = some descs → Uniform now descs) ↔
      ∀ m descs, s.descsOf m = some descs →
        call.Adds m ∨ Uniform now (leftOf now call m descs) := by
  constructor
  · intro h m descs hdescs
    by_cases hadds : call.Adds m
    · exact Or.inl hadds
    · refine Or.inr (h m _ ?_)
      rw [descsOf_step hs hadds, hdescs, Option.map_some]
  · intro h m descs hdescs
    by_cases hadds : call.Adds m
    · cases call with
      | addRequests nodeId requests =>
        obtain ⟨rfl, hne⟩ := hadds
        obtain rfl := Except.ok.inj hs
        obtain ⟨descs', hdescs', hne', halive⟩ := @addRequests_alive now nodeId s requests hne
        obtain rfl := Option.some.inj (hdescs'.symm.trans hdescs)
        exact ⟨hne', Or.inl halive⟩
      | getUtility nodeId block => cases hadds
      | fwdRequests maxNumOfRequests => cases hadds
    · rw [descsOf_step hs hadds] at hdescs
      obtain ⟨descs', hdescs', rfl⟩ := Option.map_eq_some_iff.mp hdescs
      exact (h m descs' hdescs').resolve_left hadds

theorem positive_insertRequest (hpos : PositiveUtilities s) {request : BlockRequestArgs}
    (hrequest : 0 < floatValue request.utility) :
    PositiveUtilities (s.insertRequest now nodeId request) := by
  intro m descs hdescs d hd
  rw [descsOf_insertRequest] at hdescs
  split_ifs at hdescs with hm
  · obtain rfl := Option.some.inj hdescs
    rcases List.mem_append.mp hd with hd | hd
    · cases hheld : s.descsOf nodeId with
      | none => simp [hheld, keptBeside] at hd
      | some held =>
        rw [hheld] at hd
        exact hpos nodeId held hheld d (List.mem_of_mem_filter hd)
    · obtain rfl := List.mem_singleton.mp hd
      exact hrequest
  · exact hpos m descs hdescs d hd

theorem step_positive (hpos : PositiveUtilities s) (hcall : call.Positive)
    (hs : step s (now, call) = .ok s') : PositiveUtilities s' := by
  obtain rfl := Except.ok.inj hs
  cases call with
  | addRequests nodeId requests =>
    show PositiveUtilities (s.addRequests now nodeId requests)
    unfold BlockRequestScheduler.addRequests
    induction requests generalizing s with
    | nil => exact hpos
    | cons request requests ih =>
      have hall := List.forall_mem_cons.mp hcall
      exact ih (positive_insertRequest hpos hall.1) hall.2 rfl
  | getUtility nodeId block =>
    intro m descs hdescs d hd
    have hleft := hdescs
    dsimp only at hleft
    rw [descsOf_getUtility] at hleft
    split_ifs at hleft
    · obtain ⟨held, hheld, rfl⟩ := Option.map_eq_some_iff.mp hleft
      exact hpos nodeId held hheld d (List.mem_of_mem_eraseP hd)
    · exact hpos m descs hleft d hd
  | fwdRequests maxNumOfRequests => exact hpos

/-- Throughout a run of positive requests the utilities are normalised if and only if every call
leaves uniform requests. -/
theorem run_normalised (start : TimePoint) {calls : List (ℕ × Call)}
    (hcalls : ∀ c ∈ calls, c.2.Positive) :
    Always after Normalised (start, new) calls ↔ Each after UniformLeft (start, new) calls := by
  have hempty : ∀ m descs, new.descsOf m ≠ some descs := by
    rintro m descs hdescs
    cases hdescs
  have hone : OneEach new := fun m descs hdescs => absurd hdescs (hempty m descs)
  have hpos : PositiveUtilities new := fun m descs hdescs => absurd hdescs (hempty m descs)
  have hnew : Normalised (start, new) :=
    (normalised_iff hone hpos).mpr fun m descs hdescs => absurd hdescs (hempty m descs)
  refine (always_iff hnew calls).trans (each_congr
    (fun r => OneEach r.2 ∧ PositiveUtilities r.2) ?_ ?_ ⟨hone, hpos⟩)
  · rintro ⟨t, s⟩ c hc s' ⟨hone, hpos⟩ - hs
    obtain ⟨s', hstep, rfl⟩ := map_eq_ok hs
    exact ⟨step_oneEach hone hstep, step_positive hpos (hcalls c hc) hstep⟩
  · rintro ⟨t, s⟩ ⟨wait, call⟩ hc ⟨hone, hpos⟩
    obtain ⟨s', hstep⟩ : ∃ s', step s (t + wait, call) = .ok s' := ⟨_, rfl⟩
    have hafter : after (t, s) (wait, call) = .ok (t + wait, s') := by
      rw [after, hstep]
      rfl
    rw [hafter]
    refine Iff.trans ⟨fun h => h _ rfl, fun h r hr => Except.ok.inj hr ▸ h⟩
      ((normalised_iff (step_oneEach hone hstep) (step_positive hpos (hcalls _ hc) hstep)).trans
        (uniform_step hstep))

/-- A request that is heard, and asked for before it expires. -/
theorem run_normalised_five_millis :
    Always after Normalised (0, new)
        [(0, .addRequests ⟨1⟩ [requestFor 5]), (1, .getUtility ⟨1⟩ ⟨default, 0⟩)] ↔
      Each after UniformLeft (0, new)
        [(0, .addRequests ⟨1⟩ [requestFor 5]), (1, .getUtility ⟨1⟩ ⟨default, 0⟩)] := by
  refine run_normalised 0 ?_
  have hutility : (0 : ℚ) < floatValue (requestFor 5).utility := by decide +kernel
  simpa [Call.Positive] using hutility

/-- Once the only request of a neighbour has been erased, its total is zero. -/
theorem erased_not_normalised :
    ¬ ∀ calls : List (ℕ × Call), (∀ c ∈ calls, c.2.Positive) →
      Always after Normalised (0, new) calls := by
  intro h
  have hutility : (0 : ℚ) < floatValue (requestFor 5).utility := by decide +kernel
  have hrun := h [(0, .addRequests ⟨1⟩ [requestFor 5]), (6000000, .getUtility ⟨1⟩ ⟨default, 0⟩)]
    (by simpa [Call.Positive] using hutility)
  have herased := ((hrun.2 _ rfl).2 _ rfl).head.divides ⟨1⟩ ⟨default, 0⟩
  exact herased ⟨[], 0, by decide +kernel, rfl⟩

end Calls

end YingSma.BlockRequestScheduler
