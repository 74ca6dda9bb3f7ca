import YingSma.ContentHelperMoves

/-! Requests that time out after they were answered. A response leaves the entry of its
block in the table, so the sweep at its expiry reports it as unanswered. -/
namespace YingSma.ContentHelper
open EntryTable TransitionRuns

/-- The block a response brings. -/
def received : Op → List BlockRef
  | .receiveBlockResponse msg => [msg.block]
  | _ => []

/-- The blocks the `request` calls made in a call ask for. -/
def askedBlocks (h : ContentHelper) (call : Surroundings × Op) : List BlockRef :=
  (asked call.1 h call.2).map fun req => req.block

/-- The blocks for which a response has come since they were last asked for. -/
def noteAnswered (answered : List BlockRef) (h : ContentHelper) (call : Surroundings × Op)
    (_ : ContentHelper) : List BlockRef :=
  (received call.2 ++ answered).filter fun block => block ∉ h.askedBlocks call

/-- The timeouts raised by a call are for blocks that have not been answered. -/
def TimesOutUnanswered (hasher : List UInt8 → Hash) (r : List BlockRef × ContentHelper)
    (call : Surroundings × Op) : Prop :=
  ∀ h', step hasher r.2 call = .ok h' →
    ∀ block, .requestTimedout block ∈ newEffects r.2 h' → block ∉ noteAnswered r.1 r.2 call h'

/-- A response that goes through is for a block without an entry in the table. -/
def ArrivesUnasked (hasher : List UInt8 → Hash) (h : ContentHelper) (call : Surroundings × Op) :
    Prop :=
  ∀ h', step hasher h call = .ok h' → ∀ block ∈ received call.2, h.pending block = none

/-- A block without an entry gets none, and it does not time out. -/
def LeavesIdle (block : BlockRef) (h h' : ContentHelper) : Prop :=
  h.pending block = none → h'.pending block = none ∧
    ∃ es, h'.effects = h.effects ++ es ∧ .requestTimedout block ∉ es

section Idle

variable {block : BlockRef} {h h' : ContentHelper}

theorem LeavesIdle.of_prt (hprt : h'.prt = h.prt) {es : List Effect}
    (heffects : h'.effects = h.effects ++ es) (hes : .requestTimedout block ∉ es) :
    LeavesIdle block h h' := by
  intro hidle
  refine ⟨?_, es, heffects, hes⟩
  rwa [pending, hprt]

instance (block : BlockRef) : IsPreorder ContentHelper (LeavesIdle block) where
  refl h := LeavesIdle.of_prt rfl (List.append_nil h.effects).symm List.not_mem_nil
  trans a b c hab hbc hidle := by
    obtain ⟨hb, es, hes, hnot⟩ := hab hidle
    obtain ⟨hc, es', hes', hnot'⟩ := hbc hb
    refine ⟨hc, es ++ es', by rw [hes', hes, List.append_assoc], ?_⟩
    rw [List.mem_append]
    rintro (hmem | hmem)
    · exact hnot hmem
    · exact hnot' hmem

theorem pending_eq_none_iff : h.pending block = none ↔ block ∉ h.prt.map Prod.fst :=
  lookup_eq_none_iff

theorem erased_leavesIdle (other : BlockRef) : LeavesIdle block h (h.erased other) := by
  intro hidle
  refine ⟨?_, [], (List.append_nil _).symm, List.not_mem_nil⟩
  rw [pending, erased, lookup_erase]
  split_ifs
  · rfl
  · exact hidle

theorem updated_leavesIdle (other : BlockRef) (f : PendingRequest → PendingRequest) :
    LeavesIdle block h (h.updated other f) := by
  intro hidle
  refine ⟨?_, [], (List.append_nil _).symm, List.not_mem_nil⟩
  rw [pending_eq_none_iff] at hidle ⊢
  rw [updated, keys_update]
  exact hidle

theorem inserted_leavesIdle {other : BlockRef} (hne : block ≠ other) (p : PendingRequest) :
    LeavesIdle block h (h.inserted other p) := by
  intro hidle
  refine ⟨?_, [], (List.append_nil _).symm, List.not_mem_nil⟩
  rw [pending_eq_none_iff] at hidle ⊢
  simpa [inserted, hne] using hidle

/-- A sweep drops and reports entries that are there. -/
theorem swept_leavesIdle (now : TimePoint) : LeavesIdle block h (h.swept now) := by
  intro hidle
  rw [pending_eq_none_iff] at hidle
  refine ⟨pending_eq_none_iff.mpr fun hmem => ?_, _, rfl, fun hmem => ?_⟩
  · obtain ⟨entry, hentry, rfl⟩ := List.mem_map.mp hmem
    exact hidle (List.mem_map_of_mem (List.mem_of_mem_filter hentry))
  · obtain ⟨other, hother, heq⟩ := List.mem_map.mp hmem
    obtain rfl := Effect.requestTimedout.inj heq
    obtain ⟨entry, hentry, rfl⟩ := List.mem_map.mp hother
    exact hidle (List.mem_map_of_mem (List.mem_of_mem_filter hentry))

theorem scheduled_leavesIdle (now when_ : TimePoint) : LeavesIdle block h (h.scheduled now when_) := by
  unfold scheduled
  split_ifs
  · exact .of_prt rfl rfl (by simp)
  · exact swept_leavesIdle now

theorem extended_leavesIdle (now newExpiry : TimePoint) (other : BlockRef) (p : PendingRequest) :
    LeavesIdle block h (h.extended now other newExpiry p) := by
  unfold extended
  split_ifs
  · exact trans_of (LeavesIdle block) (updated_leavesIdle other _) (scheduled_leavesIdle _ _)
  · exact refl_of (LeavesIdle block) h

theorem dealt_leavesIdle (env : Surroundings) {req : LocalRequestArgs} (hne : block ≠ req.block) :
    LeavesIdle block h (dealt env h req) := by
  unfold dealt
  split_ifs
  · exact erased_leavesIdle _
  · unfold added
    cases h.pending req.block with
    | some p =>
      exact trans_of (LeavesIdle block) (extended_leavesIdle _ _ _ _) (updated_leavesIdle _ _)
    | none =>
      exact trans_of (LeavesIdle block) (inserted_leavesIdle hne _) (scheduled_leavesIdle _ _)

theorem forwarded_leavesIdle (env : Surroundings) (req : BlockRequestArgs) :
    LeavesIdle block h (h.forwarded env req) := by
  unfold forwarded
  cases h.pending req.block with
  | some p =>
    exact trans_of (LeavesIdle block) (updated_leavesIdle _ _) (extended_leavesIdle _ _ _ p)
  | none => exact refl_of (LeavesIdle block) h

theorem Move.leavesIdle {env : Surroundings} {op : Op} {asks : List LocalRequestArgs}
    (hasks : block ∉ asks.map fun req => req.block) (hm : Move env op asks h h') :
    LeavesIdle block h h' := by
  cases hm with
  | frame hprt _ _ heffects =>
    exact .of_prt hprt (heffects.trans (List.append_nil _).symm) List.not_mem_nil
  | emit e he =>
    refine .of_prt rfl rfl fun hmem => ?_
    obtain rfl := List.mem_singleton.mp hmem
    cases he
  | deal req hreq =>
    refine dealt_leavesIdle env fun heq => hasks ?_
    exact heq ▸ List.mem_map_of_mem hreq
  | alreadyHere req _ _ => exact .of_prt rfl rfl (by simp)
  | sweep _ => exact swept_leavesIdle _
  | forward req _ _ => exact forwarded_leavesIdle env req
  | arrive _ => exact .of_prt rfl rfl (by simp)
  | keep _ _ => exact .of_prt rfl (List.append_nil _).symm List.not_mem_nil
  | fill cache _ => exact .of_prt rfl (List.append_nil _).symm List.not_mem_nil

theorem Moves.leavesIdle {env : Surroundings} {op : Op} {asks : List LocalRequestArgs}
    (hasks : block ∉ asks.map fun req => req.block) (hm : Moves env op asks h h') :
    LeavesIdle block h h' := by
  induction hm with
  | refl => exact refl_of (LeavesIdle block) h
  | tail _ hm ih => exact trans_of (LeavesIdle block) ih (hm.leavesIdle hasks)

/-- A response changes no entry. -/
theorem Move.response_prt {env : Surroundings} {msg : BlockResponse}
    (hm : Move env (.receiveBlockResponse msg) [] h h') : h'.prt = h.prt := by
  cases hm with
  | frame hprt _ _ _ => exact hprt
  | deal req hreq => cases hreq
  | alreadyHere req hreq _ => cases hreq
  | sweep hop => cases hop
  | forward req hop _ => cases hop
  | _ => rfl

theorem Moves.response_prt {env : Surroundings} {msg : BlockResponse}
    (hm : Moves env (.receiveBlockResponse msg) [] h h') : h'.prt = h.prt := by
  induction hm with
  | refl => rfl
  | tail _ hm ih => exact hm.response_prt.trans ih

end Idle

section Runs

variable {hasher : List UInt8 → Hash} {answered : List BlockRef} {h h' : ContentHelper}

/-- No answered block has an entry. -/
def Settled (r : List BlockRef × ContentHelper) : Prop := ∀ block ∈ r.1, r.2.pending block = none

/-- A block that is answered after a call had no entry before it and was not asked for. -/
theorem Settled.idle {call : Surroundings × Op} (hset : Settled (answered, h))
    (hunasked : ArrivesUnasked hasher h call) (hs : step hasher h call = .ok h')
    {block : BlockRef} (hmem : block ∈ noteAnswered answered h call h') :
    h'.pending block = none ∧ .requestTimedout block ∉ newEffects h h' := by
  obtain ⟨hmem, hasked⟩ := List.mem_filter.mp hmem
  have hpending : h.pending block = none := by
    rcases List.mem_append.mp hmem with hmem | hmem
    · exact hunasked h' hs block hmem
    · exact hset block hmem
  obtain ⟨hidle, es, heffects, hnot⟩ :=
    (step_moves hs).leavesIdle (of_decide_eq_true hasked) hpending
  rw [newEffects_eq heffects]
  exact ⟨hidle, hnot⟩

/-- A pending request that a response has come for is reported by the sweep at its expiry. -/
theorem answered_pending_times_out {env : Surroundings} {msg : BlockResponse}
    (hs : step hasher h (env, .receiveBlockResponse msg) = .ok h') {p : PendingRequest}
    (hpending : h.pending msg.block = some p) :
    ¬ TimesOutUnanswered hasher
      (noteAnswered answered h (env, .receiveBlockResponse msg) h', h')
      ({ env with now := p.expiry }, .sweepPendingRequests) := by
  intro hlaw
  have hprt : h'.prt = h.prt := (step_moves hs).response_prt
  have hentry : (msg.block, p) ∈ h'.prt := hprt ▸ mem_of_lookup hpending
  have hstep : step hasher h' ({ env with now := p.expiry }, .sweepPendingRequests) =
      .ok (h'.swept p.expiry) := by
    simp only [step, perform, sweepPendingRequests_run, Except.map]
  refine hlaw _ hstep msg.block ?_ ?_
  · rw [newEffects_eq rfl]
    refine List.mem_map_of_mem (List.mem_map.mpr ⟨_, List.mem_filter.mpr ⟨hentry, ?_⟩, rfl⟩)
    exact decide_eq_true le_rfl
  · simp [noteAnswered, received, askedBlocks, asked]

/-- For every run of a helper: wherever it is cut off by one more sweep, no request times out
that has been answered, exactly when no response that goes through finds an entry for its
block. -/
theorem answered_never_times_out_iff (hasher : List UInt8 → Hash) (flags : Flags) (id : NodeId)
    (calls : List (Surroundings × Op)) :
    (∀ past, past <+: calls → ∀ env, Each (noted (step hasher) noteAnswered)
        (TimesOutUnanswered hasher) ([], build flags id) (past ++ [(env, .sweepPendingRequests)])) ↔
      Each (step hasher) (ArrivesUnasked hasher) (build flags id) calls := by
  rw [← each_noted noteAnswered [] (build flags id) calls]
  constructor
  · intro hlaw
    refine each_of_prefixes fun past call r hpast hr h' hs block hblock => ?_
    obtain ⟨env, op⟩ := call
    cases op with
    | receiveBlockResponse msg =>
      obtain rfl := List.mem_singleton.mp hblock
      rw [Option.eq_none_iff_forall_ne_some]
      intro p hpending
      have hcut := hlaw _ hpast { env with now := p.expiry }
      have hrun : run (noted (step hasher) noteAnswered) ([], build flags id)
          (past ++ [(env, .receiveBlockResponse msg)]) =
            .ok (noteAnswered r.1 r.2 (env, .receiveBlockResponse msg) h', h') := by
        rw [run_append _ hr, run_cons_ok [] (noted_of_ok noteAnswered r.1 hs), run_nil]
      exact answered_pending_times_out hs hpending (((each_append _ _ _).mp hcut).2 _ hrun).1
    | _ => cases hblock
  · intro hunasked past hpast env
    obtain ⟨rest, rfl⟩ := hpast
    have hcut : Each (noted (step hasher) noteAnswered) (fun r call => ArrivesUnasked hasher r.2 call)
        ([], build flags id) (past ++ [(env, .sweepPendingRequests)]) := by
      refine (each_append _ _ _).mpr ⟨((each_append _ _ _).mp hunasked).1, fun r _ => ⟨?_, ?_⟩⟩
      · intro h' _ block hblock
        cases hblock
      · intro _ _
        trivial
    refine each_of_each Settled ?_ ?_ ?_ hcut
    · intro r call r' hset hun hs block hblock
      obtain ⟨hs, hnote⟩ := noted_ok hs
      rw [hnote] at hblock
      exact (hset.idle hun hs hblock).1
    · intro r call hset hun h' hs block htimeout hblock
      exact (hset.idle hun hs hblock).2 htimeout
    · intro block hblock
      cases hblock

/-- A block of one byte of the all-zero hash. -/
def sampleBlock : BlockResponse := ⟨⟨default, 0⟩, 1, [7], rfl⟩

/-- A request for it, for one second. -/
def sampleLocalRequest : LocalRequestArgs :=
  ⟨⟨sampleBlock.block, 0, 1000, ⟨1⟩, ⟨0, 0⟩, 1⟩, false, false⟩

/-- A request, its response after half a second, and the sweep when the second is over. -/
theorem answered_request_times_out :
    ¬ Each (noted (step fun _ => default) noteAnswered) (TimesOutUnanswered fun _ => default)
      ([], new ⟨1⟩)
      [({ sampleSurroundings with now := 1 }, .request [sampleLocalRequest]),
        ({ sampleSurroundings with now := 1 + 500 * milli }, .receiveBlockResponse sampleBlock),
        ({ sampleSurroundings with now := 1 + 1000 * milli }, .sweepPendingRequests)] := by
  intro hlaw
  have hsweep := ((hlaw.2 _ rfl).2 _ rfl).1 _ rfl sampleBlock.block (by decide +kernel)
  revert hsweep
  decide +kernel

end Runs

end YingSma.ContentHelper
