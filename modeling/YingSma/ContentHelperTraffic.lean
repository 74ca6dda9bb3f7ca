import YingSma.ContentHelperMoves

/-! The calls of subscribers and the posts of a call. Subscribers hear of requests that are
received, and of no others. -/
namespace YingSma.ContentHelper
open StateActions TransitionRuns SerialFormat

section Quiet

variable {env : Surroundings} {h : ContentHelper}

theorem Quiet.of_eq {h h' : ContentHelper} (hflag : h'.autoRespond = h.autoRespond)
    (heffects : h'.effects = h.effects) : Quiet h h' :=
  ⟨hflag, [], heffects.trans (List.append_nil _).symm, rfl⟩

theorem scheduled_quiet (now when_ : TimePoint) (h : ContentHelper) :
    Quiet h (h.scheduled now when_) := by
  obtain ⟨h', hrun, hquiet⟩ := checkPendingRequests_quiet now when_ h
  rw [checkPendingRequests_run, Except.ok.injEq, Prod.mk.injEq] at hrun
  exact hrun.2 ▸ hquiet

theorem extended_quiet (now newExpiry : TimePoint) (block : BlockRef) (p : PendingRequest)
    (h : ContentHelper) : Quiet h (h.extended now block newExpiry p) := by
  unfold extended
  split_ifs
  · exact (Quiet.of_eq rfl rfl).trans (scheduled_quiet _ _ _)
  · exact Quiet.refl h

theorem dealt_quiet (req : LocalRequestArgs) : Quiet h (dealt env h req) := by
  unfold dealt added
  split_ifs
  · exact Quiet.of_eq rfl rfl
  · cases h.pending req.block with
    | some p => exact (extended_quiet _ _ _ _ _).trans (Quiet.of_eq rfl rfl)
    | none => exact (Quiet.of_eq rfl rfl).trans (scheduled_quiet _ _ _)

theorem foldl_dealt_quiet (reqs : List LocalRequestArgs) : Quiet h (reqs.foldl (dealt env) h) := by
  induction reqs generalizing h with
  | nil => exact Quiet.refl h
  | cons req reqs ih => exact (dealt_quiet req).trans ih

theorem forwarded_quiet (req : BlockRequestArgs) : Quiet h (h.forwarded env req) := by
  unfold forwarded
  cases h.pending req.block with
  | some p => exact (Quiet.of_eq rfl rfl).trans (extended_quiet _ _ _ _ _)
  | none => exact Quiet.refl h

end Quiet

section Calls

variable {env : Surroundings} {op : Op} {h h' : ContentHelper}

/-- No subscriber of the event about requests is called. -/
def Unheard (h h' : ContentHelper) : Prop :=
  ∃ es, h'.effects = h.effects ++ es ∧
    ∀ handler sender reqs, .blocksRequested handler sender reqs ∉ es

theorem Unheard.refl (h : ContentHelper) : Unheard h h :=
  ⟨[], (List.append_nil _).symm, fun _ _ _ => List.not_mem_nil⟩

theorem Unheard.trans {a b c : ContentHelper} (hab : Unheard a b) (hbc : Unheard b c) :
    Unheard a c := by
  obtain ⟨es, hes, hnot⟩ := hab
  obtain ⟨es', hes', hnot'⟩ := hbc
  refine ⟨es ++ es', by rw [hes', hes, List.append_assoc], fun handler sender reqs hmem => ?_⟩
  rcases List.mem_append.mp hmem with hmem | hmem
  · exact hnot handler sender reqs hmem
  · exact hnot' handler sender reqs hmem

theorem Quiet.unheard (hquiet : Quiet h h') : Unheard h h' := by
  obtain ⟨-, es, hes, hnone⟩ := hquiet
  refine ⟨es, hes, fun handler sender reqs hmem => ?_⟩
  have htraffic : .blocksRequested handler sender reqs ∈ es.filter Effect.isTraffic :=
    List.mem_filter.mpr ⟨hmem, rfl⟩
  rw [hnone] at htraffic
  cases htraffic

theorem unheard_emit {e : Effect} (he : ∀ handler sender reqs, e ≠ .blocksRequested handler sender reqs) :
    Unheard h (h.emit [e]) :=
  ⟨[e], rfl, fun handler sender reqs hmem => he handler sender reqs (List.mem_singleton.mp hmem).symm⟩

theorem Move.unheard {asks : List LocalRequestArgs} (hop : ¬ op.firesRequested)
    (hm : Move env op asks h h') : Unheard h h' := by
  cases hm with
  | frame _ _ _ heffects =>
    exact ⟨[], heffects.trans (List.append_nil _).symm, fun _ _ _ => List.not_mem_nil⟩
  | emit e he =>
    apply unheard_emit
    rintro handler sender reqs rfl
    exact hop he
  | deal req _ => exact (dealt_quiet req).unheard
  | alreadyHere => exact unheard_emit fun _ _ _ => Effect.noConfusion
  | sweep _ =>
    refine ⟨_, rfl, fun handler sender reqs hmem => ?_⟩
    obtain ⟨block, -, heq⟩ := List.mem_map.mp hmem
    cases heq
  | forward req => exact (forwarded_quiet req).unheard
  | arrive => exact unheard_emit fun _ _ _ => Effect.noConfusion
  | keep | fill => exact Unheard.refl h

theorem moves_unheard {asks : List LocalRequestArgs} (hop : ¬ op.firesRequested)
    (hmoves : Moves env op asks h h') : Unheard h h' := by
  induction hmoves with
  | refl => exact Unheard.refl h
  | tail _ hm ih => exact ih.trans (hm.unheard hop)

theorem step_unheard {hasher : List UInt8 → Hash} (hop : ¬ op.firesRequested)
    (hs : step hasher h (env, op) = .ok h') : Unheard h h' :=
  moves_unheard hop (step_moves hs)

/-- Every subscriber is given the whole list or, after the first, an empty one. -/
theorem fireMoved_calls {α : Type} (handlers : List Handler) (arg : List α) :
    ∀ call ∈ (fireMoved handlers arg).1, call.2 = arg ∨ call.2 = [] := by
  induction handlers generalizing arg with
  | nil => simp [fireMoved]
  | cons handler handlers ih =>
    rw [fireMoved, List.forall_mem_cons]
    refine ⟨.inl rfl, fun call hcall => .inr ?_⟩
    rcases ih [] call hcall with h | h
    · exact h
    · exact h

theorem step_request_heard {hasher : List UInt8 → Hash} {header : MessageHeader} {msg : BlockRequest}
    (hs : step hasher h (env, .receiveBlockRequest header msg) = .ok h') :
    ∃ es, h'.effects = h.effects ++ es ∧ ∀ handler sender reqs,
      .blocksRequested handler sender reqs ∈ es → reqs = msg.requests ∨ reqs = [] := by
  obtain ⟨u, hrun⟩ := map_snd_ok hs
  by_cases hempty : msg.requests = []
  · have hsame : receiveBlockRequest env header msg h = .ok ((), h) := by
      rw [receiveBlockRequest, if_pos hempty, pure_run]
    obtain ⟨-, rfl⟩ := Prod.mk.inj (Except.ok.inj (hsame.symm.trans hrun))
    exact ⟨[], (List.append_nil _).symm, fun _ _ _ hmem => by cases hmem⟩
  · obtain ⟨h₁, es, hrun₁, hes, htraffic⟩ := receiveBlockRequest_run env h header hempty
    obtain ⟨-, rfl⟩ := Prod.mk.inj (Except.ok.inj (hrun₁.symm.trans hrun))
    refine ⟨es, hes, fun handler sender reqs hmem => ?_⟩
    have hmem' : .blocksRequested handler sender reqs ∈ es.filter Effect.isTraffic :=
      List.mem_filter.mpr ⟨hmem, rfl⟩
    rw [htraffic] at hmem'
    rcases List.mem_append.mp hmem' with hcall | hanswer
    · obtain ⟨call, hfired, heq⟩ := List.mem_map.mp hcall
      obtain ⟨-, -, rfl⟩ := Effect.blocksRequested.inj heq
      exact fireMoved_calls _ _ call hfired
    · unfold loopAnswers at hanswer
      split_ifs at hanswer
      · obtain ⟨req, -, hreq⟩ := List.mem_filterMap.mp hanswer
        obtain ⟨s, -, heq⟩ := Option.map_eq_some_iff.mp hreq
        cases heq
      · cases hanswer

/-- The blocks still to be asked for. -/
def missing (h : ContentHelper) (reqs : List LocalRequestArgs) : List LocalRequestArgs :=
  reqs.filter fun req => !h.has req.block

/-- The message `request` sends, if there is anything to ask for. -/
def requestPost (toSend : List LocalRequestArgs) : List Effect :=
  if toSend = [] then []
  else [.post (.blockRequest ⟨toSend.map LocalRequestArgs.toBlockRequestArgs⟩)]

theorem requested_traffic (reqs : List LocalRequestArgs) :
    ∃ es, (h.requested env reqs).effects = h.effects ++ es ∧
      es.filter Effect.isTraffic = requestPost (h.missing reqs) := by
  obtain ⟨-, es, hes, hquiet⟩ :=
    @foldl_dealt_quiet env { h with alreadyInRequest := true } reqs
  have heffects : (reqs.foldl (dealt env) { h with alreadyInRequest := true }).effects =
      h.effects ++ es := hes
  have hthere : ∀ blocks : List BlockRef,
      (blocks.map Effect.blockArrived).filter Effect.isTraffic = [] := by
    simp [List.filter_map, Function.comp_def, Effect.isTraffic]
  have hpost : (requestPost (h.missing reqs)).filter Effect.isTraffic =
      requestPost (h.missing reqs) := by
    unfold requestPost
    split_ifs <;> rfl
  refine ⟨es ++ requestPost (h.missing reqs) ++
    ((reqs.filter fun req => h.has req.block).map fun req => req.block).map Effect.blockArrived,
    ?_, ?_⟩
  · unfold requested emit
    dsimp only
    rw [heffects, List.append_assoc, List.append_assoc, List.append_assoc]
    rfl
  · rw [List.filter_append, List.filter_append, hquiet, hthere, hpost, List.nil_append,
      List.append_nil]

end Calls

section Requests

variable (env : Surroundings) (h : ContentHelper)

theorem post_requests_run {reqs : List BlockRequestArgs} (hlen : reqs.length ≤ 255) :
    post env (.blockRequest ⟨reqs⟩) h = .ok ((), h.emit [.post (.blockRequest ⟨reqs⟩)]) :=
  post_fits env h ((fits_blockRequest_iff reqs).mpr hlen)

theorem request_run {reqs : List LocalRequestArgs} (hlen : (h.missing reqs).length ≤ 255) :
    request env reqs h = .ok ((), h.requested env reqs) := by
  have hhas : ∀ block, ({ h with alreadyInRequest := true } : ContentHelper).has block = h.has block :=
    fun block => has_congr rfl rfl block
  unfold request requested
  rw [bind_run_ok (modify_run _ h), bind_run_ok (sortRequests_run reqs _)]
  simp only [hhas]
  by_cases hsend : (reqs.filter fun req => !h.has req.block) = []
  · rw [if_neg (not_not.mpr hsend), bind_run_ok (forEach_record_run _ _ _), if_pos hsend, emit_nil]
    rfl
  · rw [if_pos hsend, bind_run_ok (post_requests_run env _ (by rwa [List.length_map])),
      bind_run_ok (forEach_record_run _ _ _), if_neg hsend]
    rfl

end Requests

end YingSma.ContentHelper
