import YingSma.ContentHelperMoves

/-! What the calls that ask for blocks do, request by request: which blocks they report as
already there, and what they leave in the table of pending requests. -/
namespace YingSma.ContentHelper
open StateActions EntryTable

/-- The requests have been dealt with one after the other, and the blocks that were there
already have been reported. -/
structure Dealt (env : Surroundings) (asks : List LocalRequestArgs) (h h' : ContentHelper) :
    Prop where
  prt : h'.prt = (asks.foldl (dealt env) h).prt
  cache : h'.cache = h.cache
  store : h'.store = h.store
  effects : ∃ es, h'.effects = h.effects ++ es ∧
    ∀ block, .blockArrived block ∈ es ↔ ∃ req ∈ asks, req.block = block ∧ h.has block

section Dealing

variable {env : Surroundings} {asks asks' : List LocalRequestArgs} {h h' : ContentHelper}

theorem scheduled_prt_congr (now when_ : TimePoint) (hprt : h'.prt = h.prt) :
    (h'.scheduled now when_).prt = (h.scheduled now when_).prt := by
  unfold scheduled
  split_ifs
  · exact hprt
  · simp only [swept, hprt]

theorem extended_prt_congr (now newExpiry : TimePoint) (block : BlockRef) (p : PendingRequest)
    (hprt : h'.prt = h.prt) :
    (h'.extended now block newExpiry p).prt = (h.extended now block newExpiry p).prt := by
  unfold extended
  split_ifs
  · exact scheduled_prt_congr _ _ (by simp only [updated, hprt])
  · exact hprt

/-- Dealing with a request depends on the table and the caches alone. -/
theorem dealt_prt_congr (hprt : h'.prt = h.prt) (hcache : h'.cache = h.cache)
    (hstore : h'.store = h.store) (req : LocalRequestArgs) :
    (dealt env h' req).prt = (dealt env h req).prt := by
  unfold dealt added pending
  rw [has_congr hcache hstore, hprt]
  split_ifs
  · simp only [erased, hprt]
  · cases h.prt.lookup req.block with
    | some p =>
      have hextended := extended_prt_congr env.now (env.now + req.ttlMs.toNat * milli) req.block p hprt
      simp only [updated, hextended]
    | none => exact scheduled_prt_congr _ _ (by simp only [inserted, hprt])

theorem foldl_dealt_prt_congr (hprt : h'.prt = h.prt) (hcache : h'.cache = h.cache)
    (hstore : h'.store = h.store) :
    (asks.foldl (dealt env) h').prt = (asks.foldl (dealt env) h).prt := by
  induction asks generalizing h h' with
  | nil => exact hprt
  | cons req asks ih =>
    apply ih (dealt_prt_congr hprt hcache hstore req)
    · rw [dealt_cache, dealt_cache, hcache]
    · rw [dealt_store, dealt_store, hstore]

theorem foldl_dealt_cache : (asks.foldl (dealt env) h).cache = h.cache := by
  induction asks generalizing h with
  | nil => rfl
  | cons req asks ih => rw [List.foldl_cons, ih, dealt_cache]

theorem foldl_dealt_store : (asks.foldl (dealt env) h).store = h.store := by
  induction asks generalizing h with
  | nil => rfl
  | cons req asks ih => rw [List.foldl_cons, ih, dealt_store]

theorem Dealt.has (hd : Dealt env asks h h') (block : BlockRef) : h'.has block = h.has block :=
  has_congr hd.cache hd.store block

theorem Dealt.trans {h'' : ContentHelper} (hd : Dealt env asks h h') (hd' : Dealt env asks' h' h'') :
    Dealt env (asks ++ asks') h h'' where
  prt := by
    rw [hd'.prt, List.foldl_append]
    apply foldl_dealt_prt_congr hd.prt
    · rw [hd.cache, foldl_dealt_cache]
    · rw [hd.store, foldl_dealt_store]
  cache := hd'.cache.trans hd.cache
  store := hd'.store.trans hd.store
  effects := by
    obtain ⟨es, hes, hiff⟩ := hd.effects
    obtain ⟨es', hes', hiff'⟩ := hd'.effects
    refine ⟨es ++ es', by rw [hes', hes, List.append_assoc], fun block => ?_⟩
    simp only [List.mem_append, hiff, hiff', hd.has, or_and_right, exists_or]

/-- A change that is not about blocks. -/
theorem Dealt.frame (hprt : h'.prt = h.prt) (hcache : h'.cache = h.cache)
    (hstore : h'.store = h.store) {es : List Effect} (heffects : h'.effects = h.effects ++ es)
    (hes : ∀ block, .blockArrived block ∉ es) : Dealt env [] h h' :=
  ⟨hprt, hcache, hstore, es, heffects, fun block => by simp [hes]⟩

/-- The same from a helper that differs in neither the table, the caches nor the effects. -/
theorem Dealt.after {h₀ : ContentHelper} (hd : Dealt env asks h h') (hprt : h.prt = h₀.prt)
    (hcache : h.cache = h₀.cache) (hstore : h.store = h₀.store) (heffects : h.effects = h₀.effects) :
    Dealt env asks h₀ h' :=
  (Dealt.frame hprt hcache hstore (heffects.trans (List.append_nil _).symm) fun _ =>
    List.not_mem_nil).trans hd

instance (env : Surroundings) : IsPreorder ContentHelper (Dealt env []) where
  refl h := .frame rfl rfl rfl (List.append_nil h.effects).symm fun _ => List.not_mem_nil
  trans _ _ _ hab hbc := hab.trans hbc

theorem scheduled_effects (now when_ : TimePoint) (h : ContentHelper) :
    ∃ es, (h.scheduled now when_).effects = h.effects ++ es ∧
      ∀ block, .blockArrived block ∉ es := by
  unfold scheduled
  split_ifs
  · exact ⟨_, rfl, by simp⟩
  · exact ⟨_, rfl, by simp⟩

theorem dealt_effects (h : ContentHelper) (req : LocalRequestArgs) :
    ∃ es, (dealt env h req).effects = h.effects ++ es ∧ ∀ block, .blockArrived block ∉ es := by
  have hnone : ∃ es, h.effects = h.effects ++ es ∧ ∀ block, .blockArrived block ∉ es :=
    ⟨[], (List.append_nil _).symm, fun _ => List.not_mem_nil⟩
  unfold dealt added extended
  split_ifs
  · exact hnone
  · cases h.pending req.block with
    | some p =>
      dsimp only [updated]
      split_ifs
      · exact scheduled_effects _ _ _
      · exact hnone
    | none => exact scheduled_effects _ _ _

theorem foldl_dealt_effects (h : ContentHelper) :
    ∃ es, (asks.foldl (dealt env) h).effects = h.effects ++ es ∧
      ∀ block, .blockArrived block ∉ es := by
  induction asks generalizing h with
  | nil => exact ⟨[], (List.append_nil _).symm, fun _ => List.not_mem_nil⟩
  | cons req asks ih =>
    obtain ⟨es, hes, hnot⟩ := @dealt_effects env h req
    obtain ⟨es', hes', hnot'⟩ := ih (dealt env h req)
    refine ⟨es ++ es', by rw [List.foldl_cons, hes', hes, List.append_assoc], fun block hmem => ?_⟩
    rcases List.mem_append.mp hmem with hmem | hmem
    · exact hnot block hmem
    · exact hnot' block hmem

theorem requested_dealt (asks : List LocalRequestArgs) : Dealt env asks h (h.requested env asks) where
  prt := foldl_dealt_prt_congr rfl rfl rfl
  cache := foldl_dealt_cache
  store := foldl_dealt_store
  effects := by
    obtain ⟨es, hes, hnot⟩ := @foldl_dealt_effects env asks
      { h with alreadyInRequest := true }
    unfold requested
    simp only [emit, hes, List.append_assoc]
    refine ⟨_, rfl, fun block => ?_⟩
    have hpost : .blockArrived block ∉
        (if (asks.filter fun req => !h.has req.block) = [] then []
        else [Effect.post (.blockRequest
          ⟨(asks.filter fun req => !h.has req.block).map LocalRequestArgs.toBlockRequestArgs⟩)]) := by
      split_ifs <;> simp
    rw [List.mem_append, or_iff_right (hnot block), List.mem_append, or_iff_right hpost]
    constructor
    · intro hmem
      obtain ⟨req, hreq, rfl⟩ := by simpa using hmem
      exact ⟨req, hreq.1, rfl, hreq.2⟩
    · rintro ⟨req, hreq, rfl, hhas⟩
      simp only [List.map_map, List.mem_map, List.mem_filter]
      exact ⟨req, ⟨hreq, hhas⟩, rfl⟩

theorem request_dealt (asks : List LocalRequestArgs) : Keeps (Dealt env asks) (request env asks) := by
  intro h u h' hrun
  rw [request_ok hrun]
  exact requested_dealt asks

theorem record_dealt {e : Effect} (he : ∀ block, e ≠ .blockArrived block) :
    Keeps (Dealt env []) (record e) := by
  refine keeps_modify fun h => .frame rfl rfl rfl rfl fun block hmem => ?_
  exact he block (List.mem_singleton.mp hmem).symm

theorem doAutoFetch_dealt : KeepsFrom (Dealt env (fetched env h)) h (doAutoFetch env) := by
  intro u h' hrun
  unfold doAutoFetch at hrun
  rw [bind_run_ok (get_run h)] at hrun
  split_ifs at hrun with hempty
  · have hnone : fetched env h = [] := by simp [fetched, hempty]
    rw [hnone]
    exact keeps_pure (R := Dealt env []) () h u h' hrun
  · rw [bind_run_ok (modify_run _ h)] at hrun
    obtain ⟨a, h₁, hrequest, hrest⟩ := bind_eq_ok hrun
    have hframe : Dealt env [] h { h with autoFetchQueue := h.autoFetchQueue.drop 4 } :=
      .frame rfl rfl rfl (List.append_nil _).symm fun _ => List.not_mem_nil
    have htail : Keeps (Dealt env []) (do
        let h ← get
        if h.autoFetchQueue ≠ [] then record (.doIn (1000 * milli) .doAutoFetch) : Action Unit) :=
      keeps_bind keeps_get fun _ => keeps_ite (record_dealt (by simp)) (keeps_pure _)
    have hall := (hframe.trans (request_dealt _ _ _ _ hrequest)).trans (htail _ _ _ hrest)
    rwa [List.nil_append, List.append_nil] at hall

theorem discover_dealt (m : ContentMetadata) :
    KeepsFrom (Dealt env (askedByDiscover env m h)) h (discover env m) := by
  intro b h' hrun
  unfold discover at hrun
  rw [bind_run_ok (get_run h)] at hrun
  unfold askedByDiscover
  cases hfind : h.rmt.find? fun r => r.data.hash = m.hash with
  | some existing =>
    simp only [hfind] at hrun
    refine keeps_ite (keeps_bind (keeps_modify fun h => ?_) fun _ => keeps_pure _) (keeps_pure _)
      h b h' hrun
    exact .frame rfl rfl rfl (List.append_nil _).symm fun _ => List.not_mem_nil
  | none =>
    simp only [hfind] at hrun ⊢
    rw [bind_run_ok (modify_run _ h)] at hrun
    have hnew : Dealt env [] h { h with rmt := h.rmt ++ [⟨m, env.now⟩] } :=
      .frame rfl rfl rfl (List.append_nil _).symm fun _ => List.not_mem_nil
    have hevent : Keeps (Dealt env []) (record (.interestingContent m)) := record_dealt (by simp)
    split_ifs at hrun with hany hfetch
    · rw [if_pos ⟨hany, hfetch⟩]
      rw [bind_run_ok (record_run _ _)] at hrun
      obtain ⟨blockCount, h₁, hattempt, hrest⟩ := bind_eq_ok hrun
      obtain ⟨hcount, rfl⟩ := attempt_eq_ok hattempt
      rw [bind_run_ok (modify_run _ _)] at hrest
      obtain ⟨u, h₂, hauto, hpure⟩ := bind_eq_ok hrest
      obtain ⟨-, rfl⟩ := Prod.mk.inj (Except.ok.inj hpure)
      rw [hcount]
      have hqueued := hnew.trans (hevent _ _ _ (record_run _ _))
      have hfetched := doAutoFetch_dealt u h₂ hauto
      have hall := hqueued.trans (hfetched.after rfl rfl rfl rfl)
      exact hall
    · rw [if_neg fun hboth => hfetch hboth.2]
      obtain ⟨v, h₁, hrecord, hpure⟩ := bind_eq_ok hrun
      obtain ⟨-, rfl⟩ := Prod.mk.inj (Except.ok.inj hpure)
      exact hnew.trans (hevent _ _ _ hrecord)
    · rw [if_neg fun hboth => hany hboth.1]
      obtain ⟨-, rfl⟩ := Prod.mk.inj (Except.ok.inj hrun)
      exact hnew

theorem receiveContentAnn_dealt (msg : ContentAnn) :
    KeepsFrom (Dealt env (askedByAnn env msg.metadata h)) h (receiveContentAnn env msg) := by
  unfold receiveContentAnn
  generalize msg.metadata = ms
  induction ms generalizing h with
  | nil => exact keeps_pure (R := Dealt env []) () h
  | cons m ms ih =>
    intro u h' hrun
    rw [forEach] at hrun
    obtain ⟨a, h₁, hone, hrest⟩ := bind_eq_ok hrun
    rw [bind_run_ok (get_run h)] at hone
    unfold askedByAnn
    split_ifs at hone ⊢ with hown
    · obtain ⟨-, rfl⟩ := Prod.mk.inj (Except.ok.inj hone)
      exact ih u h' hrest
    · obtain ⟨b, h₂, hdiscover, hpure⟩ := bind_eq_ok hone
      obtain ⟨-, rfl⟩ := Prod.mk.inj (Except.ok.inj hpure)
      rw [hdiscover]
      exact (discover_dealt _ b h₂ hdiscover).trans (ih u h' hrest)

/-- What a call that asks for anything does to the table and the caches. -/
theorem step_dealt {hasher : List UInt8 → Hash} {op : Op} (hasks : asked env h op ≠ [])
    (hs : step hasher h (env, op) = .ok h') : Dealt env (asked env h op) h h' := by
  obtain ⟨u, hrun⟩ := TransitionRuns.map_snd_ok hs
  cases op with
  | request requests => exact request_dealt requests h u h' hrun
  | doAutoFetch => exact doAutoFetch_dealt u h' hrun
  | receiveContentAnn msg => exact receiveContentAnn_dealt msg u h' hrun
  | _ => exact absurd rfl hasks

end Dealing

end YingSma.ContentHelper
