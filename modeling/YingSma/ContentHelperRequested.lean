import Mathlib.Order.Bounds.Basic
import YingSma.ContentHelperAsking
import YingSma.ContentHelperTraffic

/-! What becomes of each entry of a request: the blocks that are held are reported and no longer
pending, the others are sent for and their entries in the table merged. -/
namespace YingSma.ContentHelper
open StateActions EntryTable

/-- When the request runs out. -/
def due (env : Surroundings) (req : LocalRequestArgs) : TimePoint := env.now + req.ttlMs.toNat * milli

/-- The entry of a block, after one more request for it. -/
def merged (env : Surroundings) (req : LocalRequestArgs) : Option PendingRequest → PendingRequest
  | some p =>
      { p with
        expiry := max p.expiry (due env req)
        keepOnArrival := p.keepOnArrival || req.keepOnArrival }
  | none => ⟨env.now, due env req, req.keepOnArrival, false⟩

/-- The times at which an old entry and the requests run out. -/
def dues (env : Surroundings) (old : Option PendingRequest) (asks : List LocalRequestArgs) :
    Set TimePoint :=
  {t | (∃ p, old = some p ∧ p.expiry = t) ∨ ∃ req ∈ asks, due env req = t}

/-- The entry lasts as long as the old one and the requests together, and the block is kept if one
of them says so. -/
structure Merges (env : Surroundings) (old : Option PendingRequest) (asks : List LocalRequestArgs)
    (p : PendingRequest) : Prop where
  expiry : IsGreatest (dues env old asks) p.expiry
  keep : p.keepOnArrival ↔
    (∃ p₀, old = some p₀ ∧ p₀.keepOnArrival) ∨ ∃ req ∈ asks, req.keepOnArrival

/-- What is done is to schedule sweeps. -/
def AddsTimers (h h' : ContentHelper) : Prop :=
  ∃ timers, (∀ e ∈ timers, ∃ delay, e = .doIn delay .checkPendingRequests) ∧
    h'.effects = h.effects ++ timers

/-- Every entry of the list is accounted for. -/
structure Accounts (env : Surroundings) (h : ContentHelper) (reqs : List LocalRequestArgs)
    (h' : ContentHelper) : Prop where
  effects : ∃ timers, (∀ e ∈ timers, ∃ delay, e = .doIn delay .checkPendingRequests) ∧
    h'.effects = h.effects ++ timers ++ requestPost (h.missing reqs) ++
      ((reqs.filter fun req => h.has req.block).map fun req => req.block).map .blockArrived
  held : ∀ req ∈ reqs, h.has req.block → h'.pending req.block = none
  sought : ∀ req ∈ reqs, ¬ h.has req.block → ∃ p, h'.pending req.block = some p ∧
    Merges env (h.pending req.block) (reqs.filter fun other => other.block = req.block) p
  others : ∀ block, (∀ req ∈ reqs, req.block ≠ block) → h'.pending block = h.pending block

section Merging

variable {env : Surroundings} {old : Option PendingRequest} {req : LocalRequestArgs}
  {asks : List LocalRequestArgs} {p : PendingRequest}

theorem merged_expiry : IsGreatest (dues env old [req]) (merged env req old).expiry := by
  cases old with
  | none =>
    refine ⟨.inr ⟨req, List.mem_singleton_self req, rfl⟩, fun t ht => ?_⟩
    rcases ht with ⟨p, hp, -⟩ | ⟨req', hreq, rfl⟩
    · cases hp
    · exact List.mem_singleton.mp hreq ▸ le_rfl
  | some p =>
    constructor
    · rcases max_choice p.expiry (due env req) with hmax | hmax
      · exact .inl ⟨p, rfl, hmax.symm⟩
      · exact .inr ⟨req, List.mem_singleton_self req, hmax.symm⟩
    · rintro t (⟨p', hp, rfl⟩ | ⟨req', hreq, rfl⟩)
      · exact Option.some.inj hp ▸ le_max_left _ _
      · exact List.mem_singleton.mp hreq ▸ le_max_right _ _

theorem merged_keep : (merged env req old).keepOnArrival ↔
    (∃ p₀, old = some p₀ ∧ p₀.keepOnArrival) ∨ req.keepOnArrival := by
  cases old <;> simp [merged]

/-- The requests may be merged one after the other. -/
theorem Merges.cons (h : Merges env (some (merged env req old)) asks p) :
    Merges env old (req :: asks) p := by
  constructor
  case expiry =>
    have hone := @merged_expiry env old req
    have hle : (merged env req old).expiry ≤ p.expiry := h.expiry.2 (.inl ⟨_, rfl, rfl⟩)
    constructor
    · rcases h.expiry.1 with ⟨p', hp, heq⟩ | ⟨req', hreq, heq⟩
      · obtain rfl := Option.some.inj hp
        rw [← heq]
        rcases hone.1 with hold | ⟨req', hreq, hdue⟩
        · exact .inl hold
        · exact .inr ⟨req', List.mem_cons.mpr (.inl (List.mem_singleton.mp hreq)), hdue⟩
      · exact .inr ⟨req', List.mem_cons_of_mem _ hreq, heq⟩
    · rintro t (hold | ⟨req', hreq, rfl⟩)
      · exact (hone.2 (.inl hold)).trans hle
      · rcases List.mem_cons.mp hreq with rfl | hreq
        · exact (hone.2 (.inr ⟨req', List.mem_singleton_self req', rfl⟩)).trans hle
        · exact h.expiry.2 (.inr ⟨req', hreq, rfl⟩)
  case keep =>
    rw [h.keep]
    simp [merged_keep, or_assoc]

theorem merges_one : Merges env old [req] (merged env req old) where
  expiry := merged_expiry
  keep := by simp [merged_keep]

end Merging

section Dealing

variable {env : Surroundings} {h : ContentHelper}

theorem scheduled_pending (now : TimePoint) {when_ : TimePoint} (hwhen : when_ ≠ 0)
    (h : ContentHelper) (block : BlockRef) :
    (h.scheduled now when_).pending block = h.pending block := by
  rw [scheduled, if_pos hwhen]
  rfl

theorem due_ne_zero (hclock : 0 < env.now) (req : LocalRequestArgs) : due env req ≠ 0 := by
  have hmilli : 0 ≤ (req.ttlMs.toNat : ℤ) * milli := Int.mul_nonneg (Int.natCast_nonneg _) (by decide)
  exact (add_pos_of_pos_of_nonneg hclock hmilli).ne'

theorem updated_pending (block : BlockRef) (f : PendingRequest → PendingRequest) (h : ContentHelper)
    (block' : BlockRef) : (h.updated block f).pending block' =
      if block' = block then (h.pending block).map f else h.pending block' :=
  lookup_update block f h.prt block'

theorem extended_pending (now : TimePoint) {newExpiry : TimePoint} (hnew : newExpiry ≠ 0)
    {block : BlockRef} {p : PendingRequest} (hp : h.pending block = some p) (block' : BlockRef) :
    (h.extended now block newExpiry p).pending block' =
      if block' = block then some { p with expiry := max p.expiry newExpiry }
      else h.pending block' := by
  unfold extended
  by_cases hlt : p.expiry < newExpiry
  · rw [if_pos hlt, scheduled_pending now hnew, updated_pending, hp, Option.map_some,
      max_eq_right hlt.le]
  · rw [if_neg hlt, max_eq_left (not_lt.mp hlt)]
    split_ifs with hblock
    · rw [hblock, hp]
    · rfl

theorem added_pending (hclock : 0 < env.now) (h : ContentHelper) (req : LocalRequestArgs)
    (block : BlockRef) : (h.added env req).pending block =
      if block = req.block then some (merged env req (h.pending req.block)) else h.pending block := by
  have hdue : env.now + req.ttlMs.toNat * milli ≠ 0 := due_ne_zero hclock req
  unfold added
  cases hpending : h.pending req.block with
  | some p =>
    dsimp only
    rw [updated_pending, extended_pending env.now hdue hpending, if_pos rfl,
      extended_pending env.now hdue hpending]
    split_ifs <;> rfl
  | none =>
    dsimp only
    rw [scheduled_pending env.now hdue]
    exact lookup_insert hpending _ block

theorem dealt_pending (hclock : 0 < env.now) (h : ContentHelper) (req : LocalRequestArgs)
    (block : BlockRef) : (dealt env h req).pending block =
      if block = req.block then
        if h.has req.block then none else some (merged env req (h.pending req.block))
      else h.pending block := by
  unfold dealt
  by_cases hhas : h.has req.block
  · rw [if_pos hhas, if_pos hhas]
    exact lookup_erase block h.prt req.block
  · rw [if_neg hhas, if_neg hhas, added_pending hclock]

variable {reqs : List LocalRequestArgs} {block : BlockRef}

theorem foldl_dealt_other (hclock : 0 < env.now) (hnone : ∀ req ∈ reqs, req.block ≠ block) :
    (reqs.foldl (dealt env) h).pending block = h.pending block := by
  induction reqs generalizing h with
  | nil => rfl
  | cons req reqs ih =>
    rw [List.forall_mem_cons] at hnone
    rw [List.foldl_cons, ih hnone.2, dealt_pending hclock, if_neg hnone.1.symm]

theorem foldl_dealt_held (hclock : 0 < env.now) (hhas : h.has block)
    (hsome : (∃ req ∈ reqs, req.block = block) ∨ h.pending block = none) :
    (reqs.foldl (dealt env) h).pending block = none := by
  induction reqs generalizing h with
  | nil => simpa using hsome
  | cons req reqs ih =>
    rw [List.foldl_cons]
    apply ih (by rwa [dealt_has])
    rw [dealt_pending hclock]
    by_cases hblock : req.block = block
    · exact .inr (by simp [hblock, hhas])
    · rw [if_neg (Ne.symm hblock)]
      simpa [hblock] using hsome

theorem foldl_dealt_sought (hclock : 0 < env.now) (hhas : ¬ h.has block)
    (hsome : ∃ req ∈ reqs, req.block = block) :
    ∃ p, (reqs.foldl (dealt env) h).pending block = some p ∧
      Merges env (h.pending block) (reqs.filter fun req => req.block = block) p := by
  induction reqs generalizing h with
  | nil => simp at hsome
  | cons req reqs ih =>
    rw [List.foldl_cons]
    have hdealt := dealt_pending hclock h req block
    by_cases hblock : req.block = block
    · subst hblock
      rw [if_pos rfl, if_neg hhas] at hdealt
      rw [List.filter_cons_of_pos (by simp)]
      by_cases hmore : ∃ req' ∈ reqs, req'.block = req.block
      · have hsought : ¬ (dealt env h req).has req.block := by rwa [dealt_has]
        obtain ⟨p, hp, hmerges⟩ := ih hsought hmore
        rw [hdealt] at hmerges
        exact ⟨p, hp, hmerges.cons⟩
      · push Not at hmore
        have hlast : (reqs.filter fun req' => req'.block = req.block) = [] := by
          simpa [List.filter_eq_nil_iff] using hmore
        rw [foldl_dealt_other hclock hmore, hlast, hdealt]
        exact ⟨_, rfl, merges_one⟩
    · rw [if_neg (Ne.symm hblock)] at hdealt
      rw [List.filter_cons_of_neg (by simpa using hblock), ← hdealt]
      exact ih (by rwa [dealt_has]) (by simpa [hblock] using hsome)

theorem AddsTimers.of_eq {h' : ContentHelper} (heffects : h'.effects = h.effects) : AddsTimers h h' :=
  ⟨[], by simp, heffects.trans (List.append_nil _).symm⟩

theorem AddsTimers.trans {h' h'' : ContentHelper} (ha : AddsTimers h h') (hb : AddsTimers h' h'') :
    AddsTimers h h'' := by
  obtain ⟨timers, htimers, heffects⟩ := ha
  obtain ⟨timers', htimers', heffects'⟩ := hb
  refine ⟨timers ++ timers', fun e he => ?_, by rw [heffects', heffects, List.append_assoc]⟩
  rcases List.mem_append.mp he with he | he
  · exact htimers e he
  · exact htimers' e he

theorem scheduled_timers (now : TimePoint) {when_ : TimePoint} (hwhen : when_ ≠ 0)
    (h : ContentHelper) : AddsTimers h (h.scheduled now when_) := by
  rw [scheduled, if_pos hwhen]
  exact ⟨_, fun e he => ⟨_, List.mem_singleton.mp he⟩, rfl⟩

theorem dealt_timers (hclock : 0 < env.now) (h : ContentHelper) (req : LocalRequestArgs) :
    AddsTimers h (dealt env h req) := by
  have hdue : env.now + req.ttlMs.toNat * milli ≠ 0 := due_ne_zero hclock req
  unfold dealt added extended
  split_ifs
  · exact .of_eq rfl
  · cases h.pending req.block with
    | some p =>
      dsimp only
      split_ifs
      · exact scheduled_timers env.now hdue _
      · exact .of_eq rfl
    | none => exact scheduled_timers env.now hdue _

theorem foldl_dealt_timers (hclock : 0 < env.now) : AddsTimers h (reqs.foldl (dealt env) h) := by
  induction reqs generalizing h with
  | nil => exact .of_eq rfl
  | cons req reqs ih => exact (dealt_timers hclock h req).trans ih

theorem requested_accounts (hclock : 0 < env.now) :
    Accounts env h reqs (h.requested env reqs) where
  effects := by
    obtain ⟨timers, htimers, heffects⟩ :=
      @foldl_dealt_timers env { h with alreadyInRequest := true } reqs hclock
    refine ⟨timers, htimers, ?_⟩
    unfold requested emit
    dsimp only
    rw [heffects]
    rfl
  held req hreq hhas := by
    have hall := @foldl_dealt_held env { h with alreadyInRequest := true } reqs req.block hclock hhas
    exact hall (.inl ⟨req, hreq, rfl⟩)
  sought req hreq hhas := by
    have hall := @foldl_dealt_sought env { h with alreadyInRequest := true } reqs req.block hclock hhas
    exact hall ⟨req, hreq, rfl⟩
  others block hnone := @foldl_dealt_other env { h with alreadyInRequest := true } reqs block hclock hnone

end Dealing

/-- `request` returns, with every entry of its list accounted for. -/
theorem request_accounts (env : Surroundings) (h : ContentHelper) {reqs : List LocalRequestArgs}
    (hclock : 0 < env.now) (hmany : reqs.length ≤ 255) :
    ∃ h', request env reqs h = .ok ((), h') ∧ Accounts env h reqs h' :=
  ⟨_, request_run env h ((List.length_filter_le _ _).trans hmany), requested_accounts hclock⟩

/-- A request for the first block of a content, to be kept. -/
def firstBlock (ttlMs : UInt32) : LocalRequestArgs :=
  ⟨⟨⟨default, 0⟩, utilityOne, ttlMs, ⟨1⟩, ⟨0, 0⟩, 0⟩, true, false⟩

theorem request_accounts_twice :
    ∃ h', request ⟨1, ⟨0, 0⟩, fun _ => false⟩ [firstBlock 500, firstBlock 20] (new ⟨1⟩) = .ok ((), h') ∧
      Accounts ⟨1, ⟨0, 0⟩, fun _ => false⟩ (new ⟨1⟩) [firstBlock 500, firstBlock 20] h' :=
  request_accounts ⟨1, ⟨0, 0⟩, fun _ => false⟩ (new ⟨1⟩) (by decide) (by decide)

end YingSma.ContentHelper
