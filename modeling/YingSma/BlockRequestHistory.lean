import YingSma.BlockRequestTable

/-! The table of `BlockRequestScheduler` against the requests it was given: of the requests of a
neighbour for a block it holds the newest, as long as that has not expired. -/
namespace YingSma.BlockRequestScheduler
open EntryTable TransitionRuns

/-- A call that comes `c.1` nanoseconds after the one before, and the clock. -/
def after (s : TimePoint × BlockRequestScheduler) (c : ℕ × Call) :
    Except Fault (TimePoint × BlockRequestScheduler) :=
  (step s.2 (s.1 + c.1, c.2)).map fun s' => (s.1 + c.1, s')

/-- The request of a neighbour for a block that was inserted last. -/
abbrev Newest := NodeId → BlockRef → Option BlockRequestDesc

def Newest.insert (now : TimePoint) (nodeId : NodeId) (newest : Newest)
    (request : BlockRequestArgs) : Newest :=
  Function.update newest nodeId
    (Function.update (newest nodeId) request.block (some (.ofArgs now nodeId request)))

/-- What the calls insert, beside the scheduler. -/
def noteNewest (newest : Newest) (_ : TimePoint × BlockRequestScheduler) (c : ℕ × Call)
    (s' : TimePoint × BlockRequestScheduler) : Newest :=
  match c.2 with
  | .addRequests nodeId requests => requests.foldl (Newest.insert s'.1 nodeId) newest
  | .getUtility _ _ => newest
  | .fwdRequests _ => newest

/-- The table has one entry for a neighbour, with one request for a block at most, the newest. That
one is there until it expires. -/
structure Current (newest : Newest) (now : TimePoint) (s : BlockRequestScheduler) : Prop where
  distinct : Distinct s.requestDescTable
  one : OneEach s
  newest_of_held : ∀ nodeId block d, s.Held nodeId block d → newest nodeId block = some d
  held_of_alive : ∀ nodeId block d, newest nodeId block = some d → now ≤ d.expireTime →
    s.Held nodeId block d

/-- The neighbour whose requests a call is about. -/
def Call.neighbor : Call → Option NodeId
  | .addRequests nodeId _ => some nodeId
  | .getUtility nodeId _ => some nodeId
  | .fwdRequests _ => none

/-- The requests of other neighbours stay as they are. -/
def OthersKept (s : TimePoint × BlockRequestScheduler) (c : ℕ × Call) : Prop :=
  ∀ s', after s c = .ok s' → ∀ m, c.2.neighbor ≠ some m → s'.2.descsOf m = s.2.descsOf m

section Inserting

variable {now : TimePoint} {nodeId m : NodeId} {b : BlockRef} {d : BlockRequestDesc}
  {s : BlockRequestScheduler} {newest : Newest}

theorem held_insertRequest (request : BlockRequestArgs) :
    (s.insertRequest now nodeId request).Held m b d ↔
      (m = nodeId ∧ b = request.block ∧ d = .ofArgs now nodeId request) ∨
        (s.Held m b d ∧ ¬ (m = nodeId ∧ (b = request.block ∨ d.expireTime < now))) := by
  have hnew : (BlockRequestDesc.ofArgs now nodeId request).block = request.block := rfl
  unfold Held
  simp only [descsOf_insertRequest]
  by_cases hm : m = nodeId
  · subst hm
    have hkept : d ∈ keptBeside now request.block ((s.descsOf m).getD []) ↔
        ∃ descs, s.descsOf m = some descs ∧ d ∈ descs ∧ d.block ≠ request.block ∧
          ¬ d.expireTime < now := by
      cases s.descsOf m <;> simp [keptBeside]
    simp only [if_pos, Option.some.injEq, exists_eq_left', List.mem_append, List.mem_singleton,
      hkept]
    constructor
    · rintro ⟨⟨descs, hdescs, hd, hother, halive⟩ | rfl, rfl⟩
      · exact Or.inr ⟨⟨descs, hdescs, hd, rfl⟩, fun h => h.2.elim hother halive⟩
      · exact Or.inl ⟨trivial, hnew, rfl⟩
    · rintro (⟨-, rfl, rfl⟩ | ⟨⟨descs, hdescs, hd, rfl⟩, hlive⟩)
      · exact ⟨Or.inr rfl, hnew⟩
      · exact ⟨Or.inl ⟨descs, hdescs, hd, fun h => hlive ⟨trivial, Or.inl h⟩,
          fun h => hlive ⟨trivial, Or.inr h⟩⟩, rfl⟩
  · simp [hm]

theorem insert_self (request : BlockRequestArgs) :
    newest.insert now nodeId request nodeId request.block = some (.ofArgs now nodeId request) := by
  rw [Newest.insert, Function.update_self, Function.update_self]

theorem insert_of_ne {request : BlockRequestArgs} (h : ¬ (m = nodeId ∧ b = request.block)) :
    newest.insert now nodeId request m b = newest m b := by
  unfold Newest.insert
  by_cases hm : m = nodeId
  · subst hm
    rw [Function.update_self, Function.update_of_ne fun hb => h ⟨rfl, hb⟩]
  · rw [Function.update_of_ne hm]

theorem distinct_insertRequest (request : BlockRequestArgs) (h : Distinct s.requestDescTable) :
    Distinct (s.insertRequest now nodeId request).requestDescTable := by
  unfold insertRequest
  cases hdescs : s.requestDescTable.lookup nodeId with
  | none => exact h.insert hdescs _
  | some descs =>
    exact h.update nodeId fun descs =>
      keptBeside now request.block descs ++ [.ofArgs now nodeId request]

theorem Current.insertRequest (h : Current newest now s) (request : BlockRequestArgs) :
    Current (newest.insert now nodeId request) now (s.insertRequest now nodeId request) where
  distinct := distinct_insertRequest request h.distinct
  one := oneEach_insertRequest request h.one
  newest_of_held := by
    intro m b d hd
    rcases (held_insertRequest request).mp hd with ⟨rfl, rfl, rfl⟩ | ⟨hd, hlive⟩
    · exact insert_self request
    · rw [insert_of_ne fun hsame => hlive ⟨hsame.1, Or.inl hsame.2⟩]
      exact h.newest_of_held m b d hd
  held_of_alive := by
    intro m b d hd halive
    rw [held_insertRequest]
    by_cases hsame : m = nodeId ∧ b = request.block
    · obtain ⟨rfl, rfl⟩ := hsame
      rw [insert_self] at hd
      exact Or.inl ⟨rfl, rfl, (Option.some.inj hd).symm⟩
    · rw [insert_of_ne hsame] at hd
      refine Or.inr ⟨h.held_of_alive m b d hd halive, ?_⟩
      rintro ⟨hm, hb | hexpired⟩
      · exact hsame ⟨hm, hb⟩
      · exact halive.not_gt hexpired

theorem Current.addRequests (h : Current newest now s) (requests : List BlockRequestArgs) :
    Current (requests.foldl (Newest.insert now nodeId) newest) now
      (s.addRequests now nodeId requests) := by
  unfold BlockRequestScheduler.addRequests
  induction requests generalizing newest s with
  | nil => exact h
  | cons request requests ih => exact ih (h.insertRequest request)

end Inserting

section Calls

variable {now : TimePoint} {nodeId : NodeId} {block : BlockRef} {s : BlockRequestScheduler}
  {newest : Newest}

theorem Current.later {now' : TimePoint} (h : Current newest now s) (hle : now ≤ now') :
    Current newest now' s where
  distinct := h.distinct
  one := h.one
  newest_of_held := h.newest_of_held
  held_of_alive m b d hd halive := h.held_of_alive m b d hd (hle.trans halive)

theorem distinct_getUtility (h : Distinct s.requestDescTable) :
    Distinct (s.getUtility now nodeId block).2.requestDescTable := by
  unfold getUtility
  split
  · exact h
  · split
    · exact h
    · exact h.update nodeId _

theorem Current.getUtility (h : Current newest now s) :
    Current newest now (s.getUtility now nodeId block).2 where
  distinct := distinct_getUtility h.distinct
  one := oneEach_getUtility h.one
  newest_of_held m b d hd := h.newest_of_held m b d ((held_getUtility h.one).mp hd).1
  held_of_alive := by
    intro m b d hd halive
    refine (held_getUtility h.one).mpr ⟨h.held_of_alive m b d hd halive, ?_⟩
    rintro ⟨-, hexpired⟩
    simp only [outdated, decide_eq_true_eq] at hexpired
    exact halive.not_gt hexpired.2

theorem current_new (start : TimePoint) : Current (fun _ _ => none) start new where
  distinct := List.nodup_nil
  one := by
    rintro m descs hdescs
    cases hdescs
  newest_of_held := by
    rintro m b d ⟨descs, hdescs, -⟩
    cases hdescs
  held_of_alive := by
    intro m b d hd
    cases hd

/-- Every call keeps the table current at its own time. -/
theorem after_current {r r' : Newest × TimePoint × BlockRequestScheduler} {c : ℕ × Call}
    (h : Current r.1 r.2.1 r.2.2) (hs : noted after noteNewest r c = .ok r') :
    Current r'.1 r'.2.1 r'.2.2 := by
  obtain ⟨wait, call⟩ := c
  obtain rfl := Except.ok.inj hs
  have hlater := h.later (Int.le.intro wait rfl : r.2.1 ≤ r.2.1 + wait)
  cases call with
  | addRequests nodeId requests => exact hlater.addRequests requests
  | getUtility nodeId block => exact hlater.getUtility
  | fwdRequests maxNumOfRequests =>
    exact ⟨hlater.distinct, hlater.one, hlater.newest_of_held, hlater.held_of_alive⟩

theorem descsOf_addRequests_of_ne {m : NodeId} (hm : m ≠ nodeId)
    (requests : List BlockRequestArgs) :
    (s.addRequests now nodeId requests).descsOf m = s.descsOf m := by
  refine @addRequests_invariant s (fun t => t.descsOf m = s.descsOf m) now nodeId
    (fun t request ht => ?_) requests rfl
  rw [descsOf_insertRequest, if_neg hm, ht]

theorem after_othersKept (s : TimePoint × BlockRequestScheduler) (c : ℕ × Call) :
    OthersKept s c := by
  obtain ⟨wait, call⟩ := c
  rintro s' hs m hm
  obtain rfl := Except.ok.inj hs
  cases call with
  | addRequests nodeId requests =>
    exact descsOf_addRequests_of_ne (fun h => hm (congrArg some h.symm)) requests
  | getUtility nodeId block =>
    have hne : m ≠ nodeId := fun h => hm (congrArg some h.symm)
    exact (descsOf_getUtility m).trans (if_neg hne)
  | fwdRequests maxNumOfRequests => rfl

/-- After every call, of a neighbour's requests for a block the newest is held and no other, unless
it has expired, and no call changes the requests of another neighbour. -/
theorem run_current (start : TimePoint) (calls : List (ℕ × Call)) :
    Always (noted after noteNewest) (fun r => Current r.1 r.2.1 r.2.2)
        (fun _ _ => none, start, new) calls ∧
      Each after OthersKept (start, new) calls := by
  constructor
  · exact always_of_run fun r past hr => run_invariant (fun r => Current r.1 r.2.1 r.2.2)
      (fun _ _ _ h hs => after_current h hs) (current_new start) hr
  · exact each_of_prefixes fun _ c s _ _ => after_othersKept s c

end Calls

end YingSma.BlockRequestScheduler
