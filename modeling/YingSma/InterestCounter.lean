import YingSma.InterestLoop
import YingSma.TransitionRuns

/-! The counter `to_announce`: how many interests at the front of the deque are still to be
announced. `clear_local` takes interests out without counting them, and the loop of
`announce` goes on behind the ones that are due. -/
namespace YingSma.InterestHelper
open TransitionRuns

/-- The values of `to_announce` that a call decrements. -/
def decremented (h : InterestHelper) (c : TimePoint × Call) : List UInt64 :=
  match c.2 with
  | .createLocal type =>
      match h.interests.findIdx? fun i => i.type = type with
      | some idx =>
          if (h.interests[idx]?.map Interest.isLocal).getD false then []
          else if idx < h.toAnnounce.toNat then [h.toAnnounce] else []
      | none => []
  | .clearLocal => []
  | .receive _ => []
  | .announce _ stack =>
      if c.1 < h.nextAnnounceTime then []
      else countdown c.1 h.interests.length h (Packing.start stack)

/-- The counter stays within the deque and never falls below zero, and the pacing test
succeeds once as many interests were sent or dropped as were due. -/
structure CounterKept (h : InterestHelper) (c : TimePoint × Call) : Prop where
  bounded : ∀ h', step h c = .ok h' → h'.toAnnounce.toNat ≤ h'.interests.length
  no_underflow : ∀ v ∈ decremented h c, v ≠ 0
  paced : ∀ fuzz stack rotated p, c.2 = .announce fuzz stack → h.nextAnnounceTime ≤ c.1 →
    announceLoop c.1 h.interests.length h (Packing.start stack) = .ok (rotated, p) →
    (rotated.toAnnounce = 0 ↔
      h.toAnnounce.toNat ≤ p.count + (h.interests.length - rotated.interests.length))

/-- As many interests of other nodes as are due are left by `clear_local`, and the loop of
`announce` stops behind those that are due. -/
def CounterSafe (h : InterestHelper) (c : TimePoint × Call) : Prop :=
  match c.2 with
  | .createLocal _ => True
  | .clearLocal => h.toAnnounce.toNat ≤ (h.interests.filter Interest.remote).length
  | .receive _ => True
  | .announce _ _ =>
      c.1 < h.nextAnnounceTime ∨ StopsAt c.1 0 h.toAnnounce.toNat h.interests

section Learning

variable {now : TimePoint} {h h' : InterestHelper}

theorem toNat_add_one_le {t : UInt64} {n : ℕ} (hle : t.toNat < n) : (t + 1).toNat ≤ n := by
  have hmod : (t + 1).toNat = (t.toNat + 1) % 2 ^ 64 := UInt64.toNat_add t 1
  rw [hmod]
  exact (Nat.mod_le _ _).trans hle

theorem toNat_sub_ofNat {t : UInt64} {n : ℕ} (hle : n ≤ t.toNat) :
    (t - UInt64.ofNat n).toNat = t.toNat - n := by
  have hlt := t.toNat_lt
  have hn : (UInt64.ofNat n).toNat = n := by
    rw [UInt64.toNat_ofNat', Nat.mod_eq_of_lt (by omega)]
  rw [UInt64.toNat_sub_of_le _ _ (UInt64.le_iff_toNat_le.mpr (hn.trans_le hle)), hn]

theorem pushFront_due_le {i : Interest} (hdue : h.toAnnounce.toNat ≤ h.interests.length) :
    (pushFront i h).toAnnounce.toNat ≤ (pushFront i h).interests.length :=
  toNat_add_one_le (Nat.lt_succ_of_le hdue)

theorem createLocal_due_le (type : ContentType) (hdue : h.toAnnounce.toNat ≤ h.interests.length) :
    (createLocal now type h).toAnnounce.toNat ≤ (createLocal now type h).interests.length := by
  unfold createLocal
  cases hidx : h.interests.findIdx? fun i => i.type = type with
  | none => exact pushFront_due_le hdue
  | some idx =>
    obtain ⟨hlt, -⟩ := List.findIdx?_eq_some_iff_getElem.mp hidx
    have hlength := List.length_eraseIdx_of_lt hlt
    dsimp only
    split_ifs with hlocal hfront
    · exact hdue
    · have hpred : (h.toAnnounce - 1).toNat = h.toAnnounce.toNat - 1 :=
        @toNat_sub_ofNat h.toAnnounce 1 (by omega)
      apply pushFront_due_le
      dsimp only
      omega
    · apply pushFront_due_le
      dsimp only
      omega

theorem learnRemote_due_le (i : Interest) (hdue : h.toAnnounce.toNat ≤ h.interests.length) :
    (learnRemote now i h).toAnnounce.toNat ≤ (learnRemote now i h).interests.length := by
  unfold learnRemote
  cases hidx : h.interests.findIdx? fun j => j.type = i.type with
  | none => exact pushFront_due_le hdue
  | some idx =>
    obtain ⟨hlt, -⟩ := List.findIdx?_eq_some_iff_getElem.mp hidx
    have hlength := List.length_eraseIdx_of_lt hlt
    dsimp only
    split_ifs with hupdated hbehind
    · apply toNat_add_one_le
      simp only [List.length_cons]
      omega
    · simp only [List.length_cons]
      omega
    · exact hdue

theorem learnAll_due_le (received : List Interest)
    (hdue : h.toAnnounce.toNat ≤ h.interests.length) :
    (learnAll now received h).toAnnounce.toNat ≤ (learnAll now received h).interests.length := by
  induction received generalizing h with
  | nil => exact hdue
  | cons i received ih => exact ih (learnRemote_due_le _ hdue)

end Learning

section Announcing

variable {now : TimePoint} {h : InterestHelper} {stack : ByteMemory}

/-- Counting down from the number of interests due ends before zero unless more are taken. -/
theorem downFrom_ne_zero_iff (t : UInt64) (n : ℕ) : (∀ v ∈ downFrom t n, v ≠ 0) ↔ n ≤ t.toNat := by
  constructor
  · intro hne
    by_contra hlt
    apply hne (t - UInt64.ofNat t.toNat)
    · exact List.mem_map.mpr ⟨t.toNat, List.mem_range.mpr (not_le.mp hlt), rfl⟩
    · rw [UInt64.ofNat_toNat, UInt64.sub_self]
  · intro hle v hv hzero
    obtain ⟨k, hk, rfl⟩ := List.mem_map.mp hv
    rw [List.mem_range] at hk
    have hnat := congrArg UInt64.toNat hzero
    rw [toNat_sub_ofNat (by omega)] at hnat
    simp at hnat
    omega

theorem decremented_announce (fuzz : ℕ) (hdue : h.nextAnnounceTime ≤ now) :
    decremented h (now, .announce fuzz stack) = downFrom h.toAnnounce (taken now 0 h.interests) := by
  simp only [decremented, if_neg (not_lt.mpr hdue)]
  exact countdown_eq (List.append_nil _).symm rfl

/-- What the loop leaves of the counter and of the deque. -/
theorem loop_counts {rotated : InterestHelper} {p : Packing}
    (hloop : announceLoop now h.interests.length h (Packing.start stack) = .ok (rotated, p))
    (hdue : taken now 0 h.interests ≤ h.toAnnounce.toNat) :
    rotated.toAnnounce.toNat = h.toAnnounce.toNat - taken now 0 h.interests ∧
      h.interests.length - taken now 0 h.interests ≤ rotated.interests.length ∧
      rotated.interests.length ≤ h.interests.length ∧
      p.count + (h.interests.length - rotated.interests.length) = taken now 0 h.interests := by
  have hle : taken now 0 h.interests ≤ h.interests.length := taken_le 0 _
  obtain ⟨left, hleft, rfl, hcount⟩ := announceLoop_start hloop
  have hlive := @live_length_le now (h.interests.take (taken now 0 h.interests))
  have hlength := hleft.length_eq
  rw [List.length_take] at hlive
  rw [List.length_drop] at hlength
  refine ⟨toNat_sub_ofNat hdue, ?_, ?_, ?_⟩
  · rw [List.length_append, hlength]
    omega
  · rw [List.length_append, hlength]
    omega
  · rw [hcount, List.length_append, hlength]
    omega

theorem pace_due_le {fuzz : ℕ} {rotated : InterestHelper}
    (hdue : rotated.toAnnounce.toNat ≤ rotated.interests.length) :
    (pace now fuzz rotated).toAnnounce.toNat ≤ (pace now fuzz rotated).interests.length := by
  unfold pace
  split_ifs
  · rw [UInt64.toNat_ofNat']
    exact Nat.mod_le _ _
  · exact hdue

end Announcing

section Runs

variable {now : TimePoint} {h h' : InterestHelper}

theorem createLocal_kept (type : ContentType) (hdue : h.toAnnounce.toNat ≤ h.interests.length) :
    CounterKept h (now, .createLocal type) where
  bounded h' hstep := by
    obtain rfl := Except.ok.inj hstep
    exact createLocal_due_le type hdue
  no_underflow v hv hzero := by
    simp only [decremented] at hv
    split at hv
    · split_ifs at hv with hlocal hfront
      · cases hv
      · obtain rfl := List.mem_singleton.mp hv
        rw [hzero] at hfront
        exact Nat.not_lt_zero _ hfront
      · cases hv
    · cases hv
  paced _ _ _ _ hcall := by cases hcall

theorem receive_kept (msg : InterestAnn) (hdue : h.toAnnounce.toNat ≤ h.interests.length) :
    CounterKept h (now, .receive msg) where
  bounded h' hstep := by
    obtain ⟨received, -, rfl⟩ := step_receive hstep
    exact learnAll_due_le received hdue
  no_underflow v hv := by cases hv
  paced _ _ _ _ hcall := by cases hcall

theorem clearLocal_kept_iff :
    CounterKept h (now, .clearLocal) ↔
      h.toAnnounce.toNat ≤ (h.interests.filter Interest.remote).length := by
  have hremote : (clearLocal h).interests = h.interests.filter Interest.remote := by
    unfold clearLocal
    apply List.filter_congr
    intro i _
    simp [Interest.isLocal, Interest.remote]
  constructor
  · intro hkept
    have hbounded := hkept.bounded _ rfl
    rwa [hremote] at hbounded
  · intro hdue
    constructor
    · intro h' hstep
      obtain rfl := Except.ok.inj hstep
      rwa [hremote]
    · intro v hv
      cases hv
    · intro _ _ _ _ hcall
      cases hcall

theorem announce_kept_iff {fuzz : ℕ} {stack : ByteMemory}
    (hdue : h.toAnnounce.toNat ≤ h.interests.length) :
    CounterKept h (now, .announce fuzz stack) ↔
      now < h.nextAnnounceTime ∨ StopsAt now 0 h.toAnnounce.toNat h.interests := by
  rw [← taken_le_iff (by decide)]
  constructor
  · intro hkept
    rcases lt_or_ge now h.nextAnnounceTime with hearly | htime
    · exact .inl hearly
    · have hne := hkept.no_underflow
      rw [decremented_announce fuzz htime, downFrom_ne_zero_iff] at hne
      exact .inr hne
  · intro hsafe
    constructor
    · intro h' hstep
      obtain ⟨a, hrun⟩ := step_announce hstep
      rcases announce_ok hrun with ⟨-, -, rfl⟩ | ⟨htime, rotated, p, hloop, -, rfl⟩
      · exact hdue
      · obtain ⟨hcount, hlength, -, -⟩ := loop_counts hloop (hsafe.resolve_left (not_lt.mpr htime))
        apply pace_due_le
        omega
    · rcases lt_or_ge now h.nextAnnounceTime with hearly | htime
      · intro v hv
        simp only [decremented, if_pos hearly] at hv
        cases hv
      · rw [decremented_announce fuzz htime, downFrom_ne_zero_iff]
        exact hsafe.resolve_left (not_lt.mpr htime)
    · rintro _ _ rotated p ⟨⟩ htime hloop
      have htaken := hsafe.resolve_left (not_lt.mpr htime)
      obtain ⟨hcount, -, -, hall⟩ := loop_counts hloop htaken
      rw [hall, ← UInt64.toNat_inj, hcount]
      simp only [UInt64.toNat_zero]
      omega

/-- What a call does to the counter depends on the state before it only. -/
theorem kept_iff_safe (hdue : h.toAnnounce.toNat ≤ h.interests.length) (c : TimePoint × Call) :
    CounterKept h c ↔ CounterSafe h c := by
  obtain ⟨now, call⟩ := c
  cases call with
  | createLocal type => exact iff_of_true (createLocal_kept type hdue) trivial
  | clearLocal => exact clearLocal_kept_iff
  | receive msg => exact iff_of_true (receive_kept msg hdue) trivial
  | announce fuzz stack => exact announce_kept_iff hdue

theorem step_due_le (hdue : h.toAnnounce.toNat ≤ h.interests.length) {c : TimePoint × Call}
    (hsafe : CounterSafe h c) (hstep : step h c = .ok h') :
    h'.toAnnounce.toNat ≤ h'.interests.length :=
  ((kept_iff_safe hdue c).mpr hsafe).bounded h' hstep

/-- The counter is kept by every call of a run exactly when each `clear_local` finds no more
due than it leaves, and each `announce` stops behind the interests that are due. -/
theorem counter_kept_iff (id : NodeId) (start : TimePoint) (calls : List (TimePoint × Call)) :
    Each step CounterKept (new id start) calls ↔ Each step CounterSafe (new id start) calls := by
  apply each_congr (fun h => h.toAnnounce.toNat ≤ h.interests.length)
  · intro h c _ h' hdue hsafe hstep
    exact step_due_le hdue hsafe hstep
  · intro h c _ hdue
    exact kept_iff_safe hdue c
  · exact Nat.zero_le _

/-- The interest cleared is still counted. -/
theorem cleared_interest_counted :
    ¬ ∀ (id : NodeId) (start : TimePoint) (calls : List (TimePoint × Call)),
      Each step CounterKept (new id start) calls := by
  intro hall
  have hkept := ((hall ⟨1⟩ 0 [(0, .createLocal ⟨[97]⟩), (0, .clearLocal)]).2 _ rfl).1
  have hbounded := hkept.bounded _ rfl
  revert hbounded
  decide

end Runs

end YingSma.InterestHelper
