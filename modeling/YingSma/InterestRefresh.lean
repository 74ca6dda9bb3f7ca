import YingSma.InterestEntries
import YingSma.TransitionRuns

/-! How long an interest of another node is kept after it was announced again. The time it
expires at is the one of its first announcement. -/
namespace YingSma.InterestHelper
open TransitionRuns

/-- A call that comes `c.1` nanoseconds after the one before, and the clock. -/
def after (s : TimePoint × InterestHelper) (c : ℕ × Call) :
    Except Fault (TimePoint × InterestHelper) :=
  (step s.2 (s.1 + c.1, c.2)).map fun h => (s.1 + c.1, h)

/-- What nodes do with each other's interests. -/
def Call.isExchange : Call → Bool
  | .createLocal _ => false
  | .clearLocal => false
  | .receive _ => true
  | .announce _ _ => true

/-- An interest of another node that is announced again with `d` milliseconds left is not
dropped by any `announce` up to one millisecond before their end. -/
def RefreshKept (id : NodeId) (start : TimePoint) (calls : List (ℕ × Call)) : Prop :=
  ∀ past wait msg between wait' fuzz stack s s₁ s₂ s₃,
    past ++ (wait, .receive msg) :: between ++ [(wait', .announce fuzz stack)] <+: calls →
    run after (start, new id start) past = .ok s → after s (wait, .receive msg) = .ok s₁ →
    run after s₁ between = .ok s₂ → after s₂ (wait', .announce fuzz stack) = .ok s₃ →
    (∀ c ∈ between, c.2.isExchange) →
    ∀ received, msg.interests = .ok received → ∀ i ∈ received, s.2.knowRemote i.type →
      s₃.1 + milli ≤ s₁.1 + i.ttlMs.toNat * milli → i.type ∈ types s₂.2 → i.type ∈ types s₃.2

/-- Each entry that is announced again has as much time as the announcement gives it,
unless that is no time at all, or no `announce` is due in it, or the hop count wraps and the
entry is taken for the node's own. -/
def RefreshSafe (s : TimePoint × InterestHelper) (c : ℕ × Call) : Prop :=
  match c.2 with
  | .createLocal _ => True
  | .clearLocal => True
  | .announce _ _ => True
  | .receive msg => ∀ received, msg.interests = .ok received → ∀ i ∈ received,
      ∀ e ∈ s.2.interests, e.type = i.type → e.remote →
        let until_ := s.1 + c.1 + i.ttlMs.toNat * milli
        until_ ≤ e.expiryTime ∨ i.ttlMs = 0 ∨ until_ < s.2.nextAnnounceTime + milli ∨
          ∃ j ∈ received, j.type = i.type ∧ j.hops = 255

section Absorbing

/-- What the loop of `receive` makes of an entry that is there before. -/
def absorb (e : Interest) (received : List Interest) : Interest :=
  received.foldl (fun e j =>
    if j.type = e.type then (e.updateWith { j with hops := j.hops + 1 }).2 else e) e

variable {now : TimePoint} {h : InterestHelper} {e : Interest}

theorem absorb_cons (e j : Interest) (received : List Interest) :
    absorb e (j :: received) =
      absorb (if j.type = e.type then (e.updateWith { j with hops := j.hops + 1 }).2 else e) received :=
  rfl

theorem absorb_mem (received : List Interest) (hd : (types h).Nodup) (he : e ∈ h.interests) :
    absorb e received ∈ (learnAll now received h).interests := by
  induction received generalizing h e with
  | nil => exact he
  | cons j received ih =>
    have hl := learnRemote_learns now { j with hops := j.hops + 1 } h
    rw [absorb_cons]
    split_ifs with htype
    · exact ih (hl.nodup hd) (hl.own hd he htype.symm)
    · exact ih (hl.nodup hd) (hl.other he fun hh => htype hh.symm)

/-- What every update keeps, all of them keep. -/
theorem absorb_invariant (P : Interest → Prop) (hstep : ∀ e j, P e → P (e.updateWith j).2)
    (received : List Interest) (he : P e) : P (absorb e received) := by
  induction received generalizing e with
  | nil => exact he
  | cons j received ih =>
    rw [absorb_cons]
    split_ifs
    · exact ih (hstep e _ he)
    · exact ih he

theorem absorb_type (e : Interest) (received : List Interest) :
    (absorb e received).type = e.type :=
  absorb_invariant (fun x => x.type = e.type) (fun _ _ hx => hx) received rfl

theorem absorb_expiryTime (e : Interest) (received : List Interest) :
    (absorb e received).expiryTime = e.expiryTime :=
  absorb_invariant (fun x => x.expiryTime = e.expiryTime) (fun _ _ hx => hx) received rfl

theorem absorb_ttlMs_le (e : Interest) (received : List Interest) :
    e.ttlMs ≤ (absorb e received).ttlMs := by
  apply absorb_invariant (fun x => e.ttlMs ≤ x.ttlMs) _ received (UInt32.le_refl _)
  intro x j hle
  rw [Interest.updateWith_ttlMs]
  split_ifs with hnewer
  · exact UInt32.le_trans hle (UInt32.le_of_lt hnewer)
  · exact hle

theorem absorb_local (hlocal : e.hops = 0) (received : List Interest) :
    (absorb e received).hops = 0 := by
  apply absorb_invariant (fun x => x.hops = 0) _ received hlocal
  intro x j hx
  have hnot : ¬ j.hops < 0 := UInt8.not_lt.mpr UInt8.zero_le
  rw [Interest.updateWith_hops, hx, if_neg hnot]

/-- The announcement of an interest, among those before and behind it. -/
theorem absorb_split {received : List Interest} {i : Interest} (hi : i ∈ received)
    (htype : i.type = e.type) :
    ∃ (x : Interest) (rest : List Interest),
      absorb e received = absorb (x.updateWith { i with hops := i.hops + 1 }).2 rest := by
  obtain ⟨l, r, rfl⟩ := List.append_of_mem hi
  refine ⟨absorb e l, r, ?_⟩
  have happend : absorb e (l ++ i :: r) = absorb (absorb e l) (i :: r) := List.foldl_append
  rw [happend, absorb_cons, if_pos (htype.trans (absorb_type e l).symm)]

theorem absorb_ttlMs_ge {received : List Interest} {i : Interest} (hi : i ∈ received)
    (htype : i.type = e.type) : i.ttlMs ≤ (absorb e received).ttlMs := by
  obtain ⟨x, rest, heq⟩ := absorb_split hi htype
  rw [heq]
  apply UInt32.le_trans _ (absorb_ttlMs_le _ rest)
  rw [Interest.updateWith_ttlMs]
  split_ifs with hnewer
  · exact UInt32.le_refl _
  · exact UInt32.not_lt.mp hnewer

/-- A hop count that wraps makes the entry one of the node itself. -/
theorem absorb_wrapped {received : List Interest} {i : Interest} (hi : i ∈ received)
    (htype : i.type = e.type) (hhops : i.hops = 255) : (absorb e received).hops = 0 := by
  obtain ⟨x, rest, heq⟩ := absorb_split hi htype
  rw [heq]
  apply absorb_local
  rw [Interest.updateWith_hops, hhops]
  split_ifs with hcloser
  · rfl
  · exact UInt8.le_zero_iff.mp (UInt8.not_lt.mp hcloser)

end Absorbing

section Runs

/-- The largest time to live a message can give, in nanoseconds. -/
def maxTtl : ℤ := (2 ^ 32 - 1) * milli

/-- Types are different, and what is left of the time of an entry fits its field. -/
structure Dated (s : TimePoint × InterestHelper) : Prop where
  nodup : (types s.2).Nodup
  expiry_le : ∀ e ∈ s.2.interests, e.expiryTime ≤ s.1 + maxTtl

/-- The interest in a type is not dropped before `until_`: no call of `announce` is due, or
the entry is the node's own, or it has the time. -/
def Lasts (type : ContentType) (until_ : TimePoint) (h : InterestHelper) : Prop :=
  until_ < h.nextAnnounceTime + milli ∨
    ∃ e ∈ h.interests, e.type = type ∧ e.ttlMs ≠ 0 ∧ (e.hops = 0 ∨ until_ ≤ e.expiryTime)

variable {s s' : TimePoint × InterestHelper} {c : ℕ × Call} {now : TimePoint}

theorem after_ok (hs : after s c = .ok s') :
    s'.1 = s.1 + c.1 ∧ step s.2 (s'.1, c.2) = .ok s'.2 := by
  obtain ⟨h, hstep, rfl⟩ := map_eq_ok hs
  exact ⟨rfl, hstep⟩

theorem after_le (hs : after s c = .ok s') : s.1 ≤ s'.1 := by
  rw [(after_ok hs).1]
  exact le_add_of_nonneg_right (Int.natCast_nonneg _)

theorem ttl_le (ttl : UInt32) : ttl.toNat * milli ≤ maxTtl := by
  have hlt := ttl.toNat_lt
  unfold maxTtl milli
  omega

theorem ttl_nonneg (ttl : UInt32) : 0 ≤ ttl.toNat * milli := by
  unfold milli
  omega

theorem new_expiry_le (now : TimePoint) (type : ContentType) (ttl : UInt32) (hops : UInt8) :
    (Interest.new now type ttl hops).expiryTime ≤ now + maxTtl :=
  add_le_add_right (ttl_le ttl) now

theorem elapse_expiry_le {e : Interest} (he : e.expiryTime ≤ now + maxTtl) :
    (e.elapseTtl now).expiryTime ≤ now + maxTtl := by
  by_cases hlocal : e.hops = 0
  · rw [Interest.elapseTtl_local hlocal]
    exact add_le_add_right (ttl_le _) now
  · rwa [Interest.elapseTtl_expiryTime hlocal]

theorem learnAll_expiry_le {h : InterestHelper} (received : List Interest)
    (hle : ∀ e ∈ h.interests, e.expiryTime ≤ now + maxTtl) :
    ∀ e ∈ (learnAll now received h).interests, e.expiryTime ≤ now + maxTtl := by
  apply learnAll_entries received _ _ (List.nil_subset _) hle
  · intro j _ e _ he
    exact he
  · intro j _ _
    exact new_expiry_le _ _ _ _

theorem after_dated (hdated : Dated s) (hs : after s c = .ok s') : Dated s' := by
  obtain ⟨-, hstep⟩ := after_ok hs
  have hlater : ∀ e ∈ s.2.interests, e.expiryTime ≤ s'.1 + maxTtl := by
    intro e he
    exact (hdated.expiry_le e he).trans (add_le_add_left (after_le hs) _)
  refine ⟨step_nodup hdated.nodup hstep, fun e he => ?_⟩
  obtain ⟨wait, call⟩ := c
  cases call with
  | createLocal type =>
    have hcreated := Except.ok.inj hstep
    rw [← hcreated] at he
    rcases mem_createLocal he with he | rfl
    · exact hlater e he
    · exact new_expiry_le _ _ _ _
  | clearLocal =>
    have hcleared := Except.ok.inj hstep
    rw [← hcleared] at he
    exact hlater e (List.mem_of_mem_filter he)
  | receive msg =>
    obtain ⟨received, -, hlearnt⟩ := step_receive hstep
    rw [hlearnt] at he
    exact learnAll_expiry_le received hlater e he
  | announce fuzz stack =>
    obtain ⟨a, hrun⟩ := step_announce hstep
    obtain ⟨e₀, he₀, rfl | ⟨rfl, -⟩⟩ := mem_announce hrun he
    · exact hlater e he₀
    · exact elapse_expiry_le (hlater e₀ he₀)

/-- A whole number of milliseconds that fits the field. -/
theorem ofInt_ne_zero {left : ℤ} (hone : milli ≤ left) (hfits : left ≤ maxTtl) :
    UInt32.ofInt (left / milli) ≠ 0 := by
  have hpos : 1 ≤ left / milli := by
    apply (Int.le_ediv_iff_mul_le (by decide)).mpr
    rwa [one_mul]
  have hlt : left / milli ≤ 2 ^ 32 - 1 := Int.ediv_le_of_le_mul (by decide) hfits
  intro hzero
  have hnat := congrArg UInt32.toNat hzero
  rw [UInt32.ofInt, UInt32.toNat_ofNat', UInt32.toNat_zero] at hnat
  omega

/-- An entry that lasts is not found expired. -/
theorem not_expired {e : Interest} (httl : e.ttlMs ≠ 0) (hle : e.expiryTime ≤ now + maxTtl)
    (hlast : e.hops = 0 ∨ now + milli ≤ e.expiryTime) : ¬ (e.elapseTtl now).expired := by
  by_cases hlocal : e.hops = 0
  · rw [Interest.elapseTtl_local hlocal]
    simpa [Interest.expired] using httl
  · have htime := hlast.resolve_left hlocal
    have hfuture : ¬ now ≥ e.expiryTime := by
      have hmilli : 0 < milli := by decide
      exact not_le.mpr ((lt_add_of_pos_right now hmilli).trans_le htime)
    unfold Interest.elapseTtl
    rw [if_neg (by simpa [Interest.isLocal] using hlocal), if_neg hfuture]
    simpa [Interest.expired] using
      ofInt_ne_zero (le_sub_iff_add_le'.mpr htime) (sub_le_iff_le_add'.mpr hle)

/-- What `announce` leaves of an entry that lasts. -/
theorem announce_lasts {fuzz : ℕ} {stack : ByteMemory} {h h' : InterestHelper} {a : Announcement}
    {e : Interest} {until_ : TimePoint} (hrun : announce now fuzz stack h = .ok (a, h'))
    (he : e ∈ h.interests) (httl : e.ttlMs ≠ 0) (hle : e.expiryTime ≤ now + maxTtl)
    (hlast : e.hops = 0 ∨ until_ ≤ e.expiryTime) (hbefore : now + milli ≤ until_) :
    ∃ e' ∈ h'.interests, e'.type = e.type ∧ e'.ttlMs ≠ 0 ∧
      (e'.hops = 0 ∨ until_ ≤ e'.expiryTime) := by
  have hlive : ¬ (e.elapseTtl now).expired := not_expired httl hle (hlast.imp_right hbefore.trans)
  rcases announce_keeps hrun he hlive with he' | he'
  · exact ⟨e, he', rfl, httl, hlast⟩
  · refine ⟨_, he', Interest.elapseTtl_type now e, by simpa [Interest.expired] using hlive, ?_⟩
    rw [Interest.elapseTtl_hops]
    by_cases hlocal : e.hops = 0
    · exact .inl hlocal
    · rw [Interest.elapseTtl_expiryTime hlocal]
      exact hlast

theorem announce_early {fuzz : ℕ} {stack : ByteMemory} {h h' : InterestHelper} {a : Announcement}
    {until_ : TimePoint} (hrun : announce now fuzz stack h = .ok (a, h'))
    (hnext : until_ < h.nextAnnounceTime + milli) (hbefore : now + milli ≤ until_) : h' = h := by
  have hearly : now < h.nextAnnounceTime := lt_of_add_lt_add_right (hbefore.trans_lt hnext)
  rcases announce_ok hrun with ⟨-, -, heq⟩ | ⟨hdue, -⟩
  · exact heq
  · exact (not_lt.mpr hdue hearly).elim

/-- Calls of `receive` and `announce` before the end let an interest last. -/
theorem after_lasts {type : ContentType} {until_ : TimePoint} (hdated : Dated s)
    (hlasts : Lasts type until_ s.2) (hexchange : c.2.isExchange) (hs : after s c = .ok s')
    (hbefore : s'.1 + milli ≤ until_) : Lasts type until_ s'.2 := by
  obtain ⟨-, hstep⟩ := after_ok hs
  obtain ⟨wait, call⟩ := c
  cases call with
  | createLocal => cases hexchange
  | clearLocal => cases hexchange
  | receive msg =>
    obtain ⟨received, -, hlearnt⟩ := step_receive hstep
    rw [hlearnt]
    rcases hlasts with hnext | ⟨e, he, rfl, httl, hlast⟩
    · apply Or.inl
      rwa [learnAll_nextAnnounceTime]
    · refine .inr ⟨_, absorb_mem received hdated.nodup he, absorb_type e received, ?_, ?_⟩
      · intro hzero
        have hle := absorb_ttlMs_le e received
        rw [hzero] at hle
        exact httl (UInt32.le_zero_iff.mp hle)
      · rw [absorb_expiryTime]
        exact hlast.imp_left fun hlocal => absorb_local hlocal received
  | announce fuzz stack =>
    obtain ⟨a, hrun⟩ := step_announce hstep
    rcases hlasts with hnext | ⟨e, he, rfl, httl, hlast⟩
    · rw [announce_early hrun hnext hbefore]
      exact .inl hnext
    · have hle := (hdated.expiry_le e he).trans (add_le_add_left (after_le hs) maxTtl)
      exact .inr (announce_lasts hrun he httl hle hlast hbefore)

theorem run_after_le {calls : List (ℕ × Call)} (hr : run after s calls = .ok s') : s.1 ≤ s'.1 :=
  run_invariant (fun t => s.1 ≤ t.1) (fun _ _ _ ht hs => ht.trans (after_le hs)) le_rfl hr

theorem run_lasts {type : ContentType} {until_ : TimePoint} {calls : List (ℕ × Call)}
    (hdated : Dated s) (hlasts : Lasts type until_ s.2) (hexchange : ∀ c ∈ calls, c.2.isExchange)
    (hr : run after s calls = .ok s') (hbefore : s'.1 + milli ≤ until_) :
    Dated s' ∧ Lasts type until_ s'.2 := by
  induction calls generalizing s with
  | nil =>
    obtain rfl := Except.ok.inj hr
    exact ⟨hdated, hlasts⟩
  | cons c calls ih =>
    obtain ⟨s₁, hs, hr₁⟩ := run_cons_eq_ok hr
    rw [List.forall_mem_cons] at hexchange
    have hearlier : s₁.1 + milli ≤ until_ :=
      (add_le_add_left (run_after_le hr₁) milli).trans hbefore
    exact ih (after_dated hdated hs) (after_lasts hdated hlasts hexchange.1 hs hearlier)
      hexchange.2 hr₁

/-- A safe announcement starts the time in which the interest lasts. -/
theorem receive_lasts {wait : ℕ} {msg : InterestAnn} {received : List Interest} {i : Interest}
    (hdated : Dated s) (hsafe : RefreshSafe s (wait, .receive msg))
    (hs : after s (wait, .receive msg) = .ok s') (hmsg : msg.interests = .ok received)
    (hi : i ∈ received) (hknown : s.2.knowRemote i.type) (httl : i.ttlMs ≠ 0) :
    Lasts i.type (s'.1 + i.ttlMs.toNat * milli) s'.2 := by
  obtain ⟨hclock, hstep⟩ := after_ok hs
  obtain ⟨received', hmsg', hlearnt⟩ := step_receive hstep
  obtain rfl := Except.ok.inj (hmsg.symm.trans hmsg')
  obtain ⟨e, he, hremote⟩ := List.any_eq_true.mp hknown
  rw [Bool.and_eq_true, decide_eq_true_eq] at hremote
  obtain ⟨hremote, htype⟩ := hremote
  have hpos : (absorb e received).ttlMs ≠ 0 := by
    intro hzero
    have hle := absorb_ttlMs_ge hi htype.symm
    rw [hzero] at hle
    exact httl (UInt32.le_zero_iff.mp hle)
  have hmem := @absorb_mem s'.1 _ _ received hdated.nodup he
  rw [hlearnt, hclock]
  rw [hclock] at hmem
  rcases hsafe received hmsg i hi e he htype hremote with htime | hzero | hnext | ⟨j, hj, hjtype, hwrap⟩
  · refine .inr ⟨_, hmem, (absorb_type e received).trans htype, hpos, .inr ?_⟩
    rwa [absorb_expiryTime]
  · exact (httl hzero).elim
  · apply Or.inl
    rwa [learnAll_nextAnnounceTime]
  · refine .inr ⟨_, hmem, (absorb_type e received).trans htype, hpos, .inl ?_⟩
    exact absorb_wrapped hj (hjtype.trans htype.symm) hwrap

theorem dated_new (id : NodeId) (start : TimePoint) : Dated (start, new id start) where
  nodup := List.nodup_nil
  expiry_le := by
    intro e he
    cases he

/-- In a run that only has safe announcements, no interest is dropped that was announced
again and still has time. -/
theorem refresh_kept (id : NodeId) (start : TimePoint) (calls : List (ℕ × Call))
    (hsafe : Each after RefreshSafe (start, new id start) calls) : RefreshKept id start calls := by
  intro past wait msg between wait' fuzz stack s s₁ s₂ s₃ hprefix hpast hreceive hbetween hannounce
    hexchange received hmsg i hi hknown hbefore hheld
  obtain ⟨behind, rfl⟩ := hprefix
  have hdated : Dated s := run_invariant Dated (fun _ _ _ ht hs => after_dated ht hs)
    (dated_new id start) hpast
  have hnow : RefreshSafe s (wait, .receive msg) := by
    rw [List.append_assoc, List.append_assoc, each_append] at hsafe
    exact (hsafe.2 s hpast).1
  have hlater : s₁.1 ≤ s₃.1 := (run_after_le hbetween).trans (after_le hannounce)
  have httl : i.ttlMs ≠ 0 := by
    intro hzero
    rw [hzero] at hbefore
    have hmilli : 0 < milli := by decide
    have hend : s₃.1 + milli ≤ s₁.1 := by simpa using hbefore
    exact absurd (hend.trans hlater) (not_le.mpr (lt_add_of_pos_right _ hmilli))
  have hlasts := receive_lasts hdated hnow hreceive hmsg hi hknown httl
  obtain ⟨hdated₂, hlasts₂⟩ := run_lasts (after_dated hdated hreceive) hlasts hexchange hbetween
    ((add_le_add_left (after_le hannounce) milli).trans hbefore)
  obtain ⟨-, hstep⟩ := after_ok hannounce
  obtain ⟨a, hrun⟩ := step_announce hstep
  rcases hlasts₂ with hnext | ⟨e, he, htype, hpos, hlast⟩
  · rwa [announce_early hrun hnext hbefore]
  · have hle := (hdated₂.expiry_le e he).trans (add_le_add_left (after_le hannounce) maxTtl)
    obtain ⟨e', he', htype', -⟩ := announce_lasts hrun he hpos hle hlast hbefore
    rw [← htype, ← htype']
    exact mem_types he'

/-- The announcement of one interest by the node that has it. -/
def annOf (ttlMs : UInt32) : InterestAnn where
  count := 1
  size := 7
  data := (Interest.new 0 ⟨[97]⟩ ttlMs 0).wire
  length_data := by
    rw [Interest.wire_length]
    rfl

/-- An interest announced again after 200 of its 1000 milliseconds, with 700 left. -/
theorem refresh_kept_sample :
    RefreshKept ⟨1⟩ 0 [(0, .receive (annOf 1000)), (200000000, .receive (annOf 700)),
      (600000000, .announce 0 fun _ => 0)] := by
  apply refresh_kept
  constructor
  · intro received _ i _ e he
    cases he
  · intro s hs
    obtain rfl := Except.ok.inj hs
    refine ⟨?_, fun s hs => ⟨trivial, fun _ _ => trivial⟩⟩
    intro received hmsg i hi e he _ _
    obtain rfl := Except.ok.inj hmsg
    obtain rfl := List.mem_singleton.mp hi
    obtain rfl := List.mem_singleton.mp he
    exact .inl (by decide +kernel)

/-- The interest is announced again 100 milliseconds before its end, and dropped although
400 of its milliseconds are left. -/
theorem refreshed_interest_dropped :
    ¬ ∀ (id : NodeId) (start : TimePoint) (calls : List (ℕ × Call)), RefreshKept id start calls := by
  intro hall
  have hkept := hall ⟨1⟩ 0 [(0, .receive (annOf 1000)), (900000000, .receive (annOf 1000)),
    (600000000, .announce 0 fun _ => 0)]
    [(0, .receive (annOf 1000))] 900000000 (annOf 1000) [] 600000000 0 (fun _ => 0) _ _ _ _
    (List.prefix_refl _) rfl rfl rfl rfl (by simp) _ rfl _ List.mem_cons_self
  revert hkept
  decide +kernel

end Runs

end YingSma.InterestHelper
