import YingSma.InterestEntries

/-! How `announce` rotates the deque: the interests it looks at, those it sends and those it
drops, and the order it leaves them in. -/
namespace YingSma.InterestHelper
open SerialFormat TransitionRuns

/-- What a pass of the loop does with the interest in front: its time is up, or it is sent, or
there is no more room for it. -/
inductive Visit
  | dropped (i : Interest)
  | sent (i : Interest)
  | rejected (i : Interest)

def Visit.interest : Visit → Interest
  | .dropped i => i
  | .sent i => i
  | .rejected i => i

/-- The interest sent. -/
def Visit.sent? : Visit → Option Interest
  | .dropped _ => none
  | .sent i => some i
  | .rejected _ => none

/-- The interest taken off the front. -/
def Visit.taken? : Visit → Option Interest
  | .dropped i => some i
  | .sent i => some i
  | .rejected _ => none

/-- The passes of the loop of `announce`. -/
def visits (now : TimePoint) : ℕ → InterestHelper → Packing → List Visit
  | 0, _, _ => []
  | fuel + 1, h, p =>
      if p.count < h.interests.length then
        match h.interests with
        | [] => []
        | front :: rest =>
            let i := front.elapseTtl now
            if i.expired then
              .dropped front ::
                visits now fuel { h with interests := rest, toAnnounce := h.toAnnounce - 1 } p
            else
              match i.writeFields (Out.empty (2 * maxSize - p.size)) with
              | .error _ => []
              | .ok out =>
                  let wrote := out.written.length
                  if p.size + wrote > maxSize then [.rejected front]
                  else
                    let p' := (p.fill out.written).advance wrote
                    .sent front ::
                      if p'.size = maxSize then []
                      else visits now fuel
                        { h with interests := rest ++ [i], toAnnounce := h.toAnnounce - 1 } p'
      else []

/-- The interests a call looks at. One that comes too early looks at none. -/
def lookedAt (now : TimePoint) (stack : ByteMemory) (h : InterestHelper) : List Visit :=
  if now < h.nextAnnounceTime then []
  else visits now h.interests.length h (Packing.start stack)

/-- An interest as it is named in the deque. -/
def entry (i : Interest) : ContentType × UInt8 := (i.type, i.hops)

/-- The interests a call looks at, `looked`, and what it returns and leaves. -/
structure Rotates (now : TimePoint) (h : InterestHelper) (looked : List Visit) (a : Announcement)
    (h' : InterestHelper) : Prop where
  once : looked.map Visit.interest <+: h.interests
  rotated : ∃ unsent, h.interests = looked.filterMap Visit.taken? ++ unsent ∧
    h'.interests.map entry = (unsent ++ looked.filterMap Visit.sent?).map entry
  dropped_iff : ∀ v ∈ looked, v = .dropped v.interest ↔ (v.interest.elapseTtl now).ttlMs = 0
  kept : ∀ i ∈ h.interests, (i.elapseTtl now).ttlMs ≠ 0 → entry i ∈ h'.interests.map entry
  counted : a.count = (looked.filterMap Visit.sent?).length

/-- The loop ends by itself after a pass for each interest at most, and the call returns. -/
def AnnounceRotates (now : TimePoint) (fuzz : ℕ) (stack : ByteMemory) (h : InterestHelper) : Prop :=
  (∀ more, announceLoop now (h.interests.length + more) h (Packing.start stack) =
      announceLoop now h.interests.length h (Packing.start stack) ∧
    visits now (h.interests.length + more) h (Packing.start stack) =
      visits now h.interests.length h (Packing.start stack)) ∧
  ∃ a h', announce now fuzz stack h = .ok (a, h') ∧ Rotates now h (lookedAt now stack h) a h'

/-- No two interests have the same type, and if each fits a message, any call of `announce`
rotates the deque. -/
def RotatesFairly (h : InterestHelper) : Prop :=
  (types h).Nodup ∧ ((∀ i ∈ h.interests, i.wire.length ≤ maxSize) →
    ∀ now fuzz stack, AnnounceRotates now fuzz stack h)

section Passes

variable {now : TimePoint} {rest sent : List Interest} {h : InterestHelper} {p : Packing}

/-- What the loop does with an interest it takes. -/
def judge (now : TimePoint) (i : Interest) : Visit :=
  if (i.elapseTtl now).expired then .dropped i else .sent i

theorem judge_expired {i : Interest} (hexp : (i.elapseTtl now).expired) :
    judge now i = .dropped i := if_pos hexp

theorem judge_live {i : Interest} (hlive : ¬ (i.elapseTtl now).expired) : judge now i = .sent i :=
  if_neg hlive

/-- What the loop looks at behind the interests it takes. -/
inductive LooksOn (now : TimePoint) (untaken : List Interest) : List Visit → Prop
  | nothing : LooksOn now untaken []
  | first {i left} (huntaken : untaken = i :: left) (hlive : ¬ (i.elapseTtl now).expired) :
      LooksOn now untaken [.rejected i]

/-- A longer count of passes changes nothing. -/
theorem announceLoop_enough (more : ℕ) (hinterests : h.interests = rest ++ sent)
    (hcount : p.count = sent.length) :
    announceLoop now (rest.length + more) h p = announceLoop now rest.length h p := by
  induction rest generalizing sent h p with
  | nil =>
    have hdone : ¬ p.count < h.interests.length := by simp [hinterests, hcount]
    cases more with
    | zero => rfl
    | succ more => simp [announceLoop, hdone]
  | cons i rest ih =>
    have hcond := count_lt_length hinterests hcount
    rw [List.length_cons, Nat.add_right_comm]
    simp only [announceLoop, if_pos hcond]
    rw [hinterests]
    dsimp only [List.cons_append]
    by_cases hexp : (i.elapseTtl now).expired
    · rw [if_pos hexp, if_pos hexp]
      exact ih rfl hcount
    · rw [if_neg hexp, if_neg hexp]
      cases (i.elapseTtl now).writeFields (Out.empty (2 * maxSize - p.size)) with
      | error e => rfl
      | ok out =>
        dsimp only
        rw [@ih (sent ++ [i.elapseTtl now]) _ _ (List.append_assoc _ _ _) (by simp [hcount])]

theorem visits_eq (hinterests : h.interests = rest ++ sent) (hcount : p.count = sent.length) :
    ∃ behind, LooksOn now (rest.drop (taken now p.size rest)) behind ∧
      ∀ more, visits now (rest.length + more) h p =
        (rest.take (taken now p.size rest)).map (judge now) ++ behind := by
  induction rest generalizing sent h p with
  | nil =>
    have hdone : ¬ p.count < h.interests.length := by simp [hinterests, hcount]
    refine ⟨[], .nothing, fun more => ?_⟩
    cases more with
    | zero => rfl
    | succ more => simp [visits, hdone, taken]
  | cons i rest ih =>
    have hcond := count_lt_length hinterests hcount
    simp only [List.length_cons, Nat.add_right_comm _ 1, visits, if_pos hcond]
    rw [hinterests]
    dsimp only [List.cons_append]
    cases pass_cases now i p.size with
    | expired hexp =>
      obtain ⟨behind, hbehind, heq⟩ := @ih sent
        { h with interests := rest ++ sent, toAnnounce := h.toAnnounce - 1 } p rfl hcount
      rw [taken_expired hexp]
      refine ⟨behind, hbehind, fun more => ?_⟩
      rw [if_pos hexp, heq, List.take_succ_cons, List.map_cons, judge_expired hexp]
      rfl
    | unwritten hlive hput htoo =>
      rw [taken_rejected hlive htoo]
      refine ⟨[], .nothing, fun more => ?_⟩
      rw [if_neg hlive, hput]
      rfl
    | rejected hlive hput hlength htoo =>
      rw [taken_rejected hlive htoo]
      refine ⟨[.rejected i], .first rfl hlive, fun more => ?_⟩
      rw [if_neg hlive, hput]
      dsimp only
      rw [hlength, if_pos htoo]
      rfl
    | last hlive hput hlength hfull =>
      rw [taken_last hlive hfull]
      refine ⟨[], .nothing, fun more => ?_⟩
      rw [if_neg hlive, hput, List.take_succ_cons, List.map_cons, judge_live hlive]
      dsimp only
      rw [hlength, advance_size, fill_size, if_neg hfull.not_gt, if_pos hfull]
      rfl
    | @sent out hlive hput hlength hroom =>
      obtain ⟨behind, hbehind, heq⟩ := @ih (sent ++ [i.elapseTtl now])
        { h with interests := rest ++ sent ++ [i.elapseTtl now], toAnnounce := h.toAnnounce - 1 }
        ((p.fill out.written).advance out.written.length) (List.append_assoc _ _ _)
        (by simp [hcount])
      rw [advance_size, fill_size, hlength] at hbehind heq
      rw [taken_sent hlive hroom]
      refine ⟨behind, hbehind, fun more => ?_⟩
      rw [if_neg hlive, hput, List.take_succ_cons, List.map_cons, judge_live hlive]
      dsimp only
      rw [hlength, advance_size, fill_size, if_neg hroom.not_gt, if_neg hroom.ne, heq]
      rfl

theorem judge_interest (i : Interest) : (judge now i).interest = i := by
  unfold judge
  split_ifs <;> rfl

theorem judge_taken (i : Interest) : (judge now i).taken? = some i := by
  unfold judge
  split_ifs <;> rfl

theorem judge_dropped_iff (i : Interest) :
    judge now i = .dropped i ↔ (i.elapseTtl now).ttlMs = 0 := by
  unfold judge
  split_ifs with hexp
  · exact iff_of_true rfl (by simpa [Interest.expired] using hexp)
  · exact iff_of_false (by simp) (by simpa [Interest.expired] using hexp)

theorem LooksOn.interest {untaken : List Interest} {behind : List Visit}
    (hb : LooksOn now untaken behind) : behind.map Visit.interest <+: untaken := by
  cases hb with
  | nothing => exact List.nil_prefix
  | @first i left huntaken =>
    rw [huntaken]
    exact ⟨left, rfl⟩

theorem LooksOn.nothing_taken {untaken : List Interest} {behind : List Visit}
    (hb : LooksOn now untaken behind) :
    behind.filterMap Visit.taken? = [] ∧ behind.filterMap Visit.sent? = [] := by
  cases hb <;> exact ⟨rfl, rfl⟩

theorem LooksOn.dropped_iff {untaken : List Interest} {behind : List Visit}
    (hb : LooksOn now untaken behind) :
    ∀ v ∈ behind, v = .dropped v.interest ↔ (v.interest.elapseTtl now).ttlMs = 0 := by
  cases hb with
  | nothing => exact fun v hv => absurd hv List.not_mem_nil
  | first huntaken hlive =>
    intro v hv
    rw [List.mem_singleton.mp hv]
    exact iff_of_false (by simp) (by simpa [Interest.expired, Visit.interest] using hlive)

/-- Those sent, with the time they have left. -/
theorem sent_judged (interests : List Interest) :
    ((interests.map (judge now)).filterMap Visit.sent?).map (Interest.elapseTtl now) =
      live now interests := by
  induction interests with
  | nil => rfl
  | cons i rest ih =>
    rw [List.map_cons, List.filterMap_cons]
    by_cases hexp : (i.elapseTtl now).expired
    · rw [judge_expired hexp, live_cons_expired rest hexp]
      exact ih
    · rw [judge_live hexp, live_cons rest hexp]
      exact congrArg _ ih

theorem taken_judged (interests : List Interest) :
    (interests.map (judge now)).filterMap Visit.taken? = interests := by
  rw [List.filterMap_map, show Visit.taken? ∘ judge now = some from funext judge_taken,
    List.filterMap_some]

theorem judged_interest (interests : List Interest) :
    (interests.map (judge now)).map Visit.interest = interests := by
  rw [List.map_map, show Visit.interest ∘ judge now = fun i => i from funext judge_interest,
    List.map_id']

/-- The passes of a whole call, with at least one for each interest. -/
theorem visits_start (now : TimePoint) (stack : ByteMemory) (h : InterestHelper) :
    ∃ behind, LooksOn now (h.interests.drop (taken now 0 h.interests)) behind ∧
      ∀ more, visits now (h.interests.length + more) h (Packing.start stack) =
        (h.interests.take (taken now 0 h.interests)).map (judge now) ++ behind :=
  @visits_eq now h.interests [] h (Packing.start stack) (List.append_nil _).symm rfl

end Passes

section Announcing

variable {now : TimePoint} {fuzz : ℕ} {stack : ByteMemory} {h h' : InterestHelper}
variable {a : Announcement}

theorem entry_elapseTtl (i : Interest) : entry (i.elapseTtl now) = entry i := by
  rw [entry, Interest.elapseTtl_type, Interest.elapseTtl_hops]
  rfl

theorem entries_elapsed (interests : List Interest) :
    (interests.map (Interest.elapseTtl now)).map entry = interests.map entry := by
  rw [List.map_map, show entry ∘ Interest.elapseTtl now = entry from funext entry_elapseTtl]

theorem Leaves.entries_eq {untaken left : List Interest} (hleft : Leaves now untaken left) :
    left.map entry = untaken.map entry := by
  cases hleft with
  | unseen => rfl
  | rejected huntaken hlive => rw [huntaken, List.map_cons, List.map_cons, entry_elapseTtl]

/-- What is taken and not dropped is behind what is not taken. -/
theorem kept_of_rotated {looked : List Visit} {unsent : List Interest}
    (hsplit : h.interests = looked.filterMap Visit.taken? ++ unsent)
    (hentries : h'.interests.map entry = (unsent ++ looked.filterMap Visit.sent?).map entry)
    (hdropped : ∀ v ∈ looked, v = .dropped v.interest ↔ (v.interest.elapseTtl now).ttlMs = 0) :
    ∀ i ∈ h.interests, (i.elapseTtl now).ttlMs ≠ 0 → entry i ∈ h'.interests.map entry := by
  intro i hi hlive
  rw [hentries]
  apply List.mem_map_of_mem
  rw [hsplit] at hi
  rcases List.mem_append.mp hi with htaken | hunsent
  · obtain ⟨v, hv, hvi⟩ := List.mem_filterMap.mp htaken
    apply List.mem_append_right
    apply List.mem_filterMap.mpr
    refine ⟨v, hv, ?_⟩
    cases v with
    | dropped j =>
      obtain rfl := Option.some.inj hvi
      exact (hlive ((hdropped _ hv).mp rfl)).elim
    | sent j => exact hvi
    | rejected j => cases hvi
  · exact List.mem_append_left _ hunsent

theorem rotates_early (hearly : now < h.nextAnnounceTime) (hcount : a.count = 0) :
    Rotates now h (lookedAt now stack h) a h := by
  rw [lookedAt, if_pos hearly]
  refine ⟨List.nil_prefix, ⟨h.interests, rfl, ?_⟩, fun v hv => absurd hv List.not_mem_nil,
    fun i hi _ => List.mem_map_of_mem hi, hcount⟩
  rw [List.filterMap_nil, List.append_nil]

theorem rotates_due {rotated : InterestHelper} {p : Packing} (hdue : h.nextAnnounceTime ≤ now)
    (hloop : announceLoop now h.interests.length h (Packing.start stack) = .ok (rotated, p))
    (hcount : a.count = p.count) :
    Rotates now h (lookedAt now stack h) a (pace now fuzz rotated) := by
  obtain ⟨left, hleft, hrotated, hp⟩ := announceLoop_start hloop
  obtain ⟨behind, hbehind, hvisits⟩ := visits_start now stack h
  have hlooked : lookedAt now stack h = _ := (if_neg (not_lt.mpr hdue)).trans (hvisits 0)
  generalize taken now 0 h.interests = n at hleft hrotated hp hbehind hlooked
  generalize lookedAt now stack h = looked at hlooked
  have htaken : looked.filterMap Visit.taken? = h.interests.take n := by
    rw [hlooked, List.filterMap_append, hbehind.nothing_taken.1, List.append_nil, taken_judged]
  have hsent : (looked.filterMap Visit.sent?).map (Interest.elapseTtl now) =
      live now (h.interests.take n) := by
    rw [hlooked, List.filterMap_append, hbehind.nothing_taken.2, List.append_nil, sent_judged]
  have hdropped : ∀ v ∈ looked,
      v = .dropped v.interest ↔ (v.interest.elapseTtl now).ttlMs = 0 := by
    intro v hv
    rw [hlooked] at hv
    rcases List.mem_append.mp hv with hv | hv
    · obtain ⟨i, -, rfl⟩ := List.mem_map.mp hv
      rw [judge_interest]
      exact judge_dropped_iff i
    · exact hbehind.dropped_iff v hv
  have hsplit : h.interests = looked.filterMap Visit.taken? ++ h.interests.drop n := by
    rw [htaken, List.take_append_drop]
  have hentries : (pace now fuzz rotated).interests.map entry =
      (h.interests.drop n ++ looked.filterMap Visit.sent?).map entry := by
    rw [pace_interests, hrotated, List.map_append, List.map_append, hleft.entries_eq, ← hsent,
      entries_elapsed]
  refine ⟨?_, ⟨_, hsplit, hentries⟩, hdropped, kept_of_rotated hsplit hentries hdropped, ?_⟩
  · rw [hlooked, List.map_append, judged_interest]
    conv_rhs => rw [← List.take_append_drop n h.interests]
    exact (List.prefix_append_right_inj _).mpr hbehind.interest
  · rw [hcount, hp, ← hsent, List.length_map]

theorem announce_rotates (hrun : announce now fuzz stack h = .ok (a, h')) :
    Rotates now h (lookedAt now stack h) a h' := by
  rcases announce_ok hrun with ⟨hearly, hcount, rfl⟩ | ⟨hdue, rotated, p, hloop, hcount, rfl⟩
  · exact rotates_early hearly hcount
  · exact rotates_due hdue hloop hcount

theorem announce_returns (fuzz : ℕ) (stack : ByteMemory)
    (hwidth : ∀ i ∈ h.interests, i.wire.length ≤ maxSize) :
    ∃ a h', announce now fuzz stack h = .ok (a, h') := by
  rcases lt_or_ge now h.nextAnnounceTime with hearly | hdue
  · exact ⟨_, _, if_pos hearly⟩
  · obtain ⟨a, h', unsent, hrun, -⟩ := announce_due fuzz stack hdue hwidth
    exact ⟨a, h', hrun⟩

theorem visits_enough (more : ℕ) :
    visits now (h.interests.length + more) h (Packing.start stack) =
      visits now h.interests.length h (Packing.start stack) := by
  obtain ⟨behind, -, heq⟩ := visits_start now stack h
  exact (heq more).trans (heq 0).symm

theorem announce_rotatesFairly (hd : (types h).Nodup) : RotatesFairly h := by
  refine ⟨hd, fun hwidth now fuzz stack => ⟨fun more => ⟨?_, visits_enough more⟩, ?_⟩⟩
  · exact @announceLoop_enough now h.interests [] h _ more (List.append_nil _).symm rfl
  · obtain ⟨a, h', hrun⟩ := announce_returns fuzz stack hwidth
    exact ⟨a, h', hrun, announce_rotates hrun⟩

end Announcing

section Runs

/-- In every state of every run, types are different and `announce` takes the interests in
turns. -/
theorem rotates_always (id : NodeId) (start : TimePoint) (calls : List (TimePoint × Call)) :
    Always step RotatesFairly (new id start) calls := by
  apply always_of_run
  intro h past hr
  have hnew : (types (new id start)).Nodup := List.nodup_nil
  exact announce_rotatesFairly
    (run_invariant (fun h => (types h).Nodup) (fun _ _ _ hd hs => step_nodup hd hs) hnew hr)

end Runs

end YingSma.InterestHelper
