import YingSma.InterestAnnounce
import YingSma.TransitionRuns

/-! The loop of `announce` for interests of any width: how many it takes off the front of
the deque, what it does with them, and the runs of the helper. -/
namespace YingSma
open SerialFormat BinaryOutput TransitionRuns

namespace Interest

/-- Whenever an interest is written, its bytes are on the wire. -/
theorem appends (i : Interest) : Appends i.writeFields i.wire := by
  have htype : Appends i.type.writeFields i.type.wire :=
    putAll_appends (.cons (putString_appends i.type.value) .nil)
  have httl : Appends (putUInt32 i.ttlMs) (bigEndian 4 i.ttlMs.toNat) := write_appends _
  have hhops : Appends (putUInt8 i.hops) [i.hops] := append_appends _ _
  exact putAll_appends (.cons htype (.cons httl (.cons hhops .nil)))

theorem written_eq {i : Interest} {capacity : ℕ} {out : Out}
    (h : i.writeFields (Out.empty capacity) = .ok out) : out.written = i.wire :=
  i.appends _ _ h

end Interest

namespace InterestHelper

/-- The number of interests the loop takes off the front, to drop or to send them. It ends
before the first one that does not fit and behind one that fills the message. -/
def taken (now : TimePoint) : ℕ → List Interest → ℕ
  | _, [] => 0
  | size, i :: rest =>
      if (i.elapseTtl now).expired then taken now size rest + 1
      else if size + i.wire.length > maxSize then 0
      else if size + i.wire.length = maxSize then 1
      else taken now (size + i.wire.length) rest + 1

/-- The values of `to_announce` the loop counts down from, one for each interest taken. -/
def countdown (now : TimePoint) : ℕ → InterestHelper → Packing → List UInt64
  | 0, _, _ => []
  | fuel + 1, h, p =>
      if p.count < h.interests.length then
        match h.interests with
        | [] => []
        | front :: rest =>
            let i := front.elapseTtl now
            if i.expired then
              h.toAnnounce ::
                countdown now fuel { h with interests := rest, toAnnounce := h.toAnnounce - 1 } p
            else
              match i.writeFields (Out.empty (2 * maxSize - p.size)) with
              | .error _ => []
              | .ok out =>
                  let wrote := out.written.length
                  if p.size + wrote > maxSize then []
                  else
                    let p' := (p.fill out.written).advance wrote
                    h.toAnnounce ::
                      if p'.size = maxSize then []
                      else countdown now fuel
                        { h with interests := rest ++ [i], toAnnounce := h.toAnnounce - 1 } p'
      else []

/-- What the loop leaves in front of the interests sent: those not taken, the first of which
has had its time brought up to date if it was looked at. -/
inductive Leaves (now : TimePoint) (untaken : List Interest) : List Interest → Prop
  | unseen : Leaves now untaken untaken
  | rejected {i rest} (huntaken : untaken = i :: rest) (hlive : ¬ (i.elapseTtl now).expired) :
      Leaves now untaken (i.elapseTtl now :: rest)

section Loop

variable {now : TimePoint}

theorem taken_le (size : ℕ) (interests : List Interest) :
    taken now size interests ≤ interests.length := by
  induction interests generalizing size with
  | nil => exact le_rfl
  | cons i rest ih =>
    simp only [taken, List.length_cons]
    split_ifs
    · exact Nat.succ_le_succ (ih size)
    · exact Nat.zero_le _
    · exact Nat.succ_le_succ (Nat.zero_le _)
    · exact Nat.succ_le_succ (ih _)

/-- An interest that fits the message is written. -/
theorem writeFields_ok {i : Interest} {size : ℕ} (hfits : size + i.wire.length ≤ maxSize) :
    (i.elapseTtl now).writeFields (Out.empty (2 * maxSize - size)) =
      .ok ⟨2 * maxSize - size, (i.elapseTtl now).wire⟩ := by
  have hlength := Interest.elapseTtl_wire_length now i
  apply (Interest.emits_of_wire (i := i.elapseTtl now) (by omega)).1
  simp only [Out.empty, List.length_nil]
  omega

/-- What the writing of an unexpired interest comes to. -/
theorem writeFields_cases (i : Interest) (size : ℕ) :
    (∃ e, (i.elapseTtl now).writeFields (Out.empty (2 * maxSize - size)) = .error e ∧
      maxSize < size + i.wire.length) ∨
    ∃ out, (i.elapseTtl now).writeFields (Out.empty (2 * maxSize - size)) = .ok out ∧
      out.written.length = i.wire.length := by
  cases hw : (i.elapseTtl now).writeFields (Out.empty (2 * maxSize - size)) with
  | error e =>
    apply Or.inl
    refine ⟨e, rfl, ?_⟩
    by_contra hfits
    rw [writeFields_ok (not_lt.mp hfits)] at hw
    cases hw
  | ok out =>
    apply Or.inr
    refine ⟨out, rfl, ?_⟩
    rw [Interest.written_eq hw, Interest.elapseTtl_wire_length]

/-- What a pass of the loop, `size` bytes into the message, finds of the interest in front: its time
is up, it is not even written, it is written and does not fit, it fills the message, or it leaves
room for others. -/
inductive Pass (now : TimePoint) (i : Interest) (size : ℕ) : Prop
  | expired (hexp : (i.elapseTtl now).expired)
  | unwritten {e} (hlive : ¬ (i.elapseTtl now).expired)
      (hput : (i.elapseTtl now).writeFields (Out.empty (2 * maxSize - size)) = .error e)
      (htoo : size + i.wire.length > maxSize)
  | rejected {out} (hlive : ¬ (i.elapseTtl now).expired)
      (hput : (i.elapseTtl now).writeFields (Out.empty (2 * maxSize - size)) = .ok out)
      (hlength : out.written.length = i.wire.length) (htoo : size + i.wire.length > maxSize)
  | last {out} (hlive : ¬ (i.elapseTtl now).expired)
      (hput : (i.elapseTtl now).writeFields (Out.empty (2 * maxSize - size)) = .ok out)
      (hlength : out.written.length = i.wire.length) (hfull : size + i.wire.length = maxSize)
  | sent {out} (hlive : ¬ (i.elapseTtl now).expired)
      (hput : (i.elapseTtl now).writeFields (Out.empty (2 * maxSize - size)) = .ok out)
      (hlength : out.written.length = i.wire.length) (hroom : size + i.wire.length < maxSize)

theorem pass_cases (now : TimePoint) (i : Interest) (size : ℕ) : Pass now i size := by
  by_cases hexp : (i.elapseTtl now).expired
  · exact .expired hexp
  · rcases writeFields_cases i size with ⟨e, hput, htoo⟩ | ⟨out, hput, hlength⟩
    · exact .unwritten hexp hput htoo
    · rcases lt_trichotomy (size + i.wire.length) maxSize with hroom | hfull | htoo
      · exact .sent hexp hput hlength hroom
      · exact .last hexp hput hlength hfull
      · exact .rejected hexp hput hlength htoo

section Taken

variable {i : Interest} {rest : List Interest} {size : ℕ}

theorem taken_expired (hexp : (i.elapseTtl now).expired) :
    taken now size (i :: rest) = taken now size rest + 1 := if_pos hexp

theorem taken_rejected (hlive : ¬ (i.elapseTtl now).expired)
    (htoo : size + i.wire.length > maxSize) : taken now size (i :: rest) = 0 := by
  rw [taken, if_neg hlive, if_pos htoo]

theorem taken_last (hlive : ¬ (i.elapseTtl now).expired)
    (hfull : size + i.wire.length = maxSize) : taken now size (i :: rest) = 1 := by
  rw [taken, if_neg hlive, if_neg hfull.not_gt, if_pos hfull]

theorem taken_sent (hlive : ¬ (i.elapseTtl now).expired)
    (hroom : size + i.wire.length < maxSize) :
    taken now size (i :: rest) = taken now (size + i.wire.length) rest + 1 := by
  rw [taken, if_neg hlive, if_neg hroom.not_gt, if_neg hroom.ne]

end Taken

/-- The values `t`, `t - 1` and so on, `n` of them. -/
def downFrom (t : UInt64) (n : ℕ) : List UInt64 := (List.range n).map fun k => t - UInt64.ofNat k

theorem downFrom_succ (t : UInt64) (n : ℕ) : downFrom t (n + 1) = t :: downFrom (t - 1) n := by
  unfold downFrom
  rw [List.range_succ_eq_map, List.map_cons, List.map_map]
  congr 1
  · exact (UInt64.sub_zero t).symm ▸ rfl
  · apply List.map_congr_left
    intro k _
    simp only [Function.comp_apply, Nat.succ_eq_add_one, UInt64.ofNat_add]
    grind

theorem downFrom_one (t : UInt64) : [t] = downFrom t 1 := by
  rw [downFrom_succ]
  rfl

theorem sub_ofNat_succ (t : UInt64) (n : ℕ) :
    t - UInt64.ofNat (n + 1) = t - 1 - UInt64.ofNat n := by
  rw [UInt64.ofNat_add]
  grind

section Rotation

variable {rest sent : List Interest} {h : InterestHelper} {p : Packing}

theorem countdown_eq (hinterests : h.interests = rest ++ sent) (hcount : p.count = sent.length) :
    countdown now rest.length h p = downFrom h.toAnnounce (taken now p.size rest) := by
  induction rest generalizing sent h p with
  | nil => rfl
  | cons i rest ih =>
    have hcond := count_lt_length hinterests hcount
    simp only [List.length_cons, countdown, if_pos hcond]
    rw [hinterests]
    dsimp only [List.cons_append]
    cases pass_cases now i p.size with
    | expired hexp =>
      rw [if_pos hexp, taken_expired hexp, downFrom_succ]
      congr 1
      exact ih rfl hcount
    | unwritten hlive hput htoo =>
      rw [if_neg hlive, hput, taken_rejected hlive htoo]
      rfl
    | rejected hlive hput hlength htoo =>
      rw [if_neg hlive, hput, taken_rejected hlive htoo]
      dsimp only
      rw [hlength, if_pos htoo]
      rfl
    | last hlive hput hlength hfull =>
      rw [if_neg hlive, hput, taken_last hlive hfull]
      dsimp only
      rw [hlength, advance_size, fill_size, if_neg hfull.not_gt, if_pos hfull]
      exact downFrom_one _
    | sent hlive hput hlength hroom =>
      rw [if_neg hlive, hput, taken_sent hlive hroom, downFrom_succ]
      dsimp only
      rw [hlength, advance_size, fill_size, if_neg hroom.not_gt, if_neg hroom.ne]
      congr 1
      apply @ih (sent ++ [i.elapseTtl now])
      · exact List.append_assoc _ _ _
      · simp [hcount]

/-- The loop rotates the deque by the interests it takes. -/
theorem announceLoop_ok (hinterests : h.interests = rest ++ sent) (hcount : p.count = sent.length)
    {r : InterestHelper × Packing} (hloop : announceLoop now rest.length h p = .ok r) :
    ∃ left, Leaves now (rest.drop (taken now p.size rest)) left ∧
      r.1 = { h with
        interests := left ++ (sent ++ live now (rest.take (taken now p.size rest)))
        toAnnounce := h.toAnnounce - UInt64.ofNat (taken now p.size rest) } ∧
      r.2.count = sent.length + (live now (rest.take (taken now p.size rest))).length := by
  induction rest generalizing sent h p with
  | nil =>
    obtain rfl := Except.ok.inj hloop
    refine ⟨[], .unseen, ?_, hcount⟩
    have hzero : h.toAnnounce - UInt64.ofNat 0 = h.toAnnounce := UInt64.sub_zero _
    simp only [taken, hzero, List.take_nil, List.nil_append]
    rw [show live now [] = [] from rfl, List.append_nil, ← List.nil_append sent, ← hinterests]
  | cons i rest ih =>
    have hcond := count_lt_length hinterests hcount
    simp only [List.length_cons, announceLoop, if_pos hcond] at hloop
    rw [hinterests] at hloop
    dsimp only [List.cons_append] at hloop
    cases pass_cases now i p.size with
    | expired hexp =>
      rw [if_pos hexp] at hloop
      obtain ⟨left, hleft, hr, hc⟩ := ih rfl hcount hloop
      rw [taken_expired hexp, List.drop_succ_cons, List.take_succ_cons, live_cons_expired _ hexp,
        sub_ofNat_succ]
      exact ⟨left, hleft, hr, hc⟩
    | unwritten hlive hput htoo =>
      rw [if_neg hlive, hput] at hloop
      cases hloop
    | rejected hlive hput hlength htoo =>
      rw [if_neg hlive, hput] at hloop
      dsimp only at hloop
      rw [hlength, if_pos htoo] at hloop
      obtain rfl := Except.ok.inj hloop
      rw [taken_rejected hlive htoo]
      refine ⟨i.elapseTtl now :: rest, .rejected rfl hlive, ?_, hcount⟩
      simp [live]
    | last hlive hput hlength hfull =>
      rw [if_neg hlive, hput] at hloop
      dsimp only at hloop
      rw [hlength, advance_size, fill_size, if_neg hfull.not_gt, if_pos hfull] at hloop
      obtain rfl := Except.ok.inj hloop
      have hone : live now [i] = [i.elapseTtl now] := live_cons [] hlive
      rw [taken_last hlive hfull]
      refine ⟨rest, .unseen, ?_, ?_⟩
      · simp [hone]
      · simp [hone, hcount]
    | sent hlive hput hlength hroom =>
      rw [if_neg hlive, hput] at hloop
      dsimp only at hloop
      rw [hlength, advance_size, fill_size, if_neg hroom.not_gt, if_neg hroom.ne] at hloop
      obtain ⟨left, hleft, hr, hc⟩ := @ih (sent ++ [i.elapseTtl now]) _ _
        (List.append_assoc _ _ _) (by simp [hcount]) hloop
      rw [taken_sent hlive hroom, List.drop_succ_cons, List.take_succ_cons, live_cons _ hlive,
        sub_ofNat_succ]
      refine ⟨left, hleft, ?_, ?_⟩
      · rw [hr]
        simp
      · rw [hc]
        simp only [advance_size, fill_size, List.length_append, List.length_cons, List.length_nil]
        omega

end Rotation

/-- The bytes that the unexpired ones among the interests take. -/
def width (now : TimePoint) (interests : List Interest) : ℕ :=
  ((live now interests).map fun i => i.wire.length).sum

theorem width_cons_expired {i : Interest} (rest : List Interest) (h : (i.elapseTtl now).expired) :
    width now (i :: rest) = width now rest := by
  rw [width, live_cons_expired rest h]
  rfl

theorem width_cons {i : Interest} (rest : List Interest) (h : ¬ (i.elapseTtl now).expired) :
    width now (i :: rest) = i.wire.length + width now rest := by
  rw [width, live_cons rest h, List.map_cons, List.sum_cons, Interest.elapseTtl_wire_length]
  rfl

/-- The loop, `size` bytes into the message, takes no interest after the first `due`: there
is none, or the message is full before it, or it does not fit. -/
def StopsAt (now : TimePoint) (size due : ℕ) (interests : List Interest) : Prop :=
  interests.length ≤ due ∨ maxSize ≤ size + width now (interests.take due) ∨
    ∃ i, interests[due]? = some i ∧ ¬ (i.elapseTtl now).expired ∧
      maxSize < size + width now (interests.take due) + i.wire.length

theorem taken_le_iff {size : ℕ} (hsize : size < maxSize) (due : ℕ) (interests : List Interest) :
    taken now size interests ≤ due ↔ StopsAt now size due interests := by
  induction interests generalizing size due with
  | nil => exact iff_of_true (Nat.zero_le _) (.inl (Nat.zero_le _))
  | cons i rest ih =>
    unfold taken StopsAt
    cases due with
    | zero =>
      have hnothing : width now [] = 0 := rfl
      simp only [List.take_zero, hnothing, List.length_cons, List.getElem?_cons_zero,
        Option.some.injEq, exists_eq_left']
      by_cases hexp : (i.elapseTtl now).expired
      · simp [hexp, hsize]
      · rw [if_neg hexp]
        split_ifs with htoo hfull
        · exact iff_of_true le_rfl (.inr (.inr ⟨hexp, htoo⟩))
        · simp [hexp, hsize, htoo]
        · simp [hexp, hsize, htoo]
    | succ due =>
      simp only [List.take_succ_cons, List.length_cons, List.getElem?_cons_succ,
        Nat.add_le_add_iff_right]
      by_cases hexp : (i.elapseTtl now).expired
      · rw [if_pos hexp, width_cons_expired _ hexp, Nat.add_le_add_iff_right]
        exact ih hsize due
      · rw [if_neg hexp, width_cons _ hexp, ← Nat.add_assoc]
        split_ifs with htoo hfull
        · exact iff_of_true (Nat.zero_le _) (.inr (.inl (by omega)))
        · exact iff_of_true (Nat.le_add_left _ _) (.inr (.inl (by omega)))
        · rw [Nat.add_le_add_iff_right]
          exact ih (by omega) due

end Loop

section Announcing

/-- The pacing at the end of `announce`. -/
def pace (now : TimePoint) (fuzz : ℕ) (h : InterestHelper) : InterestHelper :=
  if h.toAnnounce = 0 then
    { h with
      toAnnounce := UInt64.ofNat h.interests.length
      nextAnnounceTime := now + minAnnounceInterval + fuzz * milli }
  else h

@[simp] theorem pace_interests (now : TimePoint) (fuzz : ℕ) (h : InterestHelper) :
    (pace now fuzz h).interests = h.interests := by
  unfold pace
  split_ifs <;> rfl

variable {now : TimePoint} {fuzz : ℕ} {stack : ByteMemory} {h h' : InterestHelper}
variable {a : Announcement}

/-- The loop of a call that returns. -/
theorem announce_ok (hrun : announce now fuzz stack h = .ok (a, h')) :
    (now < h.nextAnnounceTime ∧ a.count = 0 ∧ h' = h) ∨
      (h.nextAnnounceTime ≤ now ∧ ∃ rotated p,
        announceLoop now h.interests.length h (Packing.start stack) = .ok (rotated, p) ∧
        a.count = p.count ∧ h' = pace now fuzz rotated) := by
  unfold announce at hrun
  rcases lt_or_ge now h.nextAnnounceTime with hearly | hdue
  · rw [if_pos hearly] at hrun
    obtain ⟨rfl, rfl⟩ := Prod.mk.inj (Except.ok.inj hrun)
    exact .inl ⟨hearly, rfl, rfl⟩
  · rw [if_neg (not_lt.mpr hdue)] at hrun
    apply Or.inr
    refine ⟨hdue, ?_⟩
    cases hloop : announceLoop now h.interests.length h (Packing.start stack) with
    | error e =>
      rw [hloop] at hrun
      cases hrun
    | ok r =>
      rw [hloop] at hrun
      refine ⟨r.1, r.2, rfl, ?_⟩
      by_cases hsent : r.2.count ≠ 0
      · dsimp only at hrun
        rw [if_pos hsent] at hrun
        cases hpost : MessageBuffer.replace bufferSize now ⟨h.id, []⟩
          (.interestAnn (InterestAnn.ofBuffer r.2.count r.2.dataBuf r.2.size)) with
        | error e =>
          rw [hpost] at hrun
          cases hrun
        | ok packet =>
          rw [hpost] at hrun
          obtain ⟨rfl, rfl⟩ := Prod.mk.inj (Except.ok.inj hrun)
          exact ⟨rfl, rfl⟩
      · dsimp only at hrun
        rw [if_neg hsent] at hrun
        obtain ⟨rfl, rfl⟩ := Prod.mk.inj (Except.ok.inj hrun)
        exact ⟨(not_not.mp hsent).symm, rfl⟩

/-- The whole loop, from the empty message on. -/
theorem announceLoop_start {rotated : InterestHelper} {p : Packing}
    (hloop : announceLoop now h.interests.length h (Packing.start stack) = .ok (rotated, p)) :
    ∃ left, Leaves now (h.interests.drop (taken now 0 h.interests)) left ∧
      rotated = { h with
        interests := left ++ live now (h.interests.take (taken now 0 h.interests))
        toAnnounce := h.toAnnounce - UInt64.ofNat (taken now 0 h.interests) } ∧
      p.count = (live now (h.interests.take (taken now 0 h.interests))).length := by
  obtain ⟨left, hleft, hr, hc⟩ := @announceLoop_ok now h.interests [] h _
    (List.append_nil _).symm rfl _ hloop
  refine ⟨left, hleft, hr, ?_⟩
  rw [hc]
  exact Nat.zero_add _

theorem Leaves.length_eq {untaken left : List Interest} (hleft : Leaves now untaken left) :
    left.length = untaken.length := by
  cases hleft with
  | unseen => rfl
  | rejected huntaken hlive => simp [huntaken]

theorem live_length_le (interests : List Interest) :
    (live now interests).length ≤ interests.length := by
  unfold live
  exact (List.length_filter_le _ _).trans_eq (List.length_map _)

end Announcing

section Calls

/-- The calls a node makes of its helper, the vector of types of one `create_local` taken
one by one. -/
inductive Call
  | createLocal (type : ContentType)
  | clearLocal
  | receive (msg : InterestAnn)
  | announce (fuzz : ℕ) (stack : ByteMemory)

/-- A call at the time `c.1`. -/
def step (h : InterestHelper) (c : TimePoint × Call) : Except Fault InterestHelper :=
  match c.2 with
  | .createLocal type => .ok (createLocal c.1 type h)
  | .clearLocal => .ok (clearLocal h)
  | .receive msg => receive c.1 msg h
  | .announce fuzz stack => (announce c.1 fuzz stack h).map Prod.snd

variable {h h' : InterestHelper}

/-- The loop of `receive` after the decoding. -/
def learnAll (now : TimePoint) (received : List Interest) (h : InterestHelper) : InterestHelper :=
  received.foldl (fun h i => learnRemote now { i with hops := i.hops + 1 } h) h

theorem step_receive {now : TimePoint} {msg : InterestAnn}
    (hstep : step h (now, .receive msg) = .ok h') :
    ∃ received, msg.interests = .ok received ∧ h' = learnAll now received h := by
  obtain ⟨received, hmsg, heq⟩ := map_eq_ok hstep
  exact ⟨received, hmsg, heq.symm⟩

theorem step_announce {now : TimePoint} {fuzz : ℕ} {stack : ByteMemory}
    (hstep : step h (now, .announce fuzz stack) = .ok h') :
    ∃ a, announce now fuzz stack h = .ok (a, h') := by
  exact map_snd_ok hstep

end Calls

end InterestHelper

end YingSma
