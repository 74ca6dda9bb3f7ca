import YingSma.InterestHelper

/-! What `announce` packs and what `receive` reads of it. The write pointer is moved by
the total size instead of the last one, which is right for two interests only. -/
namespace YingSma
open SerialFormat

namespace Interest

theorem wire_length (i : Interest) : i.wire.length = i.type.wire.length + 5 := by
  simp [wire]

theorem emits_of_wire {i : Interest} (h : i.wire.length ≤ InterestHelper.maxSize) :
    Emits i.writeFields i.wire ∧ Parses read i.wire { i with expiryTime := 0 } := by
  have hlen : i.type.value.length ≤ maxString := by
    have htype : i.type.value.length ≤ i.type.wire.length := by
      simp [ContentType.wire, wireString]
    rw [wire_length] at h
    unfold InterestHelper.maxSize at h
    unfold maxString
    omega
  exact ⟨emits hlen, parses hlen⟩

@[simp] theorem elapseTtl_type (now : TimePoint) (i : Interest) :
    (i.elapseTtl now).type = i.type := by
  unfold elapseTtl
  split_ifs <;> rfl

/-- The time left changes the interest's bytes, but not their number. -/
theorem elapseTtl_wire_length (now : TimePoint) (i : Interest) :
    (i.elapseTtl now).wire.length = i.wire.length := by
  rw [wire_length, wire_length, elapseTtl_type]

end Interest

namespace InterestHelper

/-- The interests `announce` can send, with the time they have left. -/
def live (now : TimePoint) (interests : List Interest) : List Interest :=
  (interests.map (Interest.elapseTtl now)).filter fun i => !i.expired

/-- The passes of the loop over unexpired interests, and the interests sent. -/
def pack : List Interest → Packing → Packing × List Interest
  | [], p => (p, [])
  | i :: rest, p =>
      if p.size + i.wire.length > maxSize then (p.fill i.wire, [])
      else
        let p' := (p.fill i.wire).advance i.wire.length
        if p'.size = maxSize then (p', [i]) else ((pack rest p').1, i :: (pack rest p').2)

section Loop

variable {now : TimePoint}

theorem live_cons_expired {i : Interest} (rest : List Interest)
    (h : (i.elapseTtl now).expired = true) : live now (i :: rest) = live now rest := by
  simp [live, h]

theorem live_cons {i : Interest} (rest : List Interest) (h : (i.elapseTtl now).expired ≠ true) :
    live now (i :: rest) = i.elapseTtl now :: live now rest := by
  simp [live, h]

/-- With an interest left in front, the loop goes on. -/
theorem count_lt_length {i : Interest} {rest sent : List Interest} {h : InterestHelper} {p : Packing}
    (hinterests : h.interests = i :: rest ++ sent) (hcount : p.count = sent.length) :
    p.count < h.interests.length := by
  rw [hinterests, hcount]
  simp only [List.length_append, List.length_cons]
  omega

/-- The loop rotates the deque: what it has sent is behind the interests it has not. -/
theorem announceLoop_pack {rest sent : List Interest} {h : InterestHelper} {p : Packing}
    (hinterests : h.interests = rest ++ sent) (hcount : p.count = sent.length)
    (hsize : p.size ≤ maxSize) (hwidth : ∀ i ∈ rest, i.wire.length ≤ maxSize) :
    ∃ unsent toAnnounce, announceLoop now rest.length h p =
      .ok ({ h with
        interests := unsent ++ (sent ++ (pack (live now rest) p).2)
        toAnnounce := toAnnounce }, (pack (live now rest) p).1) := by
  induction rest generalizing sent h p with
  | nil =>
    refine ⟨[], h.toAnnounce, ?_⟩
    rw [List.nil_append] at hinterests
    simp [announceLoop, live, pack, ← hinterests]
  | cons i rest ih =>
    rw [List.forall_mem_cons] at hwidth
    have hcond := count_lt_length hinterests hcount
    simp only [List.length_cons, announceLoop, if_pos hcond]
    rw [hinterests]
    dsimp only [List.cons_append]
    split_ifs with hexp
    · rw [live_cons_expired rest hexp]
      exact ih rfl hcount hsize hwidth.2
    · rw [live_cons rest hexp]
      have hw : (i.elapseTtl now).wire.length ≤ maxSize := by
        rw [Interest.elapseTtl_wire_length]
        exact hwidth.1
      have hput : (i.elapseTtl now).writeFields (Out.empty (2 * maxSize - p.size)) =
          .ok ⟨2 * maxSize - p.size, (i.elapseTtl now).wire⟩ :=
        (Interest.emits_of_wire hw).1 _ (by simp only [Out.empty, List.length_nil]; omega)
      rw [hput]
      simp only [pack]
      split_ifs with hfull hmax
      · exact ⟨i.elapseTtl now :: rest, h.toAnnounce, by simp⟩
      · exact ⟨rest, h.toAnnounce - 1, by simp⟩
      · have hrotated : rest ++ sent ++ [i.elapseTtl now] = rest ++ (sent ++ [i.elapseTtl now]) :=
          List.append_assoc _ _ _
        obtain ⟨unsent, toAnnounce, hloop⟩ := @ih (sent ++ [i.elapseTtl now])
          { h with interests := rest ++ sent ++ [i.elapseTtl now], toAnnounce := h.toAnnounce - 1 }
          ((p.fill (i.elapseTtl now).wire).advance (i.elapseTtl now).wire.length) hrotated
          (by simp [Packing.advance, Packing.fill, hcount])
          (by simp only [Packing.advance, Packing.fill]; omega) hwidth.2
        exact ⟨unsent, toAnnounce, by rw [hloop]; simp⟩

end Loop

section Packing

variable {live : List Interest} {p : Packing}

@[simp] theorem fill_size (p : Packing) (bytes : List UInt8) : (p.fill bytes).size = p.size := rfl

@[simp] theorem fill_count (p : Packing) (bytes : List UInt8) : (p.fill bytes).count = p.count := rfl

@[simp] theorem fill_fills (p : Packing) (bytes : List UInt8) :
    (p.fill bytes).fills = p.fills ++ [(p.data, bytes.length)] := rfl

@[simp] theorem advance_size (p : Packing) (wrote : ℕ) :
    (p.advance wrote).size = p.size + wrote := rfl

@[simp] theorem advance_count (p : Packing) (wrote : ℕ) :
    (p.advance wrote).count = p.count + 1 := rfl

@[simp] theorem advance_fills (p : Packing) (wrote : ℕ) : (p.advance wrote).fills = p.fills := rfl

theorem pack_size_le (hsize : p.size ≤ maxSize) : (pack live p).1.size ≤ maxSize := by
  induction live generalizing p with
  | nil => exact hsize
  | cons i rest ih =>
    simp only [pack]
    split_ifs with hfull hmax
    · exact hsize
    · exact hmax.le
    · exact ih (by simpa using hfull)

theorem pack_count : (pack live p).1.count = p.count + (pack live p).2.length := by
  induction live generalizing p with
  | nil => rfl
  | cons i rest ih =>
    simp only [pack]
    split_ifs
    · rfl
    · rfl
    · rw [ih, List.length_cons, advance_count, fill_count]
      omega

/-- The loop only adds to the writes. -/
theorem pack_fills_prefix : p.fills <+: (pack live p).1.fills := by
  induction live generalizing p with
  | nil => exact List.prefix_rfl
  | cons i rest ih =>
    have hfill : p.fills <+: (p.fill i.wire).fills := List.prefix_append _ _
    simp only [pack]
    split_ifs
    · exact hfill
    · exact hfill
    · exact hfill.trans (@ih ((p.fill i.wire).advance i.wire.length))

theorem mem_take_of_prefix {fills all : List (ℕ × ℕ)} (h : fills <+: all) {n : ℕ}
    (hn : fills.length ≤ n) {f : ℕ × ℕ} (hf : f ∈ fills) : f ∈ all.take n := by
  obtain ⟨rest, rfl⟩ := h
  rw [List.take_append]
  exact List.mem_append.mpr (.inl (by rwa [List.take_of_length_le hn]))

theorem pack_size_of_unsent (h : (pack live p).2 = []) : (pack live p).1.size = p.size := by
  cases live with
  | nil => rfl
  | cons i rest =>
    simp only [pack] at h ⊢
    split_ifs at h ⊢
    rfl

/-- Once the pointer is ahead of the total size, the last interest that is accepted ends
behind what is going to be sent. -/
theorem pack_overrun (hahead : p.size < p.data) (hsent : (pack live p).2 ≠ []) :
    ∃ f ∈ (pack live p).1.fills.take (p.fills.length + (pack live p).2.length),
      (pack live p).1.size < f.1 + f.2 := by
  induction live generalizing p with
  | nil => exact (hsent rfl).elim
  | cons i rest ih =>
    simp only [pack] at hsent ⊢
    split_ifs at hsent ⊢ with hfull hmax
    · exact (hsent rfl).elim
    · refine ⟨(p.data, i.wire.length), ?_, ?_⟩
      · exact mem_take_of_prefix List.prefix_rfl (by simp) (by simp)
      · simp only [advance_size, fill_size]
        omega
    · set p' := (p.fill i.wire).advance i.wire.length with hp'
      have hsize : p'.size = p.size + i.wire.length := rfl
      have hdata : p'.data = p.data + (p.size + i.wire.length) := rfl
      have hlen : p'.fills.length = p.fills.length + 1 := by simp [hp']
      by_cases hmore : (pack rest p').2 = []
      · -- The interest at hand is the last one.
        refine ⟨(p.data, i.wire.length), ?_, ?_⟩
        · exact mem_take_of_prefix pack_fills_prefix (by simp [hlen, hmore]) (by simp [hp'])
        · rw [pack_size_of_unsent hmore, hsize]
          omega
      · obtain ⟨f, hf, hend⟩ := ih (by omega) hmore
        refine ⟨f, ?_, hend⟩
        rwa [hlen, Nat.add_assoc, Nat.add_comm 1] at hf

theorem pack_reject {i : Interest} (rest : List Interest) (h : maxSize < p.size + i.wire.length) :
    pack (i :: rest) p = (p.fill i.wire, []) := by
  simp [pack, h]

theorem pack_last {i : Interest} (rest : List Interest) (h : p.size + i.wire.length = maxSize) :
    pack (i :: rest) p = ((p.fill i.wire).advance i.wire.length, [i]) := by
  simp [pack, h]

theorem pack_accept {i : Interest} (rest : List Interest) (h : p.size + i.wire.length < maxSize) :
    pack (i :: rest) p =
      ((pack rest ((p.fill i.wire).advance i.wire.length)).1,
        i :: (pack rest ((p.fill i.wire).advance i.wire.length)).2) := by
  simp [pack, h.ne, h.le.not_gt]

/-- The first `size` bytes of the buffer are those of the interests sent so far. -/
structure Carried (p : Packing) (sent : List Interest) : Prop where
  size_eq : p.size = (sent.map fun i => i.wire.length).sum
  read_eq : p.dataBuf.read 0 p.size = sent.flatMap Interest.wire

theorem carried_start (stack : ByteMemory) : Carried (Packing.start stack) [] := ⟨rfl, rfl⟩

/-- Behind the total size a write does no harm. -/
theorem Carried.fill {sent : List Interest} (h : Carried p sent) (hbehind : p.size ≤ p.data)
    (bytes : List UInt8) : Carried (p.fill bytes) sent := by
  refine ⟨h.size_eq, ?_⟩
  rw [← h.read_eq]
  exact ByteMemory.read_write_of_le _ (by rwa [Nat.zero_add]) _

/-- An interest written right at the total size is carried too. -/
theorem Carried.accept {sent : List Interest} (h : Carried p sent) (hstep : p.data = p.size)
    (i : Interest) : Carried ((p.fill i.wire).advance i.wire.length) (sent ++ [i]) := by
  have hfill := h.fill hstep.ge i.wire
  refine ⟨by simp [h.size_eq], ?_⟩
  have hread : (p.fill i.wire).dataBuf.read p.size i.wire.length = i.wire := by
    rw [← hstep]
    exact ByteMemory.read_write _ _ _
  have hadd := (p.fill i.wire).dataBuf.read_add 0 p.size i.wire.length
  rw [Nat.zero_add, hread, ← fill_size p i.wire, hfill.read_eq] at hadd
  exact hadd.trans (by simp)

end Packing

section Cases

/-- Every write ends at or before `bound`. -/
def Inside (bound : ℕ) (fills : List (ℕ × ℕ)) : Prop := ∀ f ∈ fills, f.1 + f.2 ≤ bound

/-- The buffer has room for the writes, and the message for those of the interests sent. -/
@[mk_iff] structure Contained (r : Packing × List Interest) : Prop where
  in_buffer : Inside (2 * maxSize) r.1.fills
  in_message : Inside r.1.size (r.1.fills.take r.2.length)

/-- The third interest, if the loop gets to it, is not sent and still fits the buffer
at its place, which is `w a` behind the first two. -/
def PointerInStep : List Interest → Prop
  | a :: b :: c :: _ =>
      maxSize ≤ a.wire.length + b.wire.length ∨
        (maxSize < a.wire.length + b.wire.length + c.wire.length ∧
          2 * a.wire.length + b.wire.length + c.wire.length ≤ 2 * maxSize)
  | _ => True

/-- No interest is written without being sent, and no third one is sent. -/
def NothingBehind : List Interest → Prop
  | [] => True
  | [_] => True
  | [a, b] => a.wire.length = maxSize ∨ a.wire.length + b.wire.length ≤ maxSize
  | a :: b :: _ :: _ => a.wire.length = maxSize ∨ a.wire.length + b.wire.length = maxSize

theorem not_contained_of_overrun {r : Packing × List Interest}
    (h : ∃ f ∈ r.1.fills.take r.2.length, r.1.size < f.1 + f.2) : ¬ Contained r := by
  obtain ⟨f, hf, hend⟩ := h
  exact fun hc => (hc.in_message f hf).not_gt hend

variable (stack : ByteMemory)

/-- The state after one interest and after two. -/
def afterOne (a : Interest) : Packing :=
  ((Packing.start stack).fill a.wire).advance a.wire.length

def afterTwo (a b : Interest) : Packing :=
  ((afterOne stack a).fill b.wire).advance b.wire.length

theorem afterOne_carried (a : Interest) : Carried (afterOne stack a) [a] :=
  (carried_start stack).accept rfl a

theorem afterOne_eq (a : Interest) :
    (afterOne stack a).size = a.wire.length ∧ (afterOne stack a).data = a.wire.length ∧
      (afterOne stack a).fills = [(0, a.wire.length)] := by
  simp [afterOne, Packing.start, Packing.fill, Packing.advance]

theorem afterTwo_carried (a b : Interest) : Carried (afterTwo stack a b) [a, b] :=
  (afterOne_carried stack a).accept
    ((afterOne_eq stack a).2.1.trans (afterOne_eq stack a).1.symm) b

theorem afterTwo_eq (a b : Interest) :
    (afterTwo stack a b).size = a.wire.length + b.wire.length ∧
      (afterTwo stack a b).data = 2 * a.wire.length + b.wire.length ∧
      (afterTwo stack a b).fills = [(0, a.wire.length), (a.wire.length, b.wire.length)] := by
  obtain ⟨hsize, hdata, hfills⟩ := afterOne_eq stack a
  simp only [afterTwo, Packing.fill, Packing.advance, hsize, hdata, hfills, List.cons_append,
    List.nil_append, and_true, true_and]
  omega

/-- The ways the loop ends: each constructor names the last interest looked at. -/
inductive Ends : List Interest → Packing × List Interest → Prop
  | nothing : Ends [] (Packing.start stack, [])
  | one {a : Interest} {rest : List Interest} (hle : a.wire.length ≤ maxSize)
      (hlast : rest = [] ∨ a.wire.length = maxSize) : Ends (a :: rest) (afterOne stack a, [a])
  | secondRejected {a b : Interest} {rest : List Interest} (hle : b.wire.length ≤ maxSize)
      (hone : a.wire.length < maxSize) (hfull : maxSize < a.wire.length + b.wire.length) :
      Ends (a :: b :: rest) ((afterOne stack a).fill b.wire, [a])
  | two {a b : Interest} {rest : List Interest} (hone : a.wire.length < maxSize)
      (hle : a.wire.length + b.wire.length ≤ maxSize)
      (hlast : rest = [] ∨ a.wire.length + b.wire.length = maxSize) :
      Ends (a :: b :: rest) (afterTwo stack a b, [a, b])
  | thirdRejected {a b c : Interest} {rest : List Interest}
      (htwo : a.wire.length + b.wire.length < maxSize)
      (hfull : maxSize < a.wire.length + b.wire.length + c.wire.length) :
      Ends (a :: b :: c :: rest) ((afterTwo stack a b).fill c.wire, [a, b])
  | thirdSent {a b c : Interest} {rest : List Interest} {r : Packing × List Interest}
      (htwo : a.wire.length + b.wire.length < maxSize)
      (hle : a.wire.length + b.wire.length + c.wire.length ≤ maxSize)
      (hoverrun : ∃ f ∈ r.1.fills.take r.2.length, r.1.size < f.1 + f.2) :
      Ends (a :: b :: c :: rest) r

theorem wire_pos (i : Interest) : 0 < i.wire.length := by
  rw [i.wire_length]
  omega

theorem pack_afterTwo_overrun {a b c : Interest} (rest : List Interest)
    (hle : a.wire.length + b.wire.length + c.wire.length ≤ maxSize) :
    ∃ f ∈ (pack (c :: rest) (afterTwo stack a b)).1.fills.take
        ((pack (c :: rest) (afterTwo stack a b)).2.length + 2),
      (pack (c :: rest) (afterTwo stack a b)).1.size < f.1 + f.2 := by
  obtain ⟨hsize, hdata, hfills⟩ := afterTwo_eq stack a b
  have hpos := wire_pos a
  have hsent : (pack (c :: rest) (afterTwo stack a b)).2 ≠ [] := by
    rcases hle.lt_or_eq with h | h
    · rw [pack_accept rest (by omega)]
      exact List.cons_ne_nil _ _
    · rw [pack_last rest (by omega)]
      exact List.cons_ne_nil _ _
  have hover := @pack_overrun (c :: rest) (afterTwo stack a b) (by omega) hsent
  rwa [hfills, List.length_cons, List.length_singleton, Nat.add_comm] at hover

theorem pack_ends {live : List Interest} (hwidth : ∀ i ∈ live, i.wire.length ≤ maxSize) :
    Ends stack live (pack live (Packing.start stack)) := by
  match live with
  | [] => exact .nothing
  | a :: rest =>
    rw [List.forall_mem_cons] at hwidth
    obtain ⟨hwa, hrest⟩ := hwidth
    have hone := afterOne_eq stack a
    rcases hwa.lt_or_eq with hlt | heq
    · rw [pack_accept rest (by simpa [Packing.start] using hlt)]
      change Ends stack (a :: rest) ((pack rest (afterOne stack a)).1, a :: (pack rest (afterOne stack a)).2)
      match rest with
      | [] => exact .one hwa (.inl rfl)
      | b :: rest =>
        rw [List.forall_mem_cons] at hrest
        obtain ⟨hwb, -⟩ := hrest
        rcases lt_trichotomy (a.wire.length + b.wire.length) maxSize with hlt' | heq' | hgt'
        · rw [pack_accept rest (by omega)]
          change Ends stack (a :: b :: rest) ((pack rest (afterTwo stack a b)).1,
            a :: b :: (pack rest (afterTwo stack a b)).2)
          have htwo := afterTwo_eq stack a b
          match rest with
          | [] => exact .two hlt hlt'.le (.inl rfl)
          | c :: rest =>
            by_cases hfull : maxSize < a.wire.length + b.wire.length + c.wire.length
            · rw [pack_reject rest (by omega)]
              exact .thirdRejected hlt' hfull
            · exact .thirdSent hlt' (not_lt.mp hfull) (pack_afterTwo_overrun stack rest (not_lt.mp hfull))
        · rw [pack_last rest (by omega)]
          exact .two hlt heq'.le (.inr heq')
        · rw [pack_reject rest (by omega)]
          exact .secondRejected hwb hlt hgt'
    · rw [pack_last rest (by simpa [Packing.start] using heq)]
      exact .one hwa (.inr heq)

variable {stack} {live : List Interest} {r : Packing × List Interest}

theorem pointerInStep_of_one {a : Interest} {rest : List Interest}
    (hlast : rest = [] ∨ a.wire.length = maxSize) : PointerInStep (a :: rest) := by
  match rest with
  | [] => trivial
  | [_] => trivial
  | b :: c :: rest =>
    have hfull := hlast.resolve_left (List.cons_ne_nil _ _)
    exact .inl (by omega)

theorem pointerInStep_of_two {a b : Interest} {rest : List Interest}
    (hlast : rest = [] ∨ maxSize ≤ a.wire.length + b.wire.length) :
    PointerInStep (a :: b :: rest) := by
  match rest with
  | [] => trivial
  | c :: rest => exact .inl (hlast.resolve_left (List.cons_ne_nil _ _))

/-- The message carries its interests' bytes unless a third interest is sent, or written
where the buffer has ended. -/
theorem Ends.contained_iff (h : Ends stack live r) : Contained r ↔ PointerInStep live := by
  cases h with
  | nothing => simp [contained_iff, Inside, PointerInStep, Packing.start]
  | @one a rest hle hlast =>
    obtain ⟨hsize, -, hfills⟩ := afterOne_eq stack a
    refine iff_of_true ⟨?_, ?_⟩ (pointerInStep_of_one hlast)
    · simp [Inside, hfills]
      omega
    · simp [Inside, hfills, hsize]
  | @secondRejected a b rest hle hone hfull =>
    obtain ⟨hsize, hdata, hfills⟩ := afterOne_eq stack a
    refine iff_of_true ⟨?_, ?_⟩ (pointerInStep_of_two (.inr hfull.le))
    · simp [Inside, hfills, hdata]
      omega
    · simp [Inside, hfills, hsize]
  | @two a b rest hone hle hlast =>
    obtain ⟨hsize, hdata, hfills⟩ := afterTwo_eq stack a b
    refine iff_of_true ⟨?_, ?_⟩ (pointerInStep_of_two (hlast.imp_right Eq.ge))
    · simp [Inside, hfills]
      omega
    · simp [Inside, hfills, hsize]
  | @thirdRejected a b c rest htwo hfull =>
    obtain ⟨hsize, hdata, hfills⟩ := afterTwo_eq stack a b
    simp [contained_iff, Inside, hfills, hsize, hdata, PointerInStep]
    omega
  | @thirdSent a b c rest r htwo hle hoverrun =>
    apply iff_of_false (not_contained_of_overrun hoverrun)
    simp only [PointerInStep]
    omega

theorem Ends.strict_iff (h : Ends stack live r) :
    Contained r ∧ Inside r.1.size r.1.fills ↔ NothingBehind live := by
  rw [h.contained_iff]
  cases h with
  | nothing => simp [Inside, PointerInStep, NothingBehind, Packing.start]
  | @one a rest hle hlast =>
    obtain ⟨hsize, -, hfills⟩ := afterOne_eq stack a
    apply iff_of_true ⟨pointerInStep_of_one hlast, by simp [Inside, hfills, hsize]⟩
    match rest with
    | [] => trivial
    | [b] => exact .inl (hlast.resolve_left (List.cons_ne_nil _ _))
    | b :: c :: rest => exact .inl (hlast.resolve_left (List.cons_ne_nil _ _))
  | @secondRejected a b rest hle hone hfull =>
    obtain ⟨hsize, hdata, hfills⟩ := afterOne_eq stack a
    have hpos := wire_pos b
    refine iff_of_false ?_ ?_
    · rintro ⟨-, hin⟩
      have hend := hin (a.wire.length, b.wire.length) (by simp [hdata])
      rw [fill_size, hsize] at hend
      dsimp only at hend
      omega
    · cases rest <;> simp only [NothingBehind] <;> omega
  | @two a b rest hone hle hlast =>
    obtain ⟨hsize, hdata, hfills⟩ := afterTwo_eq stack a b
    refine iff_of_true ⟨pointerInStep_of_two (hlast.imp_right Eq.ge), ?_⟩ ?_
    · simp [Inside, hfills, hsize]
    · match rest with
      | [] => exact .inr hle
      | c :: rest => exact .inr (hlast.resolve_left (List.cons_ne_nil _ _))
  | @thirdRejected a b c rest htwo hfull =>
    obtain ⟨hsize, hdata, hfills⟩ := afterTwo_eq stack a b
    have hpos := wire_pos c
    refine iff_of_false ?_ ?_
    · rintro ⟨-, hin⟩
      simp [Inside, hfills, hsize, hdata] at hin
      omega
    · simp only [NothingBehind]
      omega
  | @thirdSent a b c rest r htwo hle hoverrun =>
    refine iff_of_false ?_ ?_
    · rintro ⟨hstep, -⟩
      simp only [PointerInStep] at hstep
      omega
    · simp only [NothingBehind]
      omega

theorem Ends.carried (h : Ends stack live r) (hstep : PointerInStep live) :
    Carried r.1 r.2 ∧ r.2.length ≤ 2 := by
  cases h with
  | nothing => exact ⟨carried_start stack, by simp⟩
  | @one a rest hle hlast => exact ⟨afterOne_carried stack a, by simp⟩
  | @secondRejected a b rest hle hone hfull =>
    obtain ⟨hsize, hdata, -⟩ := afterOne_eq stack a
    exact ⟨(afterOne_carried stack a).fill (hsize.trans hdata.symm).le _, by simp⟩
  | @two a b rest hone hle hlast => exact ⟨afterTwo_carried stack a b, by simp⟩
  | @thirdRejected a b c rest htwo hfull =>
    obtain ⟨hsize, hdata, -⟩ := afterTwo_eq stack a b
    exact ⟨(afterTwo_carried stack a b).fill (by omega) _, by simp⟩
  | @thirdSent a b c rest r htwo hle hoverrun =>
    simp only [PointerInStep] at hstep
    omega

end Cases

section Announcing

/-- The fields of an interest that are on the wire. -/
def fields (i : Interest) : ContentType × UInt32 × UInt8 := (i.type, i.ttlMs, i.hops)

/-- The interests at the tail of the deque, as many as the call has announced. -/
def moved (a : Announcement) (h' : InterestHelper) : List Interest :=
  h'.interests.drop (h'.interests.length - a.count)

/-- The message decodes to the interests moved. Nothing was written behind `data_buf`, and
the interests moved were written inside the part of it that is sent. -/
structure CarriesExactly (a : Announcement) (moved : List Interest) (msg : InterestAnn) : Prop where
  decoded : ∃ received, msg.interests = .ok received ∧ received.map fields = moved.map fields
  in_buffer : Inside (2 * maxSize) a.fills
  in_message : Inside msg.size.toNat (a.fills.take a.count)
  size_le : msg.size.toNat ≤ maxSize

variable {now : TimePoint} {h : InterestHelper}

theorem live_width (hwidth : ∀ i ∈ h.interests, i.wire.length ≤ maxSize) :
    ∀ i ∈ live now h.interests, i.wire.length ≤ maxSize := by
  intro i hi
  obtain ⟨j, hj, rfl⟩ := List.mem_map.mp (List.mem_of_mem_filter hi)
  rw [Interest.elapseTtl_wire_length]
  exact hwidth j hj

theorem ofBuffer_size {size : ℕ} (hsize : size ≤ maxSize) (count : ℕ) (data : ByteMemory) :
    (InterestAnn.ofBuffer count data size).size.toNat = size ∧
      (InterestAnn.ofBuffer count data size).data = data.read 0 size := by
  have hnat : (UInt16.ofNat size).toNat = size := by
    unfold maxSize at hsize
    rw [UInt16.toNat_ofNat', Nat.mod_eq_of_lt (by omega)]
  exact ⟨hnat, congrArg (data.read 0) hnat⟩

theorem post_ok {id : NodeId} {count size : ℕ} {data : ByteMemory} (hsize : size ≤ maxSize) :
    ∃ packet, MessageBuffer.replace bufferSize now ⟨id, []⟩
      (.interestAnn (InterestAnn.ofBuffer count data size)) = .ok packet := by
  have hdata := (InterestAnn.ofBuffer count data size).length_data
  rw [(ofBuffer_size hsize count data).1] at hdata
  have hfits : (Message.interestAnn (InterestAnn.ofBuffer count data size)).Fits := by
    refine ⟨trivial, ?_⟩
    unfold maxSize at hsize
    simp only [Message.wire, InterestAnn.wire, bufferSize, List.flatten_cons, List.flatten_nil,
      List.append_nil, List.length_append, List.length_cons, List.length_nil, length_bigEndian, hdata]
    omega
  exact ⟨_, replace_fits hfits now id⟩

/-- A call that is due posts what the loop has packed, if anything. -/
theorem announce_due (fuzz : ℕ) (stack : ByteMemory) (hdue : h.nextAnnounceTime ≤ now)
    (hwidth : ∀ i ∈ h.interests, i.wire.length ≤ maxSize) :
    let r := pack (live now h.interests) (Packing.start stack)
    ∃ a h' unsent, announce now fuzz stack h = .ok (a, h') ∧ a.count = r.2.length ∧
      a.fills = r.1.fills ∧
      a.posted = (if r.2 = [] then none
        else some (InterestAnn.ofBuffer r.2.length r.1.dataBuf r.1.size)) ∧
      h'.interests = unsent ++ r.2 := by
  intro r
  have hcount : r.1.count = r.2.length := by
    rw [pack_count]
    exact Nat.zero_add _
  have hsize : r.1.size ≤ maxSize := pack_size_le (Nat.zero_le _)
  obtain ⟨unsent, toAnnounce, hloop⟩ := @announceLoop_pack now h.interests [] h
    (Packing.start stack) (List.append_nil _).symm rfl (Nat.zero_le _) hwidth
  unfold announce
  rw [if_neg (not_lt.mpr hdue), hloop]
  dsimp only
  by_cases hsent : r.2 = []
  · rw [if_neg (by rw [hcount, hsent]; simp)]
    exact ⟨_, _, unsent, rfl, by rw [hsent]; rfl, rfl, by rw [if_pos hsent],
      by split_ifs <;> rfl⟩
  · obtain ⟨packet, hpost⟩ := @post_ok now h.id r.1.count r.1.size r.1.dataBuf hsize
    rw [if_pos (by rw [hcount]; simpa using hsent), hpost]
    exact ⟨_, _, unsent, rfl, hcount, rfl, by rw [if_neg hsent, hcount],
      by split_ifs <;> rfl⟩

/-- What is carried is decoded. -/
theorem Carried.decoded {p : Packing} {sent : List Interest} (hc : Carried p sent)
    (hsize : p.size ≤ maxSize) (hcount : sent.length ≤ 255) :
    (InterestAnn.ofBuffer sent.length p.dataBuf p.size).interests =
      .ok (sent.map fun i => { i with expiryTime := 0 }) := by
  have hwidth : ∀ i ∈ sent, i.wire.length ≤ maxSize := by
    intro i hi
    have hle := List.le_sum_of_mem (List.mem_map_of_mem hi : _ ∈ sent.map fun i => i.wire.length)
    rw [← hc.size_eq] at hle
    exact hle.trans hsize
  have hlength : (UInt8.ofNat sent.length).toNat = sent.length := by
    rw [UInt8.toNat_ofNat', Nat.mod_eq_of_lt (by omega)]
  have hparse := getMany_parses (fun i hi => (Interest.emits_of_wire (hwidth i hi)).2) []
  rw [List.append_nil, ← hc.read_eq, ← (ofBuffer_size hsize sent.length p.dataBuf).2] at hparse
  unfold InterestAnn.interests
  rw [show (InterestAnn.ofBuffer sent.length p.dataBuf p.size).count.toNat = sent.length from hlength,
    hparse]
  rfl

theorem Ends.live_nil {stack : ByteMemory} {live : List Interest} {r : Packing × List Interest}
    (hends : Ends stack live r) (hsent : r.2 = []) : live = [] := by
  cases hends with
  | nothing => rfl
  | thirdSent htwo hle hoverrun =>
    obtain ⟨f, hf, -⟩ := hoverrun
    rw [hsent] at hf
    cases hf
  | _ => cases hsent

theorem carriesExactly_iff {stack : ByteMemory} {live : List Interest}
    {r : Packing × List Interest} (hends : Ends stack live r) (hsize : r.1.size ≤ maxSize)
    {a : Announcement} (hcount : a.count = r.2.length) (hfills : a.fills = r.1.fills) :
    CarriesExactly a r.2 (InterestAnn.ofBuffer r.2.length r.1.dataBuf r.1.size) ↔ Contained r := by
  have hsent := (ofBuffer_size hsize r.2.length r.1.dataBuf).1
  constructor
  · rintro ⟨-, hbuffer, hmessage, -⟩
    rw [hsent, hfills, hcount] at hmessage
    exact ⟨hfills ▸ hbuffer, hmessage⟩
  · intro hc
    obtain ⟨hcarried, hlen⟩ := hends.carried (hends.contained_iff.mp hc)
    refine ⟨⟨_, hcarried.decoded hsize (by omega), ?_⟩, hfills ▸ hc.in_buffer, ?_, hsent.trans_le hsize⟩
    · rw [List.map_map]
      rfl
    · rw [hsent, hfills, hcount]
      exact hc.in_message

/-- The message and the writes are as they should be exactly when the call is not due,
or the loop does not get to send a third interest, nor to write one beyond the buffer.
With an interest that is written and rejected counted in, there must be none. -/
theorem announce_exact_iff (fuzz : ℕ) (stack : ByteMemory)
    (hwidth : ∀ i ∈ h.interests, i.wire.length ≤ maxSize) :
    ∃ a h', announce now fuzz stack h = .ok (a, h') ∧
      ((∀ msg, a.posted = some msg → CarriesExactly a (moved a h') msg) ↔
        now < h.nextAnnounceTime ∨ PointerInStep (live now h.interests)) ∧
      ((∀ msg, a.posted = some msg →
          CarriesExactly a (moved a h') msg ∧ Inside msg.size.toNat a.fills) ↔
        now < h.nextAnnounceTime ∨ NothingBehind (live now h.interests)) := by
  rcases lt_or_ge now h.nextAnnounceTime with hearly | hdue
  · refine ⟨⟨0, none, [], h.autoAnnounce⟩, h, ?_, ?_, ?_⟩
    · rw [announce, if_pos hearly]
    · simp [hearly]
    · simp [hearly]
  · obtain ⟨a, h', unsent, hrun, hcount, hfills, hposted, hinterests⟩ :=
      announce_due fuzz stack hdue hwidth
    have hlive : ∀ i ∈ live now h.interests, i.wire.length ≤ maxSize := live_width hwidth
    have hends := pack_ends stack hlive
    have hsize : (pack (live now h.interests) (Packing.start stack)).1.size ≤ maxSize :=
      pack_size_le (Nat.zero_le _)
    set r := pack (live now h.interests) (Packing.start stack) with hr
    have hmoved : moved a h' = r.2 := by
      rw [moved, hcount, hinterests, List.length_append, Nat.add_sub_cancel, List.drop_left]
    refine ⟨a, h', hrun, ?_⟩
    rw [or_iff_right hdue.not_gt, or_iff_right hdue.not_gt, hmoved, hposted]
    by_cases hsent : r.2 = []
    · rw [hends.live_nil hsent, if_pos hsent]
      simp [PointerInStep, NothingBehind]
    · have hexact := carriesExactly_iff hends hsize hcount hfills
      have hsize' := (ofBuffer_size hsize r.2.length r.1.dataBuf).1
      rw [if_neg hsent]
      simp only [Option.some.injEq, forall_eq', hexact, hsize', hfills]
      exact ⟨hends.contained_iff, hends.strict_iff⟩

/-- Three interests of the node itself, each of 7 bytes. -/
def threeInterests : InterestHelper :=
  { new ⟨1⟩ 0 with
    interests := [Interest.new 0 ⟨[97]⟩ 60000 0, Interest.new 0 ⟨[98]⟩ 60000 0,
      Interest.new 0 ⟨[99]⟩ 60000 0]
    toAnnounce := 3 }

theorem announce_exact_three :
    ∃ a h', announce 0 0 (fun _ => 0) threeInterests = .ok (a, h') ∧
      ((∀ msg, a.posted = some msg → CarriesExactly a (moved a h') msg) ↔
        (0 : TimePoint) < threeInterests.nextAnnounceTime ∨
          PointerInStep (live 0 threeInterests.interests)) ∧
      ((∀ msg, a.posted = some msg →
          CarriesExactly a (moved a h') msg ∧ Inside msg.size.toNat a.fills) ↔
        (0 : TimePoint) < threeInterests.nextAnnounceTime ∨
          NothingBehind (live 0 threeInterests.interests)) :=
  announce_exact_iff 0 (fun _ => 0) (by decide)

/-- The third interest is written 7 bytes too late: what is sent for it is what the stack
held, and its own bytes lie behind. -/
theorem third_interest_garbled :
    ∃ a h' msg, announce 0 0 (fun _ => 0) threeInterests = .ok (a, h') ∧ a.posted = some msg ∧
      msg.interests.map (List.map fields) =
        .ok [(⟨[97]⟩, 60000, 0), (⟨[98]⟩, 60000, 0), (⟨[]⟩, 0, 0)] ∧
      ¬ CarriesExactly a (moved a h') msg := by
  refine ⟨_, _, _, rfl, rfl, by decide +kernel, fun hc => ?_⟩
  have hend := hc.in_message (21, 7) (by decide +kernel)
  revert hend
  decide +kernel

end Announcing

end InterestHelper

end YingSma
