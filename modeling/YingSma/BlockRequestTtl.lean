import YingSma.BlockRequestTable

/-! The time to live and the utility of a request, as the response scheduler asks for them.
Microseconds are divided by milliseconds, and only one of the two takes a request that ends at the
very instant for an expired one. -/
namespace YingSma.BlockRequestScheduler
open TransitionRuns

/-- The whole microseconds left of a request's time. -/
def microsLeft (now : TimePoint) (d : BlockRequestDesc) : ℕ := ((d.expireTime - now) / micro).toNat

/-- The whole scheduling intervals left of a request's time, the interval in milliseconds. -/
def intervalsLeft (now : TimePoint) (schedInterval : UInt32) (d : BlockRequestDesc) : ℕ :=
  ((d.expireTime - now) / (schedInterval.toNat * milli)).toNat

/-- `get_ttl` tells the scheduling intervals left of a request, or -1 without one. -/
def TtlExact (now : TimePoint) (schedInterval : UInt32) (s : BlockRequestScheduler)
    (nodeId : NodeId) (block : BlockRef) : Prop :=
  (∀ d, s.Held nodeId block d → now < d.expireTime →
    s.getTtl now schedInterval nodeId block = .ok (intervalsLeft now schedInterval d)) ∧
  (s.getTtl now schedInterval nodeId block = .ok (-1) ↔
    ∀ d, s.Held nodeId block d → d.expireTime ≤ now)

/-- Fewer microseconds are left than the interval has milliseconds. Or there are more of them than
32 bits count, and what remains of them is as far into the right interval as microseconds taken
for milliseconds can be. -/
def TtlSafe (now : TimePoint) (schedInterval : UInt32) (s : BlockRequestScheduler)
    (nodeId : NodeId) (block : BlockRef) : Prop :=
  ∀ d, s.Held nodeId block d → now < d.expireTime →
    let micros := microsLeft now d
    let intervals := intervalsLeft now schedInterval d
    micros < schedInterval.toNat ∨
      (2 ^ 32 ≤ micros ∧ intervals < 2 ^ 31 ∧ intervals * schedInterval.toNat ≤ micros % 2 ^ 32 ∧
        micros % 2 ^ 32 < (intervals + 1) * schedInterval.toNat)

/-- There is no deadline just when there is no utility. -/
def Agree (ttl : Except Fault ℤ) (utility : ℚ) : Prop := ∃ t, ttl = .ok t ∧ (t = -1 ↔ utility = 0)

/-- The utility is a number, and the two agree when `get_ttl` is called first and when
`get_utility` is. -/
def TtlAgrees (now : TimePoint) (schedInterval : UInt32) (s : BlockRequestScheduler)
    (nodeId : NodeId) (block : BlockRef) : Prop :=
  ¬ s.DividesByZero now nodeId block ∧
    Agree (s.getTtl now schedInterval nodeId block) (s.getUtility now nodeId block).1 ∧
    Agree ((s.getUtility now nodeId block).2.getTtl now schedInterval nodeId block)
      (s.getUtility now nodeId block).1

/-- The neighbour's requests are not all erased. The one for the block does not end at the very
instant, and if it has not expired, its time can be divided and does not come to -1. -/
def AgreeSafe (now : TimePoint) (schedInterval : UInt32) (s : BlockRequestScheduler)
    (nodeId : NodeId) (block : BlockRef) : Prop :=
  s.descsOf nodeId ≠ some [] ∧ ∀ d, s.Held nodeId block d →
    d.expireTime ≠ now ∧ (now < d.expireTime → schedInterval ≠ 0 ∧
      (schedInterval = 1 → microsLeft now d % 2 ^ 32 ≠ 2 ^ 32 - 1))

section Quotients

variable {now : TimePoint} {schedInterval : UInt32} {d : BlockRequestDesc}

/-- What the division leaves of the microseconds, before it is narrowed to an `int`. -/
def quotient (now : TimePoint) (schedInterval : UInt32) (d : BlockRequestDesc) : ℕ :=
  microsLeft now d % 2 ^ 32 / schedInterval.toNat

theorem toNat_timeSpan (halive : now < d.expireTime) :
    (UInt32.ofInt ((d.expireTime - now).tdiv micro)).toNat = microsLeft now d % 2 ^ 32 := by
  have hleft : 0 ≤ d.expireTime - now := sub_nonneg.mpr halive.le
  have hmicros : 0 ≤ (d.expireTime - now) / micro := Int.ediv_nonneg hleft (by decide)
  rw [Int.tdiv_eq_ediv_of_nonneg hleft, UInt32.ofInt, UInt32.toNat_ofNat', microsLeft,
    Int.toNat_emod hmicros (by decide)]
  exact Nat.mod_mod _ _

theorem quotient_lt : quotient now schedInterval d < 2 ^ 32 :=
  (Nat.div_le_self _ _).trans_lt (Nat.mod_lt _ (by decide))

theorem intervalsLeft_eq (halive : now < d.expireTime) :
    intervalsLeft now schedInterval d = microsLeft now d / (1000 * schedInterval.toNat) := by
  have hleft : 0 ≤ d.expireTime - now := sub_nonneg.mpr halive.le
  have hunit : (schedInterval.toNat * milli : ℤ) = micro * (1000 * schedInterval.toNat : ℕ) := by
    unfold milli micro
    push_cast
    ring
  have hmicros : 0 ≤ (d.expireTime - now) / micro := Int.ediv_nonneg hleft (by decide)
  rw [intervalsLeft, microsLeft, hunit, ← Int.ediv_ediv_of_nonneg (by decide)]
  obtain ⟨micros, hm⟩ := Int.eq_ofNat_of_zero_le hmicros
  rw [hm, ← Int.natCast_ediv, Int.toNat_natCast, Int.toNat_natCast]

/-- As an `int` the quotient is a number of intervals only below half of the range. -/
theorem bmod_eq_iff {n q : ℕ} (hn : n < 2 ^ 32) :
    Int.bmod n (2 ^ 32) = q ↔ n = q ∧ q < 2 ^ 31 := by
  rw [Int.bmod_def]
  split_ifs <;> omega

theorem bmod_eq_neg_one {n : ℕ} (hn : n < 2 ^ 32) : Int.bmod n (2 ^ 32) = -1 ↔ n = 2 ^ 32 - 1 := by
  rw [Int.bmod_def]
  split_ifs <;> omega

/-- Microseconds divided by milliseconds make as many intervals as there are only if they make
none, or by what 32 bits lose of them. -/
theorem narrowed_div_iff {i : ℕ} (hi : 0 < i) (micros : ℕ) :
    micros % 2 ^ 32 / i = micros / (1000 * i) ↔
      micros < i ∨ (2 ^ 32 ≤ micros ∧ micros / (1000 * i) * i ≤ micros % 2 ^ 32 ∧
        micros % 2 ^ 32 < (micros / (1000 * i) + 1) * i) := by
  rcases lt_or_ge micros (2 ^ 32) with hsmall | hlarge
  · rw [Nat.mod_eq_of_lt hsmall, or_iff_left (by omega)]
    constructor
    · intro heq
      by_contra hge
      have hone : 1 ≤ micros / i := (Nat.one_le_div_iff hi).mpr (not_lt.mp hge)
      have hmul : micros / (1000 * i) = micros / i / 1000 := by
        rw [Nat.div_div_eq_div_mul, Nat.mul_comm]
      omega
    · intro hlt
      rw [Nat.div_eq_of_lt hlt, Nat.div_eq_of_lt (by omega)]
  · have hinside : micros < i → micros / (1000 * i) * i ≤ micros % 2 ^ 32 ∧
        micros % 2 ^ 32 < (micros / (1000 * i) + 1) * i := by
      intro hlt
      rw [Nat.div_eq_of_lt (show micros < 1000 * i by omega)]
      omega
    rw [Nat.div_eq_iff hi, Nat.add_mul, Nat.one_mul]
    rw [Nat.add_mul, Nat.one_mul] at hinside
    omega

end Quotients

/-- A request heard from a neighbour, with a utility of 1. -/
def requestFor (ttlMs : UInt32) : BlockRequestArgs where
  block := ⟨default, 0⟩
  utility := 0x3F800000
  ttlMs := ttlMs
  requester := ⟨2⟩
  requesterPosition := ⟨0, 0⟩
  hopsFromBlock := 0

/-- What the scheduler holds after such a request. -/
def heard (ttlMs : UInt32) : BlockRequestScheduler := new.addRequests 0 ⟨1⟩ [requestFor ttlMs]

theorem run_heard (ttlMs : UInt32) :
    run step new [(0, .addRequests ⟨1⟩ [requestFor ttlMs])] = .ok (heard ttlMs) := rfl

section Ttl

variable {now : TimePoint} {schedInterval : UInt32} {s : BlockRequestScheduler} {nodeId : NodeId}
variable {block : BlockRef} {d : BlockRequestDesc}

theorem getTtl_not_held (hnone : ∀ d, ¬ s.Held nodeId block d) :
    s.getTtl now schedInterval nodeId block = .ok (-1) := by
  unfold getTtl
  cases hdescs : s.requestDescTable.lookup nodeId with
  | none => rfl
  | some descs =>
    dsimp only
    rw [find_not_held hnone hdescs]

theorem getTtl_held (hone : OneEach s) (hd : s.Held nodeId block d) :
    s.getTtl now schedInterval nodeId block =
      if now < d.expireTime then
        if schedInterval = 0 then .error .divisionByZero
        else .ok (Int.bmod (quotient now schedInterval d) (2 ^ 32))
      else .ok (-1) := by
  have hheld := hd
  obtain ⟨descs, hdescs, -, -⟩ := hd
  unfold getTtl
  rw [show s.requestDescTable.lookup nodeId = some descs from hdescs]
  dsimp only
  rw [find_held hone hdescs hheld]
  dsimp only
  split_ifs with halive hzero
  · rfl
  · rw [UInt32.toNat_div, toNat_timeSpan halive]
    rfl
  · rfl

theorem quotient_eq_iff (hinterval : schedInterval ≠ 0) (halive : now < d.expireTime) :
    quotient now schedInterval d = intervalsLeft now schedInterval d ↔
      microsLeft now d < schedInterval.toNat ∨
        (2 ^ 32 ≤ microsLeft now d ∧
          intervalsLeft now schedInterval d * schedInterval.toNat ≤ microsLeft now d % 2 ^ 32 ∧
          microsLeft now d % 2 ^ 32 <
            (intervalsLeft now schedInterval d + 1) * schedInterval.toNat) := by
  have hpos : 0 < schedInterval.toNat :=
    Nat.pos_of_ne_zero fun hzero => hinterval (UInt32.toNat_inj.mp hzero)
  rw [quotient, intervalsLeft_eq halive]
  exact narrowed_div_iff hpos _

theorem ttlExact_alive (hone : OneEach s) (hinterval : schedInterval ≠ 0)
    (hd : s.Held nodeId block d) (halive : now < d.expireTime) :
    TtlExact now schedInterval s nodeId block ↔
      quotient now schedInterval d = intervalsLeft now schedInterval d ∧
        intervalsLeft now schedInterval d < 2 ^ 31 := by
  have httl := @getTtl_held now schedInterval s nodeId block d hone hd
  rw [if_pos halive, if_neg hinterval] at httl
  rw [← bmod_eq_iff quotient_lt, TtlExact, httl]
  constructor
  · rintro ⟨hexact, -⟩
    exact Except.ok.inj (hexact d hd halive)
  · intro hexact
    refine ⟨fun e he _ => ?_, iff_of_false ?_ fun hexpired => (hexpired d hd).not_gt halive⟩
    · rw [held_unique hone he hd, hexact]
    · intro hminus
      have hneg := hexact.symm.trans (Except.ok.inj hminus)
      omega

theorem ttlSafe_alive (hone : OneEach s) (hinterval : schedInterval ≠ 0)
    (hd : s.Held nodeId block d) (halive : now < d.expireTime) :
    TtlSafe now schedInterval s nodeId block ↔
      quotient now schedInterval d = intervalsLeft now schedInterval d ∧
        intervalsLeft now schedInterval d < 2 ^ 31 := by
  have hsafe : TtlSafe now schedInterval s nodeId block ↔ _ :=
    ⟨fun h => h d hd halive, fun h e he _ => by rwa [held_unique hone he hd]⟩
  have hinside : microsLeft now d < schedInterval.toNat →
      intervalsLeft now schedInterval d < 2 ^ 31 := by
    intro hlt
    rw [intervalsLeft_eq halive, Nat.div_eq_of_lt (by omega)]
    decide
  rw [hsafe, quotient_eq_iff hinterval halive]
  dsimp only
  tauto

/-- Whether a request's time is told right is a matter of the units. Without one that has not
expired nothing can go wrong. -/
theorem ttl_exact_iff {calls : List (TimePoint × Call)} (hrun : run step new calls = .ok s)
    (hinterval : schedInterval ≠ 0) (now : TimePoint) (nodeId : NodeId) (block : BlockRef) :
    TtlExact now schedInterval s nodeId block ↔ TtlSafe now schedInterval s nodeId block := by
  have hone := run_oneEach hrun
  by_cases halive : ∃ d, s.Held nodeId block d ∧ now < d.expireTime
  · obtain ⟨d, hd, halive⟩ := halive
    rw [ttlExact_alive hone hinterval hd halive, ttlSafe_alive hone hinterval hd halive]
  · push Not at halive
    have hminus : s.getTtl now schedInterval nodeId block = .ok (-1) := by
      by_cases hheld : ∃ d, s.Held nodeId block d
      · obtain ⟨d, hd⟩ := hheld
        rw [getTtl_held hone hd, if_neg (halive d hd).not_gt]
      · exact getTtl_not_held fun d hd => hheld ⟨d, hd⟩
    apply iff_of_true
    · exact ⟨fun d hd hlt => absurd hlt (halive d hd).not_gt, iff_of_true hminus halive⟩
    · exact fun d hd hlt => absurd hlt (halive d hd).not_gt

theorem ttl_exact_ten_seconds :
    TtlExact 0 1000 (heard 10000) ⟨1⟩ ⟨default, 0⟩ ↔ TtlSafe 0 1000 (heard 10000) ⟨1⟩ ⟨default, 0⟩ :=
  ttl_exact_iff (run_heard 10000) (by decide) 0 ⟨1⟩ ⟨default, 0⟩

/-- With ten seconds left and an interval of one second, 10000 intervals are told. -/
theorem ttl_in_micros :
    run step new [(0, .addRequests ⟨1⟩ [requestFor 10000])] = .ok (heard 10000) ∧
      (heard 10000).getTtl 0 1000 ⟨1⟩ ⟨default, 0⟩ = .ok 10000 ∧
      ¬ TtlExact 0 1000 (heard 10000) ⟨1⟩ ⟨default, 0⟩ := by
  refine ⟨rfl, by decide +kernel, fun h => ?_⟩
  have hexact := h.1 (.ofArgs 0 ⟨1⟩ (requestFor 10000)) ⟨_, rfl, List.mem_singleton_self _, rfl⟩
    (by decide)
  revert hexact
  decide +kernel

end Ttl

section Agreement

variable {now : TimePoint} {schedInterval : UInt32} {s : BlockRequestScheduler} {nodeId : NodeId}
variable {block : BlockRef} {d : BlockRequestDesc}

/-- The erasure of an expired request does not show in `get_ttl`. -/
theorem getTtl_getUtility (hone : OneEach s) :
    (s.getUtility now nodeId block).2.getTtl now schedInterval nodeId block =
      s.getTtl now schedInterval nodeId block := by
  by_cases hheld : ∃ d, s.Held nodeId block d
  · obtain ⟨d, hd⟩ := hheld
    by_cases hexpired : d.expireTime < now
    · have hgone : ∀ e, ¬ (s.getUtility now nodeId block).2.Held nodeId block e := by
        intro e he
        obtain ⟨he, hkept⟩ := (held_getUtility hone).mp he
        obtain rfl := held_unique hone he hd
        obtain ⟨-, -, -, hblock⟩ := hd
        exact hkept ⟨rfl, by simp [outdated, hblock, hexpired]⟩
      rw [getTtl_not_held hgone, getTtl_held hone hd, if_neg hexpired.not_gt]
    · have hkept : (s.getUtility now nodeId block).2.Held nodeId block d :=
        (held_getUtility hone).mpr ⟨hd, fun h => by simp [outdated, hexpired] at h⟩
      rw [getTtl_held (oneEach_getUtility hone) hkept, getTtl_held hone hd]
  · have hnone : ∀ d, ¬ s.Held nodeId block d := fun d hd => hheld ⟨d, hd⟩
    rw [getTtl_not_held hnone,
      getTtl_not_held fun d hd => hnone d ((held_getUtility hone).mp hd).1]

/-- The quotient is the largest number of 32 bits only when the time left is. -/
theorem quotient_eq_max (hinterval : schedInterval ≠ 0) :
    quotient now schedInterval d = 2 ^ 32 - 1 ↔
      schedInterval = 1 ∧ microsLeft now d % 2 ^ 32 = 2 ^ 32 - 1 := by
  have hmod : microsLeft now d % 2 ^ 32 < 2 ^ 32 := Nat.mod_lt _ (by decide)
  have hpos : schedInterval.toNat ≠ 0 := fun hzero => hinterval (UInt32.toNat_inj.mp hzero)
  have hone : schedInterval = 1 ↔ schedInterval.toNat = 1 := UInt32.toNat_inj.symm
  rw [hone, quotient]
  constructor
  · intro hmax
    by_contra hnot
    have hle := Nat.div_mul_le_self (microsLeft now d % 2 ^ 32) schedInterval.toNat
    rw [hmax] at hle
    have hi : schedInterval.toNat = 1 := by
      by_contra hi
      have htwo := Nat.mul_le_mul_left (2 ^ 32 - 1) (show 2 ≤ schedInterval.toNat by omega)
      omega
    rw [hi] at hle
    omega
  · rintro ⟨hi, hmicros⟩
    rw [hi, hmicros, Nat.div_one]

theorem agree_held_iff (hone : OneEach s) (hpos : PositiveUtilities s)
    (hd : s.Held nodeId block d) :
    Agree (s.getTtl now schedInterval nodeId block) (s.getUtility now nodeId block).1 ↔
      d.expireTime ≠ now ∧ (now < d.expireTime → schedInterval ≠ 0 ∧
        (schedInterval = 1 → microsLeft now d % 2 ^ 32 ≠ 2 ^ 32 - 1)) := by
  have hzero := @getUtility_eq_zero now nodeId block s d hone hpos hd
  rw [Agree, getTtl_held hone hd]
  rcases lt_trichotomy d.expireTime now with hexpired | hinstant | halive
  · rw [if_neg hexpired.not_gt]
    apply iff_of_true
    · exact ⟨-1, rfl, iff_of_true rfl (hzero.mpr hexpired)⟩
    · exact ⟨hexpired.ne, fun h => absurd h hexpired.not_gt⟩
  · rw [if_neg hinstant.not_gt]
    refine iff_of_false ?_ fun h => h.1 hinstant
    rintro ⟨t, ht, hagree⟩
    obtain rfl := Except.ok.inj ht
    exact (hzero.mp (hagree.mp rfl)).ne hinstant
  · rw [if_pos halive]
    have hnonzero : (s.getUtility now nodeId block).1 ≠ 0 := fun h => (hzero.mp h).not_gt halive
    by_cases hinterval : schedInterval = 0
    · rw [if_pos hinterval]
      refine iff_of_false ?_ fun h => (h.2 halive).1 hinterval
      rintro ⟨t, ht, -⟩
      cases ht
    · have hminus : Int.bmod (quotient now schedInterval d) (2 ^ 32) = -1 ↔
          schedInterval = 1 ∧ microsLeft now d % 2 ^ 32 = 2 ^ 32 - 1 :=
        (bmod_eq_neg_one quotient_lt).trans (quotient_eq_max hinterval)
      rw [if_neg hinterval]
      constructor
      · rintro ⟨t, ht, hagree⟩
        obtain rfl := Except.ok.inj ht
        refine ⟨halive.ne', fun _ => ⟨hinterval, fun hi hmicros => ?_⟩⟩
        exact hnonzero (hagree.mp (hminus.mpr ⟨hi, hmicros⟩))
      · rintro ⟨-, hsafe⟩
        refine ⟨_, rfl, iff_of_false (fun ht => ?_) hnonzero⟩
        obtain ⟨hi, hmicros⟩ := hminus.mp ht
        exact (hsafe halive).2 hi hmicros

/-- The time to live and the utility disagree for a request that ends at the very instant, for a
neighbour whose requests were all erased, and where the time left cannot be divided or comes to
-1 microseconds. -/
theorem ttl_agrees_iff {calls : List (TimePoint × Call)} (hrun : run step new calls = .ok s)
    (hpos : PositiveUtilities s) (now : TimePoint) (schedInterval : UInt32) (nodeId : NodeId)
    (block : BlockRef) :
    TtlAgrees now schedInterval s nodeId block ↔ AgreeSafe now schedInterval s nodeId block := by
  have hone := run_oneEach hrun
  rw [TtlAgrees, getTtl_getUtility hone, and_self]
  by_cases hheld : ∃ d, s.Held nodeId block d
  · obtain ⟨d, hd⟩ := hheld
    have hnumber := @not_dividesByZero_held now nodeId block s d hone hpos hd
    have hheld : s.descsOf nodeId ≠ some [] := by
      obtain ⟨descs, hdescs, hmem, -⟩ := hd
      rw [hdescs]
      intro hempty
      exact List.ne_nil_of_mem hmem (Option.some.inj hempty)
    have hsafe : AgreeSafe now schedInterval s nodeId block ↔ _ :=
      ⟨fun h => h.2 d hd, fun h => ⟨hheld, fun e he => by rwa [held_unique hone he hd]⟩⟩
    rw [and_iff_right hnumber, agree_held_iff hone hpos hd, hsafe]
  · have hnone : ∀ d, ¬ s.Held nodeId block d := fun d hd => hheld ⟨d, hd⟩
    have hagree : Agree (s.getTtl now schedInterval nodeId block) (s.getUtility now nodeId block).1 :=
      ⟨-1, getTtl_not_held hnone, iff_of_true rfl (getUtility_not_held hnone)⟩
    have hsafe : AgreeSafe now schedInterval s nodeId block ↔ s.descsOf nodeId ≠ some [] :=
      ⟨fun h => h.1, fun h => ⟨h, fun d hd => absurd hd (hnone d)⟩⟩
    rw [and_iff_left hagree, hsafe, dividesByZero_not_held hpos hnone]

theorem heard_positive (ttlMs : UInt32) : PositiveUtilities (heard ttlMs) := by
  intro nodeId descs hdescs d hd
  have hmem := EntryTable.mem_of_lookup hdescs
  simp only [heard, addRequests, insertRequest, new, List.foldl_cons, List.foldl_nil,
    List.lookup_nil, List.nil_append, List.mem_singleton, Prod.mk.injEq] at hmem
  obtain ⟨-, rfl⟩ := hmem
  obtain rfl := List.mem_singleton.mp hd
  have hone : (0 : ℚ) < floatValue 0x3F800000 := by decide +kernel
  exact hone

theorem ttl_agrees_five_millis :
    TtlAgrees 0 1000 (heard 5) ⟨1⟩ ⟨default, 0⟩ ↔ AgreeSafe 0 1000 (heard 5) ⟨1⟩ ⟨default, 0⟩ :=
  ttl_agrees_iff (run_heard 5) (heard_positive 5) 0 1000 ⟨1⟩ ⟨default, 0⟩

/-- At the instant the request ends it has a utility and no deadline. -/
theorem utility_without_deadline :
    run step new [(0, .addRequests ⟨1⟩ [requestFor 5])] = .ok (heard 5) ∧
      PositiveUtilities (heard 5) ∧ ¬ TtlAgrees (5 * milli) 1000 (heard 5) ⟨1⟩ ⟨default, 0⟩ := by
  refine ⟨rfl, heard_positive 5, ?_⟩
  rintro ⟨-, ⟨t, ht, hagree⟩, -⟩
  have httl : (heard 5).getTtl (5 * milli) 1000 ⟨1⟩ ⟨default, 0⟩ = .ok (-1) := by decide +kernel
  have hutility : ((heard 5).getUtility (5 * milli) ⟨1⟩ ⟨default, 0⟩).1 = 1 := by decide +kernel
  obtain rfl := Except.ok.inj (httl.symm.trans ht)
  rw [hutility] at hagree
  exact absurd (hagree.mp rfl) (by decide)

end Agreement

end YingSma.BlockRequestScheduler
