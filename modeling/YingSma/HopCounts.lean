import YingSma.ContentHelperMetadata
import YingSma.InterestEntries

/-! The hop counts of interests and metadata as they are received. One is added before they
are compared with what is known, in eight bits. -/
namespace YingSma
open TransitionRuns

/-- One more hop is one more as an integer, except after the last. -/
theorem toNat_add_one_iff (hops : UInt8) : (hops + 1).toNat = hops.toNat + 1 ↔ hops ≠ 255 := by
  have hlt := hops.toNat_lt
  have hadd : (hops + 1).toNat = (hops.toNat + 1) % 256 := UInt8.toNat_add hops 1
  rw [hadd, Ne, ← UInt8.toNat_inj]
  change _ ↔ ¬ hops.toNat = 255
  omega

theorem add_one_eq_zero_iff (hops : UInt8) : hops + 1 = 0 ↔ hops = 255 := by
  constructor
  · intro hzero
    by_contra hne
    have hnat := (toNat_add_one_iff hops).mpr hne
    rw [hzero, UInt8.toNat_zero] at hnat
    omega
  · intro heq
    rw [heq]
    rfl

namespace InterestHelper

/-- One pass of the loop of `receive`. -/
def learnOne (now : TimePoint) (h : InterestHelper) (i : Interest) : Except Fault InterestHelper :=
  .ok (learnRemote now { i with hops := i.hops + 1 } h)

/-- The node has an interest in this type as its own. -/
def HoldsLocal (h : InterestHelper) (type : ContentType) : Prop :=
  ∃ e ∈ h.interests, e.type = type ∧ e.isLocal

/-- An entry that is created, or whose hops are lowered, has one hop more than the message. -/
def InterestExact (now : TimePoint) (h : InterestHelper) (i : Interest) : Prop :=
  ∀ h', learnOne now h i = .ok h' → ∀ e' ∈ h'.interests, e'.type = i.type →
    (i.type ∉ types h ∨ ∃ e ∈ h.interests, e.type = i.type ∧ e'.hops < e.hops) →
    e'.hops.toNat = i.hops.toNat + 1

section Learning

variable {now : TimePoint} {h h' : InterestHelper} {i : Interest}

/-- What one interest of a message does to the entry of its type, by hops. -/
theorem interestExact_iff (hd : (types h).Nodup) :
    InterestExact now h i ↔ (i.hops = 255 → HoldsLocal h i.type) := by
  have hl := learnRemote_learns now { i with hops := i.hops + 1 } h
  constructor
  · intro hexact hhops
    by_cases hknown : i.type ∈ types h
    · obtain ⟨e, he, htype⟩ := List.mem_map.mp hknown
      refine ⟨e, he, htype, ?_⟩
      by_contra hremote
      have hcloser : i.hops + 1 < e.hops := by
        rw [(add_one_eq_zero_iff _).mpr hhops]
        exact UInt8.pos_iff_ne_zero.mpr (by simpa [Interest.isLocal] using hremote)
      have hlowered : (e.updateWith { i with hops := i.hops + 1 }).2.hops = i.hops + 1 := by
        rw [Interest.updateWith_hops]
        exact if_pos hcloser
      have heq := hexact _ rfl _ (hl.own hd he htype) htype
        (.inr ⟨e, he, htype, by rw [hlowered]; exact hcloser⟩)
      rw [hlowered] at heq
      exact (toNat_add_one_iff _).mp heq hhops
    · have heq := hexact _ rfl _ (hl.fresh hknown) rfl (.inl hknown)
      exact ((toNat_add_one_iff _).mp heq hhops).elim
  · intro hsafe h' hs e' he' htype hcase
    obtain rfl := Except.ok.inj hs
    rcases hl.entry hd he' htype with ⟨e, he, htype₀, rfl⟩ | ⟨hnew, rfl⟩
    · rcases hcase with hnew | ⟨e₁, he₁, htype₁, hlower⟩
      · exact (hnew (htype₀ ▸ mem_types he)).elim
      · obtain rfl := eq_of_type hd he he₁ (htype₀.trans htype₁.symm)
        rw [Interest.updateWith_hops] at hlower ⊢
        split_ifs at hlower ⊢ with hcloser
        · apply (toNat_add_one_iff _).mpr
          intro hhops
          obtain ⟨e₂, he₂, htype₂, hlocal⟩ := hsafe hhops
          obtain rfl := eq_of_type hd he he₂ (htype₀.trans htype₂.symm)
          have hzero : e.hops = 0 := by simpa [Interest.isLocal] using hlocal
          rw [hzero] at hcloser
          exact UInt8.not_lt_zero hcloser
        · exact (UInt8.lt_irrefl _ hlower).elim
    · apply (toNat_add_one_iff _).mpr
      intro hhops
      obtain ⟨e, he, htype₀, -⟩ := hsafe hhops
      exact hnew (htype₀ ▸ mem_types he)

/-- An announcement within these bounds leaves the node's own interests to itself. -/
theorem learnOne_holdsLocal_iff (hd : (types h).Nodup)
    (hsafe : i.hops = 255 → HoldsLocal h i.type) (hs : learnOne now h i = .ok h')
    (type : ContentType) : HoldsLocal h' type ↔ HoldsLocal h type := by
  obtain rfl := Except.ok.inj hs
  have hl := learnRemote_learns now { i with hops := i.hops + 1 } h
  constructor
  · rintro ⟨e', he', rfl, hlocal⟩
    rcases hl.mem he' with he | ⟨e, he, htype, rfl⟩ | ⟨hnew, rfl⟩
    · exact ⟨e', he, rfl, hlocal⟩
    · refine ⟨e, he, rfl, ?_⟩
      by_contra hremote
      have hzero : (e.updateWith { i with hops := i.hops + 1 }).2.hops = 0 := by
        simpa [Interest.isLocal] using hlocal
      rw [Interest.updateWith_hops] at hzero
      split_ifs at hzero
      · obtain ⟨e₂, he₂, htype₂, hlocal₂⟩ := hsafe ((add_one_eq_zero_iff _).mp hzero)
        obtain rfl := eq_of_type hd he he₂ (htype.trans htype₂.symm)
        exact hremote hlocal₂
      · exact hremote (by simpa [Interest.isLocal] using hzero)
    · have hzero : i.hops + 1 = 0 := of_decide_eq_true hlocal
      obtain ⟨e, he, htype, -⟩ := hsafe ((add_one_eq_zero_iff _).mp hzero)
      exact (hnew (htype ▸ mem_types he)).elim
  · rintro ⟨e, he, rfl, hlocal⟩
    by_cases htype : e.type = i.type
    · refine ⟨_, hl.own hd he htype, rfl, ?_⟩
      have hzero : e.hops = 0 := by simpa [Interest.isLocal] using hlocal
      have hkept : (e.updateWith { i with hops := i.hops + 1 }).2.hops = 0 := by
        rw [Interest.updateWith_hops, hzero]
        exact if_neg UInt8.not_lt_zero
      simpa [Interest.isLocal] using hkept
    · exact ⟨e, hl.other he htype, rfl, hlocal⟩

/-- The passes make up the loop. -/
theorem run_learnOne (received : List Interest) :
    run (learnOne now) h received = .ok (learnAll now received h) := by
  induction received generalizing h with
  | nil => rfl
  | cons i received ih => exact ih

/-- A whole message counts its hops right exactly when a hop count at its end only comes
with interests that the node has as its own. -/
theorem each_interestExact_iff (received : List Interest) (hd : (types h).Nodup) :
    Each (learnOne now) (InterestExact now) h received ↔
      ∀ i ∈ received, i.hops = 255 → HoldsLocal h i.type := by
  induction received generalizing h with
  | nil => simp [Each]
  | cons i received ih =>
    rw [List.forall_mem_cons, Each, interestExact_iff hd]
    apply and_congr_right
    intro hsafe
    have hl := learnRemote_learns now { i with hops := i.hops + 1 } h
    have hrest := @ih (learnRemote now { i with hops := i.hops + 1 } h) (hl.nodup hd)
    simp only [learnOne_holdsLocal_iff hd hsafe rfl] at hrest
    rw [← hrest]
    constructor
    · intro hall
      exact hall _ rfl
    · intro hall h' hs
      obtain rfl := Except.ok.inj hs
      exact hall

theorem learnAll_holdsLocal_iff (received : List Interest) (hd : (types h).Nodup)
    (hsafe : ∀ i ∈ received, i.hops = 255 → HoldsLocal h i.type) (type : ContentType) :
    HoldsLocal (learnAll now received h) type ↔ HoldsLocal h type := by
  induction received generalizing h with
  | nil => exact Iff.rfl
  | cons i received ih =>
    rw [List.forall_mem_cons] at hsafe
    have hl := learnRemote_learns now { i with hops := i.hops + 1 } h
    have hone := @learnOne_holdsLocal_iff now h _ i hd hsafe.1 rfl
    apply (ih (hl.nodup hd) _).trans (hone type)
    intro j hj hhops
    exact (hone j.type).mpr (hsafe.2 j hj hhops)

end Learning

end InterestHelper

namespace ContentHelper

/-- An entry that is created, or whose hops are lowered, has one hop more than the message. -/
def MetadataExact (env : Surroundings) (h : ContentHelper) (m : ContentMetadata) : Prop :=
  ∀ h', itemStep env h m = .ok h' → ∀ r' ∈ h'.rmt, r'.data.hash = m.hash →
    ((∀ r ∈ h.rmt, r.data.hash ≠ m.hash) ∨
      ∃ r ∈ h.rmt, r.data.hash = m.hash ∧ r'.data.hops < r.data.hops) →
    r'.data.hops.toNat = m.hops.toNat + 1

/-- The number of deliveries that have brought the hops of each entry, after one more metadata
that came over `item.2` deliveries. -/
def itemChain (chain : Hash → ℕ) (h : ContentHelper) (item : ContentMetadata × ℕ) : Hash → ℕ :=
  let m := item.1
  if m.publisher = h.id then chain
  else
    match h.rmt.find? fun r => r.data.hash = m.hash with
    | some r =>
        if m.hops + 1 < r.data.hops then Function.update chain m.hash (item.2 + 1) else chain
    | none => Function.update chain m.hash (item.2 + 1)

/-- The same after a whole message. -/
def annChain (env : Surroundings) :
    (Hash → ℕ) → ContentHelper → List (ContentMetadata × ℕ) → Hash → ℕ
  | chain, _, [] => chain
  | chain, h, item :: items =>
      match itemStep env h item.1 with
      | .ok h' => annChain env (itemChain chain h item) h' items
      | .error _ => chain

/-- The tables tell the node's own metadata from those of others, which are all different
and as many hops away as `chain` says. -/
structure Travelled (chain : Hash → ℕ) (h : ContentHelper) : Prop where
  own : ∀ l ∈ h.lmt, l.data.publisher = h.id ∧ l.data.hops = 0
  foreign : ∀ r ∈ h.rmt, r.data.publisher ≠ h.id ∧ r.data.hops ≠ 0
  distinct : (h.rmt.map fun r => r.data.hash).Nodup
  near : ∀ r ∈ h.rmt, r.data.hops.toNat = chain r.data.hash

section Discovering

variable {env : Surroundings} {chain : Hash → ℕ} {h h' : ContentHelper} {m : ContentMetadata}

/-- What one metadata of a message does to the entry of its hash, by hops. -/
theorem metadataExact_iff (ht : Travelled chain h) (hs : itemStep env h m = .ok h') :
    MetadataExact env h m ↔ (m.publisher ≠ h.id → m.hops ≠ 255) := by
  have hsame : h'.rmt = h.rmt → MetadataExact env h m := by
    intro hrmt h₁ hs₁ r' hr' hhash hcase
    obtain rfl := Except.ok.inj (hs.symm.trans hs₁)
    rw [hrmt] at hr'
    rcases hcase with hnew | ⟨r, hr, hrhash, hlower⟩
    · exact (hnew r' hr' hhash).elim
    · obtain rfl := eq_of_hash ht.distinct hr' hr (hhash.trans hrhash.symm)
      exact (UInt8.lt_irrefl _ hlower).elim
  cases itemStep_discovers hs with
  | own hown => exact iff_of_true (hsame rfl) fun hother => (hother hown).elim
  | @known r hother hfind hfar =>
    apply iff_of_true (hsame rfl)
    intro _ hhops
    apply hfar
    rw [(add_one_eq_zero_iff _).mpr hhops]
    exact UInt8.pos_iff_ne_zero.mpr (ht.foreign r (find_mem hfind).1).2
  | @closer r hother hfind hnear =>
    obtain ⟨before, behind, hsplit, hhash, hupdated⟩ := @updateHops_split m.hash (m.hops + 1) _ r hfind
    have hr : r ∈ h.rmt := (find_mem hfind).1
    constructor
    · intro hexact _
      apply (toNat_add_one_iff _).mp
      refine hexact _ hs ⟨{ r.data with hops := m.hops + 1 }, r.nextAnnounce⟩ ?_ hhash
        (.inr ⟨r, hr, hhash, hnear⟩)
      rw [hupdated]
      simp
    · intro hsafe h₁ hs₁ r' hr' hrhash' hcase
      obtain rfl := Except.ok.inj (hs.symm.trans hs₁)
      rcases mem_updateHops ht.distinct hfind hr' with ⟨-, hne⟩ | rfl
      · exact (hne hrhash').elim
      · exact (toNat_add_one_iff _).mpr (hsafe hother)
  | created hother hfind hafter =>
    constructor
    · intro hexact _
      apply (toNat_add_one_iff _).mp
      refine hexact _ hs ⟨{ m with hops := m.hops + 1 }, env.now⟩ ?_ rfl (.inl (find_none hfind))
      rw [hafter.rmt_eq]
      simp
    · intro hsafe h₁ hs₁ r' hr' hrhash' hcase
      obtain rfl := Except.ok.inj (hs.symm.trans hs₁)
      rw [hafter.rmt_eq] at hr'
      rcases List.mem_append.mp hr' with hr' | hr'
      · exact (find_none hfind r' hr' hrhash').elim
      · obtain rfl := List.mem_singleton.mp hr'
        exact (toNat_add_one_iff _).mpr (hsafe hother)

/-- An entry is brought nearer. -/
theorem Travelled.closer {hash : Hash} {hops : UInt8} {len : ℕ} {r : RemoteMetadata}
    (ht : Travelled chain h) (hfind : (h.rmt.find? fun r => r.data.hash = hash) = some r)
    (hcount : hops.toNat = len + 1) :
    Travelled (Function.update chain hash (len + 1)) { h with rmt := updateHops hash hops h.rmt } := by
  refine ⟨ht.own, ?_, ?_, ?_⟩
  · intro r' hr'
    rcases mem_updateHops ht.distinct hfind hr' with ⟨hr', -⟩ | rfl
    · exact ht.foreign r' hr'
    · refine ⟨(ht.foreign r (find_mem hfind).1).1, ?_⟩
      rintro rfl
      cases hcount
  · rw [updateHops_map fun _ _ => rfl]
    exact ht.distinct
  · intro r' hr'
    rcases mem_updateHops ht.distinct hfind hr' with ⟨hr', hne⟩ | rfl
    · rw [Function.update_of_ne hne]
      exact ht.near r' hr'
    · rw [(find_mem hfind).2, Function.update_self]
      exact hcount

/-- An entry is created. -/
theorem Travelled.created {len : ℕ} {next : TimePoint} (ht : Travelled chain h)
    (hother : m.publisher ≠ h.id) (hfind : (h.rmt.find? fun r => r.data.hash = m.hash) = none)
    (hcount : m.hops.toNat = len + 1) :
    Travelled (Function.update chain m.hash (len + 1)) { h with rmt := h.rmt ++ [⟨m, next⟩] } := by
  have hnew := find_none hfind
  refine ⟨ht.own, ?_, ?_, ?_⟩
  · intro r' hr'
    rcases List.mem_append.mp hr' with hr' | hr'
    · exact ht.foreign r' hr'
    · obtain rfl := List.mem_singleton.mp hr'
      refine ⟨hother, ?_⟩
      intro hzero
      rw [hzero] at hcount
      cases hcount
  · rw [List.map_append, List.map_singleton]
    apply ht.distinct.append (List.nodup_singleton _)
    intro hash hmem hlast
    obtain rfl := List.mem_singleton.mp hlast
    obtain ⟨r, hr, hhash⟩ := List.mem_map.mp hmem
    exact hnew r hr hhash
  · intro r' hr'
    rcases List.mem_append.mp hr' with hr' | hr'
    · rw [Function.update_of_ne (hnew r' hr')]
      exact ht.near r' hr'
    · obtain rfl := List.mem_singleton.mp hr'
      rw [Function.update_self]
      exact hcount

theorem Travelled.beside (ht : Travelled chain h) (hb : Beside h h') : Travelled chain h' := by
  constructor
  · rw [hb.lmt_eq, hb.id_eq]
    exact ht.own
  · rw [hb.rmt_eq, hb.id_eq]
    exact ht.foreign
  · rw [hb.rmt_eq]
    exact ht.distinct
  · rw [hb.rmt_eq]
    exact ht.near

/-- A metadata that has kept count goes on to do so. -/
theorem item_travelled {len : ℕ} (ht : Travelled chain h) (hlen : m.hops.toNat = len)
    (hsafe : m.publisher ≠ h.id → m.hops ≠ 255) (hs : itemStep env h m = .ok h') :
    Travelled (itemChain chain h (m, len)) h' := by
  have hcount : m.publisher ≠ h.id → (m.hops + 1).toNat = len + 1 := by
    intro hother
    rw [(toNat_add_one_iff _).mpr (hsafe hother), hlen]
  unfold itemChain
  dsimp only
  cases itemStep_discovers hs with
  | own hpub =>
    rw [if_pos hpub]
    exact ht
  | known hother hfind hfar =>
    rw [if_neg hother, hfind]
    dsimp only
    rw [if_neg hfar]
    exact ht
  | closer hother hfind hnear =>
    rw [if_neg hother, hfind]
    dsimp only
    rw [if_pos hnear]
    exact ht.closer hfind (hcount hother)
  | created hother hfind hafter =>
    rw [if_neg hother, hfind]
    have hentry := @Travelled.created chain h { m with hops := m.hops + 1 } len env.now ht hother hfind
      (hcount hother)
    exact hentry.beside hafter

/-- A whole message counts its hops right exactly when a hop count at its end only comes
with metadata of the node itself. -/
theorem each_metadataExact_iff {ms : List ContentMetadata} {lens : List ℕ}
    (ht : Travelled chain h) (hlens : List.Forall₂ (fun m len => m.hops.toNat = len) ms lens)
    (hr : run (itemStep env) h ms = .ok h') :
    (Each (itemStep env) (MetadataExact env) h ms ↔
        ∀ m ∈ ms, m.publisher ≠ h.id → m.hops ≠ 255) ∧
      ((∀ m ∈ ms, m.publisher ≠ h.id → m.hops ≠ 255) →
        Travelled (annChain env chain h (ms.zip lens)) h') := by
  induction hlens generalizing chain h with
  | nil =>
    obtain rfl := Except.ok.inj hr
    exact ⟨by simp [Each], fun _ => ht⟩
  | @cons m len ms lens hlen hlens ih =>
    obtain ⟨h₁, hs, hr₁⟩ := run_cons_eq_ok hr
    have hid := (itemStep_discovers hs).id_eq
    have hrest := fun hsafe => ih (item_travelled ht hlen hsafe hs) hr₁
    rw [hid] at hrest
    rw [List.forall_mem_cons]
    constructor
    · rw [Each, metadataExact_iff ht hs]
      apply and_congr_right
      intro hsafe
      rw [← (hrest hsafe).1]
      constructor
      · intro hall
        exact hall h₁ hs
      · intro hall h₂ hs₂
        obtain rfl := Except.ok.inj (hs.symm.trans hs₂)
        exact hall
    · intro hsafe
      rw [List.zip_cons_cons, annChain, hs]
      exact (hrest hsafe.1).2 hsafe.2

/-- Calls other than the reception of metadata leave the hops as they are. -/
theorem Tables.travelled {op : Op} (htab : Tables env h op h') (ht : Travelled chain h)
    (hop : ∀ msg, op ≠ .receiveContentAnn msg) : Travelled chain h' := by
  have hsub := htab.rmt_cases.resolve_left fun ⟨msg, hmsg, _⟩ => hop msg hmsg
  have hremote : ∀ r ∈ h'.rmt, ∃ r₀ ∈ h.rmt, r₀.data = r.data := by
    intro r hr
    exact List.mem_map.mp (hsub.subset (List.mem_map_of_mem hr))
  constructor
  · intro l hl
    rw [htab.id_eq]
    rcases htab.lmt_mem hl with ⟨l₀, hl₀, hdata⟩ | ⟨hpub, hhops, -⟩
    · rw [← hdata]
      exact ht.own l₀ hl₀
    · exact ⟨hpub, hhops⟩
  · intro r hr
    obtain ⟨r₀, hr₀, hdata⟩ := hremote r hr
    rw [← hdata, htab.id_eq]
    exact ht.foreign r₀ hr₀
  · have hhashes := (hsub.map ContentMetadata.hash).nodup
    rw [List.map_map, List.map_map] at hhashes
    exact hhashes ht.distinct
  · intro r hr
    obtain ⟨r₀, hr₀, hdata⟩ := hremote r hr
    rw [← hdata]
    exact ht.near r₀ hr₀

/-- What is announced carries the hops it has travelled. -/
theorem willAnnounce_count (env : Surroundings) (ht : Travelled chain h) :
    ∀ m ∈ willAnnounce env h, m.hops.toNat = if m.publisher = h.id then 0 else chain m.hash := by
  intro m hm
  rcases List.mem_append.mp hm with hm | hm
  · obtain ⟨l, hl, rfl⟩ := List.mem_map.mp hm
    obtain ⟨hpub, hhops⟩ := ht.own l (List.mem_of_mem_filter hl)
    rw [if_pos hpub, hhops]
    rfl
  · obtain ⟨r, hr, rfl⟩ := List.mem_map.mp hm
    have hr := List.mem_of_mem_filter (List.mem_of_mem_filter hr)
    rw [if_neg (ht.foreign r hr).1]
    exact ht.near r hr

end Discovering

end ContentHelper

end YingSma
