import YingSma.ContentDiscovery
import YingSma.ContentHelperAnnouncing

/-! How often an entry of the metadata tables is announced. Both tables note when an entry may
be announced next, and only the local one is asked. -/
namespace YingSma.AnnouncementRate
open TransitionRuns StateActions EntryTable ContentHelper ContentDiscovery

/-- A local entry is known by its place, a remote one by its hash. -/
inductive Item
  | own (index : ℕ)
  | foreign (hash : Hash)
  deriving DecidableEq

/-- The hashes in the remote table and when they may be announced next. -/
def remoteDues (h : ContentHelper) : List (Hash × TimePoint) :=
  h.rmt.map fun r => (r.data.hash, r.nextAnnounce)

/-- `next_announce` of an entry that is in its table. -/
def nextDue (h : ContentHelper) : Item → Option TimePoint
  | .own i => h.lmt[i]?.map LocalMetadata.nextAnnounce
  | .foreign hash => (remoteDues h).lookup hash

/-- The remote entries a call of `announce_metadata` includes. -/
def wanted (env : Surroundings) (h : ContentHelper) : List RemoteMetadata :=
  (h.rmt.filter fun r => !r.data.expired env.now).filter fun r => env.containsAny r.data.types

/-- The entries a call of `announce_metadata` includes, and what it says of them. -/
def included (env : Surroundings) (h : ContentHelper) : List (Item × ContentMetadata) :=
  ((h.lmt.zipIdx.filter fun p => env.now ≥ p.1.nextAnnounce).map fun p => (.own p.2, p.1.data)) ++
    (wanted env h).map fun r => (.foreign r.data.hash, r.data)

/-- The entries announced by a call. -/
def announcedBy (env : Surroundings) (h : ContentHelper) : Op → List (Item × ContentMetadata)
  | .announceMetadata => included env h
  | _ => []

/-- A call `event.1` nanoseconds after the last one. -/
def step (hasher : List UInt8 → Hash) (s : TimePoint × ContentHelper)
    (event : ℕ × Surroundings × Op) : Except Fault (TimePoint × ContentHelper) :=
  let now := s.1 + event.1
  (ContentHelper.step hasher s.2 ({ event.2.1 with now := now }, event.2.2)).map fun h => (now, h)

/-- When each entry was announced last, as long as it is in its table. -/
def noteAnnounced (last : Item → Option TimePoint) (s : TimePoint × ContentHelper)
    (event : ℕ × Surroundings × Op) (s' : TimePoint × ContentHelper) : Item → Option TimePoint :=
  fun item =>
    if item ∈ (announcedBy { event.2.1 with now := s'.1 } s.2 event.2.2).map Prod.fst then some s'.1
    else if (nextDue s'.2 item).isSome then last item
    else none

/-- What is posted about metadata is about certain entries of the tables, none of them before its
`next_announce` or within a second of its last announcement. -/
def RateLimited (hasher : List UInt8 → Hash) (r : (Item → Option TimePoint) × TimePoint × ContentHelper)
    (event : ℕ × Surroundings × Op) : Prop :=
  ∀ s', step hasher r.2 event = .ok s' →
    let entries := announcedBy { event.2.1 with now := s'.1 } r.2.2 event.2.2
    (contentAnns (newEffects r.2.2 s'.2) =
      if entries = [] then [] else [⟨entries.map Prod.snd⟩]) ∧
    ∀ item ∈ entries.map Prod.fst,
      (∀ due, nextDue r.2.2 item = some due → due ≤ s'.1) ∧
      ∀ t, r.1 item = some t → t + 1000 * milli ≤ s'.1

/-- No remote entry that would be announced has a `next_announce` ahead. -/
def RemotesRested (s : TimePoint × ContentHelper) (event : ℕ × Surroundings × Op) : Prop :=
  let env : Surroundings := { event.2.1 with now := s.1 + event.1 }
  match event.2.2 with
  | .announceMetadata => Announceable env s.2 → ∀ r ∈ wanted env s.2, r.nextAnnounce ≤ env.now
  | _ => True

section Entries

variable {env : Surroundings} {now : TimePoint} {h h' : ContentHelper}

theorem distinct_remoteDues (hst : Stored now h) : Distinct (remoteDues h) := by
  have hkeys : (remoteDues h).map Prod.fst = (lifetimes h).map Prod.fst := by
    rw [remoteDues, lifetimes, List.map_map, List.map_map]
    rfl
  rw [Distinct, hkeys]
  exact hst.distinct

theorem nextDue_foreign (hst : Stored now h) {r : RemoteMetadata} (hr : r ∈ h.rmt) :
    nextDue h (.foreign r.data.hash) = some r.nextAnnounce :=
  (distinct_remoteDues hst).lookup_of_mem (List.mem_map_of_mem hr)

theorem mem_wanted {r : RemoteMetadata} :
    r ∈ wanted env h ↔ r ∈ h.rmt ∧ !r.data.expired env.now ∧ env.containsAny r.data.types := by
  simp only [wanted, List.mem_filter, and_assoc]

theorem own_mem_included {i : ℕ} :
    .own i ∈ (included env h).map Prod.fst ↔ ∃ l, h.lmt[i]? = some l ∧ l.nextAnnounce ≤ env.now := by
  have hremote : ∀ r ∈ wanted env h, (Item.foreign r.data.hash) ≠ .own i := fun r _ => by simp
  simp only [included, List.map_append, List.map_map, List.mem_append, List.mem_map,
    Function.comp_apply, List.mem_filter, List.mem_zipIdx_iff_getElem?, Prod.exists]
  constructor
  · rintro (⟨l, k, ⟨hk, hdue⟩, heq⟩ | ⟨r, -, heq⟩)
    · obtain rfl := Item.own.inj heq
      exact ⟨l, hk, by simpa using hdue⟩
    · cases heq
  · rintro ⟨l, hk, hdue⟩
    exact .inl ⟨l, i, ⟨hk, by simpa using hdue⟩, rfl⟩

theorem foreign_mem_included {hash : Hash} :
    .foreign hash ∈ (included env h).map Prod.fst ↔ ∃ r ∈ wanted env h, r.data.hash = hash := by
  simp only [included, List.map_append, List.map_map, List.mem_append, List.mem_map,
    Function.comp_apply]
  constructor
  · rintro (⟨p, -, heq⟩ | ⟨r, hr, heq⟩)
    · cases heq
    · exact ⟨r, hr, Item.foreign.inj heq⟩
  · rintro ⟨r, hr, rfl⟩
    exact .inr ⟨r, hr, rfl⟩

theorem filter_zipIdx (p : LocalMetadata → Bool) (lmt : List LocalMetadata) (k : ℕ) :
    ((lmt.zipIdx k).filter fun q => p q.1).map (fun q => q.1.data) =
      (lmt.filter p).map LocalMetadata.data := by
  induction lmt generalizing k with
  | nil => rfl
  | cons l lmt ih =>
    rw [List.zipIdx_cons, List.filter_cons, List.filter_cons]
    split_ifs
    · rw [List.map_cons, List.map_cons, ih]
    · exact ih (k + 1)

/-- The message lists what the entries say. -/
theorem included_data (env : Surroundings) (h : ContentHelper) :
    (included env h).map Prod.snd = willAnnounce env h := by
  rw [included, List.map_append, List.map_map, List.map_map, willAnnounce]
  congr 1
  exact filter_zipIdx (fun l => env.now ≥ l.nextAnnounce) h.lmt 0

theorem announced_nextAnnounce (now : TimePoint) (l : LocalMetadata) :
    now + 1000 * milli ≤ (LocalMetadata.announced now l).nextAnnounce := by
  have hdelay : ∀ delay : ℤ, 1000 * milli ≤ if delay < 1000 * milli then 1000 * milli else delay := by
    intro delay
    split_ifs with hshort
    · exact le_refl _
    · exact not_lt.mp hshort
  exact add_le_add_right (hdelay _) now

theorem announced_lmt (i : ℕ) : (h.announced env).lmt[i]? = h.lmt[i]?.map fun l =>
    if env.now ≥ l.nextAnnounce then LocalMetadata.announced env.now l else l :=
  List.getElem?_map

/-- An entry that is announced rests for a second. -/
theorem announced_rests (hst : Stored now (h.announced env)) {item : Item}
    (hitem : item ∈ (included env h).map Prod.fst) :
    ∃ due, nextDue (h.announced env) item = some due ∧ env.now + 1000 * milli ≤ due := by
  cases item with
  | own i =>
    obtain ⟨l, hl, hdue⟩ := own_mem_included.mp hitem
    refine ⟨_, ?_, announced_nextAnnounce env.now l⟩
    rw [nextDue, announced_lmt, hl, Option.map_some, Option.map_some, if_pos hdue]
  | foreign hash =>
    obtain ⟨r, hr, rfl⟩ := foreign_mem_included.mp hitem
    obtain ⟨hmem, halive, hany⟩ := mem_wanted.mp hr
    have hafter : ({ r with nextAnnounce := env.now + 1000 * milli } : RemoteMetadata) ∈
        (h.announced env).rmt := by
      refine List.mem_map.mpr ⟨r, List.mem_filter.mpr ⟨hmem, halive⟩, ?_⟩
      rw [if_pos hany]
    have hfound := nextDue_foreign hst hafter
    exact ⟨_, hfound, le_refl _⟩

/-- An entry that is not announced stays as it is or is dropped. -/
theorem announced_leaves (hst : Stored now h) {item : Item} {due : TimePoint}
    (hitem : item ∉ (included env h).map Prod.fst) (hdue : nextDue h item = some due) :
    nextDue (h.announced env) item = some due ∨ nextDue (h.announced env) item = none := by
  cases item with
  | own i =>
    obtain ⟨l, hl, rfl⟩ := Option.map_eq_some_iff.mp hdue
    apply Or.inl
    rw [nextDue, announced_lmt, hl, Option.map_some, if_neg, Option.map_some]
    intro hready
    exact hitem (own_mem_included.mpr ⟨l, hl, hready⟩)
  | foreign hash =>
    cases hafter : nextDue (h.announced env) (.foreign hash) with
    | none => exact .inr rfl
    | some due' =>
      obtain ⟨r', hr', heq⟩ := List.mem_map.mp (mem_of_lookup hafter)
      obtain ⟨r, hr, rfl⟩ := List.mem_map.mp hr'
      obtain ⟨hmem, halive⟩ := List.mem_filter.mp hr
      have hnot : ¬ env.containsAny r.data.types := by
        intro hany
        rw [if_pos hany] at heq
        exact hitem (foreign_mem_included.mpr
          ⟨r, mem_wanted.mpr ⟨hmem, halive, hany⟩, (Prod.mk.inj heq).1⟩)
      rw [if_neg hnot] at heq
      obtain ⟨rfl, rfl⟩ := Prod.mk.inj heq
      rw [← hdue, nextDue_foreign hst hmem]
      exact .inl rfl

theorem discovers_lookup {m : ContentMetadata} (hdis : Discovers env m h h') {hash : Hash}
    {due : TimePoint} (hdue : (remoteDues h).lookup hash = some due) :
    (remoteDues h').lookup hash = some due := by
  cases hdis with
  | own => exact hdue
  | known => exact hdue
  | closer => rwa [remoteDues, updateHops_map fun _ _ => rfl]
  | created _ _ hafter =>
    rw [remoteDues, hafter.rmt_eq, List.map_append, List.lookup_append]
    change ((remoteDues h).lookup hash).or _ = _
    rw [hdue, Option.some_or]

/-- Calls that announce nothing leave an entry as it is or drop it. -/
theorem tables_leave {op : Op} (htab : Tables env h op h') (hop : op ≠ .announceMetadata)
    (hst : Stored now h) {item : Item} {due : TimePoint} (hdue : nextDue h item = some due) :
    nextDue h' item = some due ∨ nextDue h' item = none := by
  have hsame : h'.lmt = h.lmt → h'.rmt = h.rmt → nextDue h' item = nextDue h item := by
    intro hlmt hrmt
    cases item <;> simp only [nextDue, remoteDues, hlmt, hrmt]
  cases htab with
  | announced => exact absurd rfl hop
  | beside hb =>
    rw [hsame hb.lmt_eq hb.rmt_eq]
    exact .inl hdue
  | published hp =>
    obtain ⟨m, hlmt, -⟩ := hp.lmt_eq
    apply Or.inl
    cases item with
    | foreign hash => rwa [nextDue, remoteDues, hp.rmt_eq]
    | own i =>
      obtain ⟨l, hl, rfl⟩ := Option.map_eq_some_iff.mp hdue
      obtain ⟨hlt, -⟩ := List.getElem?_eq_some_iff.mp hl
      rw [nextDue, hlmt, List.getElem?_append_left hlt, hl, Option.map_some]
  | received hr =>
    apply Or.inl
    cases item with
    | own i => rwa [nextDue, run_lmt_eq hr]
    | foreign hash =>
      exact run_invariant (fun h₁ => (remoteDues h₁).lookup hash = some due)
        (fun _ _ _ hkept hs => discovers_lookup (itemStep_discovers hs) hkept) hdue hr
  | pruned =>
    cases item with
    | own i => exact .inl hdue
    | foreign hash =>
      cases hafter : nextDue { h with rmt := h.rmt.filter fun r => !r.data.expired env.now }
          (.foreign hash) with
      | none => exact .inr rfl
      | some due' =>
        obtain ⟨r, hr, heq⟩ := List.mem_map.mp (mem_of_lookup hafter)
        obtain ⟨rfl, rfl⟩ := Prod.mk.inj heq
        rw [← hdue, nextDue_foreign hst (List.mem_filter.mp hr).1]
        exact .inl rfl

end Entries

section Runs

variable {hasher : List UInt8 → Hash} {env : Surroundings} {now : TimePoint} {h h' : ContentHelper}
  {op : Op}

theorem included_nothing (htables : NothingKnown h) : included env h = [] := by
  simp [included, wanted, htables.1, htables.2]

/-- A call lets the entries it announces rest, and the others stay or are dropped. -/
theorem step_rests (hs : ContentHelper.step hasher h (env, op) = .ok h') (hst : Stored now h)
    (hst' : Stored env.now h') (item : Item) :
    (item ∈ (announcedBy env h op).map Prod.fst →
      ∃ due, nextDue h' item = some due ∧ env.now + 1000 * milli ≤ due) ∧
    (item ∉ (announcedBy env h op).map Prod.fst → ∀ due, nextDue h item = some due →
      nextDue h' item = some due ∨ nextDue h' item = none) := by
  by_cases hop : op = .announceMetadata
  · subst hop
    by_cases htables : NothingKnown h
    · rw [step_idle htables] at hs
      obtain rfl := Except.ok.inj hs
      rw [announcedBy, included_nothing htables]
      exact ⟨fun hmem => absurd hmem List.not_mem_nil, fun _ due hdue => .inl hdue⟩
    · obtain ⟨-, rfl⟩ := (step_announced htables).mp hs
      exact ⟨announced_rests hst', fun hitem due hdue => announced_leaves hst hitem hdue⟩
  · have hnone : announcedBy env h op = [] := by
      cases op with
      | announceMetadata => exact absurd rfl hop
      | _ => rfl
    rw [hnone]
    exact ⟨fun hmem => absurd hmem List.not_mem_nil, fun _ due hdue =>
      tables_leave (step_tables hs) hop hst hdue⟩

/-- The announcements a call posts are of the entries it includes. -/
theorem step_anns (hs : ContentHelper.step hasher h (env, op) = .ok h') :
    contentAnns (newEffects h h') = if announcedBy env h op = [] then []
      else [⟨(announcedBy env h op).map Prod.snd⟩] := by
  by_cases hop : op = .announceMetadata
  · subst hop
    obtain ⟨u, hrun⟩ := TransitionRuns.map_snd_ok hs
    obtain ⟨n, hannounce⟩ := discard_eq_ok hrun
    rw [(announceMetadata_announces hannounce).anns, announcedBy, included_data, ← included_data]
    simp only [List.map_eq_nil_iff]
  · rw [(step_unannounced hop hs).anns]
    cases op with
    | announceMetadata => exact absurd rfl hop
    | _ => rfl

/-- The clock, the tables, and for each entry the time it was last announced. -/
structure Paced (r : (Item → Option TimePoint) × TimePoint × ContentHelper) : Prop where
  stored : Stored r.2.1 r.2.2
  rested : ∀ item t, r.1 item = some t →
    ∃ due, nextDue r.2.2 item = some due ∧ t + 1000 * milli ≤ due

variable {r r' : (Item → Option TimePoint) × TimePoint × ContentHelper}
  {event : ℕ × Surroundings × Op}

theorem step_ok {s s' : TimePoint × ContentHelper} (hs : step hasher s event = .ok s') :
    ContentHelper.step hasher s.2 ({ event.2.1 with now := s'.1 }, event.2.2) = .ok s'.2 ∧
      s'.1 = s.1 + event.1 := by
  obtain ⟨h', hstep, rfl⟩ := map_eq_ok hs
  exact ⟨hstep, rfl⟩

theorem step_stored {s s' : TimePoint × ContentHelper} (hst : Stored s.1 s.2)
    (hs : step hasher s event = .ok s') : Stored s'.1 s'.2 := by
  obtain ⟨hstep, hnow⟩ := step_ok hs
  refine tables_stored (step_tables hstep) hst ?_
  rw [hnow]
  exact le_add_of_nonneg_right (Int.natCast_nonneg _)

theorem step_paced (hpaced : Paced r) (hs : noted (step hasher) noteAnnounced r event = .ok r') :
    Paced r' := by
  obtain ⟨hstep, hnote⟩ := noted_ok hs
  have hstored := step_stored hpaced.stored hstep
  refine ⟨hstored, ?_⟩
  intro item t ht
  obtain ⟨hrests, hleaves⟩ := step_rests (step_ok hstep).1 hpaced.stored hstored item
  rw [hnote, noteAnnounced] at ht
  split_ifs at ht with hitem hthere
  · obtain rfl := Option.some.inj ht
    exact hrests hitem
  · obtain ⟨due, hdue, hle⟩ := hpaced.rested item t ht
    rcases hleaves hitem due hdue with hkept | hgone
    · exact ⟨due, hkept, hle⟩
    · rw [hgone] at hthere
      cases hthere

/-- An entry that is included is due, a local one in any case. -/
theorem included_due (hst : Stored now h) (hrested : ∀ r ∈ wanted env h, r.nextAnnounce ≤ env.now)
    {item : Item} (hitem : item ∈ (included env h).map Prod.fst) {due : TimePoint}
    (hdue : nextDue h item = some due) : due ≤ env.now := by
  cases item with
  | own i =>
    obtain ⟨l, hl, hready⟩ := own_mem_included.mp hitem
    rw [nextDue, hl, Option.map_some] at hdue
    exact Option.some.inj hdue ▸ hready
  | foreign hash =>
    obtain ⟨r, hr, rfl⟩ := foreign_mem_included.mp hitem
    rw [nextDue_foreign hst (mem_wanted.mp hr).1] at hdue
    exact Option.some.inj hdue ▸ hrested r hr

theorem announced_only {op : Op} {env : Surroundings} {h : ContentHelper} {item : Item}
    (hitem : item ∈ (announcedBy env h op).map Prod.fst) :
    op = .announceMetadata ∧ item ∈ (included env h).map Prod.fst := by
  cases op with
  | announceMetadata => exact ⟨rfl, hitem⟩
  | _ => cases hitem

/-- Local entries are announced in time, so that it depends on the remote ones. -/
theorem rateLimited_iff (hpaced : Paced r) :
    RateLimited hasher r event ↔ RemotesRested r.2 event := by
  obtain ⟨last, now, h⟩ := r
  obtain ⟨wait, env, op⟩ := event
  constructor
  · intro hlimited
    cases op with
    | announceMetadata =>
      intro hfits r hr
      have htables : ¬ NothingKnown h := by
        intro hnothing
        rw [wanted, hnothing.2] at hr
        cases hr
      have hstep : step hasher (now, h) (wait, env, .announceMetadata) =
          .ok (now + wait, h.announced { env with now := now + wait }) :=
        congrArg (Except.map _) ((step_announced htables).mpr ⟨hfits, rfl⟩)
      obtain ⟨-, hentries⟩ := hlimited _ hstep
      have hitem := foreign_mem_included.mpr ⟨r, hr, rfl⟩
      exact (hentries _ hitem).1 _ (nextDue_foreign hpaced.stored (mem_wanted.mp hr).1)
    | _ => trivial
  · intro hrested s' hs
    obtain ⟨hstep, hnow⟩ := step_ok hs
    refine ⟨step_anns hstep, ?_⟩
    intro item hitem
    obtain ⟨rfl, hincluded⟩ := announced_only hitem
    have hready : ∀ due, nextDue h item = some due → due ≤ s'.1 := by
      intro due hdue
      refine included_due hpaced.stored ?_ hincluded hdue
      by_cases htables : NothingKnown h
      · intro r hr
        rw [wanted, htables.2] at hr
        cases hr
      · rw [hnow] at hstep ⊢
        exact hrested ((step_announced htables).mp hstep).1
    refine ⟨hready, ?_⟩
    intro t ht
    obtain ⟨due, hdue, hle⟩ := hpaced.rested item t ht
    exact hle.trans (hready due hdue)

theorem paced_start (flags : Flags) (id : NodeId) (start : TimePoint) :
    Paced (fun _ => none, start, build flags id) :=
  ⟨⟨fun l hl => (by cases hl), fun r hr => (by cases hr), List.nodup_nil⟩,
    fun item t ht => (by cases ht)⟩

/-- Every announcement of a run is of entries that are due and have rested for a second exactly
if no call of `announce_metadata` finds a remote entry to announce that is not due. -/
theorem rate_limited_iff (hasher : List UInt8 → Hash) (flags : Flags) (id : NodeId)
    (start : TimePoint) (events : List (ℕ × Surroundings × Op)) :
    Each (noted (step hasher) noteAnnounced) (RateLimited hasher)
        (fun _ => none, start, build flags id) events ↔
      Each (step hasher) RemotesRested (start, build flags id) events := by
  rw [← each_noted noteAnnounced (fun _ => none)]
  refine each_congr Paced ?_ ?_ (paced_start flags id start)
  · intro r event _ r' hpaced _ hs
    exact step_paced hpaced hs
  · intro r event _ hpaced
    exact rateLimited_iff hpaced

/-- A call that finds such an entry announces it again. -/
theorem announced_early {flags : Flags} {id : NodeId} {start : TimePoint}
    {events : List (ℕ × Surroundings × Op)} {s : TimePoint × ContentHelper}
    (hrun : run (step hasher) (start, build flags id) events = .ok s)
    (hearly : ¬ RemotesRested s event) :
    ¬ Each (noted (step hasher) noteAnnounced) (RateLimited hasher)
      (fun _ => none, start, build flags id) (events ++ [event]) := by
  intro hlaw
  obtain ⟨last, hnoted⟩ := run_noted noteAnnounced (fun _ => none) hrun
  have hpaced := run_invariant Paced (fun _ _ _ hpaced hs => step_paced hpaced hs)
    (paced_start flags id start) hnoted
  have hlimited := ((each_append _ _ _).mp hlaw).2 _ hnoted
  exact hearly ((rateLimited_iff hpaced).mp hlimited.1)

/-- The interest table holds the one type that is announced below. -/
def somewhere : Surroundings := ⟨0, ⟨0, 0⟩, fun types => types.contains ⟨[97]⟩⟩

/-- What another node announces. -/
def foreignItem : ContentMetadata where
  hash := default
  size := 1
  blockSize := 1024
  types := [⟨[97]⟩]
  name := ⟨[]⟩
  origin := ⟨0, 0⟩
  publisher := ⟨2⟩
  publishTimeMs := 0
  hops := 0
  expiryTime := 10000 * milli

def heardThenAnnounced : List (ℕ × Surroundings × Op) :=
  [(0, nowhere, .receiveContentAnn ⟨[foreignItem]⟩), (0, somewhere, .announceMetadata)]

/-- What was heard from another node is announced twice in a nanosecond. -/
theorem remote_announced_twice :
    ¬ Each (noted (step fun _ => default) noteAnnounced) (RateLimited fun _ => default)
      (fun _ => none, 0, build ⟨true, true, true, true⟩ ⟨1⟩)
      (heardThenAnnounced ++ [(1, somewhere, .announceMetadata)]) := by
  have hready : ((run (step fun _ => default) (0, build ⟨true, true, true, true⟩ ⟨1⟩)
      heardThenAnnounced).map fun s =>
        ((wanted { somewhere with now := s.1 + 1 } s.2).any fun r => !(r.nextAnnounce ≤ s.1 + 1)) &&
          (MessageBuffer.replace bufferSize (s.1 + 1) ⟨s.2.id, []⟩
            (.contentAnn ⟨willAnnounce { somewhere with now := s.1 + 1 } s.2⟩)).isOk) = .ok true := by
    decide +kernel
  obtain ⟨s, hrun, hcheck⟩ := map_eq_ok hready
  obtain ⟨hwanted, hfits⟩ := (Bool.and_eq_true _ _).mp hcheck
  obtain ⟨r, hr, hahead⟩ := List.any_eq_true.mp hwanted
  apply announced_early hrun
  intro hrested
  have hannounceable : Announceable { somewhere with now := s.1 + 1 } s.2 := by
    apply Or.inr
    cases hsent : MessageBuffer.replace bufferSize (s.1 + 1) ⟨s.2.id, []⟩
        (.contentAnn ⟨willAnnounce { somewhere with now := s.1 + 1 } s.2⟩) with
    | ok packet => exact ⟨packet, rfl⟩
    | error e =>
      rw [hsent] at hfits
      cases hfits
  have hdue := hrested hannounceable r hr
  rw [Bool.not_eq_true', decide_eq_false_iff_not] at hahead
  exact hahead hdue

end Runs

end YingSma.AnnouncementRate
