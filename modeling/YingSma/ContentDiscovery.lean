import YingSma.ContentHelperMetadata
import YingSma.EntryTable
import YingSma.MessageReturns

/-! A publisher and a receiver with one clock, between which announcements of metadata take
no time, and whether what is announced can be found at the receiver. -/
namespace YingSma.ContentDiscovery
open TransitionRuns StateActions ContentHelper EntryTable

/-- Two nodes that do not have the same id. -/
structure Ends where
  publisher : NodeId
  receiver : NodeId
  different : publisher ≠ receiver

structure Pair where
  now : TimePoint
  publisher : ContentHelper
  receiver : ContentHelper

/-- Where a node is, and which types it finds an interest in. -/
structure Place where
  position : Vec2d
  containsAny : List ContentType → Bool

def Place.surroundings (now : TimePoint) (place : Place) : Surroundings :=
  ⟨now, place.position, place.containsAny⟩

/-- Any calls of the two helpers, and announcements of the publisher that the receiver
processes. -/
inductive Act
  | publisher (place : Place) (op : Op)
  | receiver (place : Place) (op : Op)
  | exchange (place place' : Place)

/-- The receiver takes in what it decodes of the bytes of an announcement. -/
def process (hasher : List UInt8 → Hash) (env : Surroundings) (sender : NodeId)
    (h : ContentHelper) (msg : ContentAnn) : Except Fault ContentHelper :=
  match MessageBuffer.replace bufferSize env.now ⟨sender, []⟩ (.contentAnn msg) with
  | .error e => .error e
  | .ok packet =>
      match decodePacket env.now packet with
      | .error e => .error e
      | .ok ((_, some (.contentAnn msg)), _) =>
          ContentHelper.step hasher h (env, .receiveContentAnn msg)
      | .ok _ => .ok h

/-- The publisher calls `announce_metadata`, and the receiver processes what it posts. -/
def exchange (hasher : List UInt8 → Hash) (env env' : Surroundings) (p r : ContentHelper) :
    Except Fault (ContentHelper × ContentHelper) :=
  match ContentHelper.step hasher p (env, .announceMetadata) with
  | .error e => .error e
  | .ok p' =>
      (run (process hasher env' p.id) r (contentAnns (newEffects p p'))).map fun r' => (p', r')

/-- An act `event.1` nanoseconds after the last one. -/
def step (hasher : List UInt8 → Hash) (s : Pair) (event : ℕ × Act) : Except Fault Pair :=
  let now := s.now + event.1
  match event.2 with
  | .publisher place op =>
      (ContentHelper.step hasher s.publisher (place.surroundings now, op)).map fun p =>
        ⟨now, p, s.receiver⟩
  | .receiver place op =>
      (ContentHelper.step hasher s.receiver (place.surroundings now, op)).map fun r =>
        ⟨now, s.publisher, r⟩
  | .exchange place place' =>
      (exchange hasher (place.surroundings now) (place'.surroundings now) s.publisher
        s.receiver).map fun out => ⟨now, out.1, out.2⟩

def start (ends : Ends) (now : TimePoint) : Pair :=
  ⟨now, .new ends.publisher, .new ends.receiver⟩

/-- `metadata` gives one with this hash. -/
def Discoverable (env : Surroundings) (h : ContentHelper) (hash : Hash) : Prop :=
  ∃ ms h', metadata env h = .ok (ms, h') ∧ ∃ m ∈ ms, m.hash = hash

/-- The local metadata in an announcement that the receiver processes can be found there at
that time. -/
def Found (hasher : List UInt8 → Hash) (s : Pair) (event : ℕ × Act) : Prop :=
  ∀ place place' s', event.2 = .exchange place place' → step hasher s event = .ok s' →
    ∀ msg ∈ contentAnns (newEffects s.publisher s'.publisher), ∀ l ∈ s.publisher.lmt,
      l.data ∈ msg.metadata → Discoverable (place'.surroundings s'.now) s'.receiver l.data.hash

/-- The local metadata that are announced. -/
def due (now : TimePoint) (h : ContentHelper) : List LocalMetadata :=
  h.lmt.filter fun l => now ≥ l.nextAnnounce

/-- The receiver has it itself or knows it and it has not expired, or the first that the
publisher has with this hash has a millisecond left. -/
def InTime (now : TimePoint) (p r : ContentHelper) (hash : Hash) : Prop :=
  (∃ own ∈ r.lmt, own.data.hash = hash) ∨
    match r.rmt.find? fun e => e.data.hash = hash with
    | some known => now < known.data.expiryTime
    | none => ∃ first, ((due now p).find? fun l => l.data.hash = hash) = some first ∧
        now + milli ≤ first.data.expiryTime

/-- The announcement of such metadata, or one that is not posted or not processed. -/
def Timely (hasher : List UInt8 → Hash) (s : Pair) (event : ℕ × Act) : Prop :=
  ∀ place place' s', event.2 = .exchange place place' → step hasher s event = .ok s' →
    ∀ l ∈ due (s.now + event.1) s.publisher,
      InTime (s.now + event.1) s.publisher s.receiver l.data.hash

/-- The hashes and expiry times in the remote table. -/
def lifetimes (h : ContentHelper) : List (Hash × TimePoint) :=
  h.rmt.map fun r => (r.data.hash, r.data.expiryTime)

/-- The same of the metadata in a message that are not the node's own. -/
def heard (id : NodeId) (ms : List ContentMetadata) : List (Hash × TimePoint) :=
  (ms.filter fun m => m.publisher ≠ id).map fun m => (m.hash, m.expiryTime)

/-- The tables tell the node's own metadata from those of others, which are all different. -/
structure Stored (now : TimePoint) (h : ContentHelper) : Prop where
  own : ∀ l ∈ h.lmt, l.data.publisher = h.id ∧ l.data.expiryTime ≤ now + defaultInitialTtl
  foreign : ∀ r ∈ h.rmt, r.data.publisher ≠ h.id
  distinct : Distinct (lifetimes h)

section Tables

variable {env : Surroundings} {now : TimePoint} {h h' : ContentHelper} {m : ContentMetadata}

theorem lookup_lifetimes (h : ContentHelper) (hash : Hash) :
    (lifetimes h).lookup hash =
      (h.rmt.find? fun r => r.data.hash = hash).map fun r => r.data.expiryTime :=
  lookup_map (fun r : RemoteMetadata => r.data.hash) (fun r => r.data.expiryTime) h.rmt hash

theorem heard_own (hown : m.publisher = h.id) : heard h.id [m] = [] := by
  rw [heard, List.filter_cons_of_neg (by simpa using hown), List.filter_nil, List.map_nil]

theorem heard_other (hother : m.publisher ≠ h.id) : heard h.id [m] = [(m.hash, m.expiryTime)] := by
  rw [heard, List.filter_cons_of_pos (by simpa using hother), List.filter_nil, List.map_singleton]

/-- An entry that is there keeps its expiry time, whatever is heard of it. -/
theorem discovers_lifetimes (hdis : Discovers env m h h') :
    lifetimes h' = (heard h.id [m]).foldl insertNew (lifetimes h) := by
  have hlookup := lookup_lifetimes h m.hash
  cases hdis with
  | own hown => rw [heard_own hown, List.foldl_nil]
  | known hother hfind =>
    rw [hfind, Option.map_some] at hlookup
    rw [heard_other hother, List.foldl_cons, List.foldl_nil, insertNew_known hlookup]
  | closer hother hfind =>
    rw [hfind, Option.map_some] at hlookup
    rw [heard_other hother, List.foldl_cons, List.foldl_nil, insertNew_known hlookup]
    exact updateHops_map (fun _ _ => rfl) _ _ _
  | created hother hfind hafter =>
    rw [hfind, Option.map_none] at hlookup
    rw [heard_other hother, List.foldl_cons, List.foldl_nil, insertNew_new hlookup, lifetimes,
      hafter.rmt_eq, List.map_append]
    rfl

theorem run_lifetimes {ms : List ContentMetadata} (hr : run (itemStep env) h ms = .ok h') :
    lifetimes h' = (heard h.id ms).foldl insertNew (lifetimes h) := by
  induction ms generalizing h with
  | nil =>
    obtain rfl := Except.ok.inj hr
    rfl
  | cons m ms ih =>
    obtain ⟨h₁, hs, hr₁⟩ := run_cons_eq_ok hr
    have hdis := itemStep_discovers hs
    have hheard : heard h.id (m :: ms) = heard h.id [m] ++ heard h.id ms := by
      unfold heard
      rw [← List.map_append, ← List.filter_append, List.singleton_append]
    rw [ih hr₁, hdis.id_eq, discovers_lifetimes hdis, hheard, List.foldl_append]

theorem Stored.later {later : TimePoint} (hst : Stored now h) (hle : now ≤ later) :
    Stored later h where
  own l hl := (hst.own l hl).imp_right fun hexpiry => hexpiry.trans (add_le_add_left hle _)
  foreign := hst.foreign
  distinct := hst.distinct

theorem stored_new (id : NodeId) (now : TimePoint) : Stored now (.new id) where
  own l hl := by cases hl
  foreign r hr := by cases hr
  distinct := List.nodup_nil

theorem discovers_foreign (hdis : Discovers env m h h')
    (hforeign : ∀ r ∈ h.rmt, r.data.publisher ≠ h.id) :
    ∀ r ∈ h'.rmt, r.data.publisher ≠ h'.id := by
  rw [hdis.id_eq]
  cases hdis with
  | own => exact hforeign
  | known => exact hforeign
  | closer =>
    intro r' hr'
    have hmem := List.mem_map_of_mem (f := fun r : RemoteMetadata => r.data.publisher) hr'
    rw [updateHops_map fun _ _ => rfl] at hmem
    obtain ⟨r₀, hr₀, hpub⟩ := List.mem_map.mp hmem
    rw [← hpub]
    exact hforeign r₀ hr₀
  | created hother _ hafter =>
    rw [hafter.rmt_eq, List.forall_mem_append]
    exact ⟨hforeign, by simpa using hother⟩

theorem run_foreign {ms : List ContentMetadata} (hr : run (itemStep env) h ms = .ok h')
    (hforeign : ∀ r ∈ h.rmt, r.data.publisher ≠ h.id) :
    ∀ r ∈ h'.rmt, r.data.publisher ≠ h'.id :=
  run_invariant (fun h₁ => ∀ r ∈ h₁.rmt, r.data.publisher ≠ h₁.id)
    (fun _ _ _ hforeign hs => discovers_foreign (itemStep_discovers hs) hforeign) hforeign hr

theorem run_distinct {ms : List ContentMetadata} (hr : run (itemStep env) h ms = .ok h')
    (hd : Distinct (lifetimes h)) : Distinct (lifetimes h') := by
  rw [run_lifetimes hr]
  exact hd.foldl_insertNew _

/-- No call enters metadata of the node itself as those of another. -/
theorem tables_foreign {op : Op} (htab : Tables env h op h')
    (hforeign : ∀ r ∈ h.rmt, r.data.publisher ≠ h.id) :
    ∀ r ∈ h'.rmt, r.data.publisher ≠ h'.id := by
  rcases htab.rmt_cases with ⟨msg, -, hr⟩ | hsub
  · exact run_foreign hr hforeign
  · intro r hr
    obtain ⟨r₀, hr₀, hdata⟩ := List.mem_map.mp (hsub.subset (List.mem_map_of_mem hr))
    rw [← hdata, htab.id_eq]
    exact hforeign r₀ hr₀

theorem tables_distinct {op : Op} (htab : Tables env h op h') (hd : Distinct (lifetimes h)) :
    Distinct (lifetimes h') := by
  rcases htab.rmt_cases with ⟨msg, -, hr⟩ | hsub
  · exact run_distinct hr hd
  · have hkeys := hsub.map fun m => (m.hash, m.expiryTime)
    rw [List.map_map, List.map_map] at hkeys
    exact (hkeys.map Prod.fst).nodup hd

/-- Every call keeps its own and other metadata apart. -/
theorem tables_stored {op : Op} (htab : Tables env h op h') (hst : Stored now h)
    (hle : now ≤ env.now) : Stored env.now h' := by
  refine ⟨?_, tables_foreign htab hst.foreign, tables_distinct htab hst.distinct⟩
  intro l hl
  rw [htab.id_eq]
  rcases htab.lmt_mem hl with ⟨l₀, hl₀, hdata⟩ | ⟨hpub, -, hexpiry⟩
  · rw [← hdata]
    exact (hst.later hle).own l₀ hl₀
  · exact ⟨hpub, hexpiry.le⟩

end Tables

section Pairs

variable {hasher : List UInt8 → Hash} {env env' : Surroundings} {p p' r r' : ContentHelper}

theorem metadata_discoverable (hst : Distinct (lifetimes r)) (hash : Hash) :
    Discoverable env r hash ↔ (∃ own ∈ r.lmt, own.data.hash = hash) ∨
      ∃ t, (lifetimes r).lookup hash = some t ∧ env.now < t := by
  have hlives : (∃ e ∈ r.rmt, !e.data.expired env.now ∧ e.data.hash = hash) ↔
      ∃ t, (lifetimes r).lookup hash = some t ∧ env.now < t := by
    constructor
    · rintro ⟨e, he, hexpired, rfl⟩
      refine ⟨e.data.expiryTime, hst.lookup_of_mem (List.mem_map_of_mem he), ?_⟩
      simpa [ContentMetadata.expired] using hexpired
    · rintro ⟨t, hlookup, hlt⟩
      obtain ⟨e, he, heq⟩ := List.mem_map.mp (mem_of_lookup hlookup)
      obtain ⟨rfl, rfl⟩ := Prod.mk.inj heq
      refine ⟨e, he, ?_, rfl⟩
      simpa [ContentMetadata.expired] using hlt
  have hmetadata : metadata env r = .ok _ := rfl
  rw [← hlives]
  constructor
  · rintro ⟨ms, h', hrun, m, hm, rfl⟩
    rw [(metadata_ok hrun).2] at hm
    rcases List.mem_append.mp hm with hm | hm
    · obtain ⟨l, hl, rfl⟩ := List.mem_map.mp hm
      exact .inl ⟨l, hl, rfl⟩
    · obtain ⟨e, he, rfl⟩ := List.mem_map.mp hm
      obtain ⟨he, hexpired⟩ := List.mem_filter.mp he
      exact .inr ⟨e, he, hexpired, rfl⟩
  · intro hheld
    refine ⟨_, _, hmetadata, ?_⟩
    rcases hheld with ⟨l, hl, rfl⟩ | ⟨e, he, hexpired, rfl⟩
    · exact ⟨l.data, List.mem_append_left _ (List.mem_map_of_mem hl), rfl⟩
    · exact ⟨e.data, List.mem_append_right _
        (List.mem_map_of_mem (List.mem_filter.mpr ⟨he, hexpired⟩)), rfl⟩

/-- The whole milliseconds between two times. -/
theorem whole_millis {start finish : ℤ} (hle : finish ≤ start + 10000 * 1000000) :
    let left := if start ≥ finish then 0 else (finish - start) / 1000000
    0 ≤ left ∧ left ≤ 10000 ∧ (0 < left ↔ start + 1000000 ≤ finish) := by
  dsimp only
  split_ifs
  · omega
  · omega

/-- A local metadata that is announced lives on at the receiver if it has a millisecond. -/
theorem decoded_lives {now : TimePoint} {m : ContentMetadata}
    (hle : m.expiryTime ≤ now + defaultInitialTtl) :
    now < (m.decoded now now).expiryTime ↔ now + milli ≤ m.expiryTime := by
  have hbounds : 0 ≤ m.ttl now ∧ m.ttl now ≤ 10000 ∧
      (0 < m.ttl now ↔ now + milli ≤ m.expiryTime) := whole_millis hle
  obtain ⟨hpos, hmax, hone⟩ := hbounds
  have hfield : ((UInt32.ofNat (m.ttl now).toNat).toNat : ℤ) = m.ttl now := by
    rw [UInt32.toNat_ofNat', Nat.mod_eq_of_lt (by omega)]
    omega
  rw [← hone]
  unfold ContentMetadata.decoded
  dsimp only
  rw [hfield, lt_add_iff_pos_right]
  exact mul_pos_iff_of_pos_right (by decide)

theorem process_ok {msg : ContentAnn} {sender : NodeId}
    (hs : process hasher env sender r msg = .ok r') :
    run (itemStep env) r (msg.decoded env.now env.now).metadata = .ok r' := by
  unfold process at hs
  cases hsent : MessageBuffer.replace bufferSize env.now ⟨sender, []⟩ (.contentAnn msg) with
  | error e =>
    rw [hsent] at hs
    cases hs
  | ok packet =>
    rw [hsent] at hs
    dsimp only at hs
    rw [packet_returns hsent env.now] at hs
    exact receiveContentAnn_ok hs

/-- The receiver goes through what the publisher announces. -/
theorem exchange_ok (hs : exchange hasher env env' p r = .ok (p', r')) :
    Announces env p p' ∧
      run (itemStep env') r
        ((willAnnounce env p).map (ContentMetadata.decoded env'.now env'.now)) = .ok r' := by
  unfold exchange at hs
  cases hannounce : ContentHelper.step hasher p (env, .announceMetadata) with
  | error e =>
    rw [hannounce] at hs
    cases hs
  | ok p₁ =>
    rw [hannounce] at hs
    obtain ⟨r₁, hprocess, heq⟩ := map_eq_ok hs
    obtain ⟨rfl, rfl⟩ := Prod.mk.inj heq
    obtain ⟨u, hrun⟩ := TransitionRuns.map_snd_ok hannounce
    obtain ⟨n, hok⟩ := discard_eq_ok hrun
    have ha := announceMetadata_announces hok
    refine ⟨ha, ?_⟩
    rw [ha.anns] at hprocess
    split_ifs at hprocess with hnone
    · rw [hnone]
      exact hprocess
    · obtain ⟨r₂, hone, hrest⟩ := run_cons_eq_ok hprocess
      obtain rfl := Except.ok.inj hrest
      exact process_ok hone

/-- Of what is announced, the local metadata are heard first. -/
theorem heard_lookup {now : TimePoint} {id : NodeId} {hash : Hash} {first : LocalMetadata}
    (hown : ∀ l ∈ p.lmt, l.data.publisher = p.id) (hne : p.id ≠ id)
    (hfind : ((due env.now p).find? fun l => l.data.hash = hash) = some first) :
    (heard id ((willAnnounce env p).map (ContentMetadata.decoded now now))).lookup hash =
      some (first.data.decoded now now).expiryTime := by
  have hlocals : ((((due env.now p).map LocalMetadata.data).map
      (ContentMetadata.decoded now now)).filter fun m => m.publisher ≠ id) =
      ((due env.now p).map LocalMetadata.data).map (ContentMetadata.decoded now now) := by
    rw [List.filter_eq_self]
    intro m hm
    obtain ⟨m₀, hm₀, rfl⟩ := List.mem_map.mp hm
    obtain ⟨l, hl, rfl⟩ := List.mem_map.mp hm₀
    have hpub := hown l (List.mem_of_mem_filter hl)
    simpa [ContentMetadata.decoded, hpub] using hne
  have hfirst := lookup_map (fun l : LocalMetadata => l.data.hash)
    (fun l => (l.data.decoded now now).expiryTime) (due env.now p) hash
  rw [hfind, Option.map_some] at hfirst
  unfold willAnnounce heard
  rw [List.map_append, List.filter_append, List.map_append, List.lookup_append]
  change ((((((due env.now p).map LocalMetadata.data).map
    (ContentMetadata.decoded now now)).filter fun m => m.publisher ≠ id).map _).lookup hash).or _ = _
  rw [hlocals, List.map_map, List.map_map]
  have hsame : ((due env.now p).map (((fun m : ContentMetadata => (m.hash, m.expiryTime)) ∘
      ContentMetadata.decoded now now) ∘ LocalMetadata.data)).lookup hash = _ := hfirst
  rw [hsame, Option.some_or]

/-- What is announced in time can be found afterwards, and nothing else. -/
theorem exchange_discoverable {l : LocalMetadata}
    (hs : exchange hasher env env' p r = .ok (p', r')) (hp : Stored env.now p)
    (hr : Stored env.now r) (hne : p.id ≠ r.id) (hnow : env'.now = env.now)
    (hl : l ∈ due env.now p) :
    Discoverable env' r' l.data.hash ↔ InTime env.now p r l.data.hash := by
  obtain ⟨-, hrun⟩ := exchange_ok hs
  have hlives := run_lifetimes hrun
  have hdistinct : Distinct (lifetimes r') := by
    rw [hlives]
    exact hr.distinct.foldl_insertNew _
  have hsome : ((due env.now p).find? fun x => x.data.hash = l.data.hash).isSome := by
    rw [List.find?_isSome]
    exact ⟨l, hl, decide_eq_true rfl⟩
  obtain ⟨first, hfind⟩ := Option.isSome_iff_exists.mp hsome
  have hfirst : first ∈ p.lmt := List.mem_of_mem_filter (List.mem_of_find?_eq_some hfind)
  have hheard := @heard_lookup env p env'.now r.id _ first (fun l hl => (hp.own l hl).1) hne hfind
  rw [metadata_discoverable hdistinct, run_lmt_eq hrun, hlives, lookup_foldl_insertNew,
    lookup_lifetimes, hheard, hnow]
  unfold InTime
  apply or_congr_right
  cases hknown : r.rmt.find? fun e => e.data.hash = l.data.hash with
  | some known => simp
  | none =>
    have hlater := decoded_lives (hp.own first hfirst).2
    simp [hfind, hlater]

end Pairs

section Runs

variable {hasher : List UInt8 → Hash} {s s' : Pair}

/-- Two nodes that keep their tables apart from each other's. -/
structure Kept (s : Pair) : Prop where
  publisher : Stored s.now s.publisher
  receiver : Stored s.now s.receiver
  different : s.publisher.id ≠ s.receiver.id

theorem kept_start (ends : Ends) (now : TimePoint) : Kept (start ends now) :=
  ⟨stored_new _ _, stored_new _ _, ends.different⟩

theorem step_exchange_ok {wait : ℕ} {place place' : Place}
    (hs : step hasher s (wait, .exchange place place') = .ok s') :
    s'.now = s.now + wait ∧ exchange hasher (place.surroundings (s.now + wait))
      (place'.surroundings (s.now + wait)) s.publisher s.receiver =
        .ok (s'.publisher, s'.receiver) := by
  obtain ⟨out, hout, rfl⟩ := map_eq_ok hs
  exact ⟨rfl, hout⟩

theorem step_publisher_ok {wait : ℕ} {place : Place} {op : Op}
    (hs : step hasher s (wait, .publisher place op) = .ok s') :
    ∃ p, ContentHelper.step hasher s.publisher (place.surroundings (s.now + wait), op) = .ok p ∧
      s' = ⟨s.now + wait, p, s.receiver⟩ := by
  obtain ⟨p, hp, heq⟩ := map_eq_ok hs
  exact ⟨p, hp, heq.symm⟩

theorem step_kept {event : ℕ × Act} (hkept : Kept s) (hs : step hasher s event = .ok s') :
    Kept s' := by
  obtain ⟨wait, act⟩ := event
  have hle : s.now ≤ s.now + wait := le_add_of_nonneg_right (Int.natCast_nonneg wait)
  cases act with
  | publisher place op =>
    obtain ⟨p', hp', rfl⟩ := step_publisher_ok hs
    have htab := step_tables hp'
    refine ⟨tables_stored htab hkept.publisher hle, hkept.receiver.later hle, ?_⟩
    rw [htab.id_eq]
    exact hkept.different
  | receiver place op =>
    obtain ⟨r', hr', rfl⟩ := map_eq_ok hs
    have htab := step_tables hr'
    refine ⟨hkept.publisher.later hle, tables_stored htab hkept.receiver hle, ?_⟩
    rw [htab.id_eq]
    exact hkept.different
  | exchange place place' =>
    obtain ⟨hnow, hexchange⟩ := step_exchange_ok hs
    obtain ⟨ha, hrun⟩ := exchange_ok hexchange
    have htab := Tables.announced ha
    have htab' := @Tables.received _ _ ⟨_⟩ _ hrun
    constructor
    · rw [hnow]
      exact tables_stored htab hkept.publisher hle
    · rw [hnow]
      exact tables_stored htab' hkept.receiver hle
    · rw [htab.id_eq, htab'.id_eq]
      exact hkept.different

/-- The local metadata in an announcement are those that are due. -/
theorem announced_due {now : TimePoint} {env : Surroundings} {p : ContentHelper} {l : LocalMetadata}
    (hp : Stored now p) (hl : l ∈ p.lmt) (hmem : l.data ∈ willAnnounce env p) :
    ∃ l' ∈ due env.now p, l'.data = l.data := by
  rcases List.mem_append.mp hmem with hmem | hmem
  · exact List.mem_map.mp hmem
  · obtain ⟨r, hr, hdata⟩ := List.mem_map.mp hmem
    have hforeign := hp.foreign r (List.mem_of_mem_filter (List.mem_of_mem_filter hr))
    rw [hdata] at hforeign
    exact (hforeign (hp.own l hl).1).elim

theorem found_iff {event : ℕ × Act} (hkept : Kept s) :
    Found hasher s event ↔ Timely hasher s event := by
  obtain ⟨wait, act⟩ := event
  have hle : s.now ≤ s.now + wait := le_add_of_nonneg_right (Int.natCast_nonneg wait)
  have hp := hkept.publisher.later hle
  have hr := hkept.receiver.later hle
  constructor
  · intro hfound place place' s' hact hs l hl
    obtain rfl := hact
    obtain ⟨hnow, hexchange⟩ := step_exchange_ok hs
    obtain ⟨ha, -⟩ := exchange_ok hexchange
    have hmem : l.data ∈ willAnnounce (place.surroundings (s.now + wait)) s.publisher :=
      List.mem_append_left _ (List.mem_map_of_mem hl)
    have hanns := ha.anns
    rw [if_neg (List.ne_nil_of_mem hmem)] at hanns
    have hdisc := hfound place place' s' rfl hs _ (by rw [hanns]; exact List.mem_singleton_self _)
      l (List.mem_of_mem_filter hl) hmem
    rw [hnow] at hdisc
    exact (exchange_discoverable hexchange hp hr hkept.different rfl hl).mp hdisc
  · intro htimely place place' s' hact hs msg hmsg l hl hmem
    obtain rfl := hact
    obtain ⟨hnow, hexchange⟩ := step_exchange_ok hs
    obtain ⟨ha, -⟩ := exchange_ok hexchange
    obtain rfl := (Tables.announced ha).anns hmsg
    obtain ⟨l', hl', hdata⟩ := announced_due hp hl hmem
    rw [hnow, ← hdata]
    exact (exchange_discoverable hexchange hp hr hkept.different rfl hl').mpr
      (htimely place place' s' rfl hs l' hl')

/-- In any run what the publisher announces of its own can be found at the receiver exactly
when the receiver has it or knows it unexpired, or is told of it in time. -/
theorem discoverable_iff (ends : Ends) (now : TimePoint) (events : List (ℕ × Act)) :
    Each (step hasher) (Found hasher) (start ends now) events ↔
      Each (step hasher) (Timely hasher) (start ends now) events := by
  refine each_congr Kept ?_ ?_ (kept_start ends now)
  · intro s event _ s' hkept _ hs
    exact step_kept hkept hs
  · intro s event _ hkept
    exact found_iff hkept

def twoNodes : Ends := ⟨⟨1⟩, ⟨2⟩, by decide⟩

def here : Place := ⟨⟨0, 0⟩, fun _ => false⟩

/-- An item that is announced ten seconds after its creation, with no time left, cannot be
found. -/
theorem late_announcement_lost :
    ¬ Each (step fun _ => default) (Found fun _ => default) (start twoNodes 0)
      [(0, .publisher here (.createNew [] ⟨[]⟩ [1])), (10000000000, .exchange here here)] := by
  intro hlaw
  have hok : (run (step fun _ => default) (start twoNodes 0)
      [(0, .publisher here (.createNew [] ⟨[]⟩ [1])), (10000000000, .exchange here here)]).isOk := by
    decide +kernel
  cases hrun : run (step fun _ => default) (start twoNodes 0)
      [(0, .publisher here (.createNew [] ⟨[]⟩ [1])), (10000000000, .exchange here here)] with
  | error e =>
    rw [hrun] at hok
    cases hok
  | ok s =>
    obtain ⟨s₁, hcreate, hrest⟩ := run_cons_eq_ok hrun
    obtain ⟨s₂, hexchange, -⟩ := run_cons_eq_ok hrest
    have htimely := (found_iff (step_kept (kept_start twoNodes 0) hcreate)).mp (hlaw.2 s₁ hcreate).1
    obtain ⟨p, hp, rfl⟩ := step_publisher_ok hcreate
    obtain ⟨u, hperform⟩ := TransitionRuns.map_snd_ok hp
    obtain ⟨m, hnew⟩ := discard_eq_ok hperform
    obtain ⟨m, hlmt, -, -, hexpiry⟩ := (createNew_publishes hnew).lmt_eq
    rw [show (start twoNodes 0).publisher.lmt = [] from rfl, List.nil_append] at hlmt
    have hdue : due (0 + (0 : ℕ) + (10000000000 : ℕ)) p = [⟨m, 0, 0⟩] := by
      unfold due
      rw [hlmt]
      rfl
    rcases htimely here here s₂ rfl hexchange ⟨m, 0, 0⟩ (hdue ▸ List.mem_singleton_self _) with
      ⟨own, hown, -⟩ | ⟨first, hfind, hlast⟩
    · cases hown
    · have hfirst := List.mem_of_find?_eq_some hfind
      rw [show (start twoNodes 0).now = 0 from rfl, hdue] at hfirst
      obtain rfl := List.mem_singleton.mp hfirst
      rw [hexpiry] at hlast
      have hlate : ¬ (0 : TimePoint) + (0 : ℕ) + (10000000000 : ℕ) + milli ≤
          0 + (0 : ℕ) + defaultInitialTtl := by decide
      exact hlate hlast

end Runs

end YingSma.ContentDiscovery
