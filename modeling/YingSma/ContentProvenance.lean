import YingSma.BlockProvenance
import YingSma.Sha256Digest

/-! What travels through a network comes from where it was published: the metadata are those of
`create_new`, and the blocks are pieces of its contents. -/
namespace YingSma.AnnouncementNetwork
open TransitionRuns ContentHelper
open ContentCache (chunk)

/-- A content that was given to `create_new`, with the metadata made of it. -/
structure Publication (hasher : List UInt8 → Hash) where
  metadata : ContentMetadata
  src : List UInt8
  hash_eq : metadata.hash = hasher src

variable {N : Type} {hasher : List UInt8 → Hash}

/-- The publications so far. -/
def publish (g : List (Publication hasher)) (net : Network N) (event : ℕ × Act N) :
    List (Publication hasher) :=
  match event.2 with
  | .call node position (.createNew types name src) =>
      g ++ [⟨createdMetadata hasher (surroundings (advance net event.1) node position)
        (net.nodes node).contents.id types name src, src, rfl⟩]
  | _ => g

/-- The metadata are those of a publication, apart from the hops and the time left. -/
def Describes (g : List (Publication hasher)) (m : ContentMetadata) : Prop :=
  ∃ p ∈ g, m = { p.metadata with hops := m.hops, expiryTime := m.expiryTime }

/-- The bytes are a block of a content published under the hash. An index other than 0 is the
place of the block, an index 0 may stand for any. -/
def PieceOf (g : List (Publication hasher)) (ref : BlockRef) (bytes : List UInt8) : Prop :=
  ∃ p ∈ g, p.metadata.hash = ref.hash ∧ ∃ k, k * blockSize < p.src.length ∧
    bytes = chunk p.src k ∧ (ref.index = 0 ∨ ref.index.toNat = k)

/-- Every local entry has just the metadata that were made of a content at this node. -/
structure Listed (g : List (Publication hasher)) (h : ContentHelper) : Prop where
  lmt : ∀ l ∈ h.lmt, ∃ p ∈ g, l.data = p.metadata ∧ p.metadata.publisher = h.id
  rmt : ∀ r ∈ h.rmt, Describes g r.data

/-- Nothing in the tables, in the caches and in the air is made up. -/
structure MetadataTraced (r : List (Publication hasher) × Network N) : Prop where
  tables : ∀ node, Listed r.1 (r.2.nodes node).contents
  air : ∀ p ∈ r.2.air, ∀ msg, p.msg = .contentAnn msg → ∀ m ∈ msg.metadata, Describes r.1 m

structure BlocksTraced (r : List (Publication hasher) × Network N) : Prop where
  cache : ∀ node hash, ∀ b ∈ (r.2.nodes node).contents.cache.held hash,
    PieceOf r.1 ⟨hash, b.1⟩ b.2
  store : ∀ node hash, ∀ b ∈ (r.2.nodes node).contents.store.held hash,
    PieceOf r.1 ⟨hash, b.1⟩ b.2
  air : ∀ p ∈ r.2.air, ∀ msg, p.msg = .blockResponse msg → PieceOf r.1 msg.block msg.data

section Publications

variable {g g' : List (Publication hasher)} {net : Network N}
  {event : ℕ × Act N} {env : Surroundings} {h h' : ContentHelper} {m : ContentMetadata}

theorem publish_subset (g : List (Publication hasher)) (net : Network N) (event : ℕ × Act N) :
    g ⊆ publish g net event := by
  unfold publish
  split
  · exact List.subset_append_left _ _
  · exact List.Subset.refl g

theorem Describes.mono (hsub : g ⊆ g') (hm : Describes g m) : Describes g' m := by
  obtain ⟨p, hp, heq⟩ := hm
  exact ⟨p, hsub hp, heq⟩

/-- Hops and times may change on the way. -/
theorem Describes.with (hm : Describes g m) (hops : UInt8) (expiryTime : TimePoint) :
    Describes g { m with hops := hops, expiryTime := expiryTime } := by
  obtain ⟨p, hp, heq⟩ := hm
  refine ⟨p, hp, ?_⟩
  rw [heq]

theorem PieceOf.mono (hsub : g ⊆ g') {ref : BlockRef} {bytes : List UInt8}
    (hp : PieceOf g ref bytes) : PieceOf g' ref bytes := by
  obtain ⟨p, hmem, hpiece⟩ := hp
  exact ⟨p, hsub hmem, hpiece⟩

theorem PieceOf.first {ref : BlockRef} {bytes : List UInt8} (hp : PieceOf g ref bytes) :
    PieceOf g ⟨ref.hash, 0⟩ bytes := by
  obtain ⟨p, hmem, hhash, k, hk, hbytes, -⟩ := hp
  exact ⟨p, hmem, hhash, k, hk, hbytes, .inl rfl⟩

/-- A single block is the whole content. -/
theorem PieceOf.digest (hsmall : ∀ p ∈ g, p.src.length ≤ blockSize)
    {ref : BlockRef} {bytes : List UInt8} (hp : PieceOf g ref bytes) : hasher bytes = ref.hash := by
  obtain ⟨p, hmem, hhash, k, hk, rfl, -⟩ := hp
  have hle := hsmall p hmem
  have hzero : k = 0 := by
    by_contra hne
    have hmul : 1 * blockSize ≤ k * blockSize :=
      Nat.mul_le_mul_right _ (Nat.one_le_iff_ne_zero.mpr hne)
    omega
  subst hzero
  rw [← hhash, p.hash_eq, chunk, Nat.zero_mul, List.drop_zero, List.take_of_length_le hle]

theorem Listed.mono (hsub : g ⊆ g') (hl : Listed g h) : Listed g' h where
  lmt l hmem := by
    obtain ⟨p, hp, heq⟩ := hl.lmt l hmem
    exact ⟨p, hsub hp, heq⟩
  rmt r hr := (hl.rmt r hr).mono hsub

theorem willAnnounce_described (hl : Listed g h) :
    ∀ m ∈ willAnnounce env h, Describes g m := by
  intro m hm
  rcases List.mem_append.mp hm with hm | hm
  · obtain ⟨l, hmem, rfl⟩ := List.mem_map.mp hm
    obtain ⟨p, hp, heq, -⟩ := hl.lmt l (List.mem_filter.mp hmem).1
    exact ⟨p, hp, by rw [heq]⟩
  · obtain ⟨r, hr, rfl⟩ := List.mem_map.mp hm
    exact hl.rmt r (List.mem_filter.mp (List.mem_filter.mp hr).1).1

/-- Metadata that are described keep the tables described. -/
theorem itemStep_listed (hl : Listed g h) (hm : Describes g m)
    (hs : itemStep env h m = .ok h') : Listed g h' := by
  have hdis := itemStep_discovers hs
  refine ⟨fun l hmem => ?_, fun r hr => ?_⟩
  · rw [hdis.id_eq]
    exact hl.lmt l (hdis.lmt_eq ▸ hmem)
  · cases hdis with
    | own => exact hl.rmt r hr
    | known => exact hl.rmt r hr
    | closer hother hfind hnear =>
      obtain ⟨before, behind, hsplit, -, hupdated⟩ := updateHops_split hfind
      rw [hupdated] at hr
      have hold : ∀ x ∈ before ++ _ :: behind, Describes g x.data := fun x hx =>
        hl.rmt x (hsplit ▸ hx)
      rcases List.mem_append.mp hr with hr | hr
      · exact hold r (List.mem_append_left _ hr)
      · rcases List.mem_cons.mp hr with rfl | hr
        · exact (hold _ (List.mem_append_right _ List.mem_cons_self)).with _ _
        · exact hold r (List.mem_append_right _ (List.mem_cons_of_mem _ hr))
    | created hother hfind hafter =>
      rw [hafter.rmt_eq] at hr
      rcases List.mem_append.mp hr with hr | hr
      · exact hl.rmt r hr
      · rw [List.mem_singleton.mp hr]
        exact hm.with _ _

/-- A call other than `create_new` keeps the tables described, whatever described metadata it
receives. -/
theorem step_listed {op : Op} (hop : ∀ types name src, op ≠ .createNew types name src)
    (hmsg : ∀ msg, op = .receiveContentAnn msg → ∀ m ∈ msg.metadata, Describes g m)
    (hsound : Sound h) (hl : Listed g h) (hs : ContentHelper.step hasher h (env, op) = .ok h') :
    Listed g h' := by
  have htab := step_tables hs
  obtain ⟨-, hlmt, -⟩ := step_keeps env hasher hop hs hsound
  rcases htab.rmt_cases with ⟨msg, rfl, hrun⟩ | hsub
  · refine run_keeps (Listed g) (fun m hm h h' hl hs => ?_) hl hrun
    exact itemStep_listed hl (hmsg msg rfl m hm) hs
  · refine ⟨fun l hmem => ?_, fun r hr => ?_⟩
    · have hdata : l.data ∈ h.lmt.map LocalMetadata.data := hlmt ▸ List.mem_map_of_mem hmem
      obtain ⟨l₀, hl₀, heq⟩ := List.mem_map.mp hdata
      rw [← heq, htab.id_eq]
      exact hl.lmt l₀ hl₀
    · obtain ⟨r₀, hr₀, heq⟩ := List.mem_map.mp (hsub.subset (List.mem_map_of_mem hr))
      rw [← heq]
      exact hl.rmt r₀ hr₀

end Publications

section Network

variable {g : List (Publication hasher)}

/-- What is kept of each helper. -/
structure Traced (g : List (Publication hasher)) (h : ContentHelper) : Prop extends Sound h where
  genuine : Genuine (PieceOf g) h
  listed : Listed g h

/-- What is kept of each message. -/
def TracedMessage (g : List (Publication hasher)) : Message → Prop
  | .contentAnn msg => ∀ m ∈ msg.metadata, Describes g m
  | .blockResponse msg => PieceOf g msg.block msg.data
  | _ => True

/-- The posts of a call are traced as the helper is before and after it. -/
theorem posts_traced {op : Op} {env : Surroundings} {h h' : ContentHelper} (hl : Listed g h)
    (hg : Genuine (PieceOf g) h') (hs : ContentHelper.step hasher h (env, op) = .ok h') :
    ∀ msg ∈ posts (newEffects h h'), TracedMessage g msg := by
  intro msg hmsg
  cases msg with
  | contentAnn msg =>
    obtain rfl := (step_tables hs).anns (mem_contentAnns hmsg)
    exact willAnnounce_described hl
  | blockResponse msg =>
    obtain ⟨e, he, hpost⟩ := List.mem_filterMap.mp hmsg
    have heffect : e ∈ h'.effects := List.mem_of_mem_drop he
    cases e with
    | post msg' =>
      obtain rfl := Option.some.inj hpost
      exact hg.posted msg heffect
    | _ => cases hpost
  | _ => trivial

/-- A call that publishes nothing. -/
theorem step_traced {op : Op} {env : Surroundings} {h h' : ContentHelper}
    (hop : ∀ types name src, op ≠ .createNew types name src)
    (hann : ∀ msg, op = .receiveContentAnn msg → ∀ m ∈ msg.metadata, Describes g m)
    (hresponse : ∀ msg, op = .receiveBlockResponse msg → PieceOf g msg.block msg.data)
    (ht : Traced g h) (hs : ContentHelper.step hasher h (env, op) = .ok h') :
    KeepsTrack Traced TracedMessage g h h' := by
  have hgenuine : Genuine (PieceOf g) h' := by
    by_cases hresp : ∃ msg, op = .receiveBlockResponse msg
    · obtain ⟨msg, rfl⟩ := hresp
      exact step_response_genuine PieceOf.first ht.toSound (hresponse msg rfl) ht.genuine hs
    · exact step_other_genuine hop (fun msg hmsg => hresp ⟨msg, hmsg⟩) hs ht.genuine
  exact ⟨⟨step_sound ht.toSound hs, hgenuine, step_listed hop hann ht.toSound ht.listed hs⟩,
    posts_traced ht.listed hgenuine hs⟩

/-- A call of `create_new`, with its publication noted. -/
theorem createNew_traced {types : List ContentType} {name : ContentName} {src : List UInt8}
    {env : Surroundings} {h h' : ContentHelper} (ht : Traced g h)
    (hmem : ⟨createdMetadata hasher env h.id types name src, src, rfl⟩ ∈ g)
    (hs : ContentHelper.step hasher h (env, .createNew types name src) = .ok h') :
    KeepsTrack Traced TracedMessage g h h' := by
  have hgenuine : Genuine (PieceOf g) h' := by
    refine step_createNew_genuine ht.toSound (fun k hk hlt => ?_) ht.genuine hs
    refine ⟨_, hmem, rfl, k, hlt, rfl, .inr ?_⟩
    rw [UInt16.toNat_ofNat', Nat.mod_eq_of_lt (by omega)]
  refine ⟨⟨step_sound ht.toSound hs, hgenuine, ?_⟩, posts_traced ht.listed hgenuine hs⟩
  obtain ⟨cache, -, rfl⟩ := step_createNew_eq hs
  refine ⟨fun l hl => ?_, ht.listed.rmt⟩
  rcases List.mem_append.mp hl with hl | hl
  · exact ht.listed.lmt l hl
  · rw [List.mem_singleton.mp hl]
    exact ⟨_, hmem, rfl, rfl⟩

theorem trackable (hasher : List UInt8 → Hash) :
    Trackable hasher (publish : List (Publication hasher) → Network N → ℕ × Act N → _) Traced
      TracedMessage where
  later := by
    intro g net event h ht
    have hsub := publish_subset g net event
    exact ⟨ht.toSound, ht.genuine.mono fun _ _ hp => hp.mono hsub, ht.listed.mono hsub⟩
  later_msg := by
    intro g net event msg hmsg
    have hsub := publish_subset g net event
    cases msg with
    | contentAnn msg => exact fun m hm => (hmsg m hm).mono hsub
    | blockResponse msg => exact PieceOf.mono hsub hmsg
    | _ => trivial
  interest := fun _ _ => trivial
  call := by
    intro g net wait node position op h' hreceive ht hs
    have hsub := publish_subset g net (wait, .call node position op)
    have hlater : Traced (publish g net (wait, .call node position op))
        (net.nodes node).contents :=
      ⟨ht.toSound, ht.genuine.mono fun _ _ hp => hp.mono hsub, ht.listed.mono hsub⟩
    by_cases hop : ∃ types name src, op = .createNew types name src
    · obtain ⟨types, name, src, rfl⟩ := hop
      exact createNew_traced hlater (List.mem_append_right _ (List.mem_singleton_self _)) hs
    · simp only [not_exists] at hop
      refine step_traced hop ?_ ?_ hlater hs
      · rintro msg rfl
        cases hreceive
      · rintro msg rfl
        cases hreceive
  deliver := by
    intro g env p op h h' hp hop ht hs
    unfold delivery at hop
    cases hmsg : p.msg with
    | contentAnn msg =>
      rw [hmsg] at hop hp
      obtain rfl := Option.some.inj hop
      refine step_traced (by simp) ?_ (by simp) ht hs
      rintro msg' hmsg' m hm
      obtain rfl := Op.receiveContentAnn.inj hmsg'
      obtain ⟨m₀, hm₀, rfl⟩ := List.mem_map.mp hm
      exact (hp m₀ hm₀).with m₀.hops _
    | blockRequest msg =>
      rw [hmsg] at hop
      obtain rfl := Option.some.inj hop
      exact step_traced (by simp) (by simp) (by simp) ht hs
    | blockResponse msg =>
      rw [hmsg] at hop hp
      obtain rfl := Option.some.inj hop
      refine step_traced (by simp) (by simp) ?_ ht hs
      rintro msg' hmsg'
      obtain rfl := Op.receiveBlockResponse.inj hmsg'
      exact hp
    | beacon msg =>
      rw [hmsg] at hop
      cases hop
    | interestAnn msg =>
      rw [hmsg] at hop
      cases hop

theorem new_traced (id : NodeId) : Traced g (.new id) := by
  refine ⟨new_sound id, new_genuine id, ?_⟩
  constructor
  · intro l hl
    cases hl
  · intro r hr
    cases hr

end Network

section Runs

variable [DecidableEq N] (hasher) (ids : N → NodeId) (now : TimePoint)
  (events : List (ℕ × Act N))

theorem always_traced :
    Always (noted (step hasher) fun g net event _ => publish g net event)
      (Tracked Traced TracedMessage) (([] : List (Publication hasher)), start ids now) events :=
  always_tracked (trackable hasher) ids now new_traced events

/-- In every state of every run, all metadata are those of contents that were published. -/
theorem metadata_come_from_publishers :
    Always (noted (step hasher) fun g net event _ => publish g net event) MetadataTraced
      (([] : List (Publication hasher)), start ids now) events := by
  refine (always_traced hasher ids now events).mono fun r ht => ⟨fun node => ?_, ?_⟩
  · exact (ht.nodes node).listed
  · intro p hp msg hmsg
    have hair := ht.air p hp
    rw [hmsg] at hair
    exact hair

/-- In every state of every run, all blocks are pieces of contents published under their hash. -/
theorem blocks_come_from_contents :
    Always (noted (step hasher) fun g net event _ => publish g net event) BlocksTraced
      (([] : List (Publication hasher)), start ids now) events := by
  refine (always_traced hasher ids now events).mono fun r ht => ⟨fun node => ?_, fun node => ?_, ?_⟩
  · exact (ht.nodes node).genuine.cached
  · exact (ht.nodes node).genuine.stored
  · intro p hp msg hmsg
    have hair := ht.air p hp
    rw [hmsg] at hair
    exact hair

/-- Every block held or in the air has the digest it is known by. -/
structure Verified (order : ByteOrder) (buffer extra : Vector UInt8 SHA256.blockSize)
    (net : Network N) : Prop where
  cache : ∀ node hash, ∀ b ∈ (net.nodes node).contents.cache.held hash,
    Hasher.digest order buffer.toList extra.toList b.2 = .ok hash
  store : ∀ node hash, ∀ b ∈ (net.nodes node).contents.store.held hash,
    Hasher.digest order buffer.toList extra.toList b.2 = .ok hash
  air : ∀ p ∈ net.air, ∀ msg, p.msg = .blockResponse msg →
    Hasher.digest order buffer.toList extra.toList msg.data = .ok msg.block.hash

/-- While no content of more than one block has been published, what arrives for a hash has
that SHA-256 hash. -/
theorem small_contents_verified (order : ByteOrder)
    (buffer extra : Vector UInt8 SHA256.blockSize) :
    Always (noted (step Sha256Standard.digest) fun g net event _ => publish g net event)
      (fun r => (∀ p ∈ r.1, p.src.length ≤ blockSize) → Verified order buffer extra r.2)
      (([] : List (Publication Sha256Standard.digest)), start ids now) events := by
  refine (always_traced _ ids now events).mono fun r ht hsmall => ?_
  have hdigest : ∀ {ref bytes}, PieceOf r.1 ref bytes →
      Hasher.digest order buffer.toList extra.toList bytes = .ok ref.hash := by
    intro ref bytes hp
    rw [SHA256.hasher_digest, hp.digest hsmall]
  refine ⟨fun node hash b hb => ?_, fun node hash b hb => ?_, fun p hp msg hmsg => ?_⟩
  · exact hdigest ((ht.nodes node).genuine.cached hash b hb)
  · exact hdigest ((ht.nodes node).genuine.stored hash b hb)
  · have hair := ht.air p hp
    rw [hmsg] at hair
    exact hdigest hair

end Runs

end YingSma.AnnouncementNetwork
