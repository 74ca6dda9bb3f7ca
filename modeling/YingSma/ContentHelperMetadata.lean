import YingSma.ContentHelperResponses

/-! The local and remote metadata: which calls change them, and what is announced of them. -/
namespace YingSma.ContentHelper
open StateActions TransitionRuns

/-- Whether an effect is the announcement of metadata. -/
def Effect.announces : Effect → Bool
  | .post (.contentAnn _) => true
  | _ => false

/-- Whether an effect is of `announce_metadata`: what it posts, or its next call. -/
def Effect.ofAnnouncing : Effect → Bool
  | .post (.contentAnn _) => true
  | .doIn _ .announceMetadata => true
  | _ => false

/-- The metadata stay as they are, and nothing of them is announced. -/
structure Beside (h h' : ContentHelper) : Prop where
  id_eq : h'.id = h.id
  lmt_eq : h'.lmt = h.lmt
  rmt_eq : h'.rmt = h.rmt
  effects : ∃ es, h'.effects = h.effects ++ es ∧ ∀ e ∈ es, ¬ Effect.announces e

/-- `announce_metadata` has no part in what is done. -/
structure Unannounced (h h' : ContentHelper) : Prop where
  auto_eq : h'.autoAnnounce = h.autoAnnounce
  effects : ∃ es, h'.effects = h.effects ++ es ∧ ∀ e ∈ es, ¬ Effect.ofAnnouncing e

/-- Nor have the metadata. -/
structure Aside (h h' : ContentHelper) : Prop extends Unannounced h h' where
  id_eq : h'.id = h.id
  lmt_eq : h'.lmt = h.lmt
  rmt_eq : h'.rmt = h.rmt

/-- Nothing is done that the outside could see. -/
structure Framed (h h' : ContentHelper) : Prop where
  auto_eq : h'.autoAnnounce = h.autoAnnounce
  id_eq : h'.id = h.id
  lmt_eq : h'.lmt = h.lmt
  rmt_eq : h'.rmt = h.rmt
  effects_eq : h'.effects = h.effects

section Relations

variable {h h' : ContentHelper}

theorem Unannounced.of_eq (hauto : h'.autoAnnounce = h.autoAnnounce)
    (heffects : h'.effects = h.effects) : Unannounced h h' := by
  refine ⟨hauto, [], ?_, ?_⟩
  · rw [heffects, List.append_nil]
  · intro e he
    cases he

theorem Framed.aside (hf : Framed h h') : Aside h h' :=
  ⟨.of_eq hf.auto_eq hf.effects_eq, hf.id_eq, hf.lmt_eq, hf.rmt_eq⟩

theorem ofAnnouncing_of_announces {e : Effect} (he : Effect.announces e) :
    Effect.ofAnnouncing e := by
  cases e with
  | post msg =>
    cases msg with
    | contentAnn msg => rfl
    | _ => cases he
  | _ => cases he

theorem Aside.beside (ha : Aside h h') : Beside h h' := by
  obtain ⟨es, hes, hquiet⟩ := ha.effects
  exact ⟨ha.id_eq, ha.lmt_eq, ha.rmt_eq, es, hes, fun e he hannounces =>
    hquiet e he (ofAnnouncing_of_announces hannounces)⟩

instance : IsPreorder ContentHelper Unannounced where
  refl _ := .of_eq rfl rfl
  trans _ _ _ h12 h23 := by
    obtain ⟨es, hes, hquiet⟩ := h12.effects
    obtain ⟨es', hes', hquiet'⟩ := h23.effects
    refine ⟨h23.auto_eq.trans h12.auto_eq, es ++ es', ?_, ?_⟩
    · rw [hes', hes, List.append_assoc]
    · intro e he
      rcases List.mem_append.mp he with he | he
      · exact hquiet e he
      · exact hquiet' e he

theorem keeps_unannounced {α : Type} {m : Action α} (hm : Keeps Aside m) : Keeps Unannounced m :=
  fun h a h' hrun => (hm h a h' hrun).toUnannounced

instance : IsPreorder ContentHelper Aside where
  refl _ := Framed.aside ⟨rfl, rfl, rfl, rfl, rfl⟩
  trans _ _ _ h12 h23 :=
    ⟨trans_of Unannounced h12.toUnannounced h23.toUnannounced, h23.id_eq.trans h12.id_eq,
      h23.lmt_eq.trans h12.lmt_eq, h23.rmt_eq.trans h12.rmt_eq⟩

end Relations

section Asides

variable {env : Surroundings}

theorem frame_aside {f : ContentHelper → ContentHelper} (hf : ∀ h, Framed h (f h)) :
    Keeps Aside (modify f : Action Unit) :=
  keeps_modify fun h => (hf h).aside

theorem record_aside {e : Effect} (he : ¬ Effect.ofAnnouncing e) : Keeps Aside (record e) := by
  apply keeps_modify
  intro h
  refine ⟨⟨rfl, [e], rfl, ?_⟩, rfl, rfl, rfl⟩
  intro e' he'
  obtain rfl := List.mem_singleton.mp he'
  exact he

theorem not_ofAnnouncing {e : Effect} (he : Effect.ofBlocks e) : ¬ Effect.ofAnnouncing e := by
  intro hann
  cases e with
  | post msg => cases msg <;> simp [Effect.ofBlocks, Effect.ofAnnouncing] at he hann
  | doIn delay task => cases task <;> simp [Effect.ofBlocks, Effect.ofAnnouncing] at he hann
  | _ => cases hann

theorem aside_admits : AdmitsStores Aside where
  stores _ _ _ := Framed.aside ⟨rfl, rfl, rfl, rfl, rfl⟩
  frame _ _ _ _ _ := Framed.aside ⟨rfl, rfl, rfl, rfl, rfl⟩
  record h e he := record_aside (not_ofAnnouncing he) h () _ (record_run h e)
  encoder _ _ := trivial

end Asides

/-- The announcements of metadata among some effects. -/
def contentAnns (es : List Effect) : List ContentAnn :=
  es.filterMap fun e =>
    match e with
    | .post (.contentAnn msg) => some msg
    | _ => none

/-- What `announce_metadata` announces. -/
def willAnnounce (env : Surroundings) (h : ContentHelper) : List ContentMetadata :=
  (h.lmt.filter fun l => env.now ≥ l.nextAnnounce).map LocalMetadata.data ++
    ((h.rmt.filter fun r => !r.data.expired env.now).filter
      fun r => env.containsAny r.data.types).map RemoteMetadata.data

/-- The message is none, or it fits the message buffer. -/
def Announceable (env : Surroundings) (h : ContentHelper) : Prop :=
  willAnnounce env h = [] ∨ ∃ packet,
    MessageBuffer.replace bufferSize env.now ⟨h.id, []⟩ (.contentAnn ⟨willAnnounce env h⟩) = .ok packet

/-- What a call of `announce_metadata` that has something in its tables posts and schedules. -/
def announcement (env : Surroundings) (h : ContentHelper) : List Effect :=
  (if willAnnounce env h = [] then [] else [.post (.contentAnn ⟨willAnnounce env h⟩)]) ++
    if h.autoAnnounce then [.doIn minAnnounceInterval .announceMetadata] else []

/-- The helper after such a call. -/
def announced (env : Surroundings) (h : ContentHelper) : ContentHelper :=
  { h with
    lmt := h.lmt.map fun l => if env.now ≥ l.nextAnnounce then LocalMetadata.announced env.now l else l
    rmt := (h.rmt.filter fun r => !r.data.expired env.now).map fun r =>
      if env.containsAny r.data.types then { r with nextAnnounce := env.now + 1000 * milli } else r
    effects := h.effects ++ announcement env h }

/-- One metadata of a received announcement. -/
def receiveItem (env : Surroundings) (m : ContentMetadata) : Action Unit := do
  let h ← get
  if m.publisher = h.id then pure ()
  else
    let _ ← discover env { m with hops := m.hops + 1 }
    pure ()

/-- The same as a transition of the helper. -/
def itemStep (env : Surroundings) (h : ContentHelper) (m : ContentMetadata) :
    Except Fault ContentHelper :=
  (receiveItem env m h).map Prod.snd

/-- What a call of `announce_metadata` does to the metadata. -/
structure Announces (env : Surroundings) (h h' : ContentHelper) : Prop where
  id_eq : h'.id = h.id
  lmt_eq : h'.lmt.map LocalMetadata.data = h.lmt.map LocalMetadata.data
  rmt_eq : h'.rmt.map RemoteMetadata.data =
    (h.rmt.filter fun r => !r.data.expired env.now).map RemoteMetadata.data
  anns : contentAnns (newEffects h h') =
    if willAnnounce env h = [] then [] else [⟨willAnnounce env h⟩]
  encoded : willAnnounce env h ≠ [] → ∃ packet,
    MessageBuffer.replace bufferSize env.now ⟨h.id, []⟩ (.contentAnn ⟨willAnnounce env h⟩) = .ok packet

/-- What a call of `create_new` does to them. -/
structure Publishes (env : Surroundings) (h h' : ContentHelper) : Prop where
  id_eq : h'.id = h.id
  lmt_eq : ∃ m, h'.lmt = h.lmt ++ [⟨m, env.now, env.now⟩] ∧ m.publisher = h.id ∧ m.hops = 0 ∧
    m.expiryTime = env.now + defaultInitialTtl
  rmt_eq : h'.rmt = h.rmt
  effects_eq : h'.effects = h.effects

/-- What one metadata of an announcement does to them. -/
inductive Discovers (env : Surroundings) (m : ContentMetadata) (h : ContentHelper) :
    ContentHelper → Prop
  | own (hown : m.publisher = h.id) : Discovers env m h h
  | known {r} (hother : m.publisher ≠ h.id) (hfind : (h.rmt.find? fun r => r.data.hash = m.hash) = some r)
      (hfar : ¬ m.hops + 1 < r.data.hops) : Discovers env m h h
  | closer {r} (hother : m.publisher ≠ h.id)
      (hfind : (h.rmt.find? fun r => r.data.hash = m.hash) = some r)
      (hnear : m.hops + 1 < r.data.hops) :
      Discovers env m h { h with rmt := updateHops m.hash (m.hops + 1) h.rmt }
  | created {h'} (hother : m.publisher ≠ h.id)
      (hfind : (h.rmt.find? fun r => r.data.hash = m.hash) = none)
      (hafter : Beside { h with rmt := h.rmt ++ [⟨{ m with hops := m.hops + 1 }, env.now⟩] } h') :
      Discovers env m h h'

/-- What any call does to the metadata. -/
inductive Tables (env : Surroundings) (h : ContentHelper) : Op → ContentHelper → Prop
  | published {types name src h'} (hp : Publishes env h h') : Tables env h (.createNew types name src) h'
  | announced {h'} (ha : Announces env h h') : Tables env h .announceMetadata h'
  | received {msg h'} (hr : run (itemStep env) h msg.metadata = .ok h') :
      Tables env h (.receiveContentAnn msg) h'
  | pruned : Tables env h .metadata { h with rmt := h.rmt.filter fun r => !r.data.expired env.now }
  | beside {op h'} (hb : Beside h h') : Tables env h op h'

section Tables

variable {env : Surroundings} {h h' : ContentHelper}

theorem contentAnns_quiet {es : List Effect} (hquiet : ∀ e ∈ es, ¬ Effect.announces e) :
    contentAnns es = [] := by
  unfold contentAnns
  rw [List.filterMap_eq_nil_iff]
  intro e he
  have hnot := hquiet e he
  cases e with
  | post msg =>
    cases msg with
    | contentAnn msg => exact (hnot rfl).elim
    | _ => rfl
  | _ => rfl

theorem Unannounced.anns (hu : Unannounced h h') : contentAnns (newEffects h h') = [] := by
  obtain ⟨es, hes, hquiet⟩ := hu.effects
  rw [newEffects_eq hes]
  exact contentAnns_quiet fun e he hannounces => hquiet e he (ofAnnouncing_of_announces hannounces)

theorem Beside.anns (hb : Beside h h') : contentAnns (newEffects h h') = [] := by
  obtain ⟨es, hes, hquiet⟩ := hb.effects
  rw [newEffects_eq hes]
  exact contentAnns_quiet hquiet

theorem forEach_run {α : Type} {f : α → Action Unit} {as : List α} {u : Unit}
    (hrun : forEach f as h = .ok (u, h')) :
    run (fun h a => (f a h).map Prod.snd) h as = .ok h' := by
  induction as generalizing h with
  | nil => exact congrArg Except.ok (Prod.mk.inj (Except.ok.inj hrun)).2
  | cons a as ih =>
    obtain ⟨v, h₁, hone, hrest⟩ := bind_eq_ok hrun
    have hstep : (f a h).map Prod.snd = .ok h₁ := by
      rw [hone]
      rfl
    rw [@run_cons_ok _ _ _ (fun h a => (f a h).map Prod.snd) h h₁ a as hstep]
    exact ih hrest

/-- New hops leave the rest of an entry as it is. -/
theorem updateHops_map {β : Type} {f : RemoteMetadata → β}
    (hf : ∀ (r : RemoteMetadata) (hops : UInt8), f { r with data := { r.data with hops } } = f r)
    (hash : Hash) (hops : UInt8) (rmt : List RemoteMetadata) :
    (updateHops hash hops rmt).map f = rmt.map f := by
  induction rmt with
  | nil => rfl
  | cons r rmt ih =>
    unfold updateHops
    split_ifs
    · rw [List.map_cons, List.map_cons, hf]
    · rw [List.map_cons, List.map_cons, ih]

/-- The first entry with the hash is the one that is updated. -/
theorem updateHops_split {hash : Hash} {hops : UInt8} {rmt : List RemoteMetadata}
    {r : RemoteMetadata} (hfind : (rmt.find? fun r => r.data.hash = hash) = some r) :
    ∃ before behind, rmt = before ++ r :: behind ∧ r.data.hash = hash ∧
      updateHops hash hops rmt =
        before ++ { r with data := { r.data with hops } } :: behind := by
  induction rmt with
  | nil => cases hfind
  | cons x rmt ih =>
    unfold updateHops
    by_cases hx : x.data.hash = hash
    · rw [List.find?_cons_of_pos (by simpa using hx)] at hfind
      obtain rfl := Option.some.inj hfind
      exact ⟨[], rmt, rfl, hx, if_pos hx⟩
    · rw [List.find?_cons_of_neg (by simpa using hx)] at hfind
      obtain ⟨before, behind, rfl, hhash, hupdated⟩ := ih hfind
      refine ⟨x :: before, behind, rfl, hhash, ?_⟩
      rw [if_neg hx, hupdated]
      rfl

theorem eq_of_hash (hd : (h.rmt.map fun r => r.data.hash).Nodup) {r₁ r₂ : RemoteMetadata}
    (h₁ : r₁ ∈ h.rmt) (h₂ : r₂ ∈ h.rmt) (hhash : r₁.data.hash = r₂.data.hash) : r₁ = r₂ :=
  List.inj_on_of_nodup_map hd h₁ h₂ hhash

theorem mem_updateHops {hash : Hash} {hops : UInt8} {rmt : List RemoteMetadata}
    {r r' : RemoteMetadata} (hd : (rmt.map fun r => r.data.hash).Nodup)
    (hfind : (rmt.find? fun r => r.data.hash = hash) = some r) (hr' : r' ∈ updateHops hash hops rmt) :
    (r' ∈ rmt ∧ r'.data.hash ≠ hash) ∨ r' = { r with data := { r.data with hops } } := by
  obtain ⟨before, behind, rfl, hhash, hupdated⟩ := @updateHops_split hash hops rmt r hfind
  rw [List.map_append, List.map_cons, List.nodup_middle, List.nodup_cons, ← List.map_append] at hd
  have hothers : ∀ x ∈ before ++ behind, x.data.hash ≠ hash := by
    intro x hx heq
    exact hd.1 (List.mem_map.mpr ⟨x, hx, heq.trans hhash.symm⟩)
  rw [hupdated] at hr'
  rcases List.mem_append.mp hr' with hr' | hr'
  · exact .inl ⟨List.mem_append_left _ hr', hothers r' (List.mem_append_left _ hr')⟩
  · rcases List.mem_cons.mp hr' with rfl | hr'
    · exact .inr rfl
    · exact .inl ⟨List.mem_append_right _ (List.mem_cons_of_mem _ hr'),
        hothers r' (List.mem_append_right _ hr')⟩

theorem find_mem {hash : Hash} {rmt : List RemoteMetadata} {r : RemoteMetadata}
    (hfind : (rmt.find? fun r => r.data.hash = hash) = some r) : r ∈ rmt ∧ r.data.hash = hash :=
  ⟨List.mem_of_find?_eq_some hfind, by simpa using List.find?_some hfind⟩

theorem find_none {hash : Hash} {rmt : List RemoteMetadata}
    (hfind : (rmt.find? fun r => r.data.hash = hash) = none) : ∀ r ∈ rmt, r.data.hash ≠ hash := by
  intro r hr
  simpa using List.find?_eq_none.mp hfind r hr

theorem receiveContentAnn_run {msg : ContentAnn} {u : Unit}
    (hrun : receiveContentAnn env msg h = .ok (u, h')) :
    run (itemStep env) h msg.metadata = .ok h' :=
  @forEach_run h h' _ (receiveItem env) msg.metadata u hrun

theorem discover_ok {m : ContentMetadata} {b : Bool} (hrun : discover env m h = .ok (b, h')) :
    (∃ r, (h.rmt.find? fun r => r.data.hash = m.hash) = some r ∧
      h' = if m.hops < r.data.hops then { h with rmt := updateHops m.hash m.hops h.rmt } else h) ∨
    ((h.rmt.find? fun r => r.data.hash = m.hash) = none ∧
      Beside { h with rmt := h.rmt ++ [⟨m, env.now⟩] } h') := by
  unfold discover at hrun
  rw [bind_run_ok (get_run h)] at hrun
  cases hfind : h.rmt.find? fun r => r.data.hash = m.hash with
  | some r =>
    simp only [hfind] at hrun
    refine .inl ⟨r, rfl, ?_⟩
    split_ifs at hrun ⊢ with hnear
    · rw [bind_run_ok (modify_run _ h)] at hrun
      exact (Prod.mk.inj (Except.ok.inj hrun)).2.symm
    · exact (Prod.mk.inj (Except.ok.inj hrun)).2.symm
  | none =>
    simp only [hfind] at hrun
    rw [bind_run_ok (modify_run _ h)] at hrun
    refine .inr ⟨rfl, ?_⟩
    have htail : Keeps Aside (do
        if env.containsAny m.types then
          record (.interestingContent m)
          if h.autoFetch then
            let blockCount ← attempt m.blockCount
            modify fun h => { h with
              autoFetchQueue := h.autoFetchQueue ++
                (List.range blockCount).map fun i => ⟨m.hash, UInt16.ofNat i⟩ }
            doAutoFetch env
        pure true : Action Bool) := by
      refine keeps_ite ?_ (keeps_pure _)
      refine keeps_bind (record_aside (by simp [Effect.ofAnnouncing])) fun _ => keeps_ite ?_ (keeps_pure _)
      refine keeps_bind (keeps_attempt _) fun _ => ?_
      refine keeps_bind (frame_aside fun _ => ⟨rfl, rfl, rfl, rfl, rfl⟩) fun _ => ?_
      exact keeps_bind (doAutoFetch_ends aside_admits.toAdmits env).keeps fun _ => keeps_pure _
    exact (htail _ b h' hrun).beside

theorem itemStep_cases {m : ContentMetadata} (hs : itemStep env h m = .ok h') :
    (m.publisher = h.id ∧ h' = h) ∨
      (m.publisher ≠ h.id ∧ ∃ b, discover env { m with hops := m.hops + 1 } h = .ok (b, h')) := by
  obtain ⟨u, hrun⟩ := map_snd_ok hs
  unfold receiveItem at hrun
  rw [bind_run_ok (get_run h)] at hrun
  by_cases hown : m.publisher = h.id
  · rw [if_pos hown] at hrun
    exact .inl ⟨hown, (Prod.mk.inj (Except.ok.inj hrun)).2.symm⟩
  · rw [if_neg hown] at hrun
    obtain ⟨b, h₁, hdiscover, hpure⟩ := bind_eq_ok hrun
    obtain rfl := (Prod.mk.inj (Except.ok.inj hpure)).2
    exact .inr ⟨hown, b, hdiscover⟩

theorem itemStep_discovers {m : ContentMetadata} (hs : itemStep env h m = .ok h') :
    Discovers env m h h' := by
  rcases itemStep_cases hs with ⟨hown, rfl⟩ | ⟨hown, b, hdiscover⟩
  · exact .own hown
  · rcases discover_ok hdiscover with ⟨r, hfind, rfl⟩ | ⟨hfind, hbeside⟩
    · split_ifs with hnear
      · exact .closer hown hfind hnear
      · exact .known hown hfind hnear
    · exact .created hown hfind hbeside

theorem post_error {msg : Message} {e : Fault}
    (hmsg : MessageBuffer.replace bufferSize env.now ⟨h.id, []⟩ msg = .error e) :
    post env msg h = .error e := by
  unfold post
  rw [bind_run_ok (get_run h), hmsg]
  rfl

/-- The tables are brought up to date before anything is posted. -/
theorem announceMetadata_eq (htables : ¬ (h.lmt = [] ∧ h.rmt = [])) :
    announceMetadata env h = (do
      if willAnnounce env h ≠ [] then post env (.contentAnn ⟨willAnnounce env h⟩)
      if h.autoAnnounce then record (.doIn minAnnounceInterval .announceMetadata)
      pure (willAnnounce env h).length : Action ℕ) { h.announced env with effects := h.effects } := by
  unfold announceMetadata
  rw [bind_run_ok (get_run h), if_neg htables]
  dsimp only
  rw [bind_run_ok (modify_run _ h)]
  rfl

/-- The end of `announce_metadata`. -/
theorem postAnnouncement_run (will : List ContentMetadata) (auto : Bool) (n : ℕ) (h : ContentHelper) :
    (do
      if will ≠ [] then post env (.contentAnn ⟨will⟩)
      if auto then record (.doIn minAnnounceInterval .announceMetadata)
      pure n : Action ℕ) h =
    (if will = [] then .ok () else (MessageBuffer.replace bufferSize env.now ⟨h.id, []⟩
      (.contentAnn ⟨will⟩)).map fun _ => ()).map fun _ =>
        (n, h.emit ((if will = [] then [] else [.post (.contentAnn ⟨will⟩)]) ++
          if auto then [.doIn minAnnounceInterval .announceMetadata] else [])) := by
  have htail : ∀ h₁ : ContentHelper, (do
      if auto then record (.doIn minAnnounceInterval .announceMetadata)
      pure n : Action ℕ) h₁ =
      .ok (n, h₁.emit (if auto then [.doIn minAnnounceInterval .announceMetadata] else [])) := by
    intro h₁
    cases auto with
    | true => rfl
    | false => exact congrArg (fun h₂ => Except.ok (n, h₂)) (emit_nil h₁).symm
  by_cases hwill : will = []
  · rw [if_neg (not_not.mpr hwill), if_pos hwill, if_pos hwill]
    exact htail h
  · rw [if_pos hwill, if_neg hwill, if_neg hwill]
    cases hsent : MessageBuffer.replace bufferSize env.now ⟨h.id, []⟩ (.contentAnn ⟨will⟩) with
    | error e =>
      rw [bind_run_error (post_error hsent)]
      rfl
    | ok packet =>
      rw [bind_run_ok (post_run env h hsent), ← emit_emit]
      exact htail _

/-- A call with something in the tables succeeds if its message fits, and leaves the same. -/
theorem announceMetadata_ok_iff (htables : ¬ (h.lmt = [] ∧ h.rmt = [])) :
    (∃ n, announceMetadata env h = .ok (n, h')) ↔ Announceable env h ∧ h' = h.announced env := by
  rw [announceMetadata_eq htables, postAnnouncement_run]
  have hid : ({ h.announced env with effects := h.effects } : ContentHelper).id = h.id := rfl
  change (∃ n, Except.map (fun _ => (_, h.announced env)) _ = _) ↔ _
  rw [hid]
  unfold Announceable
  by_cases hwill : willAnnounce env h = []
  · simp [hwill, Except.map, eq_comm]
  · cases hsent : MessageBuffer.replace bufferSize env.now ⟨h.id, []⟩
        (.contentAnn ⟨willAnnounce env h⟩) with
    | error e => simp [hwill, Except.map]
    | ok packet => simp [hwill, Except.map, eq_comm]

theorem announceMetadata_idle (htables : h.lmt = [] ∧ h.rmt = []) :
    announceMetadata env h = .ok (0, h) := by
  unfold announceMetadata
  rw [bind_run_ok (get_run h), if_pos htables]
  rfl

/-- Announcing goes on with the same metadata, less those that have expired. -/
theorem announceMetadata_announces {n : ℕ} (hrun : announceMetadata env h = .ok (n, h')) :
    Announces env h h' := by
  by_cases htables : h.lmt = [] ∧ h.rmt = []
  · rw [announceMetadata_idle htables] at hrun
    obtain rfl := (Prod.mk.inj (Except.ok.inj hrun)).2
    have hnothing : willAnnounce env h = [] := by
      simp [willAnnounce, htables.1, htables.2]
    refine ⟨rfl, rfl, by simp [htables.2], ?_, fun hne => (hne hnothing).elim⟩
    rw [if_pos hnothing, newEffects_eq (List.append_nil _).symm]
    rfl
  · obtain ⟨hfits, rfl⟩ := (announceMetadata_ok_iff htables).mp ⟨n, hrun⟩
    refine ⟨rfl, ?_, ?_, ?_, hfits.resolve_left⟩
    · rw [announced, List.map_map]
      apply List.map_congr_left
      intro l _
      simp only [Function.comp_apply]
      split_ifs <;> rfl
    · rw [announced, List.map_map]
      apply List.map_congr_left
      intro r _
      simp only [Function.comp_apply]
      split_ifs <;> rfl
    · rw [newEffects_eq rfl, announcement]
      split_ifs <;> rfl

theorem createNew_publishes {hasher : List UInt8 → Hash} {types : List ContentType}
    {name : ContentName} {src : List UInt8} {m : ContentMetadata}
    (hrun : createNew hasher env types name src h = .ok (m, h')) : Publishes env h h' := by
  unfold createNew at hrun
  rw [bind_run_ok (get_run h)] at hrun
  obtain ⟨⟨hash, cache⟩, h₁, hattempt, hrest⟩ := bind_eq_ok hrun
  obtain ⟨-, rfl⟩ := attempt_eq_ok hattempt
  dsimp only at hrest
  rw [bind_run_ok (modify_run _ _)] at hrest
  obtain rfl := (Prod.mk.inj (Except.ok.inj hrest)).2
  exact ⟨rfl, ⟨_, rfl, rfl, rfl, rfl⟩, rfl, rfl⟩

theorem metadata_ok {ms : List ContentMetadata} (hrun : metadata env h = .ok (ms, h')) :
    h' = { h with rmt := h.rmt.filter fun r => !r.data.expired env.now } ∧
      ms = h.lmt.map LocalMetadata.data ++
        (h.rmt.filter fun r => !r.data.expired env.now).map RemoteMetadata.data := by
  unfold metadata at hrun
  rw [bind_run_ok (modify_run _ h), bind_run_ok (get_run _)] at hrun
  obtain ⟨rfl, rfl⟩ := Prod.mk.inj (Except.ok.inj hrun)
  exact ⟨rfl, rfl⟩

theorem step_tables {hasher : List UInt8 → Hash} {op : Op}
    (hs : step hasher h (env, op) = .ok h') : Tables env h op h' := by
  obtain ⟨u, hrun⟩ := TransitionRuns.map_snd_ok hs
  cases op with
  | subscribe handler =>
    obtain rfl := modify_eq_ok hrun
    refine .beside (Aside.beside (Framed.aside ?_))
    exact ⟨rfl, rfl, rfl, rfl, rfl⟩
  | createNew types name src =>
    obtain ⟨m, hnew⟩ := discard_eq_ok hrun
    exact .published (createNew_publishes hnew)
  | announceMetadata =>
    obtain ⟨n, hannounce⟩ := discard_eq_ok hrun
    exact .announced (announceMetadata_announces hannounce)
  | receiveContentAnn msg => exact .received (receiveContentAnn_run hrun)
  | receiveBlockRequest header msg => exact .beside ((receiveBlockRequest_ends aside_admits.toAdmits env header msg).keeps h u h' hrun).beside
  | receiveBlockResponse msg => exact .beside ((receiveBlockResponse_ends aside_admits env msg).keeps h u h' hrun).beside
  | request requests => exact .beside ((request_ends aside_admits.toAdmits env requests).keeps h u h' hrun).beside
  | broadcast ref => exact .beside (keeps_discard (broadcast_ends aside_admits.toAdmits env ref).keeps h u h' hrun).beside
  | frozen blocks enabled => exact .beside (keeps_discard (frozen_ends aside_admits enabled blocks).keeps h u h' hrun).beside
  | metadata =>
    obtain ⟨ms, hmetadata⟩ := discard_eq_ok hrun
    rw [(metadata_ok hmetadata).1]
    exact .pruned
  | sweepPendingRequests => exact .beside ((sweepPendingRequests_ends aside_admits.toAdmits env.now).keeps h u h' hrun).beside
  | doAutoFetch => exact .beside ((doAutoFetch_ends aside_admits.toAdmits env).keeps h u h' hrun).beside

theorem Discovers.id_eq {m : ContentMetadata} (hdis : Discovers env m h h') : h'.id = h.id := by
  cases hdis with
  | own => rfl
  | known => rfl
  | closer => rfl
  | created _ _ hafter => exact hafter.id_eq

theorem Discovers.lmt_eq {m : ContentMetadata} (hdis : Discovers env m h h') : h'.lmt = h.lmt := by
  cases hdis with
  | own => rfl
  | known => rfl
  | closer => rfl
  | created _ _ hafter => exact hafter.lmt_eq

theorem run_id_eq {ms : List ContentMetadata} (hr : run (itemStep env) h ms = .ok h') :
    h'.id = h.id :=
  run_invariant (fun h₁ => h₁.id = h.id)
    (fun _ _ _ hid hs => (itemStep_discovers hs).id_eq.trans hid) rfl hr

theorem run_lmt_eq {ms : List ContentMetadata} (hr : run (itemStep env) h ms = .ok h') :
    h'.lmt = h.lmt :=
  run_invariant (fun h₁ => h₁.lmt = h.lmt)
    (fun _ _ _ hlmt hs => (itemStep_discovers hs).lmt_eq.trans hlmt) rfl hr

theorem Tables.id_eq {op : Op} (htab : Tables env h op h') : h'.id = h.id := by
  cases htab with
  | published hp => exact hp.id_eq
  | announced ha => exact ha.id_eq
  | received hr => exact run_id_eq hr
  | pruned => rfl
  | beside hb => exact hb.id_eq

/-- A local metadata was there before or is published now. -/
theorem Tables.lmt_mem {op : Op} (htab : Tables env h op h') {l : LocalMetadata} (hl : l ∈ h'.lmt) :
    (∃ l₀ ∈ h.lmt, l₀.data = l.data) ∨
      (l.data.publisher = h.id ∧ l.data.hops = 0 ∧
        l.data.expiryTime = env.now + defaultInitialTtl) := by
  have hsame : h'.lmt = h.lmt → ∃ l₀ ∈ h.lmt, l₀.data = l.data := by
    intro hlmt
    exact ⟨l, hlmt ▸ hl, rfl⟩
  cases htab with
  | published hp =>
    obtain ⟨m, hlmt, hm⟩ := hp.lmt_eq
    rw [hlmt] at hl
    rcases List.mem_append.mp hl with hl | hl
    · exact .inl ⟨l, hl, rfl⟩
    · obtain rfl := List.mem_singleton.mp hl
      exact .inr hm
  | announced ha =>
    have hmem := List.mem_map_of_mem (f := LocalMetadata.data) hl
    rw [ha.lmt_eq] at hmem
    exact .inl (List.mem_map.mp hmem)
  | received hr => exact .inl (hsame (run_lmt_eq hr))
  | pruned => exact .inl (hsame rfl)
  | beside hb => exact .inl (hsame hb.lmt_eq)

/-- Remote metadata are new only by reception. -/
theorem Tables.rmt_cases {op : Op} (htab : Tables env h op h') :
    (∃ msg, op = .receiveContentAnn msg ∧ run (itemStep env) h msg.metadata = .ok h') ∨
      (h'.rmt.map RemoteMetadata.data).Sublist (h.rmt.map RemoteMetadata.data) := by
  cases htab with
  | published hp =>
    apply Or.inr
    rw [hp.rmt_eq]
  | announced ha =>
    apply Or.inr
    rw [ha.rmt_eq]
    exact List.filter_sublist.map _
  | received hr => exact .inl ⟨_, rfl, hr⟩
  | pruned => exact .inr (List.filter_sublist.map _)
  | beside hb =>
    apply Or.inr
    rw [hb.rmt_eq]

theorem receiveContentAnn_ok {hasher : List UInt8 → Hash} {msg : ContentAnn}
    (hs : step hasher h (env, .receiveContentAnn msg) = .ok h') :
    run (itemStep env) h msg.metadata = .ok h' := by
  obtain ⟨u, hrun⟩ := TransitionRuns.map_snd_ok hs
  exact receiveContentAnn_run hrun

/-- Discovering metadata announces nothing. -/
theorem Discovers.quiet {m : ContentMetadata} (hdis : Discovers env m h h') :
    ∃ es, h'.effects = h.effects ++ es ∧ ∀ e ∈ es, ¬ Effect.announces e := by
  have hnothing : ∃ es, h.effects = h.effects ++ es ∧ ∀ e ∈ es, ¬ Effect.announces e :=
    ⟨[], (List.append_nil _).symm, fun e he => by cases he⟩
  cases hdis with
  | own => exact hnothing
  | known => exact hnothing
  | closer => exact hnothing
  | created _ _ hafter => exact hafter.effects

theorem run_quiet {ms : List ContentMetadata} (hr : run (itemStep env) h ms = .ok h') :
    ∃ es, h'.effects = h.effects ++ es ∧ ∀ e ∈ es, ¬ Effect.announces e := by
  induction ms generalizing h with
  | nil =>
    obtain rfl := Except.ok.inj hr
    exact ⟨[], (List.append_nil _).symm, fun e he => by cases he⟩
  | cons m ms ih =>
    obtain ⟨h₁, hs, hr₁⟩ := run_cons_eq_ok hr
    obtain ⟨es, hes, hquiet⟩ := (itemStep_discovers hs).quiet
    obtain ⟨es', hes', hquiet'⟩ := ih hr₁
    refine ⟨es ++ es', ?_, ?_⟩
    · rw [hes', hes, List.append_assoc]
    · intro e he
      rcases List.mem_append.mp he with he | he
      · exact hquiet e he
      · exact hquiet' e he

/-- Whatever metadata are announced by a call, they are those of `announce_metadata`. -/
theorem Tables.anns {op : Op} (ht : Tables env h op h') {msg : ContentAnn}
    (hmsg : msg ∈ contentAnns (newEffects h h')) : msg = ⟨willAnnounce env h⟩ := by
  have hnothing : ∀ es, h'.effects = h.effects ++ es → (∀ e ∈ es, ¬ Effect.announces e) →
      msg = ⟨willAnnounce env h⟩ := by
    intro es hes hquiet
    rw [newEffects_eq hes, contentAnns_quiet hquiet] at hmsg
    cases hmsg
  cases ht with
  | published hp =>
    exact hnothing [] (hp.effects_eq.trans (List.append_nil _).symm) fun e he => by cases he
  | announced ha =>
    rw [ha.anns] at hmsg
    split_ifs at hmsg
    · cases hmsg
    · exact List.mem_singleton.mp hmsg
  | received hr =>
    obtain ⟨es, hes, hquiet⟩ := run_quiet hr
    exact hnothing es hes hquiet
  | pruned => exact hnothing [] (List.append_nil _).symm fun e he => by cases he
  | beside hb =>
    obtain ⟨es, hes, hquiet⟩ := hb.effects
    exact hnothing es hes hquiet

end Tables

end YingSma.ContentHelper
