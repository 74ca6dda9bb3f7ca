import YingSma.ContentDiscovery

/-! The table of remote metadata over runs: what is entered, brought nearer and dropped, and which
of it is reported as interesting. -/
namespace YingSma.ContentHelper
open StateActions TransitionRuns EntryTable ContentDiscovery

/-- The metadata that are reported as interesting. -/
def notices (es : List Effect) : List ContentMetadata :=
  es.filterMap fun e =>
    match e with
    | .interestingContent m => some m
    | _ => none

/-- No two entries have the same hash, and none is of the node itself. -/
structure RemoteSound (h : ContentHelper) : Prop where
  distinct : (h.rmt.map fun r => r.data.hash).Nodup
  foreign : ∀ r ∈ h.rmt, r.data.publisher ≠ h.id

/-- An entry stays as it is or comes nearer, or it has expired and is dropped. -/
def EntriesStay (env : Surroundings) (h h' : ContentHelper) : Prop :=
  ∀ r ∈ h.rmt,
    (∃ r' ∈ h'.rmt, r'.data = { r.data with hops := r'.data.hops } ∧ r'.data.hops ≤ r.data.hops) ∨
      r.data.expired env.now ∧ ∀ r' ∈ h'.rmt, r'.data.hash ≠ r.data.hash

/-- The new entries of the table. -/
def entered (h h' : ContentHelper) : List RemoteMetadata :=
  h'.rmt.filter fun r => r.data.hash ∉ h.rmt.map fun r => r.data.hash

/-- The new entries of an interesting type are reported, each of them once, and no other. -/
def NewNoticed (env : Surroundings) (h h' : ContentHelper) : Prop :=
  (notices (newEffects h h')).map ContentMetadata.hash =
    ((entered h h').filter fun r => env.containsAny r.data.types).map fun r => r.data.hash

/-- The metadata are entered. -/
def Inserted (env : Surroundings) (m : ContentMetadata) (h h' : ContentHelper) : Prop :=
  (∀ r ∈ h.rmt, r.data.hash ≠ m.hash) ∧ h'.rmt = h.rmt ++ [⟨m, env.now⟩]

/-- The entry with their hash is brought nearer. -/
def Lowered (m : ContentMetadata) (h h' : ContentHelper) : Prop :=
  ∃ before r behind, h.rmt = before ++ r :: behind ∧ r.data.hash = m.hash ∧
    m.hops < r.data.hops ∧
    h'.rmt = before ++ { r with data := { r.data with hops := m.hops } } :: behind

/-- `discover` tells whether it has done either, and reports what it has entered. -/
structure DiscoversRight (env : Surroundings) (m : ContentMetadata) (h : ContentHelper) (b : Bool)
    (h' : ContentHelper) : Prop where
  result : b ↔ Inserted env m h h' ∨ Lowered m h h'
  unchanged : b = false → h'.rmt = h.rmt
  noticed : Inserted env m h h' → env.containsAny m.types → notices (newEffects h h') = [m]
  quiet : ¬ (Inserted env m h h' ∧ env.containsAny m.types) → notices (newEffects h h') = []

/-- The calls of `discover` a call makes, each in the state it is made in. -/
def Discoveries (h : ContentHelper) : Surroundings × Op → Prop
  | (env, .receiveContentAnn msg) => ∀ heard m rest, msg.metadata = heard ++ m :: rest →
      ∀ h₁, run (itemStep env) h heard = .ok h₁ → RemoteSound h₁ ∧ (m.publisher ≠ h₁.id →
        ∀ b h₂, discover env { m with hops := m.hops + 1 } h₁ = .ok (b, h₂) →
          DiscoversRight env { m with hops := m.hops + 1 } h₁ b h₂)
  | _ => True

/-- What a call that goes through does to the table. -/
def KeepsRemote (hasher : List UInt8 → Hash) (h : ContentHelper) (call : Surroundings × Op) : Prop :=
  Discoveries h call ∧ ∀ h', step hasher h call = .ok h' →
    EntriesStay call.1 h h' ∧ NewNoticed call.1 h h'

/-- Nothing is reported as interesting. -/
def Unnoticed (h h' : ContentHelper) : Prop :=
  ∃ es, h'.effects = h.effects ++ es ∧ notices es = []

section Notices

variable {env : Surroundings} {h h' : ContentHelper}

theorem notices_append (es es' : List Effect) : notices (es ++ es') = notices es ++ notices es' :=
  List.filterMap_append

theorem Unnoticed.of_eq (heffects : h'.effects = h.effects) : Unnoticed h h' :=
  ⟨[], heffects.trans (List.append_nil _).symm, rfl⟩

instance : IsPreorder ContentHelper Unnoticed where
  refl _ := .of_eq rfl
  trans _ _ _ h12 h23 := by
    obtain ⟨es, hes, hnone⟩ := h12
    obtain ⟨es', hes', hnone'⟩ := h23
    exact ⟨es ++ es', by rw [hes', hes, List.append_assoc], by rw [notices_append, hnone, hnone']; rfl⟩

theorem unnoticed_emit {e : Effect} (he : ∀ m, e ≠ .interestingContent m) : Unnoticed h (h.emit [e]) := by
  refine ⟨[e], rfl, ?_⟩
  cases e with
  | interestingContent m => exact absurd rfl (he m)
  | _ => rfl

theorem unnoticed_admits : AdmitsStores Unnoticed where
  frame _ _ _ _ _ := .of_eq rfl
  record h e he := unnoticed_emit fun m heq => by
    subst heq
    cases he
  encoder _ _ := trivial
  stores _ _ _ := .of_eq rfl

theorem Unnoticed.notices_eq (hun : Unnoticed h h') : notices (newEffects h h') = [] := by
  obtain ⟨es, hes, hnone⟩ := hun
  rw [newEffects_eq hes, hnone]

end Notices

section Discovering

variable {env : Surroundings} {m : ContentMetadata} {b : Bool} {h h' : ContentHelper}

/-- What `discover` does with metadata it does not know. -/
theorem discover_new (hfind : (h.rmt.find? fun r => r.data.hash = m.hash) = none)
    (hrun : discover env m h = .ok (b, h')) :
    b = true ∧ Inserted env m h h' ∧ ∃ es, h'.effects = h.effects ++ es ∧
      notices es = if env.containsAny m.types then [m] else [] := by
  have hinserted : Inserted env m h h' := by
    rcases discover_ok hrun with ⟨r, hsome, -⟩ | ⟨-, hbeside⟩
    · cases hfind.symm.trans hsome
    · exact ⟨find_none hfind, hbeside.rmt_eq⟩
  unfold discover at hrun
  rw [bind_run_ok (get_run h)] at hrun
  simp only [hfind] at hrun
  rw [bind_run_ok (modify_run _ h)] at hrun
  cases hany : env.containsAny m.types with
  | false =>
    simp only [hany, Bool.false_eq_true, if_false] at hrun
    obtain ⟨rfl, rfl⟩ := Prod.mk.inj (Except.ok.inj hrun)
    exact ⟨rfl, hinserted, [], (List.append_nil _).symm, rfl⟩
  | true =>
    simp only [hany, if_true] at hrun
    rw [bind_run_ok (record_run _ _)] at hrun
    have hrest : b = true ∧ Unnoticed (h.emit [.interestingContent m]) h' := by
      cases hauto : h.autoFetch with
      | false =>
        simp only [hauto, Bool.false_eq_true, if_false] at hrun
        obtain ⟨rfl, rfl⟩ := Prod.mk.inj (Except.ok.inj hrun)
        exact ⟨rfl, .of_eq rfl⟩
      | true =>
        simp only [hauto, if_true] at hrun
        obtain ⟨n, h₁, hattempt, hrest⟩ := bind_eq_ok hrun
        obtain ⟨-, rfl⟩ := attempt_eq_ok hattempt
        rw [bind_run_ok (modify_run _ _)] at hrest
        obtain ⟨u, h₂, hfetch, hpure⟩ := bind_eq_ok hrest
        obtain ⟨rfl, rfl⟩ := Prod.mk.inj (Except.ok.inj hpure)
        have hun := (doAutoFetch_ends unnoticed_admits.toAdmits env).keeps _ u _ hfetch
        exact ⟨rfl, hun⟩
    obtain ⟨rfl, es, hes, hnone⟩ := hrest
    refine ⟨rfl, hinserted, [.interestingContent m] ++ es, ?_, ?_⟩
    · rw [hes, ← List.append_assoc]
      rfl
    · rw [notices_append, hnone]
      rfl

/-- What `discover` does with metadata it knows. -/
theorem discover_known {r : RemoteMetadata}
    (hfind : (h.rmt.find? fun r => r.data.hash = m.hash) = some r)
    (hrun : discover env m h = .ok (b, h')) :
    b = decide (m.hops < r.data.hops) ∧ h'.effects = h.effects ∧
      h'.rmt = if m.hops < r.data.hops then updateHops m.hash m.hops h.rmt else h.rmt := by
  unfold discover at hrun
  rw [bind_run_ok (get_run h)] at hrun
  simp only [hfind] at hrun
  split_ifs at hrun ⊢ with hnear
  · rw [bind_run_ok (modify_run _ h)] at hrun
    obtain ⟨rfl, rfl⟩ := Prod.mk.inj (Except.ok.inj hrun)
    exact ⟨by simp [hnear], rfl, rfl⟩
  · obtain ⟨rfl, rfl⟩ := Prod.mk.inj (Except.ok.inj hrun)
    exact ⟨by simp [hnear], rfl, rfl⟩

theorem not_inserted_of_find {r : RemoteMetadata}
    (hfind : (h.rmt.find? fun r => r.data.hash = m.hash) = some r) : ¬ Inserted env m h h' :=
  fun hinserted => hinserted.1 r (find_mem hfind).1 (find_mem hfind).2

theorem discover_right (hrun : discover env m h = .ok (b, h')) : DiscoversRight env m h b h' := by
  cases hfind : h.rmt.find? fun r => r.data.hash = m.hash with
  | none =>
    obtain ⟨rfl, hinserted, es, hes, hnotices⟩ := discover_new hfind hrun
    rw [← newEffects_eq hes] at hnotices
    refine ⟨iff_of_true rfl (.inl hinserted), fun hfalse => (Bool.noConfusion hfalse), ?_, ?_⟩
    · intro _ hany
      rw [hnotices, if_pos hany]
    · intro hnot
      rw [hnotices, if_neg fun hany => hnot ⟨hinserted, hany⟩]
  | some r =>
    have hnew := @not_inserted_of_find env m h h' r hfind
    obtain ⟨rfl, heffects, hrmt⟩ := discover_known hfind hrun
    have hquiet : notices (newEffects h h') = [] := (Unnoticed.of_eq heffects).notices_eq
    refine ⟨?_, ?_, fun hinserted => (hnew hinserted).elim, fun _ => hquiet⟩
    · rw [decide_eq_true_iff]
      constructor
      · intro hnear
        obtain ⟨before, behind, hsplit, hhash, hupdated⟩ := @updateHops_split m.hash m.hops _ r hfind
        rw [if_pos hnear, hupdated] at hrmt
        exact .inr ⟨before, r, behind, hsplit, hhash, hnear, hrmt⟩
      · rintro (hinserted | ⟨before, r', behind, hsplit, -, hlower, hchanged⟩)
        · exact (hnew hinserted).elim
        · by_contra hfar
          rw [if_neg hfar, hchanged, hsplit] at hrmt
          have hsame := (List.cons.inj (List.append_cancel_left hrmt)).1
          rw [← hsame] at hlower
          exact UInt8.lt_irrefl _ hlower
    · intro hfar
      rw [hrmt, if_neg (by simpa using hfar)]

end Discovering

/-- The hashes and types in the table. -/
def labels (h : ContentHelper) : List (Hash × List ContentType) :=
  h.rmt.map fun r => (r.data.hash, r.data.types)

/-- Entries are only added, and those of an interesting type are reported. -/
def Reports (env : Surroundings) (h h' : ContentHelper) : Prop :=
  ∃ new es, labels h' = labels h ++ new ∧ h'.effects = h.effects ++ es ∧
    (notices es).map (fun m => (m.hash, m.types)) = new.filter fun label => env.containsAny label.2

/-- Every entry stays, as near as it was or nearer. -/
def Nearer (h h' : ContentHelper) : Prop :=
  ∀ r ∈ h.rmt, ∃ r' ∈ h'.rmt, r'.data = { r.data with hops := r'.data.hops } ∧
    r'.data.hops ≤ r.data.hops

section Receiving

variable {env : Surroundings} {h h' : ContentHelper}

theorem Reports.of_eq (hlabels : labels h' = labels h) (heffects : h'.effects = h.effects) :
    Reports env h h' :=
  ⟨[], [], hlabels.trans (List.append_nil _).symm, heffects.trans (List.append_nil _).symm, rfl⟩

theorem Reports.trans {h'' : ContentHelper} (ha : Reports env h h') (hb : Reports env h' h'') :
    Reports env h h'' := by
  obtain ⟨new, es, hlabels, heffects, hnoticed⟩ := ha
  obtain ⟨new', es', hlabels', heffects', hnoticed'⟩ := hb
  refine ⟨new ++ new', es ++ es', ?_, ?_, ?_⟩
  · rw [hlabels', hlabels, List.append_assoc]
  · rw [heffects', heffects, List.append_assoc]
  · rw [notices_append, List.map_append, hnoticed, hnoticed', List.filter_append]

theorem Nearer.of_eq (hrmt : h'.rmt = h.rmt) : Nearer h h' :=
  fun r hr => ⟨r, hrmt ▸ hr, rfl, UInt8.le_refl _⟩

theorem Nearer.trans {h'' : ContentHelper} (ha : Nearer h h') (hb : Nearer h' h'') : Nearer h h'' := by
  intro r hr
  obtain ⟨r', hr', hdata, hle⟩ := ha r hr
  obtain ⟨r'', hr'', hdata', hle'⟩ := hb r' hr'
  refine ⟨r'', hr'', ?_, UInt8.le_trans hle' hle⟩
  rw [hdata', hdata]

theorem discover_reports {m : ContentMetadata} {b : Bool} (hrun : discover env m h = .ok (b, h')) :
    Reports env h h' ∧ Nearer h h' := by
  cases hfind : h.rmt.find? fun r => r.data.hash = m.hash with
  | none =>
    obtain ⟨-, hinserted, es, hes, hnotices⟩ := discover_new hfind hrun
    have hrmt := hinserted.2
    constructor
    · refine ⟨[(m.hash, m.types)], es, ?_, hes, ?_⟩
      · rw [labels, hrmt, List.map_append]
        rfl
      · rw [hnotices]
        cases hany : env.containsAny m.types <;> simp [hany]
    · intro r hr
      exact ⟨r, by simp [hrmt, hr], rfl, UInt8.le_refl _⟩
  | some r =>
    obtain ⟨-, heffects, hrmt⟩ := discover_known hfind hrun
    split_ifs at hrmt with hnear
    · constructor
      · refine .of_eq ?_ heffects
        rw [labels, hrmt]
        exact updateHops_map (fun _ _ => rfl) _ _ _
      · obtain ⟨before, behind, hsplit, -, hupdated⟩ := @updateHops_split m.hash m.hops _ r hfind
        rw [hupdated] at hrmt
        intro x hx
        rw [hsplit] at hx
        rcases List.mem_append.mp hx with hx | hx
        · exact ⟨x, by simp [hrmt, hx], rfl, UInt8.le_refl _⟩
        · rcases List.mem_cons.mp hx with rfl | hx
          · exact ⟨{ x with data := { x.data with hops := m.hops } }, by simp [hrmt], rfl,
              UInt8.le_of_lt hnear⟩
          · exact ⟨x, by simp [hrmt, hx], rfl, UInt8.le_refl _⟩
    · exact ⟨.of_eq (by rw [labels, labels, hrmt]) heffects, .of_eq hrmt⟩

theorem run_reports {ms : List ContentMetadata} (hr : run (itemStep env) h ms = .ok h') :
    Reports env h h' ∧ Nearer h h' := by
  refine run_invariant (fun h₁ => Reports env h h₁ ∧ Nearer h h₁) ?_ ⟨.of_eq rfl rfl, .of_eq rfl⟩ hr
  rintro h₁ m h₂ ⟨hreports, hnearer⟩ hs
  rcases itemStep_cases hs with ⟨-, rfl⟩ | ⟨-, b, hdiscover⟩
  · exact ⟨hreports, hnearer⟩
  · obtain ⟨hreports', hnearer'⟩ := discover_reports hdiscover
    exact ⟨hreports.trans hreports', hnearer.trans hnearer'⟩

end Receiving

section Calls

variable {hasher : List UInt8 → Hash} {env : Surroundings} {op : Op} {h h' : ContentHelper}

theorem distinct_lifetimes_iff :
    Distinct (lifetimes h) ↔ (h.rmt.map fun r => r.data.hash).Nodup := by
  rw [Distinct, lifetimes, List.map_map]
  rfl

theorem run_remoteSound (hsound : RemoteSound h) {ms : List ContentMetadata}
    (hr : run (itemStep env) h ms = .ok h') : RemoteSound h' := by
  constructor
  · exact distinct_lifetimes_iff.mp (run_distinct hr (distinct_lifetimes_iff.mpr hsound.distinct))
  · exact run_foreign hr hsound.foreign

/-- Other calls at most drop what has expired. -/
theorem tables_drop (htab : Tables env h op h') (hop : ∀ msg, op ≠ .receiveContentAnn msg) :
    h'.rmt.map RemoteMetadata.data = h.rmt.map RemoteMetadata.data ∨
      h'.rmt.map RemoteMetadata.data =
        (h.rmt.filter fun r => !r.data.expired env.now).map RemoteMetadata.data := by
  cases htab with
  | published hp => exact .inl (by rw [hp.rmt_eq])
  | announced ha => exact .inr ha.rmt_eq
  | received hr => exact absurd rfl (hop _)
  | pruned => exact .inr rfl
  | beside hb => exact .inl (by rw [hb.rmt_eq])

theorem tables_remoteSound (htab : Tables env h op h') (hsound : RemoteSound h) : RemoteSound h' := by
  constructor
  · exact distinct_lifetimes_iff.mp (tables_distinct htab (distinct_lifetimes_iff.mpr hsound.distinct))
  · exact tables_foreign htab hsound.foreign

theorem mem_of_data {rmt rmt' : List RemoteMetadata}
    (hrmt : rmt'.map RemoteMetadata.data = rmt.map RemoteMetadata.data) {r : RemoteMetadata}
    (hr : r ∈ rmt) : ∃ r' ∈ rmt', r'.data = r.data := by
  have hmem := List.mem_map_of_mem (f := RemoteMetadata.data) hr
  rw [← hrmt] at hmem
  exact List.mem_map.mp hmem

/-- An entry that is dropped has expired, and no other has its hash. -/
theorem drop_entriesStay (hsound : RemoteSound h)
    (hdrop : h'.rmt.map RemoteMetadata.data = h.rmt.map RemoteMetadata.data ∨
      h'.rmt.map RemoteMetadata.data =
        (h.rmt.filter fun r => !r.data.expired env.now).map RemoteMetadata.data) :
    EntriesStay env h h' := by
  intro r hr
  have hstays : (∃ r' ∈ h'.rmt, r'.data = r.data) → ∃ r' ∈ h'.rmt,
      r'.data = { r.data with hops := r'.data.hops } ∧ r'.data.hops ≤ r.data.hops := by
    rintro ⟨r', hr', hdata⟩
    exact ⟨r', hr', by rw [hdata], by rw [hdata]; exact UInt8.le_refl _⟩
  rcases hdrop with hsame | hfilter
  · exact .inl (hstays (mem_of_data hsame hr))
  · by_cases hexpired : r.data.expired env.now
    · refine .inr ⟨hexpired, fun r' hr' hhash => ?_⟩
      obtain ⟨r₀, hr₀, hdata⟩ := mem_of_data hfilter.symm hr'
      obtain ⟨hmem, halive⟩ := List.mem_filter.mp hr₀
      obtain rfl := eq_of_hash hsound.distinct hmem hr (by rw [hdata, hhash])
      rw [hexpired] at halive
      cases halive
    · exact .inl (hstays (mem_of_data hfilter (List.mem_filter.mpr ⟨hr, by simpa using hexpired⟩)))

theorem drop_entered (hdrop : (h'.rmt.map RemoteMetadata.data).Sublist (h.rmt.map RemoteMetadata.data)) :
    entered h h' = [] := by
  rw [entered, List.filter_eq_nil_iff]
  intro r hr
  obtain ⟨r₀, hr₀, hdata⟩ := List.mem_map.mp (hdrop.subset (List.mem_map_of_mem hr))
  simpa using ⟨r₀, hr₀, by rw [hdata]⟩

/-- What is reported are the new entries, since no two have the same hash. -/
theorem Reports.newNoticed (hreports : Reports env h h') (hsound : RemoteSound h') :
    NewNoticed env h h' := by
  obtain ⟨new, es, hlabels, heffects, hnoticed⟩ := hreports
  obtain ⟨old, added, hrmt, hold, rfl⟩ := List.map_eq_append_iff.mp hlabels
  have hhashes : (old.map fun r => r.data.hash) = h.rmt.map fun r => r.data.hash := by
    have hfst := congrArg (List.map Prod.fst) hold
    rw [labels, List.map_map, List.map_map] at hfst
    exact hfst
  have hdistinct := hsound.distinct
  rw [hrmt, List.map_append, List.nodup_append] at hdistinct
  have hentered : entered h h' = added := by
    rw [entered, hrmt, List.filter_append, ← hhashes]
    have hknown : (old.filter fun r => r.data.hash ∉ old.map fun r => r.data.hash) = [] := by
      rw [List.filter_eq_nil_iff]
      intro r hr
      simpa using ⟨r, hr, rfl⟩
    have hunknown : (added.filter fun r => r.data.hash ∉ old.map fun r => r.data.hash) = added := by
      rw [List.filter_eq_self]
      intro r hr
      rw [decide_eq_true_iff]
      exact fun hmem => hdistinct.2.2 _ hmem _ (List.mem_map_of_mem hr) rfl
    rw [hknown, hunknown, List.nil_append]
  have hfst := congrArg (List.map Prod.fst) hnoticed
  rw [List.map_map, List.filter_map, List.map_map] at hfst
  rw [NewNoticed, newEffects_eq heffects, hentered]
  exact hfst

theorem announceMetadata_unnoticed : Keeps Unnoticed (announceMetadata env) := by
  have hpost : ∀ ms, Keeps Unnoticed (post env (.contentAnn ⟨ms⟩)) := fun ms =>
    (post_ends unnoticed_admits.toAdmits env fun _ => unnoticed_emit fun _ => Effect.noConfusion).keeps
  have htail : ∀ (auto : Bool) (n : ℕ), Keeps Unnoticed (do
      if auto then record (.doIn minAnnounceInterval .announceMetadata)
      pure n : Action ℕ) := fun auto n =>
    keeps_ite (keeps_bind (keeps_modify fun _ => unnoticed_emit fun _ => Effect.noConfusion)
      fun _ => keeps_pure _) (keeps_pure _)
  refine keeps_bind keeps_get fun h => keeps_ite (keeps_pure _) ?_
  refine keeps_bind (keeps_modify fun _ => .of_eq rfl) fun _ => ?_
  exact keeps_ite (keeps_bind (hpost _) fun _ => htail _ _) (htail _ _)

/-- Only received metadata are reported. -/
theorem step_unnoticed (hop : ∀ msg, op ≠ .receiveContentAnn msg)
    (hs : step hasher h (env, op) = .ok h') : Unnoticed h h' := by
  obtain ⟨u, hrun⟩ := map_snd_ok hs
  have ha := unnoticed_admits.toAdmits
  suffices hkeeps : Keeps Unnoticed (perform hasher env op) from hkeeps h u h' hrun
  cases op with
  | receiveContentAnn msg => exact absurd rfl (hop msg)
  | announceMetadata => exact keeps_discard announceMetadata_unnoticed
  | subscribe handler => exact keeps_modify fun _ => .of_eq rfl
  | createNew types name src =>
    exact keeps_discard (keeps_bind keeps_get fun _ => keeps_bind (keeps_attempt _) fun _ =>
      keeps_bind (keeps_modify fun _ => .of_eq rfl) fun _ => keeps_pure _)
  | receiveBlockRequest header msg => exact (receiveBlockRequest_ends ha env header msg).keeps
  | receiveBlockResponse msg => exact (receiveBlockResponse_ends unnoticed_admits env msg).keeps
  | request requests => exact (request_ends ha env requests).keeps
  | broadcast ref => exact keeps_discard (broadcast_ends ha env ref).keeps
  | frozen blocks enabled => exact keeps_discard (frozen_ends unnoticed_admits enabled blocks).keeps
  | metadata =>
    exact keeps_discard (keeps_bind (keeps_modify fun _ => .of_eq rfl) fun _ =>
      keeps_bind keeps_get fun _ => keeps_pure _)
  | sweepPendingRequests => exact (sweepPendingRequests_ends ha env.now).keeps
  | doAutoFetch => exact (doAutoFetch_ends ha env).keeps

theorem discoveries (hsound : RemoteSound h) (call : Surroundings × Op) : Discoveries h call := by
  obtain ⟨env, op⟩ := call
  cases op with
  | receiveContentAnn msg =>
    intro heard m rest _ h₁ hr
    exact ⟨run_remoteSound hsound hr, fun _ b h₂ hdiscover => discover_right hdiscover⟩
  | _ => trivial

theorem keepsRemote (hsound : RemoteSound h) (call : Surroundings × Op) :
    KeepsRemote hasher h call := by
  refine ⟨discoveries hsound call, fun h' hs => ?_⟩
  obtain ⟨env, op⟩ := call
  have htab := step_tables hs
  by_cases hop : ∃ msg, op = .receiveContentAnn msg
  · obtain ⟨msg, rfl⟩ := hop
    obtain ⟨hreports, hnearer⟩ := run_reports (receiveContentAnn_ok hs)
    exact ⟨fun r hr => .inl (hnearer r hr), hreports.newNoticed (tables_remoteSound htab hsound)⟩
  · push Not at hop
    have hdrop := tables_drop htab hop
    refine ⟨drop_entriesStay hsound hdrop, ?_⟩
    have hsub : (h'.rmt.map RemoteMetadata.data).Sublist (h.rmt.map RemoteMetadata.data) := by
      rcases hdrop with hsame | hfilter
      · rw [hsame]
      · rw [hfilter]
        exact List.filter_sublist.map _
    rw [NewNoticed, drop_entered hsub, (step_unnoticed hop hs).notices_eq]
    rfl

end Calls

/-- Over every run the remote metadata are of others and of different hashes, stay until they have
expired and come nearer only, and are reported once, as they are entered. -/
theorem remote_metadata (hasher : List UInt8 → Hash) (flags : Flags) (id : NodeId)
    (calls : List (Surroundings × Op)) :
    Always (step hasher) RemoteSound (build flags id) calls ∧
      Each (step hasher) (KeepsRemote hasher) (build flags id) calls := by
  have hstart : RemoteSound (build flags id) := ⟨List.nodup_nil, fun r hr => by cases hr⟩
  have hsound : ∀ h past, run (step hasher) (build flags id) past = .ok h → RemoteSound h :=
    fun h past hr => run_invariant RemoteSound
      (fun _ _ _ hsound hs => tables_remoteSound (step_tables hs) hsound) hstart hr
  exact ⟨always_of_run hsound,
    each_of_prefixes fun past call h _ hr => keepsRemote (hsound h past hr) call⟩

end YingSma.ContentHelper
