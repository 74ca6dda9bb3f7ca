import YingSma.ContentHelperAsking
import YingSma.ContentHelperResponses
import YingSma.ContentHelperTimeouts

/-! Blocks that are to be kept on arrival. A request for a block that is in the bounded cache
already leaves it there, and a block other than the first is stored under a wrong index. -/
namespace YingSma.ContentHelper
open TransitionRuns EntryTable

/-- What one request does to the blocks to be kept: it adds its own, and those that time out
meanwhile are left out. -/
def noteKeepRequest (env : Surroundings) (r : List BlockRef × ContentHelper)
    (req : LocalRequestArgs) : List BlockRef × ContentHelper :=
  let h' := dealt env r.2 req
  ((if req.keepOnArrival then req.block :: r.1 else r.1).filter fun block =>
    .requestTimedout block ∉ newEffects r.2 h', h')

/-- The blocks that a request has asked to keep and whose request has not timed out. -/
def noteKept (kept : List BlockRef) (h : ContentHelper) (call : Surroundings × Op)
    (h' : ContentHelper) : List BlockRef :=
  if asked call.1 h call.2 = [] then
    kept.filter fun block => .requestTimedout block ∉ newEffects h h'
  else ((asked call.1 h call.2).foldl (noteKeepRequest call.1) (kept, h)).1

/-- The block is in the permanent store, complete. -/
def InStore (h : ContentHelper) (block : BlockRef) : Prop :=
  ∃ idx, h.store.find block = some idx ∧ h.store.complete idx

/-- A block to be kept is in the permanent store when its arrival is reported. -/
def HonoursKeepOnArrival (hasher : List UInt8 → Hash) (r : List BlockRef × ContentHelper)
    (call : Surroundings × Op) : Prop :=
  ∀ h', step hasher r.2 call = .ok h' → ∀ block ∈ noteKept r.1 r.2 call h',
    .blockArrived block ∈ newEffects r.2 h' → InStore h' block

/-- A block to be kept that is asked for and there already is in the store and not in the
cache alone; one that arrives is the first of its content, or in the store already. -/
def FindsItsWay (hasher : List UInt8 → Hash) (r : List BlockRef × ContentHelper)
    (call : Surroundings × Op) : Prop :=
  ∀ h', step hasher r.2 call = .ok h' → ∀ block ∈ noteKept r.1 r.2 call h',
    (block ∈ r.2.askedBlocks call → r.2.has block → InStore r.2 block) ∧
      (block ∈ received call.2 → block.index = 0 ∨ InStore r.2 block)

/-- The block has entries in the table, and `Q` holds of them. -/
def Waiting (Q : PendingRequest → Prop) (block : BlockRef) (h : ContentHelper) : Prop :=
  block ∈ h.prt.map Prod.fst ∧ ∀ entry ∈ h.prt, entry.1 = block → Q entry.2

/-- A block that waits goes on waiting, or times out. -/
def HeldOn (Q : PendingRequest → Prop) (block : BlockRef) (h h' : ContentHelper) : Prop :=
  ∃ es, h'.effects = h.effects ++ es ∧
    (Waiting Q block h → .requestTimedout block ∉ es → Waiting Q block h')

section Holding

variable {Q : PendingRequest → Prop} {block : BlockRef} {h h' : ContentHelper}

theorem Waiting.congr (hw : Waiting Q block h) (hprt : h'.prt = h.prt) : Waiting Q block h' := by
  unfold Waiting
  rwa [hprt]

theorem HeldOn.of_prt (hprt : h'.prt = h.prt) {es : List Effect}
    (heffects : h'.effects = h.effects ++ es) : HeldOn Q block h h' :=
  ⟨es, heffects, fun hw _ => hw.congr hprt⟩

instance (Q : PendingRequest → Prop) (block : BlockRef) : IsPreorder ContentHelper (HeldOn Q block) where
  refl h := .of_prt rfl (List.append_nil h.effects).symm
  trans a b c hab hbc := by
    obtain ⟨es, hes, hheld⟩ := hab
    obtain ⟨es', hes', hheld'⟩ := hbc
    refine ⟨es ++ es', by rw [hes', hes, List.append_assoc], fun hw hnot => ?_⟩
    rw [List.mem_append, not_or] at hnot
    exact hheld' (hheld hw hnot.1) hnot.2

theorem Waiting.updated (hw : Waiting Q block h) (other : BlockRef)
    {f : PendingRequest → PendingRequest} (hf : ∀ p, Q p → Q (f p)) :
    Waiting Q block (h.updated other f) := by
  constructor
  · rw [ContentHelper.updated, keys_update]
    exact hw.1
  · intro entry he hblock
    obtain ⟨entry, hentry, rfl⟩ := List.mem_map.mp he
    split_ifs at hblock ⊢
    · exact hf _ (hw.2 entry hentry hblock)
    · exact hw.2 entry hentry hblock

theorem updated_heldOn (other : BlockRef) {f : PendingRequest → PendingRequest}
    (hf : ∀ p, Q p → Q (f p)) : HeldOn Q block h (h.updated other f) :=
  ⟨[], (List.append_nil _).symm, fun hw _ => hw.updated other hf⟩

theorem erased_heldOn {other : BlockRef} (hne : block ≠ other) :
    HeldOn Q block h (h.erased other) := by
  refine ⟨[], (List.append_nil _).symm, fun hw _ => ⟨?_, ?_⟩⟩
  · obtain ⟨entry, hentry, rfl⟩ := List.mem_map.mp hw.1
    exact List.mem_map_of_mem (List.mem_filter.mpr ⟨hentry, by simpa using hne⟩)
  · exact fun entry he => hw.2 entry (List.mem_of_mem_filter he)

theorem inserted_heldOn {other : BlockRef} (hne : block ≠ other) (p : PendingRequest) :
    HeldOn Q block h (h.inserted other p) := by
  refine ⟨[], (List.append_nil _).symm, fun hw _ => ⟨?_, ?_⟩⟩
  · rw [inserted, List.map_append]
    exact List.mem_append_left _ hw.1
  · intro entry he hblock
    rcases List.mem_append.mp he with he | he
    · exact hw.2 entry he hblock
    · obtain rfl := List.mem_singleton.mp he
      exact absurd hblock.symm hne

theorem swept_heldOn (now : TimePoint) : HeldOn Q block h (h.swept now) := by
  refine ⟨_, rfl, fun hw hnot => ⟨?_, ?_⟩⟩
  · obtain ⟨entry, hentry, rfl⟩ := List.mem_map.mp hw.1
    refine List.mem_map_of_mem (List.mem_filter.mpr ⟨hentry, ?_⟩)
    by_contra hexpired
    refine hnot (List.mem_map_of_mem (List.mem_map_of_mem (List.mem_filter.mpr ⟨hentry, ?_⟩)))
    simpa using hexpired
  · exact fun entry he => hw.2 entry (List.mem_of_mem_filter he)

theorem scheduled_heldOn (now when_ : TimePoint) : HeldOn Q block h (h.scheduled now when_) := by
  unfold scheduled
  split_ifs
  · exact .of_prt rfl rfl
  · exact swept_heldOn now

theorem extended_heldOn (hexpiry : ∀ p e, Q p → Q { p with expiry := e })
    (now newExpiry : TimePoint) (other : BlockRef) (p : PendingRequest) :
    HeldOn Q block h (h.extended now other newExpiry p) := by
  unfold extended
  split_ifs
  · exact trans_of (HeldOn Q block) (updated_heldOn other fun p => hexpiry p newExpiry)
      (scheduled_heldOn now newExpiry)
  · exact refl_of (HeldOn Q block) h

end Holding

/-- Entries that put their block into the permanent store. -/
def ToBeKept (p : PendingRequest) : Prop := p.keepOnArrival = true

section Keeping

variable {env : Surroundings} {block : BlockRef} {h h' : ContentHelper}

/-- Requests that find the block missing, and requests for others, leave its entry. -/
theorem dealt_heldOn {req : LocalRequestArgs} (hmissing : req.block = block → h.has block = false) :
    HeldOn ToBeKept block h (dealt env h req) := by
  unfold dealt
  split_ifs with hhas
  · refine erased_heldOn fun hblock => ?_
    rw [← hblock, hmissing hblock.symm] at hhas
    exact Bool.false_ne_true hhas
  · unfold added
    cases hp : h.pending req.block with
    | some p =>
      refine trans_of (HeldOn ToBeKept block) (extended_heldOn ?_ _ _ _ p) (updated_heldOn _ ?_)
      · exact fun _ _ hkeep => hkeep
      · intro p hkeep
        exact Bool.or_eq_true_iff.mpr (.inl hkeep)
    | none =>
      by_cases hne : block = req.block
      · subst hne
        obtain ⟨es, hes, -⟩ := scheduled_effects env.now (env.now + req.ttlMs.toNat * milli)
          (h.inserted req.block ⟨env.now, _, req.keepOnArrival, false⟩)
        exact ⟨es, hes, fun hw => absurd hw.1 (pending_eq_none_iff.mp hp)⟩
      · exact trans_of (HeldOn ToBeKept block) (inserted_heldOn hne _) (scheduled_heldOn _ _)

/-- A change of all entries of the block. -/
theorem Waiting.set {Q : PendingRequest → Prop} (hw : Waiting (fun _ => True) block h)
    {f : PendingRequest → PendingRequest} (hf : ∀ p, Q (f p)) : Waiting Q block (h.updated block f) := by
  refine ⟨(hw.updated block fun _ _ => trivial).1, ?_⟩
  intro entry he hblock
  obtain ⟨entry, hentry, rfl⟩ := List.mem_map.mp he
  split_ifs at hblock ⊢ with hsame
  · exact hf entry.2
  · exact absurd hblock hsame

theorem waiting_of_pending {p : PendingRequest} (hp : h.pending block = some p) :
    Waiting (fun _ => True) block h :=
  ⟨List.mem_map_of_mem (mem_of_lookup hp), fun _ _ _ => trivial⟩

/-- The request itself makes its block wait, or it times out at once. -/
theorem dealt_waits {req : LocalRequestArgs} (hkeep : req.keepOnArrival = true)
    (hmissing : h.has req.block = false) :
    ∃ es, (dealt env h req).effects = h.effects ++ es ∧
      (.requestTimedout req.block ∉ es → Waiting ToBeKept req.block (dealt env h req)) := by
  unfold dealt
  rw [if_neg (by simp [hmissing])]
  unfold added
  cases hp : h.pending req.block with
  | some p =>
    obtain ⟨es, hes, hheld⟩ := extended_heldOn (Q := fun _ => True) (fun _ _ _ => trivial) env.now
      (env.now + req.ttlMs.toNat * milli) req.block p
    refine ⟨es, hes, fun hnot => (hheld (waiting_of_pending hp) hnot).set fun p => ?_⟩
    exact Bool.or_eq_true_iff.mpr (.inr hkeep)
  | none =>
    obtain ⟨es, hes, hheld⟩ := @scheduled_heldOn ToBeKept req.block
      (h.inserted req.block ⟨env.now, _, req.keepOnArrival, false⟩) env.now
      (env.now + req.ttlMs.toNat * milli)
    refine ⟨es, hes, hheld ⟨?_, ?_⟩⟩
    · simp [inserted]
    · intro entry he hblock
      rcases List.mem_append.mp he with he | he
      · exact absurd (hblock ▸ List.mem_map_of_mem he) (pending_eq_none_iff.mp hp)
      · obtain rfl := List.mem_singleton.mp he
        exact hkeep

/-- After the requests of a call, the blocks to be kept that are missing have entries. -/
theorem foldl_waiting {asks : List LocalRequestArgs} {kept : List BlockRef}
    (hmissing : ∀ req ∈ asks, req.block = block → h.has block = false)
    (hstart : block ∈ kept → Waiting ToBeKept block h)
    (hkept : block ∈ (asks.foldl (noteKeepRequest env) (kept, h)).1) :
    Waiting ToBeKept block (asks.foldl (dealt env) h) := by
  induction asks generalizing kept h with
  | nil => exact hstart hkept
  | cons req asks ih =>
    rw [List.forall_mem_cons] at hmissing
    refine ih ?_ ?_ hkept
    · intro other hother hblock
      rw [dealt_has]
      exact hmissing.2 other hother hblock
    · intro hmem
      obtain ⟨hmem, hnot⟩ := List.mem_filter.mp hmem
      replace hnot := of_decide_eq_true hnot
      have hcases : block ∈ kept ∨ req.block = block ∧ req.keepOnArrival = true := by
        split_ifs at hmem with hkeep
        · rcases List.mem_cons.mp hmem with hblock | hmem
          · exact .inr ⟨hblock.symm, hkeep⟩
          · exact .inl hmem
        · exact .inl hmem
      rcases hcases with hold | ⟨rfl, hkeep⟩
      · obtain ⟨es, hes, hheld⟩ := @dealt_heldOn env _ _ _ hmissing.1
        rw [newEffects_eq hes] at hnot
        exact hheld (hstart hold) hnot
      · obtain ⟨es, hes, hwaits⟩ := @dealt_waits env _ _ hkeep (hmissing.1 rfl)
        rw [newEffects_eq hes] at hnot
        exact hwaits hnot

/-- Without requests of its own, a call leaves the entry of a block, or it times out. -/
theorem Moves.heldOn {op : Op} (hm : Moves env op [] h h') : HeldOn ToBeKept block h h' := by
  induction hm with
  | refl => exact refl_of (HeldOn ToBeKept block) h
  | tail _ hm ih =>
    refine trans_of (HeldOn ToBeKept block) ih ?_
    cases hm with
    | frame hprt _ _ heffects => exact .of_prt hprt (heffects.trans (List.append_nil _).symm)
    | emit e _ => exact .of_prt rfl rfl
    | deal req hreq => cases hreq
    | alreadyHere req hreq _ => cases hreq
    | sweep _ => exact swept_heldOn _
    | forward req _ _ =>
      unfold forwarded
      split
      · refine trans_of (HeldOn ToBeKept block) (updated_heldOn _ ?_) (extended_heldOn ?_ _ _ _ _)
        · exact fun _ hkeep => hkeep
        · exact fun _ _ hkeep => hkeep
      · exact refl_of (HeldOn ToBeKept block) _
    | arrive _ => exact .of_prt rfl rfl
    | keep _ _ => exact .of_prt rfl (List.append_nil _).symm
    | fill cache _ => exact .of_prt rfl (List.append_nil _).symm

/-- Only a response changes the store, and only a response is an arrival. -/
theorem Moves.quiet {op : Op} (hop : received op = []) (hm : Moves env op [] h h') :
    h'.store = h.store ∧ ∃ es, h'.effects = h.effects ++ es ∧ ∀ block, .blockArrived block ∉ es := by
  induction hm with
  | refl => exact ⟨rfl, [], (List.append_nil _).symm, fun _ => List.not_mem_nil⟩
  | @tail h₁ h₂ _ hm ih =>
    obtain ⟨hstore, es, hes, hnot⟩ := ih
    suffices hlast : h₂.store = h₁.store ∧
        ∃ es', h₂.effects = h₁.effects ++ es' ∧ ∀ block, .blockArrived block ∉ es' by
      obtain ⟨hstore', es', hes', hnot'⟩ := hlast
      refine ⟨hstore'.trans hstore, es ++ es', by rw [hes', hes, List.append_assoc], ?_⟩
      intro block hmem
      rcases List.mem_append.mp hmem with hmem | hmem
      · exact hnot block hmem
      · exact hnot' block hmem
    have hnone : ∃ es', h₁.effects = h₁.effects ++ es' ∧ ∀ block, .blockArrived block ∉ es' :=
      ⟨[], (List.append_nil _).symm, fun _ => List.not_mem_nil⟩
    cases hm with
    | frame _ _ hstore heffects => exact ⟨hstore, heffects ▸ hnone⟩
    | emit e he =>
      refine ⟨rfl, _, rfl, fun block hmem => ?_⟩
      obtain rfl := List.mem_singleton.mp hmem
      cases he
    | deal req hreq => cases hreq
    | alreadyHere req hreq _ => cases hreq
    | sweep _ => exact ⟨rfl, _, rfl, by simp⟩
    | forward req _ _ =>
      unfold forwarded
      split
      · refine ⟨extended_store _ _ _ _ _, ?_⟩
        unfold extended
        split_ifs
        · exact scheduled_effects _ _ _
        · exact hnone
      · exact ⟨rfl, hnone⟩
    | arrive hop' =>
      subst hop'
      cases hop
    | keep hop' _ =>
      subst hop'
      cases hop
    | fill cache _ => exact ⟨rfl, hnone⟩

end Keeping

section Store

variable {c c' : ContentCache} {h h' : ContentHelper}

/-- All blocks of the cache are complete. -/
def AllComplete (c : ContentCache) : Prop :=
  ∀ hash, ∀ idx ∈ (c.content hash).getD [], c.complete idx

theorem AllComplete.storeBlock (hall : AllComplete c) (hclean : c.Clean) {ref : BlockRef}
    {size : ℕ} {src : List UInt8} (hsize : src.length = size) {found : Option ℕ}
    (hs : c.storeBlock ref size src = .ok (found, c')) : AllComplete c' := by
  rcases ContentCache.storeBlock_ok hs with ⟨-, -, rfl⟩ | ⟨idx, kept, hle, -, -, hf, rfl⟩
  · exact hall
  · obtain ⟨-, hlt, -, hfresh⟩ := hclean.taken hf idx (by simp)
    have hnew : ({ (c.growToFit 1).occupy kept [idx] with
        slots := (c.growToFit 1).slots.modify idx fun s => s.write src size hle
        content := Function.update c.content ref.hash
          (some ((c.content ref.hash).getD [] ++ [idx])) } : ContentCache).complete idx := by
      simp [ContentCache.complete, ContentCache.slot, hlt, Slot.write, hsize]
    have hold : ∀ hash, ∀ i ∈ (c.content hash).getD [],
        ({ (c.growToFit 1).occupy kept [idx] with
          slots := (c.growToFit 1).slots.modify idx fun s => s.write src size hle
          content := Function.update c.content ref.hash
            (some ((c.content ref.hash).getD [] ++ [idx])) } : ContentCache).complete i := by
      intro hash i hi
      have hne : i ≠ idx := fun he => hfresh hash (he ▸ hi)
      have hbefore := hall hash i hi
      unfold ContentCache.complete ContentCache.slot at hbefore ⊢
      rw [ContentCache.slotAt_modify_of_ne _ _ hne]
      have hgrow := ContentCache.growToFit_slot c 1 i
      unfold ContentCache.slot at hgrow
      rw [hgrow]
      exact hbefore
    intro hash i hi
    by_cases hh : hash = ref.hash
    · subst hh
      simp only [Function.update_self, Option.getD_some, List.mem_append, List.mem_singleton] at hi
      rcases hi with hi | rfl
      · exact hold ref.hash i hi
      · exact hnew
    · simp only [Function.update_of_ne hh] at hi
      exact hold hash i hi

theorem inStore_iff (hall : AllComplete h.store) (block : BlockRef) :
    InStore h block ↔ (h.store.find block).isSome := by
  constructor
  · rintro ⟨idx, hfind, -⟩
    rw [hfind]
    rfl
  · intro hsome
    obtain ⟨idx, hfind⟩ := Option.isSome_iff_exists.mp hsome
    exact ⟨idx, hfind, hall _ _ (ContentCache.mem_of_find hfind)⟩

theorem find_mono (hret : ContentCache.Retains c c') {ref : BlockRef} (hsome : (c.find ref).isSome) :
    (c'.find ref).isSome := by
  obtain ⟨bytes, hb⟩ := (ContentCache.find_isSome_iff c ref).mp hsome
  exact (ContentCache.find_isSome_iff c' ref).mpr ⟨bytes, hret ref bytes hb⟩

/-- A block that waits to be kept is stored on its way in. -/
theorem Waiting.keeps {block : BlockRef} (hw : Waiting ToBeKept block h)
    (hnone : h.store.find block = none) : h.keeps block = true := by
  have hpending : h.pending block ≠ none := fun hidle => pending_eq_none_iff.mp hidle hw.1
  obtain ⟨p, hp⟩ := Option.ne_none_iff_exists'.mp hpending
  have hkeep : p.keepOnArrival = true := hw.2 _ (mem_of_lookup hp) rfl
  simp [ContentHelper.keeps, hp, hkeep, hnone]

theorem Stores.store_kept {msg : BlockResponse} (hsound : Sound h) (hall : AllComplete h.store)
    (hst : Stores msg h h') : AllComplete h'.store ∧ ContentCache.Retains h.store h'.store := by
  cases hst with
  | kept _ hs =>
    exact ⟨hall.storeBlock hsound.store.toClean msg.length_data hs,
      ContentCache.storeBlock_retains hsound.store.toClean hs⟩
  | cached => exact ⟨hall, ContentCache.Retains.refl _⟩
  | present => exact ⟨hall, ContentCache.Retains.refl _⟩

/-- A block to be kept is in the store after its response if it is the first of its content,
which is also the only way it gets there. -/
theorem Stores.inStore_iff {msg : BlockResponse} (hsound : Sound h) (hall : AllComplete h.store)
    (hkept : InStore h msg.block ∨ Waiting ToBeKept msg.block h) (hst : Stores msg h h') :
    InStore h' msg.block ↔ msg.block.index = 0 ∨ InStore h msg.block := by
  obtain ⟨hall', hret⟩ := hst.store_kept hsound hall
  rw [ContentHelper.inStore_iff hall', ContentHelper.inStore_iff hall]
  by_cases hin : (h.store.find msg.block).isSome
  · exact iff_of_true (find_mono hret hin) (.inr hin)
  · rw [or_iff_left hin]
    have hnone : h.store.find msg.block = none := Option.not_isSome_iff_eq_none.mp hin
    have hwaiting := hkept.resolve_left fun hin' => hin ((ContentHelper.inStore_iff hall _).mp hin')
    have hkeeps := hwaiting.keeps hnone
    cases hst with
    | kept _ hs => exact storeBlock_find_iff hsound.store.toClean hnone hs
    | cached hnot => exact absurd hkeeps hnot
    | present hnot => exact absurd hkeeps hnot

end Store

section Runs

variable {hasher : List UInt8 → Hash} {kept : List BlockRef} {h h' : ContentHelper}

/-- A block to be kept is in the store, or its request waits for it. -/
structure Safekept (kept : List BlockRef) (h : ContentHelper) : Prop extends Sound h where
  complete : AllComplete h.store
  waiting : ∀ block ∈ kept, InStore h block ∨ Waiting ToBeKept block h

/-- A call keeps what is to be kept if it finds its way, and reports arrivals from the store
exactly then. -/
def KeepsSafe (hasher : List UInt8 → Hash) (kept : List BlockRef) (h : ContentHelper)
    (call : Surroundings × Op) (h' : ContentHelper) : Prop :=
  (FindsItsWay hasher (kept, h) call → Safekept (noteKept kept h call h') h') ∧
    ∀ block ∈ noteKept kept h call h',
      (.blockArrived block ∈ newEffects h h' → InStore h' block) ↔
        (block ∈ h.askedBlocks call → h.has block → InStore h block) ∧
          (block ∈ received call.2 → block.index = 0 ∨ InStore h block)

theorem inStore_congr (hstore : h'.store = h.store) (block : BlockRef) :
    InStore h' block ↔ InStore h block := by
  unfold InStore
  rw [hstore]

theorem received_of_asked {env : Surroundings} {op : Op} (hasks : asked env h op ≠ []) :
    received op = [] := by
  cases op with
  | receiveBlockResponse msg => exact absurd rfl hasks
  | _ => rfl

/-- A call that asks for blocks. -/
theorem Safekept.asking (hsafe : Safekept kept h) {env : Surroundings} {op : Op}
    (hasks : asked env h op ≠ []) (hs : step hasher h (env, op) = .ok h') :
    KeepsSafe hasher kept h (env, op) h' := by
  have hdealt := step_dealt hasks hs
  have hreceived : received op = [] := received_of_asked hasks
  have hin := inStore_congr hdealt.store
  refine ⟨fun hway => ⟨step_sound hsafe.toSound hs, hdealt.store ▸ hsafe.complete, ?_⟩, ?_⟩
  · intro block hblock
    by_cases hstored : InStore h block
    · exact .inl ((hin block).mpr hstored)
    · right
      have hasked := (hway h' hs block hblock).1
      rw [noteKept, if_neg hasks] at hblock
      refine Waiting.congr (foldl_waiting ?_ ?_ hblock) hdealt.prt
      · intro req hreq hreqblock
        refine Bool.eq_false_iff.mpr fun hhas => hstored (hasked ?_ hhas)
        exact hreqblock ▸ List.mem_map_of_mem hreq
      · exact fun hmem => (hsafe.waiting block hmem).resolve_left hstored
  · intro block _
    obtain ⟨es, hes, hiff⟩ := hdealt.effects
    rw [newEffects_eq hes, hiff, hin, hreceived]
    simp only [List.not_mem_nil, false_imp_iff, and_true, askedBlocks, List.mem_map]
    constructor
    · intro hall hasked hhas
      obtain ⟨req, hreq, hblock⟩ := hasked
      exact hall ⟨req, hreq, hblock, hhas⟩
    · intro hall hmissed
      obtain ⟨req, hreq, hblock, hhas⟩ := hmissed
      exact hall ⟨req, hreq, hblock⟩ hhas

/-- A call that neither asks nor is a response. -/
theorem Safekept.other (hsafe : Safekept kept h) {env : Surroundings} {op : Op}
    (hasks : asked env h op = []) (hreceived : received op = [])
    (hs : step hasher h (env, op) = .ok h') : KeepsSafe hasher kept h (env, op) h' := by
  have hmoves := step_moves hs
  rw [hasks] at hmoves
  obtain ⟨hstore, es, hes, hnot⟩ := hmoves.quiet hreceived
  have hin := inStore_congr hstore
  have hnote : noteKept kept h (env, op) h' =
      kept.filter fun block => .requestTimedout block ∉ newEffects h h' := if_pos hasks
  refine ⟨fun _ => ⟨step_sound hsafe.toSound hs, hstore ▸ hsafe.complete, ?_⟩, ?_⟩
  · intro block hblock
    rw [hnote] at hblock
    obtain ⟨hmem, htimeout⟩ := List.mem_filter.mp hblock
    rcases hsafe.waiting block hmem with hstored | hwaiting
    · exact .inl ((hin block).mpr hstored)
    · obtain ⟨es', hes', hheld⟩ := @Moves.heldOn env block h h' op hmoves
      rw [newEffects_eq hes'] at htimeout
      exact .inr (hheld hwaiting (of_decide_eq_true htimeout))
  · intro block _
    have hnone : askedBlocks h (env, op) = [] := by simp [askedBlocks, hasks]
    rw [newEffects_eq hes, hnone, hreceived]
    simp [hnot]

/-- A response. -/
theorem Safekept.responding (hsafe : Safekept kept h) {env : Surroundings} {msg : BlockResponse}
    (hs : step hasher h (env, .receiveBlockResponse msg) = .ok h') :
    KeepsSafe hasher kept h (env, .receiveBlockResponse msg) h' := by
  have hprt : h'.prt = h.prt := (step_moves hs).response_prt
  obtain ⟨h₁, hst, hh'⟩ := step_response_ok hs
  obtain ⟨hall, hret⟩ := hst.store_kept hsafe.toSound hsafe.complete
  have hstore : h'.store = h₁.store := by rw [hh']; rfl
  have hin := inStore_congr hstore
  have hold : ∀ block, InStore h block → InStore h' block := by
    intro block hstored
    rw [hin, inStore_iff hall]
    exact find_mono hret ((inStore_iff hsafe.complete block).mp hstored)
  have hmem : ∀ block ∈ noteKept kept h (env, .receiveBlockResponse msg) h', block ∈ kept :=
    fun block hblock => List.mem_of_mem_filter hblock
  refine ⟨fun hway => ⟨step_sound hsafe.toSound hs, hstore ▸ hall, ?_⟩, ?_⟩
  · intro block hblock
    rcases hsafe.waiting block (hmem block hblock) with hstored | hwaiting
    · exact .inl (hold block hstored)
    · exact .inr (hwaiting.congr hprt)
  · intro block hblock
    have hposts : .blockArrived block ∉
        if h.sendsOn msg.block then h₁.answer msg.block else [] := by
      unfold answer
      split_ifs
      · cases h₁.heldBlock msg.block <;> simp
      · exact List.not_mem_nil
    have harrived : .blockArrived block ∈ newEffects h h' ↔ block = msg.block := by
      rw [hh', hst.newEffects, List.mem_append, or_iff_left hposts, List.mem_singleton,
        Effect.blockArrived.injEq]
    have hone : block ∈ received (.receiveBlockResponse msg) ↔ block = msg.block :=
      List.mem_singleton
    have hnone : block ∉ h.askedBlocks (env, .receiveBlockResponse msg) := List.not_mem_nil
    rw [harrived, hone, and_iff_right fun hasked => absurd hasked hnone]
    refine imp_congr_right fun heq => ?_
    subst heq
    rw [hin]
    exact hst.inStore_iff hsafe.toSound hsafe.complete (hsafe.waiting _ (hmem _ hblock))

theorem Safekept.step (hsafe : Safekept kept h) {call : Surroundings × Op}
    (hs : step hasher h call = .ok h') : KeepsSafe hasher kept h call h' := by
  obtain ⟨env, op⟩ := call
  by_cases hasks : asked env h op = []
  · cases op with
    | receiveBlockResponse msg => exact hsafe.responding hs
    | _ => exact hsafe.other hasks rfl hs
  · exact hsafe.asking hasks hs

theorem build_safekept (flags : Flags) (id : NodeId) : Safekept [] (build flags id) where
  toSound := build_sound flags id
  complete := fun _ _ hidx => absurd hidx List.not_mem_nil
  waiting := fun _ hblock => absurd hblock List.not_mem_nil

/-- For every run of a helper: the arrivals of blocks to be kept are reported from the store,
exactly when every such block that is there already when it is asked for is in the store,
and every other one to arrive is the first of its content. -/
theorem keep_on_arrival_honoured_iff (hasher : List UInt8 → Hash) (flags : Flags) (id : NodeId)
    (calls : List (Surroundings × Op)) :
    Each (noted (ContentHelper.step hasher) noteKept) (HonoursKeepOnArrival hasher)
        ([], build flags id) calls ↔
      Each (noted (ContentHelper.step hasher) noteKept) (FindsItsWay hasher)
        ([], build flags id) calls := by
  refine each_congr (fun r : List BlockRef × ContentHelper => Safekept r.1 r.2) ?_ ?_
    (build_safekept flags id)
  · intro r call _ r' hsafe hway hs
    obtain ⟨hs, hnote⟩ := noted_ok hs
    rw [hnote]
    exact (hsafe.step hs).1 hway
  · intro r call _ hsafe
    exact forall₂_congr fun h' hs => forall₂_congr ((hsafe.step hs).2)

/-- A block overheard for somebody else, and then asked for to be kept. It is reported as
arrived, and it is in the cache only. -/
theorem overheard_block_not_kept :
    ¬ Each (noted (ContentHelper.step fun _ => default) noteKept)
      (HonoursKeepOnArrival fun _ => default) ([], new ⟨1⟩)
      [(sampleSurroundings, .receiveBlockResponse sampleBlock),
        (sampleSurroundings, .request [{ sampleLocalRequest with keepOnArrival := true }])] := by
  intro hlaw
  obtain ⟨idx, hfind, -⟩ := (hlaw.2 _ rfl).1 _ rfl sampleBlock.block (by decide +kernel)
    (by decide +kernel)
  have hsome := Option.isSome_of_eq_some hfind
  revert hsome
  decide +kernel

end Runs

end YingSma.ContentHelper
