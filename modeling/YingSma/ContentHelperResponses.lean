import YingSma.ContentHelperMoves
import YingSma.ContentHelperPublish

/-! What a received block response does: the block goes to the store or to the cache, and
it is sent on for those whose request for it is pending too. -/
namespace YingSma.ContentHelper
open StateActions TransitionRuns

/-- The response goes to the permanent store. -/
def keeps (h : ContentHelper) (block : BlockRef) : Bool :=
  (h.pending block).any PendingRequest.keepOnArrival && (h.store.find block).isNone

/-- The response is to be sent on. -/
def sendsOn (h : ContentHelper) (block : BlockRef) : Bool :=
  h.autoRespond && (h.pending block).any fun p => !p.localOnly

/-- Where the block of a response goes. -/
inductive Stores (msg : BlockResponse) (h : ContentHelper) : ContentHelper → Prop
  | kept {idx store} (hkeeps : h.keeps msg.block)
      (hs : h.store.storeBlock msg.block msg.size.toNat msg.data = .ok (idx, store)) :
      Stores msg h { h with store := store }
  | cached {idx cache} (hkeeps : ¬ h.keeps msg.block) (hnone : h.cache.find msg.block = none)
      (hs : h.cache.storeBlock msg.block msg.size.toNat msg.data = .ok (idx, cache)) :
      Stores msg h { h with cache := cache }
  | present (hkeeps : ¬ h.keeps msg.block) (hsome : (h.cache.find msg.block).isSome) :
      Stores msg h h

section Responding

variable {env : Surroundings} {msg : BlockResponse} {h h' : ContentHelper}

/-- The events and posts of a response, after the block has been stored. -/
def responded (msg : BlockResponse) (again : Bool) (h : ContentHelper) : ContentHelper :=
  (h.emit [.blockArrived msg.block]).emit (if again then h.answer msg.block else [])

theorem respondOn_ok {again : Bool} {u : Unit}
    (hrun : (do
      record (.blockArrived msg.block)
      if again then
        let _ ← broadcast env msg.block
        pure () : Action Unit) h = .ok (u, h')) : h' = h.responded msg again := by
  rw [bind_run_ok (record_run h _)] at hrun
  unfold responded
  cases again with
  | true =>
    rw [if_pos rfl, bind_run_ok (broadcast_run env _ _)] at hrun
    exact (Prod.mk.inj (Except.ok.inj hrun)).2.symm
  | false =>
    rw [if_neg Bool.false_ne_true, emit_nil]
    exact (Prod.mk.inj (Except.ok.inj hrun)).2.symm

theorem validateStored_ok {hash : Hash} {u : Unit} (hrun : validateStored hash h = .ok (u, h')) :
    h' = h := by
  unfold validateStored at hrun
  rw [bind_run_ok (get_run h)] at hrun
  cases hfind : h.rmt.find? fun r => r.data.hash = hash with
  | some r =>
    simp only [hfind] at hrun
    obtain ⟨a, h₁, hattempt, hpure⟩ := bind_eq_ok hrun
    obtain ⟨-, rfl⟩ := attempt_eq_ok hattempt
    exact (Prod.mk.inj (Except.ok.inj hpure)).2.symm
  | none =>
    simp only [hfind] at hrun
    exact (Prod.mk.inj (Except.ok.inj hrun)).2.symm

theorem receiveBlockResponse_ok {u : Unit} (hrun : receiveBlockResponse env msg h = .ok (u, h')) :
    ∃ h₁, Stores msg h h₁ ∧ h' = h₁.responded msg (h.sendsOn msg.block) := by
  unfold receiveBlockResponse at hrun
  rw [bind_run_ok (get_run h)] at hrun
  dsimp only at hrun
  by_cases hkeeps : h.keeps msg.block
  · have hcond := hkeeps
    unfold keeps at hcond
    rw [if_pos hcond] at hrun
    obtain ⟨out, h₁, hattempt, hrest⟩ := bind_eq_ok hrun
    obtain ⟨hs, rfl⟩ := attempt_eq_ok hattempt
    rw [bind_run_ok (modify_run _ _)] at hrest
    obtain ⟨v, h₂, hvalidate, htail⟩ := bind_eq_ok hrest
    obtain rfl := validateStored_ok hvalidate
    exact ⟨_, .kept hkeeps hs, respondOn_ok htail⟩
  · have hcond := hkeeps
    unfold keeps at hcond
    rw [if_neg hcond] at hrun
    by_cases hnone : (h.cache.find msg.block).isNone
    · rw [if_pos hnone] at hrun
      obtain ⟨out, h₁, hattempt, hrest⟩ := bind_eq_ok hrun
      obtain ⟨hs, rfl⟩ := attempt_eq_ok hattempt
      rw [bind_run_ok (modify_run _ _)] at hrest
      exact ⟨_, .cached hkeeps (Option.isNone_iff_eq_none.mp hnone) hs, respondOn_ok hrest⟩
    · rw [if_neg hnone] at hrun
      have hsome : (h.cache.find msg.block).isSome :=
        Option.isSome_iff_ne_none.mpr (mt Option.isNone_iff_eq_none.mpr hnone)
      exact ⟨h, .present hkeeps hsome, respondOn_ok hrun⟩

theorem step_response_ok {hasher : List UInt8 → Hash}
    (hs : step hasher h (env, .receiveBlockResponse msg) = .ok h') :
    ∃ h₁, Stores msg h h₁ ∧ h' = h₁.responded msg (h.sendsOn msg.block) := by
  obtain ⟨u, hrun⟩ := TransitionRuns.map_snd_ok hs
  exact receiveBlockResponse_ok hrun

theorem Stores.effects {h₁ : ContentHelper} (hst : Stores msg h h₁) : h₁.effects = h.effects := by
  cases hst <;> rfl

theorem Stores.newEffects {h₁ : ContentHelper} (hst : Stores msg h h₁) (again : Bool) :
    newEffects h (h₁.responded msg again) =
      [.blockArrived msg.block] ++ if again then h₁.answer msg.block else [] := by
  apply newEffects_eq
  rw [← List.append_assoc, ← hst.effects]
  rfl

theorem heldBlock_isSome_iff (block : BlockRef) :
    (h.heldBlock block).isSome ↔ (h.cache.find block).isSome ∨ (h.store.find block).isSome := by
  unfold heldBlock
  cases h.cache.find block with
  | some idx => simp
  | none => simp

theorem storeBlock_find_iff {c c' : ContentCache} {ref : BlockRef} {size : ℕ} {src : List UInt8}
    {found : Option ℕ} (hclean : c.Clean) (hnone : c.find ref = none)
    (hs : c.storeBlock ref size src = .ok (found, c')) : (c'.find ref).isSome ↔ ref.index = 0 := by
  cases found with
  | none =>
    rcases ContentCache.storeBlock_ok hs with ⟨-, hsome, -⟩ | ⟨idx, kept, hle, he, -⟩
    · rw [hnone] at hsome
      cases hsome
    · cases he
  | some idx =>
    rw [ContentCache.find_isSome_iff, ContentCache.storeBlock_blockAt hclean hs, if_pos rfl,
      (ContentCache.find_eq_none_iff c ref).mp hnone, Option.none_or]
    by_cases hindex : ref.index = 0
    · simp [hindex]
    · simp [hindex]

/-- A response to a block other than the first is not found under its own index. -/
theorem Stores.held_iff {h₁ : ContentHelper} (hsound : Sound h) (hst : Stores msg h h₁) :
    (h₁.heldBlock msg.block).isSome ↔
      msg.block.index = 0 ∨ (h.heldBlock msg.block).isSome := by
  rw [heldBlock_isSome_iff, heldBlock_isSome_iff]
  cases hst with
  | kept hkeeps hs =>
    have hnone : h.store.find msg.block = none := by
      rw [keeps, Bool.and_eq_true] at hkeeps
      exact Option.isNone_iff_eq_none.mp hkeeps.2
    rw [storeBlock_find_iff hsound.store.toClean hnone hs, hnone]
    simp [or_comm]
  | cached _ hnone hs =>
    rw [storeBlock_find_iff hsound.cache.toClean hnone hs, hnone]
    simp
  | present _ hsome => simp [hsome]

end Responding

section Soundness

variable {hasher : List UInt8 → Hash} {h h' : ContentHelper}

/-- An empty content counts too many blocks for the bounded cache. -/
theorem createNew_nonempty (hsound : Sound h) {env : Surroundings} {types : List ContentType}
    {name : ContentName} {src : List UInt8}
    (hs : step hasher h (env, .createNew types name src) = .ok h') : src ≠ [] := by
  rintro rfl
  obtain ⟨m, hstore, -⟩ := step_createNew_ok hs
  have hcount : ¬ ContentCache.blockCount 0 ≤ 16 := by
    decide
  rcases ContentCache.store_ok hstore with ⟨-, ⟨existing, he, hlen, -⟩ | ⟨hnew, -⟩⟩
  · exact hcount (hlen ▸ hsound.cache.entry_le he)
  · exact hcount ((ContentCache.store_room hsound.cache.bounded hstore hnew).trans
      hsound.cache.free_le)

theorem step_sound (hsound : Sound h) {call : Surroundings × Op}
    (hs : step hasher h call = .ok h') : Sound h' := by
  obtain ⟨env, op⟩ := call
  by_cases hop : ∃ types name src, op = .createNew types name src
  · obtain ⟨types, name, src, rfl⟩ := hop
    obtain ⟨m, hstore, hstore', -⟩ := step_createNew_ok hs
    exact ⟨hsound.cache.store (by decide) (createNew_nonempty hsound hs) hstore,
      hstore' ▸ hsound.store⟩
  · simp only [not_exists] at hop
    exact (step_keeps env hasher hop hs hsound).1

theorem build_sound (flags : Flags) (id : NodeId) : Sound (build flags id) :=
  ⟨(new_sound id).cache, (new_sound id).store⟩

end Soundness

end YingSma.ContentHelper
