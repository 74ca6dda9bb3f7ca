import YingSma.ContentHelperRebroadcasts

/-! Requests for this node alone. The table of pending requests does not take over their
flag, and neither does the merge of a later request into an entry. -/
namespace YingSma.ContentHelper
open TransitionRuns

/-- What one request does to the blocks whose entry somebody else shares in: a new entry
starts afresh, and a request that is not for this node alone makes it shared. -/
def noteRequest (env : Surroundings) (r : List BlockRef × ContentHelper) (req : LocalRequestArgs) :
    List BlockRef × ContentHelper :=
  let h' := dealt env r.2 req
  let shared := if (r.2.pending req.block).isNone then r.1.filter (· ≠ req.block) else r.1
  ((if req.localOnly then shared else req.block :: shared).filter fun block =>
    (h'.pending block).isSome, h')

/-- The blocks with an entry that a request not marked `local_only` has contributed to, or
for which a request has come from the network since the entry was made. -/
def noteShared (shared : List BlockRef) (h : ContentHelper) (call : Surroundings × Op)
    (h' : ContentHelper) : List BlockRef :=
  (((asked call.1 h call.2).foldl (noteRequest call.1) (shared, h)).1 ++
    requestedBlocks call.2).filter fun block => (h'.pending block).isSome

/-- The entry of the block is for this node alone. -/
def OwnRequest (r : List BlockRef × ContentHelper) (block : BlockRef) : Prop :=
  r.2.pending block ≠ none ∧ block ∉ r.1

/-- A response to a request for this node alone is not sent on. -/
def HonoursLocalOnly (hasher : List UInt8 → Hash) (r : List BlockRef × ContentHelper)
    (call : Surroundings × Op) : Prop :=
  ∀ h', step hasher r.2 call = .ok h' → ∀ block ∈ received call.2, OwnRequest r block →
    ∀ resp, .post (.blockResponse resp) ∉ newEffects r.2 h'

/-- A response to a request for this node alone, that goes through, finds the node not
responding at all, or is for a block other than the first of which nothing is held. -/
def CannotRespond (hasher : List UInt8 → Hash) (r : List BlockRef × ContentHelper)
    (call : Surroundings × Op) : Prop :=
  ∀ h', step hasher r.2 call = .ok h' → ∀ block ∈ received call.2, OwnRequest r block →
    r.2.autoRespond = false ∨ block.index ≠ 0 ∧ r.2.heldBlock block = none

/-- No entry is marked as being for this node alone. -/
def AllShared (h : ContentHelper) : Prop := ∀ entry ∈ h.prt, entry.2.localOnly = false

section Flags

variable {h h' : ContentHelper}

theorem AllShared.updated (hall : AllShared h) (block : BlockRef)
    {f : PendingRequest → PendingRequest} (hf : ∀ p, p.localOnly = false → (f p).localOnly = false) :
    AllShared (h.updated block f) := by
  intro entry he
  obtain ⟨entry, hentry, rfl⟩ := List.mem_map.mp he
  have hold := hall entry hentry
  split_ifs
  · exact hf _ hold
  · exact hold

theorem AllShared.sublist (hall : AllShared h) (hsub : h'.prt ⊆ h.prt) : AllShared h' :=
  fun entry he => hall entry (hsub he)

theorem AllShared.scheduled (hall : AllShared h) (now when_ : TimePoint) :
    AllShared (h.scheduled now when_) := by
  unfold ContentHelper.scheduled
  split_ifs
  · exact hall
  · exact hall.sublist List.filter_sublist.subset

theorem AllShared.extended (hall : AllShared h) (now newExpiry : TimePoint) (block : BlockRef)
    (p : PendingRequest) : AllShared (h.extended now block newExpiry p) := by
  unfold ContentHelper.extended
  split_ifs
  · refine AllShared.scheduled (hall.updated block ?_) now newExpiry
    intro p hp
    exact hp
  · exact hall

theorem AllShared.dealt (hall : AllShared h) (env : Surroundings) (req : LocalRequestArgs) :
    AllShared (dealt env h req) := by
  unfold ContentHelper.dealt added
  split_ifs
  · exact hall.sublist List.filter_sublist.subset
  · cases h.pending req.block with
    | some p =>
      refine (hall.extended _ _ _ p).updated _ ?_
      intro p hp
      exact hp
    | none =>
      refine AllShared.scheduled ?_ _ _
      intro entry he
      rcases List.mem_append.mp he with he | he
      · exact hall entry he
      · obtain rfl := List.mem_singleton.mp he
        -- the aggregate initialiser of the entry stops before its last member
        rfl

theorem AllShared.forwarded (hall : AllShared h) (env : Surroundings) (req : BlockRequestArgs) :
    AllShared (h.forwarded env req) := by
  unfold ContentHelper.forwarded
  cases h.pending req.block with
  | some p => exact (hall.updated _ fun _ _ => rfl).extended _ _ _ p
  | none => exact hall

theorem AllShared.moves {env : Surroundings} {op : Op} {asks : List LocalRequestArgs}
    (hall : AllShared h) (hm : Moves env op asks h h') : AllShared h' := by
  induction hm with
  | refl => exact hall
  | tail _ hm ih =>
    cases hm with
    | frame hprt _ _ _ => exact ih.sublist (hprt ▸ List.Subset.refl _)
    | deal req _ => exact ih.dealt env req
    | sweep _ => exact ih.sublist List.filter_sublist.subset
    | forward req _ _ => exact ih.forwarded env req
    | _ => exact ih

/-- With an entry in the table, only `auto_respond` decides. -/
theorem AllShared.sendsOn_eq (hall : AllShared h) {block : BlockRef}
    (hpending : h.pending block ≠ none) : h.sendsOn block = h.autoRespond := by
  obtain ⟨p, hp⟩ := Option.ne_none_iff_exists'.mp hpending
  have hshared : p.localOnly = false := hall _ (EntryTable.mem_of_lookup hp)
  simp [sendsOn, hp, hshared]

end Flags

section Runs

variable {hasher : List UInt8 → Hash} {h h' : ContentHelper}

theorem postsNoResponse_iff {env : Surroundings} {msg : BlockResponse} (hsound : Sound h)
    (hs : step hasher h (env, .receiveBlockResponse msg) = .ok h') :
    (∀ resp, .post (.blockResponse resp) ∉ newEffects h h') ↔
      h.sendsOn msg.block = false ∨ msg.block.index ≠ 0 ∧ h.heldBlock msg.block = none := by
  rw [← postsNothing_iff hsound hs]
  obtain ⟨posts, heffects, -, hall, -⟩ := response_newEffects hsound hs
  rw [heffects]
  refine ⟨fun hno m hm => ?_, fun hno resp => hno _⟩
  rcases List.mem_cons.mp hm with heq | hm'
  · cases heq
  · have hresponse := hall _ hm'
    cases m with
    | blockResponse resp => exact hno resp hm
    | _ => cases hresponse

/-- For every run of a helper: responses to requests marked `local_only` are not sent on,
exactly when every one that goes through meets a node that does not respond, or brings a
block other than the first of which nothing is held. -/
theorem local_only_honoured_iff (hasher : List UInt8 → Hash) (flags : Flags) (id : NodeId)
    (calls : List (Surroundings × Op)) :
    Each (noted (step hasher) noteShared) (HonoursLocalOnly hasher) ([], build flags id) calls ↔
      Each (noted (step hasher) noteShared) (CannotRespond hasher) ([], build flags id) calls := by
  refine each_congr (fun r : List BlockRef × ContentHelper => Sound r.2 ∧ AllShared r.2) ?_ ?_
    ⟨build_sound flags id, fun _ he => absurd he List.not_mem_nil⟩
  · rintro r call - r' ⟨hsound, hall⟩ - hs
    obtain ⟨hs, -⟩ := noted_ok hs
    exact ⟨step_sound hsound hs, hall.moves (step_moves hs)⟩
  · rintro r ⟨env, op⟩ - ⟨hsound, hall⟩
    refine forall₂_congr fun h' hs => forall₂_congr fun block hblock => ?_
    refine imp_congr_right fun hown => ?_
    cases op with
    | receiveBlockResponse msg =>
      obtain rfl := List.mem_singleton.mp hblock
      rw [← hall.sendsOn_eq hown.1]
      exact postsNoResponse_iff hsound hs
    | _ => cases hblock

/-- A request marked `local_only`, and its response. It is posted again. -/
theorem local_only_rebroadcast :
    ¬ Each (noted (step fun _ => default) noteShared) (HonoursLocalOnly fun _ => default)
      ([], new ⟨1⟩)
      [(sampleSurroundings, .request [{ sampleLocalRequest with localOnly := true }]),
        (sampleSurroundings, .receiveBlockResponse sampleBlock)] := by
  intro hlaw
  refine (hlaw.2 _ rfl).1 _ rfl sampleBlock.block (by decide) ⟨?_, ?_⟩ sampleBlock ?_
  · decide +kernel
  · decide +kernel
  · decide +kernel

end Runs

end YingSma.ContentHelper
