import Mathlib.Data.Finset.Card
import YingSma.ContentHelperResponses
import YingSma.ContentHelperTimeouts

/-! A network of helpers that send on the blocks they have requested. Each of them ought to
do so once, and does so for as long as the entry of the request is in its table. -/
namespace YingSma.ContentHelper
open TransitionRuns

abbrev Network := NodeId → ContentHelper

/-- One node's call. Any message may be delivered to any node at any time. -/
def networkStep (hasher : List UInt8 → Hash) (net : Network) (event : NodeId × Surroundings × Op) :
    Except Fault Network :=
  (step hasher (net event.1) event.2).map fun h' => Function.update net event.1 h'

/-- The blocks others ask for in a message. -/
def requestedBlocks : Op → List BlockRef
  | .receiveBlockRequest _ msg => msg.requests.map BlockRequestArgs.block
  | _ => []

/-- The blocks a call asks for, or others in the message it handles. -/
def sought (h : ContentHelper) (call : Surroundings × Op) : List BlockRef :=
  h.askedBlocks call ++ requestedBlocks call.2

/-- The nodes that have handled a response for a block, since it was last sought there. -/
def noteHandled (handled : List (NodeId × BlockRef)) (net : Network)
    (event : NodeId × Surroundings × Op) (_ : Network) : List (NodeId × BlockRef) :=
  ((received event.2.2).map (Prod.mk event.1) ++ handled).filter fun entry =>
    ¬ (entry.1 = event.1 ∧ entry.2 ∈ (net event.1).sought event.2)

/-- A response to a block that has been handled before makes the node post nothing. -/
def PostsNothingAgain (hasher : List UInt8 → Hash) (r : List (NodeId × BlockRef) × Network)
    (event : NodeId × Surroundings × Op) : Prop :=
  ∀ net', networkStep hasher r.2 event = .ok net' →
    ∀ block ∈ received event.2.2, (event.1, block) ∈ r.1 →
      ∀ msg, .post msg ∉ newEffects (r.2 event.1) (net' event.1)

/-- A response to a block that has been handled before, and that goes through, finds no
entry, or one for the node alone, or no permission to respond, or nothing to find again:
a block other than the first, and none held of it. -/
def HasNothingToSend (hasher : List UInt8 → Hash) (r : List (NodeId × BlockRef) × Network)
    (event : NodeId × Surroundings × Op) : Prop :=
  ∀ net', networkStep hasher r.2 event = .ok net' →
    ∀ block ∈ received event.2.2, (event.1, block) ∈ r.1 →
      (r.2 event.1).sendsOn block = false ∨
        block.index ≠ 0 ∧ (r.2 event.1).heldBlock block = none

/-- The posts of a block. -/
def Effect.isResponseFor (block : BlockRef) : Effect → Bool
  | .post (.blockResponse resp) => resp.block = block
  | _ => false

/-- The responses for a block that are posted by nodes as they handle one. -/
def rebroadcasts (hasher : List UInt8 → Hash) (block : BlockRef) :
    Network → List (NodeId × Surroundings × Op) → ℕ
  | _, [] => 0
  | net, event :: events =>
      match networkStep hasher net event with
      | .error _ => 0
      | .ok net' =>
          (if block ∈ received event.2.2 then
            (newEffects (net event.1) (net' event.1)).countP (Effect.isResponseFor block) else 0) +
          rebroadcasts hasher block net' events

/-- In any part of the run in which nobody seeks a block, it is sent on at most once for each
node with a pending request at the beginning. -/
def RebroadcastsBounded (hasher : List UInt8 → Hash) (net : Network)
    (events : List (NodeId × Surroundings × Op)) : Prop :=
  ∀ past part, past ++ part <+: events → ∀ net', run (networkStep hasher) net past = .ok net' →
    ∀ block, Each (networkStep hasher) (fun net event => block ∉ (net event.1).sought event.2)
      net' part →
    ∀ pendingNodes : Finset NodeId, (∀ n, (net' n).pending block ≠ none → n ∈ pendingNodes) →
      rebroadcasts hasher block net' part ≤ pendingNodes.card

section Steps

variable {hasher : List UInt8 → Hash} {net net' : Network} {event : NodeId × Surroundings × Op}

theorem networkStep_ok (hs : networkStep hasher net event = .ok net') :
    ∃ h', step hasher (net event.1) event.2 = .ok h' ∧ net' = Function.update net event.1 h' := by
  obtain ⟨h', hstep, heq⟩ := map_eq_ok hs
  exact ⟨h', hstep, heq.symm⟩

/-- The call a node makes, as the network sees it. -/
theorem networkStep_self (hs : networkStep hasher net event = .ok net') :
    step hasher (net event.1) event.2 = .ok (net' event.1) := by
  obtain ⟨h', hstep, rfl⟩ := networkStep_ok hs
  rw [hstep, Function.update_self]

theorem networkStep_other (hs : networkStep hasher net event = .ok net') {n : NodeId}
    (hn : n ≠ event.1) : net' n = net n := by
  obtain ⟨h', -, rfl⟩ := networkStep_ok hs
  exact Function.update_of_ne hn h' net

theorem networkStep_sound (hsound : ∀ n, Sound (net n)) (hs : networkStep hasher net event = .ok net') :
    ∀ n, Sound (net' n) := by
  intro n
  by_cases hn : n = event.1
  · subst hn
    exact step_sound (hsound _) (networkStep_self hs)
  · rw [networkStep_other hs hn]
    exact hsound n

/-- The effects of a response, in terms of the state before it. -/
theorem response_newEffects {h h' : ContentHelper} {env : Surroundings} {msg : BlockResponse}
    (hsound : Sound h) (hs : step hasher h (env, .receiveBlockResponse msg) = .ok h') :
    ∃ posts, newEffects h h' = .blockArrived msg.block :: posts ∧
      posts.length ≤ 1 ∧ (∀ e ∈ posts, Effect.isResponseFor msg.block e) ∧
      (posts = [] ↔ h.sendsOn msg.block = false ∨
        msg.block.index ≠ 0 ∧ h.heldBlock msg.block = none) := by
  obtain ⟨h₁, hst, rfl⟩ := step_response_ok hs
  rw [hst.newEffects]
  refine ⟨_, rfl, ?_⟩
  have hheld := hst.held_iff hsound
  cases hsends : h.sendsOn msg.block with
  | false => simp
  | true =>
    rw [if_pos rfl]
    unfold answer
    cases hb : h₁.heldBlock msg.block with
    | none =>
      have hnone : ¬ (msg.block.index = 0 ∨ (h.heldBlock msg.block).isSome) := by
        rw [← hheld, hb]
        exact Bool.false_ne_true
      rw [not_or, Option.not_isSome_iff_eq_none] at hnone
      simp [hnone.1, hnone.2]
    | some s =>
      have hsome : msg.block.index = 0 ∨ (h.heldBlock msg.block).isSome := by
        rw [← hheld, hb]
        rfl
      have hnot : ¬ (msg.block.index ≠ 0 ∧ h.heldBlock msg.block = none) := by
        rintro ⟨hindex, hnone⟩
        rw [hnone] at hsome
        exact hsome.elim hindex Bool.false_ne_true
      simp [hnot, Effect.isResponseFor, response]

/-- Exactly the responses with something to send lead to a post. -/
theorem postsNothing_iff {h h' : ContentHelper} {env : Surroundings} {msg : BlockResponse}
    (hsound : Sound h) (hs : step hasher h (env, .receiveBlockResponse msg) = .ok h') :
    (∀ m, .post m ∉ newEffects h h') ↔
      h.sendsOn msg.block = false ∨ msg.block.index ≠ 0 ∧ h.heldBlock msg.block = none := by
  obtain ⟨posts, heffects, -, hall, hiff⟩ := response_newEffects hsound hs
  rw [← hiff, heffects]
  constructor
  · intro hno
    refine List.eq_nil_iff_forall_not_mem.mpr fun e he => ?_
    have hresponse := hall e he
    cases e with
    | post m => exact hno m (List.mem_cons_of_mem _ he)
    | _ => cases hresponse
  · rintro rfl
    simp

/-- A response is sent on at most once, and only where a request is pending. -/
theorem response_count {h h' : ContentHelper} {env : Surroundings} {msg : BlockResponse}
    (hsound : Sound h) (hs : step hasher h (env, .receiveBlockResponse msg) = .ok h') :
    (newEffects h h').countP (Effect.isResponseFor msg.block) ≤ 1 ∧
      (0 < (newEffects h h').countP (Effect.isResponseFor msg.block) →
        h.pending msg.block ≠ none) := by
  obtain ⟨posts, heffects, hlength, hall, hiff⟩ := response_newEffects hsound hs
  have harrived : ¬ Effect.isResponseFor msg.block (.blockArrived msg.block) := Bool.false_ne_true
  rw [heffects, List.countP_cons_of_neg harrived]
  refine ⟨List.countP_le_length.trans hlength, fun hpos hidle => ?_⟩
  have hquiet : h.sendsOn msg.block = false := by
    simp [sendsOn, hidle]
  rw [hiff.mpr (.inl hquiet)] at hpos
  exact Nat.lt_irrefl 0 hpos

theorem postsNothingAgain_iff {handled : List (NodeId × BlockRef)} (hsound : ∀ n, Sound (net n)) :
    PostsNothingAgain hasher (handled, net) event ↔ HasNothingToSend hasher (handled, net) event := by
  obtain ⟨n, env, op⟩ := event
  refine forall₂_congr fun net' hs => forall₂_congr fun block hblock => imp_congr_right fun _ => ?_
  cases op with
  | receiveBlockResponse msg =>
    obtain rfl := List.mem_singleton.mp hblock
    exact postsNothing_iff (hsound n) (networkStep_self hs)
  | _ => cases hblock

/-- A block nobody seeks gets no new entry. -/
theorem unsought_pending {block : BlockRef} (hunsought : block ∉ (net event.1).sought event.2)
    (hs : networkStep hasher net event = .ok net') {n : NodeId}
    (hidle : (net n).pending block = none) : (net' n).pending block = none := by
  by_cases hn : n = event.1
  · subst hn
    have hasked : block ∉ (net event.1).askedBlocks event.2 :=
      fun hmem => hunsought (List.mem_append_left _ hmem)
    exact ((step_moves (networkStep_self hs)).leavesIdle hasked hidle).1
  · rw [networkStep_other hs hn]
    exact hidle

section Handled

variable {block : BlockRef} {handled : List (NodeId × BlockRef)} {n : NodeId} {env : Surroundings}
variable {msg : BlockResponse}

theorem noteHandled_keeps (hn : (n, block) ∈ handled)
    (hunsought : block ∉ (net event.1).sought event.2) :
    (n, block) ∈ noteHandled handled net event net' := by
  refine List.mem_filter.mpr ⟨List.mem_append_right _ hn, decide_eq_true ?_⟩
  rintro ⟨-, hsought⟩
  exact hunsought hsought

theorem noteHandled_response
    (hunsought : msg.block ∉ (net n).sought (env, .receiveBlockResponse msg)) :
    (n, msg.block) ∈ noteHandled handled net (n, env, .receiveBlockResponse msg) net' := by
  refine List.mem_filter.mpr ⟨List.mem_append_left _ (by simp [received]), decide_eq_true ?_⟩
  rintro ⟨-, hsought⟩
  exact hunsought hsought

/-- A node that sends a block on has not handled it before. -/
theorem not_handled_of_sends
    (honce : PostsNothingAgain hasher (handled, net) (n, env, .receiveBlockResponse msg))
    (hs : networkStep hasher net (n, env, .receiveBlockResponse msg) = .ok net')
    (hsends : (newEffects (net n) (net' n)).countP (Effect.isResponseFor msg.block) ≠ 0) :
    (n, msg.block) ∉ handled := by
  intro hmem
  apply hsends
  rw [List.countP_eq_zero]
  intro e he hresponse
  cases e with
  | post m => exact honce net' hs msg.block (by simp [received]) hmem m he
  | _ => cases hresponse

end Handled

/-- The bound by the nodes that have a pending request and have not handled the block. -/
theorem rebroadcasts_le {block : BlockRef} {part : List (NodeId × Surroundings × Op)}
    {handled : List (NodeId × BlockRef)} (hsound : ∀ n, Sound (net n))
    (hunsought : Each (networkStep hasher)
      (fun net event => block ∉ (net event.1).sought event.2) net part)
    (honce : Each (noted (networkStep hasher) noteHandled) (PostsNothingAgain hasher)
      (handled, net) part)
    {waiting : Finset NodeId}
    (hwaiting : ∀ n, (net n).pending block ≠ none → (n, block) ∉ handled → n ∈ waiting) :
    rebroadcasts hasher block net part ≤ waiting.card := by
  induction part generalizing net handled waiting with
  | nil => exact Nat.zero_le _
  | cons event part ih =>
    simp only [rebroadcasts]
    cases hs : networkStep hasher net event with
    | error e => exact Nat.zero_le _
    | ok net' =>
      dsimp only
      have hsound' := networkStep_sound hsound hs
      have hnext := honce.2 _ (noted_of_ok noteHandled handled hs)
      have hrest : ∀ {waiting : Finset NodeId},
          (∀ n, (net n).pending block ≠ none → (n, block) ∉ noteHandled handled net event net' →
            n ∈ waiting) → rebroadcasts hasher block net' part ≤ waiting.card := by
        intro waiting hw
        refine ih hsound' (hunsought.2 net' hs) hnext fun n hpending hn => hw n ?_ hn
        exact fun hidle => hpending (unsought_pending hunsought.1 hs hidle)
      have hold : ∀ n, (net n).pending block ≠ none →
          (n, block) ∉ noteHandled handled net event net' → n ∈ waiting :=
        fun n hpending hn => hwaiting n hpending fun hmem =>
          hn (noteHandled_keeps hmem hunsought.1)
      split_ifs with hreceived
      · obtain ⟨n, env, op⟩ := event
        cases op with
        | receiveBlockResponse msg =>
          obtain rfl := List.mem_singleton.mp hreceived
          obtain ⟨hle, hpos⟩ := response_count (hsound n) (networkStep_self hs)
          dsimp only at hle ⊢
          by_cases hzero : (newEffects (net n) (net' n)).countP
              (Effect.isResponseFor msg.block) = 0
          · rw [hzero, Nat.zero_add]
            exact hrest hold
          · -- The node has used up its own share of the bound.
            have hfresh := not_handled_of_sends honce.1 hs hzero
            have hmem : n ∈ waiting := hwaiting n (hpos (Nat.pos_of_ne_zero hzero)) hfresh
            have hothers : rebroadcasts hasher msg.block net' part ≤ (waiting.erase n).card := by
              refine hrest fun m hpending hm => Finset.mem_erase.mpr ⟨?_, hold m hpending hm⟩
              rintro rfl
              exact hm (noteHandled_response hunsought.1)
            rw [Finset.card_erase_of_mem hmem] at hothers
            have hcard : 0 < waiting.card := Finset.card_pos.mpr ⟨n, hmem⟩
            omega
        | _ => cases hreceived
      · rw [Nat.zero_add]
        exact hrest hold

end Steps

section Runs

/-- Over every run of every network, in whatever order messages arrive: a block handled
before leads to no more posts until it is sought again, and the responses sent on are
bounded by the pending requests, exactly when no response handled again finds an entry it
is to be sent on for, with a block to send. -/
theorem no_rebroadcast_storm_iff (hasher : List UInt8 → Hash) (flags : NodeId → Flags)
    (events : List (NodeId × Surroundings × Op)) :
    (Each (noted (networkStep hasher) noteHandled) (PostsNothingAgain hasher)
          ([], fun n => build (flags n) n) events ∧
        RebroadcastsBounded hasher (fun n => build (flags n) n) events) ↔
      Each (noted (networkStep hasher) noteHandled) (HasNothingToSend hasher)
        ([], fun n => build (flags n) n) events := by
  have hsame : Each (noted (networkStep hasher) noteHandled) (PostsNothingAgain hasher)
        ([], fun n => build (flags n) n) events ↔
      Each (noted (networkStep hasher) noteHandled) (HasNothingToSend hasher)
        ([], fun n => build (flags n) n) events := by
    refine each_congr (fun r : List (NodeId × BlockRef) × Network => ∀ n, Sound (r.2 n)) ?_ ?_
      fun n => build_sound (flags n) n
    · intro r event _ r' hsound _ hs
      exact networkStep_sound hsound (noted_ok hs).1
    · intro r event _ hsound
      exact postsNothingAgain_iff hsound
  refine ⟨fun h => hsame.mp h.1, fun h => ⟨hsame.mpr h, ?_⟩⟩
  intro past part hprefix net' hr block hunsought pendingNodes hpending
  obtain ⟨rest, rfl⟩ := hprefix
  obtain ⟨handled, hnoted⟩ := run_noted noteHandled [] hr
  have honce := (each_append _ _ _).mp ((each_append _ _ _).mp (hsame.mpr h)).1
  have hsound : ∀ n, Sound (net' n) :=
    run_invariant (fun net : Network => ∀ n, Sound (net n))
      (fun _ _ _ hs hstep => networkStep_sound hs hstep) (fun n => build_sound (flags n) n) hr
  exact rebroadcasts_le hsound hunsought (honce.2 _ hnoted) fun n hn _ => hpending n hn

/-- Node 1 asks for a block and is sent it twice. It posts it twice. -/
theorem second_response_rebroadcast :
    ¬ (Each (noted (networkStep fun _ => default) noteHandled)
            (PostsNothingAgain fun _ => default) ([], fun n => build ⟨true, true, true, true⟩ n)
            [(⟨1⟩, sampleSurroundings, .request [sampleLocalRequest]),
              (⟨1⟩, sampleSurroundings, .receiveBlockResponse sampleBlock),
              (⟨1⟩, sampleSurroundings, .receiveBlockResponse sampleBlock)] ∧
        RebroadcastsBounded (fun _ => default) (fun n => build ⟨true, true, true, true⟩ n)
          [(⟨1⟩, sampleSurroundings, .request [sampleLocalRequest]),
            (⟨1⟩, sampleSurroundings, .receiveBlockResponse sampleBlock),
            (⟨1⟩, sampleSurroundings, .receiveBlockResponse sampleBlock)]) := by
  rintro ⟨hlaw, -⟩
  refine ((hlaw.2 _ rfl).2 _ rfl).1 _ rfl sampleBlock.block (by decide) (by decide +kernel)
    (.blockResponse sampleBlock) ?_
  decide +kernel

end Runs

end YingSma.ContentHelper
