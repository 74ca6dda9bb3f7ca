import YingSma.ContentHelper
import YingSma.MessageLimits

/-! What a received `BlockRequest` leads to. The first subscriber of the event takes the
list of requests with it, and neither the others nor the response loop see it. -/
namespace YingSma.ContentHelper
open StateActions SerialFormat TransitionRuns

/-- The slot `broadcast` would send, from the cache or else from the store. -/
def heldBlock (h : ContentHelper) (ref : BlockRef) : Option Slot :=
  match h.cache.find ref with
  | some idx => some (h.cache.slot idx)
  | none => (h.store.find ref).map h.store.slot

/-- The responses due to a list of requests: one for each block the node holds. -/
def answers (h : ContentHelper) (requests : List BlockRequestArgs) : List Effect :=
  requests.filterMap fun req =>
    (h.heldBlock req.block).map fun s => .post (.blockResponse (response req.block s))

/-- The same helper after some more effects. -/
def emit (h : ContentHelper) (es : List Effect) : ContentHelper :=
  { h with effects := h.effects ++ es }

section Evaluation

variable (env : Surroundings) (h : ContentHelper)

@[simp] theorem emit_nil : h.emit [] = h := by
  simp [emit]

@[simp] theorem emit_emit (es es' : List Effect) : (h.emit es).emit es' = h.emit (es ++ es') := by
  simp [emit]

@[simp] theorem emit_answers (es : List Effect) : (h.emit es).answers = h.answers := rfl

theorem record_run (e : Effect) : record e h = .ok ((), h.emit [e]) := rfl

theorem forEach_record_run {α : Type} (f : α → Effect) (as : List α) :
    forEach (fun a => record (f a)) as h = .ok ((), h.emit (as.map f)) := by
  induction as generalizing h with
  | nil => simp [forEach, pure_run]
  | cons a as ih =>
    rw [forEach, bind_run_ok (record_run h (f a)), ih]
    simp

theorem post_run {msg : Message} {packet : List UInt8}
    (hmsg : MessageBuffer.replace bufferSize env.now ⟨h.id, []⟩ msg = .ok packet) :
    post env msg h = .ok ((), h.emit [.post msg]) := by
  unfold post
  rw [bind_run_ok (get_run h), hmsg]
  rfl

theorem post_fits {msg : Message} (hfits : msg.Fits) : post env msg h = .ok ((), h.emit [.post msg]) :=
  post_run env h (replace_fits hfits env.now h.id)

/-- A slot is small enough for the response to fit the message buffer. -/
theorem fits_response (ref : BlockRef) (s : Slot) : (Message.blockResponse (response ref s)).Fits := by
  have hsize : s.bytes.length ≤ 1024 := by
    rw [Slot.bytes, List.length_take]
    exact le_trans (min_le_left _ _) s.size_le
  have hhash := ref.hash.length_data
  unfold hashLength at hhash
  refine ⟨trivial, ?_⟩
  simp only [Message.wire, BlockResponse.wire, BlockRef.wire, response, bufferSize,
    List.flatten_cons, List.flatten_nil, List.append_nil, List.length_append, length_bigEndian, hhash]
  omega

theorem post_response_run (ref : BlockRef) (s : Slot) :
    post env (.blockResponse (response ref s)) h =
      .ok ((), h.emit [.post (.blockResponse (response ref s))]) :=
  post_fits env h (fits_response ref s)

/-- The response to one request, if any. -/
def answer (ref : BlockRef) : List Effect :=
  ((h.heldBlock ref).map fun s => Effect.post (.blockResponse (response ref s))).toList

theorem answers_cons (req : BlockRequestArgs) (requests : List BlockRequestArgs) :
    h.answers (req :: requests) = h.answer req.block ++ h.answers requests := by
  unfold answers answer
  cases hb : h.heldBlock req.block with
  | none => simp [hb]
  | some s => simp [hb]

theorem answers_eq_nil_iff (requests : List BlockRequestArgs) :
    h.answers requests = [] ↔ ∀ req ∈ requests, h.heldBlock req.block = none := by
  unfold answers
  rw [List.filterMap_eq_nil_iff]
  simp only [Option.map_eq_none_iff]

theorem broadcast_run (ref : BlockRef) :
    broadcast env ref h = .ok ((h.heldBlock ref).isSome, h.emit (h.answer ref)) := by
  unfold broadcast answer heldBlock
  rw [bind_run_ok (get_run h)]
  cases h.cache.find ref with
  | some idx =>
    dsimp only
    rw [bind_run_ok (post_response_run env h ref _)]
    rfl
  | none =>
    cases h.store.find ref with
    | some idx =>
      dsimp only
      rw [bind_run_ok (post_response_run env h ref _)]
      rfl
    | none => simp [pure_run]

theorem respond_run (hauto : h.autoRespond = true) (req : BlockRequestArgs) :
    respond env req h = .ok ((), h.emit (h.answer req.block)) := by
  unfold respond
  rw [bind_run_ok (get_run h), if_pos hauto, bind_run_ok (broadcast_run env h req.block)]
  rfl

/-- The response loop, with `auto_respond` on, sends what the list calls for. -/
theorem forEach_respond_run (hauto : h.autoRespond = true) (requests : List BlockRequestArgs) :
    forEach (respond env) requests h = .ok ((), h.emit (h.answers requests)) := by
  induction requests generalizing h with
  | nil => simp [forEach, answers, pure_run]
  | cons req requests ih =>
    rw [forEach, bind_run_ok (respond_run env h hauto req), ih (h.emit (h.answer req.block)) hauto,
      answers_cons]
    simp

/-- Whatever the subscribers leave of an argument was in it. -/
theorem fireMoved_left_subset {α : Type} (handlers : List Handler) (arg : List α) :
    (fireMoved handlers arg).2 ⊆ arg := by
  induction handlers generalizing arg with
  | nil => exact List.Subset.refl arg
  | cons handler handlers ih => exact List.Subset.trans (ih []) (List.nil_subset arg)

/-- The calls of the event's subscribers. -/
def requestedCalls (handlers : List Handler) (sender : NodeId) (requests : List BlockRequestArgs) :
    List Effect :=
  (fireMoved handlers requests).1.map fun call => .blocksRequested call.1 sender call.2

/-- The helper after the event: only the effects and the subscribers have changed. -/
def afterEvent (sender : NodeId) (requests : List BlockRequestArgs) : ContentHelper :=
  { h.emit (requestedCalls h.blocksRequestedHandlers sender requests) with
    blocksRequestedHandlers := h.blocksRequestedHandlers.filter Handler.returns }

theorem fireBlocksRequested_run (sender : NodeId) (requests : List BlockRequestArgs) :
    fireBlocksRequested sender requests h =
      .ok ((fireMoved h.blocksRequestedHandlers requests).2, h.afterEvent sender requests) := by
  unfold fireBlocksRequested
  rw [bind_run_ok (get_run h), bind_run_ok (forEach_record_run h _ _), bind_run_ok (modify_run _ _)]
  rfl

end Evaluation

/-- The calls of subscribers and the posts, as opposed to timers and notices. -/
def Effect.isTraffic : Effect → Bool
  | .post _ => true
  | .blocksRequested _ _ _ => true
  | _ => false

section Forwarding

/-- The later helper has the same flags, and no calls or posts were added. -/
def Quiet (h h' : ContentHelper) : Prop :=
  h'.autoRespond = h.autoRespond ∧
    ∃ es, h'.effects = h.effects ++ es ∧ es.filter Effect.isTraffic = []

theorem Quiet.refl (h : ContentHelper) : Quiet h h := ⟨rfl, [], by simp, rfl⟩

theorem Quiet.trans {a b c : ContentHelper} (hab : Quiet a b) (hbc : Quiet b c) : Quiet a c := by
  obtain ⟨hflag, es, hes, hquiet⟩ := hab
  obtain ⟨hflag', es', hes', hquiet'⟩ := hbc
  refine ⟨hflag'.trans hflag, es ++ es', ?_, ?_⟩
  · rw [hes', hes, List.append_assoc]
  · rw [List.filter_append, hquiet, hquiet', List.append_nil]

theorem Quiet.emit (h : ContentHelper) {es : List Effect} (hes : es.filter Effect.isTraffic = []) :
    Quiet h (h.emit es) :=
  ⟨rfl, es, rfl, hes⟩

theorem sweepPendingRequests_quiet (now : TimePoint) (h : ContentHelper) :
    ∃ h', sweepPendingRequests now h = .ok ((), h') ∧ Quiet h h' := by
  unfold sweepPendingRequests
  rw [bind_run_ok (get_run h), bind_run_ok (modify_run _ h), forEach_record_run]
  refine ⟨_, rfl, Quiet.trans ⟨rfl, [], by simp, rfl⟩ (Quiet.emit _ ?_)⟩
  simp [List.filter_map, Function.comp_def, Effect.isTraffic]

theorem checkPendingRequests_quiet (now when_ : TimePoint) (h : ContentHelper) :
    ∃ h', checkPendingRequests now when_ h = .ok ((), h') ∧ Quiet h h' := by
  unfold checkPendingRequests
  split_ifs
  · exact ⟨_, record_run h _, Quiet.emit h rfl⟩
  · exact sweepPendingRequests_quiet now h

/-- With `auto_respond` off, a request at most extends a pending one. -/
theorem respond_quiet (env : Surroundings) {h : ContentHelper} (hauto : h.autoRespond = false)
    (req : BlockRequestArgs) :
    ∃ h', respond env req h = .ok ((), h') ∧ Quiet h h' := by
  unfold respond
  rw [bind_run_ok (get_run h)]
  simp only [hauto, Bool.false_eq_true, if_false]
  split_ifs
  · cases h.pending req.block with
    | none => exact ⟨h, rfl, Quiet.refl h⟩
    | some pending =>
      dsimp only
      rw [updatePending, bind_run_ok (modify_run _ h)]
      split_ifs
      · rw [updatePending, bind_run_ok (modify_run _ _)]
        obtain ⟨h', hh', hquiet⟩ := checkPendingRequests_quiet env.now _ _
        exact ⟨h', hh', Quiet.trans ⟨rfl, [], by simp, rfl⟩ hquiet⟩
      · exact ⟨_, rfl, rfl, [], by simp, rfl⟩
  · exact ⟨h, rfl, Quiet.refl h⟩

theorem forEach_respond_quiet (env : Surroundings) {h : ContentHelper}
    (hauto : h.autoRespond = false) (requests : List BlockRequestArgs) :
    ∃ h', forEach (respond env) requests h = .ok ((), h') ∧ Quiet h h' := by
  induction requests generalizing h with
  | nil => exact ⟨h, rfl, Quiet.refl h⟩
  | cons req requests ih =>
    obtain ⟨h₁, hh₁, hquiet⟩ := respond_quiet env hauto req
    obtain ⟨h₂, hh₂, hquiet'⟩ := ih (hquiet.1.trans hauto)
    exact ⟨h₂, by rw [forEach, bind_run_ok hh₁, hh₂], hquiet.trans hquiet'⟩

end Forwarding

/-- The posts the response loop makes for a list of requests. -/
def loopAnswers (h : ContentHelper) (requests : List BlockRequestArgs) : List Effect :=
  if h.autoRespond then h.answers requests else []

theorem answers_isTraffic (h : ContentHelper) (requests : List BlockRequestArgs) :
    (h.answers requests).filter Effect.isTraffic = h.answers requests := by
  rw [List.filter_eq_self]
  intro e he
  obtain ⟨req, -, hreq⟩ := List.mem_filterMap.mp he
  obtain ⟨s, -, rfl⟩ := Option.map_eq_some_iff.mp hreq
  rfl

theorem receiveBlockRequest_run (env : Surroundings) (h : ContentHelper) (header : MessageHeader)
    {msg : BlockRequest} (hne : msg.requests ≠ []) :
    ∃ h' es, receiveBlockRequest env header msg h = .ok ((), h') ∧ h'.effects = h.effects ++ es ∧
      es.filter Effect.isTraffic =
        requestedCalls h.blocksRequestedHandlers header.sender msg.requests ++
          h.loopAnswers (fireMoved h.blocksRequestedHandlers msg.requests).2 := by
  have hcalls : (requestedCalls h.blocksRequestedHandlers header.sender msg.requests).filter
      Effect.isTraffic = requestedCalls h.blocksRequestedHandlers header.sender msg.requests := by
    rw [List.filter_eq_self]
    intro e he
    obtain ⟨call, -, rfl⟩ := List.mem_map.mp he
    rfl
  unfold receiveBlockRequest loopAnswers
  rw [if_neg hne, bind_run_ok (fireBlocksRequested_run h _ _), bind_run_ok (get_run _)]
  cases hauto : h.autoRespond with
  | true =>
    have hauto' : (h.afterEvent header.sender msg.requests).autoRespond = true := hauto
    simp only [hauto', Bool.not_true, Bool.false_and, Bool.false_eq_true, if_false, if_true]
    rw [forEach_respond_run env _ hauto']
    refine ⟨_, _, rfl, List.append_assoc .., ?_⟩
    rw [List.filter_append, hcalls, answers_isTraffic]
    rfl
  | false =>
    have hauto' : (h.afterEvent header.sender msg.requests).autoRespond = false := hauto
    simp only [Bool.false_eq_true, if_false, List.append_nil]
    split_ifs
    · exact ⟨_, _, rfl, rfl, hcalls⟩
    · obtain ⟨h', hh', -, es, hes, hquiet⟩ := forEach_respond_quiet env hauto'
        (fireMoved h.blocksRequestedHandlers msg.requests).2
      refine ⟨h', _, hh', hes.trans (List.append_assoc ..), ?_⟩
      rw [List.filter_append, hcalls, hquiet, List.append_nil]

/-- Every subscriber is called once with the whole list, and then each listed block the
node holds is posted. The number of subscribers plays no part in the posts. -/
def ReachesEveryone (h : ContentHelper) (sender : NodeId) (requests : List BlockRequestArgs)
    (h' : ContentHelper) : Prop :=
  h'.effects.filter Effect.isTraffic = h.effects.filter Effect.isTraffic ++
    h.blocksRequestedHandlers.map (fun handler => .blocksRequested handler sender requests) ++
    h.loopAnswers requests

/-- The list reaches everyone without subscribers, or with a single one as long as there
is nothing to respond with. -/
theorem requests_reach_everyone_iff (env : Surroundings) (h : ContentHelper)
    (header : MessageHeader) {msg : BlockRequest} (hne : msg.requests ≠ []) :
    ∃ h', receiveBlockRequest env header msg h = .ok ((), h') ∧
      (ReachesEveryone h header.sender msg.requests h' ↔
        h.blocksRequestedHandlers = [] ∨
          (∃ handler, h.blocksRequestedHandlers = [handler]) ∧
            (h.autoRespond = true → ∀ req ∈ msg.requests, h.heldBlock req.block = none)) := by
  obtain ⟨h', es, hrun, heffects, htraffic⟩ := receiveBlockRequest_run env h header hne
  refine ⟨h', hrun, ?_⟩
  unfold ReachesEveryone
  rw [heffects, List.filter_append, htraffic, List.append_assoc, List.append_cancel_left_eq]
  have hnone : h.loopAnswers [] = [] := by simp [loopAnswers, answers]
  cases hh : h.blocksRequestedHandlers with
  | nil => simp [requestedCalls, fireMoved]
  | cons handler handlers =>
    cases handlers with
    | nil =>
      simp only [requestedCalls, fireMoved, List.map_cons, List.map_nil, hnone, List.append_nil,
        ← answers_eq_nil_iff]
      simp [loopAnswers, @eq_comm _ ([] : List Effect)]
    | cons handler' handlers =>
      -- the second subscriber gets an empty list
      simp only [requestedCalls, fireMoved, List.map_cons]
      simp [hne.symm]

/-- A request for one block of the all-zero hash. -/
def sampleRequest : BlockRequestArgs := ⟨⟨default, 0⟩, 0, 1000, ⟨7⟩, ⟨0, 0⟩, 1⟩

def sampleSurroundings : Surroundings := ⟨1, ⟨0, 0⟩, fun _ => false⟩

/-- A helper with a subscriber and a block to respond with. -/
theorem requests_reach_everyone_holding :
    ∃ h h', run (step fun _ => default) (new ⟨1⟩) [(sampleSurroundings, .subscribe ⟨0, true⟩),
        (sampleSurroundings, .createNew [] ⟨[]⟩ [7])] = .ok h ∧
      (h.heldBlock sampleRequest.block).isSome ∧
      receiveBlockRequest sampleSurroundings ⟨⟨7⟩, []⟩ ⟨[sampleRequest]⟩ h = .ok ((), h') ∧
      (ReachesEveryone h ⟨7⟩ [sampleRequest] h' ↔
        h.blocksRequestedHandlers = [] ∨
          (∃ handler, h.blocksRequestedHandlers = [handler]) ∧
            (h.autoRespond = true → ∀ req ∈ [sampleRequest], h.heldBlock req.block = none)) := by
  have hrun : run (step fun _ => default) (new ⟨1⟩) [(sampleSurroundings, .subscribe ⟨0, true⟩),
    (sampleSurroundings, .createNew [] ⟨[]⟩ [7])] = .ok _ := rfl
  obtain ⟨h', hreceive⟩ := requests_reach_everyone_iff sampleSurroundings _ ⟨⟨7⟩, []⟩
    (List.cons_ne_nil sampleRequest [])
  exact ⟨_, h', hrun, by decide +kernel, hreceive⟩

/-- The second of two subscribers is called with an empty list. -/
theorem second_handler_sees_nothing :
    ∃ h', receiveBlockRequest sampleSurroundings ⟨⟨7⟩, []⟩ ⟨[sampleRequest]⟩
        { new ⟨1⟩ with blocksRequestedHandlers := [⟨0, true⟩, ⟨1, true⟩] } = .ok ((), h') ∧
      ¬ ReachesEveryone { new ⟨1⟩ with blocksRequestedHandlers := [⟨0, true⟩, ⟨1, true⟩] } ⟨7⟩
        [sampleRequest] h' ∧
      h'.effects.getLast? = some (.blocksRequested ⟨1, true⟩ ⟨7⟩ []) := by
  refine ⟨_, rfl, ?_, by decide +kernel⟩
  unfold ReachesEveryone
  decide +kernel

end YingSma.ContentHelper
