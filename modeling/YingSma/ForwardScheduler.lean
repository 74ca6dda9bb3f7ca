import YingSma.BlockResponseRounds
import YingSma.ContentHelperMoves

/-! `ForwardSchedulerImpl`: the two block schedulers of a node, which listen to the content helper
and tell it what to request, to freeze and to broadcast. -/
namespace YingSma.ForwardScheduler
open StateActions TransitionRuns ContentHelper

structure Node where
  content : ContentHelper
  schedulers : Schedulers

/-- `on_blockrequest`, which stays subscribed. -/
def onBlockrequest : Handler := ⟨0, true⟩

/-- The schedulers subscribe to the events of the content helper. -/
def new (flags : Flags) (id : NodeId) : Node where
  content := { build flags id with blocksRequestedHandlers := [onBlockrequest] }
  schedulers := .new

/-- `on_block` and `on_blockrequest`, for the events of a call. -/
def hear (now : TimePoint) : List Effect → Schedulers → Schedulers
  | [], s => s
  | .blockArrived block :: es, s =>
      hear now es { s with responses := s.responses.addResponse block }
  | .blocksRequested handler sender requests :: es, s =>
      if handler = onBlockrequest then
        hear now es { s with requests := s.requests.addRequests now sender requests }
      else hear now es s
  | _ :: es, s => hear now es s

/-- A call of the content helper, heard by the schedulers. -/
def Node.callContent (env : Surroundings) (call : ContentHelper.Action Unit) (n : Node) :
    Except Fault Node :=
  (call n.content).map fun out => ⟨out.2, hear env.now (newEffects n.content out.2) n.schedulers⟩

/-- `BlockRequestScheduler::sched`, with `request_blocks`. -/
def Node.schedRequests (env : Surroundings) (n : Node) : Except Fault Node :=
  let out := n.schedulers.requests.sched env.now
  let n := { n with schedulers := { n.schedulers with requests := out.2 } }
  if out.1 = [] then .ok n else n.callContent env (request env out.1)

/-- `freeze_blocks`, `unfreeze_blocks` and `broadcast_block`. -/
def carryOut (env : Surroundings) (commands : Commands) : ContentHelper.Action Unit := do
  let _ ← frozen true commands.freeze
  let _ ← frozen false commands.unfreeze
  forEach (fun block => discard (broadcast env block)) commands.broadcast

/-- `BlockResponseScheduler::sched`, with what it asks of the content helper. -/
def Node.schedResponses (env : Surroundings) (round : Round) (n : Node) : Except Fault Node := do
  let (commands, requests, responses) ←
    n.schedulers.responses.sched { round with now := env.now } n.schedulers.requests
  Node.callContent env (carryOut env commands) { n with schedulers := ⟨requests, responses⟩ }

/-- What a run of a node is made of. -/
inductive Act
  | call (op : Op)
  | schedRequests
  | schedResponses (round : Round)

def step (hasher : List UInt8 → Hash) (n : Node) (act : Surroundings × Act) : Except Fault Node :=
  match act.2 with
  | .call op => n.callContent act.1 (perform hasher act.1 op)
  | .schedRequests => n.schedRequests act.1
  | .schedResponses round => n.schedResponses act.1 round

section Calls

variable {env : Surroundings} {n' : Node} {call : ContentHelper.Action Unit}
  {content : ContentHelper} {schedulers : Schedulers}

theorem callContent_ok (hs : Node.callContent env call ⟨content, schedulers⟩ = .ok n') :
    ∃ u, call content = .ok (u, n'.content) := by
  obtain ⟨out, hcall, rfl⟩ := map_eq_ok hs
  exact ⟨out.1, hcall⟩

/-- The requests an event hands to the scheduler, as they enter its queue. -/
def heard (now : TimePoint) : Effect → List BlockRequestDesc
  | .blocksRequested handler sender requests =>
      if handler = onBlockrequest then requests.map (BlockRequestDesc.ofArgs now sender) else []
  | _ => []

theorem hear_requestQueue (now : TimePoint) (es : List Effect) (s : Schedulers) :
    (hear now es s).requests.requestQueue =
      s.requests.requestQueue ++ es.flatMap (heard now) := by
  induction es generalizing s with
  | nil => simp [hear]
  | cons e es ih =>
    rw [List.flatMap_cons]
    cases e with
    | blocksRequested handler sender requests =>
      by_cases hmine : handler = onBlockrequest
      · have hheard : heard now (.blocksRequested handler sender requests) =
            requests.map (BlockRequestDesc.ofArgs now sender) := if_pos hmine
        rw [hear, if_pos hmine, ih, BlockRequestScheduler.addRequests_queue, hheard,
          List.append_assoc]
      · have hheard : heard now (.blocksRequested handler sender requests) = [] := if_neg hmine
        rw [hear, if_neg hmine, ih, hheard, List.nil_append]
    | _ => exact ih _

theorem callContent_queue (hs : Node.callContent env call ⟨content, schedulers⟩ = .ok n') :
    n'.schedulers.requests.requestQueue = schedulers.requests.requestQueue ++
      (newEffects content n'.content).flatMap (heard env.now) := by
  obtain ⟨out, -, rfl⟩ := map_eq_ok hs
  exact hear_requestQueue env.now _ schedulers

end Calls

end YingSma.ForwardScheduler
