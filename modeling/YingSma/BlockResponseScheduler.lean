import YingSma.BlockRequestScheduler
import YingSma.LPSolverResult
import YingSma.TransitionRuns

/-! `BlockResponseScheduler`: which of the blocks that have arrived are kept frozen in the cache,
and which are broadcast, as the solver says. The order in which an unordered container is gone
through is left open. -/
namespace YingSma
open EntryTable LPSolver TransitionRuns

/-- `std::unordered_set<BlockRef>` -/
structure BlockSet where
  blocks : List BlockRef
  nodup : blocks.Nodup

namespace BlockSet

def empty : BlockSet := ⟨[], List.nodup_nil⟩

def insert (s : BlockSet) (block : BlockRef) : BlockSet where
  blocks := s.blocks.insert block
  nodup := s.nodup.insert

def erase (s : BlockSet) (block : BlockRef) : BlockSet where
  blocks := s.blocks.erase block
  nodup := s.nodup.erase block

end BlockSet

/-- The order in which the elements of an unordered container come. -/
structure Iteration (α : Type) where
  order : List α → List α
  perm : ∀ elements, (order elements).Perm elements

/-- GLPK ends the program when it is given what it does not take, and it leaves 0 or 1 in a
binary column. -/
structure Solver where
  intopt : GlpProblem → Option (ℤ → ℚ)
  accepts : ∀ p y, intopt p = some y → p.Accepted
  binary : ∀ p y, intopt p = some y → p.program.Binary y

/-- What a call of `sched` finds around it. -/
structure Round where
  now : TimePoint
  schedInterval : UInt32
  neighbors : List NodeId
  blockOrder : Iteration BlockRef
  seqOrder : Iteration (BlockRef × ℕ)
  solver : Solver

/-- The arguments of `freeze_blocks`, `unfreeze_blocks` and, one by one, `broadcast_block`. -/
structure Commands where
  freeze : List BlockRef
  unfreeze : List BlockRef
  broadcast : List BlockRef

structure BlockResponseScheduler where
  blockToSchedule : BlockSet
  blockArrivedBuf : BlockSet
  blockToSeq : List (BlockRef × ℕ)

namespace BlockResponseScheduler

def maxTtl : ℕ := 20

def storage : ℕ := 256

def bandwidth : ℕ := 20

def new : BlockResponseScheduler := ⟨.empty, .empty, []⟩

def addResponse (s : BlockResponseScheduler) (block : BlockRef) : BlockResponseScheduler :=
  { s with blockArrivedBuf := s.blockArrivedBuf.insert block }

/-- Move what has arrived to what is to be scheduled. -/
def merged (s : BlockResponseScheduler) : BlockResponseScheduler :=
  { s with
    blockToSchedule := s.blockArrivedBuf.blocks.foldl BlockSet.insert s.blockToSchedule
    blockArrivedBuf := .empty }

/-- The utility and the time to live of a block for each of the neighbours. -/
def column (round : Round) (block : BlockRef) :
    List NodeId → BlockRequestScheduler → Except Fault (List (ℚ × ℤ) × BlockRequestScheduler)
  | [], requests => .ok ([], requests)
  | nodeId :: neighbors, requests => do
      let (utility, requests) := requests.getUtility round.now nodeId block
      let ttl ← requests.getTtl round.now round.schedInterval nodeId block
      let (rest, requests) ← column round block neighbors requests
      .ok ((utility, ttl) :: rest, requests)

/-- The loop that numbers the blocks and fills the columns, from the number `seq` on. -/
def number (round : Round) : List BlockRef → ℕ → List (BlockRef × ℕ) → BlockRequestScheduler →
    Except Fault (List (BlockRef × ℕ) × List (List (ℚ × ℤ)) × BlockRequestScheduler)
  | [], _, blockToSeq, requests => .ok (blockToSeq, [], requests)
  | block :: blocks, seq, blockToSeq, requests => do
      let (col, requests) ← column round block round.neighbors requests
      let (blockToSeq, cols, requests) ←
        number round blocks (seq + 1) (insertNew blockToSeq (block, seq)) requests
      .ok (blockToSeq, col :: cols, requests)

/-- The arguments of `LPSolver::solve`. -/
def input (round : Round) (columns : List (List (ℚ × ℤ))) : Input where
  maxTtl := maxTtl
  numOfBlocks := columns.length
  storage := storage
  bandwidth := bandwidth
  numOfNeighbor := round.neighbors.length
  ttlPerBlock := fun i seq => ((columns.getD seq []).getD i (0, -1)).2
  utility := fun i seq => ((columns.getD seq []).getD i (0, -1)).1

/-- The matrix `sched_result` as `solve` leaves it. -/
def solved (round : Round) (inp : Input) : Except Fault (List (List ℕ)) :=
  match round.solver.intopt (problem inp) with
  | none => .error (.assertFailed "glp_error")
  | some answer =>
      (solve (fun _ => answer) inp
        (List.replicate inp.numOfBlocks (List.replicate (inp.maxTtl + 2) 0))).map Prod.snd

/-- `get_blockid`, which searches the map from its beginning. -/
def getBlockid (blockToSeq : List (BlockRef × ℕ)) (seq : ℕ) : Except Fault BlockRef :=
  match blockToSeq.find? fun entry => entry.2 = seq with
  | some entry => .ok entry.1
  | none => .error (.assertFailed "blockIt != block_to_seq.end()")

/-- The loop over the result, with the commands so far and the blocks still to be scheduled. -/
def dispatch (blockToSeq : List (BlockRef × ℕ)) (schedResult : List (List ℕ)) :
    List ℕ → Commands → BlockSet → Except Fault (Commands × BlockSet)
  | [], commands, toSchedule => .ok (commands, toSchedule)
  | c :: cs, commands, toSchedule => do
      let block ← getBlockid blockToSeq c
      if cell schedResult c 0 = 1 then
        let commands := { commands with freeze := commands.freeze ++ [block] }
        if cell schedResult c 1 = 0 then
          dispatch blockToSeq schedResult cs
            { commands with broadcast := commands.broadcast ++ [block] } (toSchedule.erase block)
        else dispatch blockToSeq schedResult cs commands toSchedule
      else
        dispatch blockToSeq schedResult cs
          { commands with unfreeze := commands.unfreeze ++ [block] } toSchedule

/-- `sched`, with what it asks for and what `get_utility` leaves of the requests. -/
def sched (round : Round) (requests : BlockRequestScheduler) (s : BlockResponseScheduler) :
    Except Fault (Commands × BlockRequestScheduler × BlockResponseScheduler) :=
  let s := s.merged
  if s.blockToSchedule.blocks.length = 0 then .ok (⟨[], [], []⟩, requests, s)
  else do
    let blocks := round.blockOrder.order s.blockToSchedule.blocks
    let (blockToSeq, columns, requests) ← number round blocks 0 [] requests
    let schedResult ← solved round (input round columns)
    let (commands, toSchedule) ← dispatch (round.seqOrder.order blockToSeq) schedResult
      (List.range schedResult.length) ⟨[], [], []⟩ s.blockToSchedule
    .ok (commands, requests, { s with blockToSchedule := toSchedule, blockToSeq := blockToSeq })

end BlockResponseScheduler

/-- The two schedulers that share the table of requests. -/
structure Schedulers where
  requests : BlockRequestScheduler
  responses : BlockResponseScheduler

/-- The calls of the two schedulers. -/
inductive SchedOp
  | addRequests (now : TimePoint) (nodeId : NodeId) (requests : List BlockRequestArgs)
  | addResponse (block : BlockRef)
  | schedRequests (now : TimePoint)
  | schedResponses (round : Round)

namespace Schedulers

def new : Schedulers := ⟨.new, .new⟩

def step (s : Schedulers) : SchedOp → Except Fault Schedulers
  | .addRequests now nodeId requests =>
      .ok { s with requests := s.requests.addRequests now nodeId requests }
  | .addResponse block => .ok { s with responses := s.responses.addResponse block }
  | .schedRequests now => .ok { s with requests := (s.requests.sched now).2 }
  | .schedResponses round =>
      (s.responses.sched round s.requests).map fun out => ⟨out.2.1, out.2.2⟩

end Schedulers

end YingSma
