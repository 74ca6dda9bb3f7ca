import YingSma.EntryTable
import YingSma.Messages

/-! `BlockRequestScheduler`: the requests heard from each neighbour, and the queue of those that
are still to be forwarded. Utilities are rational numbers where they are computed with. -/
namespace YingSma
open EntryTable

/-- Nanoseconds in one microsecond. -/
def micro : ℤ := 1000

/-- The number a `float` stands for. Infinities and NaNs, which stand for none, are read like
the others. -/
def floatValue (bits : UInt32) : ℚ :=
  let sign : ℚ := if bits.toNat < 2 ^ 31 then 1 else -1
  let exponent : ℕ := bits.toNat / 2 ^ 23 % 2 ^ 8
  let fraction : ℕ := bits.toNat % 2 ^ 23
  if exponent = 0 then sign * fraction / 2 ^ 149
  else sign * (2 ^ 23 + fraction) * 2 ^ exponent / 2 ^ 150

structure BlockRequestDesc where
  contentName : Hash
  blockIndex : BlockIndex
  utility : UInt32
  expireTime : TimePoint
  from_ : NodeId
  requester : NodeId
  originLocation : Vec2d
  deriving DecidableEq

namespace BlockRequestDesc

def block (desc : BlockRequestDesc) : BlockRef := ⟨desc.contentName, desc.blockIndex⟩

/-- The request heard from a neighbour, its relative time to live made absolute. -/
def ofArgs (now : TimePoint) (neighbor : NodeId) (request : BlockRequestArgs) : BlockRequestDesc where
  contentName := request.block.hash
  blockIndex := request.block.index
  utility := request.utility
  expireTime := now + request.ttlMs.toNat * milli
  from_ := neighbor
  requester := request.requester
  originLocation := request.requesterPosition

/-- The request that is forwarded: microseconds are left, of which the message carries the whole
milliseconds. The `false` that is passed is taken for `hops_from_block`. -/
def toArgs (now : TimePoint) (desc : BlockRequestDesc) : LocalRequestArgs where
  block := desc.block
  utility := desc.utility
  ttlMs := UInt32.ofInt (((desc.expireTime - now).tdiv micro).tdiv 1000)
  requester := desc.requester
  requesterPosition := desc.originLocation
  hopsFromBlock := 0
  keepOnArrival := false
  localOnly := false

end BlockRequestDesc

/-- The table has one entry for each neighbour, the queue its front first. -/
structure BlockRequestScheduler where
  requestDescTable : List (NodeId × List BlockRequestDesc)
  requestQueue : List BlockRequestDesc

namespace BlockRequestScheduler

def new : BlockRequestScheduler := ⟨[], []⟩

/-- Outdated requests of the neighbour are pruned by the way. -/
def insertRequest (now : TimePoint) (nodeId : NodeId) (s : BlockRequestScheduler)
    (request : BlockRequestArgs) : BlockRequestScheduler :=
  let desc := BlockRequestDesc.ofArgs now nodeId request
  let keep := fun d : BlockRequestDesc => d.block ≠ desc.block ∧ ¬ d.expireTime < now
  { requestQueue := s.requestQueue ++ [desc]
    requestDescTable :=
      match s.requestDescTable.lookup nodeId with
      | none => s.requestDescTable ++ [(nodeId, [desc])]
      | some _ => s.requestDescTable.map fun entry =>
          if entry.1 = nodeId then (entry.1, (entry.2.filter fun d => keep d) ++ [desc]) else entry }

def addRequests (now : TimePoint) (nodeId : NodeId) (requests : List BlockRequestArgs)
    (s : BlockRequestScheduler) : BlockRequestScheduler :=
  requests.foldl (insertRequest now nodeId) s

/-- `get_ttl`. The time left is narrowed to an `int`, which the division by the 32-bit interval
takes for an unsigned number. -/
def getTtl (now : TimePoint) (schedInterval : UInt32) (s : BlockRequestScheduler) (nodeId : NodeId)
    (block : BlockRef) : Except Fault ℤ :=
  match s.requestDescTable.lookup nodeId with
  | none => .ok (-1)
  | some descs =>
      match descs.find? fun d => d.block = block with
      | none => .ok (-1)
      | some d =>
          if d.expireTime > now then
            let timeSpan := UInt32.ofInt ((d.expireTime - now).tdiv micro)
            if schedInterval = 0 then .error .divisionByZero
            else .ok (Int.bmod (timeSpan / schedInterval).toNat (2 ^ 32))
          else .ok (-1)

/-- The loop of `get_utility` with its two sums. It is left at an expired request for the block. -/
def utilitySums (now : TimePoint) (block : BlockRef) :
    List BlockRequestDesc → ℚ → ℚ → Option (ℚ × ℚ)
  | [], target, total => some (target, total)
  | d :: descs, target, total =>
      if d.block = block then
        if d.expireTime < now then none
        else utilitySums now block descs (floatValue d.utility) (total + floatValue d.utility)
      else utilitySums now block descs target (total + floatValue d.utility)

/-- `get_utility`, which erases the expired request it finds. Divided by 0 a utility is 0 here, and
not a number in the source. -/
def getUtility (now : TimePoint) (nodeId : NodeId) (block : BlockRef) (s : BlockRequestScheduler) :
    ℚ × BlockRequestScheduler :=
  match s.requestDescTable.lookup nodeId with
  | none => (0, s)
  | some descs =>
      match utilitySums now block descs 0 0 with
      | some (target, total) => (target / total, s)
      | none =>
          (0, { s with
            requestDescTable := s.requestDescTable.map fun entry =>
              if entry.1 = nodeId then
                (entry.1, entry.2.eraseP fun d => d.block = block ∧ d.expireTime < now)
              else entry })

/-- The loop of `fwd_requests`: the requests to forward and what is left of the queue. An expired
request counts as well. -/
def drain (now : TimePoint) : ℕ → List BlockRequestDesc → List LocalRequestArgs × List BlockRequestDesc
  | 0, queue => ([], queue)
  | _ + 1, [] => ([], [])
  | maxNumOfRequests + 1, desc :: queue =>
      let out := drain now maxNumOfRequests queue
      if desc.expireTime ≥ now then (desc.toArgs now :: out.1, out.2) else out

/-- `fwd_requests`, with the requests it passes to `request_blocks`. -/
def fwdRequests (now : TimePoint) (maxNumOfRequests : ℕ) (s : BlockRequestScheduler) :
    List LocalRequestArgs × BlockRequestScheduler :=
  let out := drain now maxNumOfRequests s.requestQueue
  (out.1, { s with requestQueue := out.2 })

def sched (now : TimePoint) (s : BlockRequestScheduler) :
    List LocalRequestArgs × BlockRequestScheduler :=
  s.fwdRequests now 10

section Queue

variable {now : TimePoint} {s : BlockRequestScheduler}

theorem addRequests_queue (nodeId : NodeId) (requests : List BlockRequestArgs) :
    (s.addRequests now nodeId requests).requestQueue =
      s.requestQueue ++ requests.map (BlockRequestDesc.ofArgs now nodeId) := by
  unfold addRequests
  induction requests generalizing s with
  | nil => simp
  | cons request requests ih =>
    rw [List.foldl_cons, ih]
    simp [insertRequest]

/-- As many requests as allowed are taken from the front, and those of them that have not expired
are forwarded in their order. -/
theorem drain_eq (now : TimePoint) (count : ℕ) (queue : List BlockRequestDesc) :
    drain now count queue =
      (((queue.take count).filter fun d => d.expireTime ≥ now).map (BlockRequestDesc.toArgs now),
        queue.drop count) := by
  induction count generalizing queue with
  | zero => simp [drain]
  | succ count ih =>
    cases queue with
    | nil => simp [drain]
    | cons desc queue =>
      rw [drain, ih, List.take_succ_cons, List.drop_succ_cons]
      split_ifs with halive
      · rw [List.filter_cons_of_pos (by simpa using halive), List.map_cons]
      · rw [List.filter_cons_of_neg (by simpa using halive)]

/-- Nanoseconds rounded to microseconds and then to milliseconds. -/
theorem whole_millis_le {left : ℤ} (hleft : 0 ≤ left) :
    0 ≤ (left.tdiv 1000).tdiv 1000 ∧ (left.tdiv 1000).tdiv 1000 * 1000000 ≤ left := by
  rw [Int.tdiv_eq_ediv_of_nonneg hleft, Int.tdiv_eq_ediv_of_nonneg (by omega)]
  omega

/-- What is left of a request's time is rounded down, and so its deadline is kept. -/
theorem toArgs_deadline {desc : BlockRequestDesc} (halive : now ≤ desc.expireTime) :
    now + (desc.toArgs now).ttlMs.toNat * milli ≤ desc.expireTime := by
  obtain ⟨hpos, hle⟩ := whole_millis_le (sub_nonneg.mpr halive)
  have hnarrow := mul_le_mul_of_nonneg_right (toNat_ofInt_le hpos) (by decide : (0 : ℤ) ≤ milli)
  exact le_sub_iff_add_le'.mp (hnarrow.trans hle)

end Queue

end BlockRequestScheduler

end YingSma
