import YingSma.BehaviorHelper
import YingSma.CcnNode
import YingSma.ContentProvenance

/-! Whole nodes that hear each other's packets: what is in the air are bytes, and a node gets
them through its link layer. -/
namespace YingSma

/-- What a node does without a packet: the tasks and the calls of its helpers. -/
inductive NodeTask
  | beacon (rand : ℕ)
  | refreshNeighbors (rand : ℕ)
  | announceInterests (fuzz : ℕ) (stack : ByteMemory)
  | content (op : ContentHelper.Op)
  | schedRequests
  | schedResponses (round : Round)
  | behaveInterest
  | behavePublish (rand : ℕ → ℕ)
  | behaveRequest (rand : ℕ)

namespace CcnNode
open ContentHelper TransitionRuns
open AnnouncementNetwork (isReceive posts)

/-- The helpers of a node as its container makes them. -/
def start (id : NodeId) (now : TimePoint) : CcnNode where
  id := id
  neighbors := ⟨[], [], []⟩
  interests := .new id now
  forward := ForwardScheduler.new ⟨true, true, true, true⟩ id

/-- What a task finds around it. -/
def around (n : CcnNode) (now : TimePoint) (position : Vec2d) : Surroundings :=
  ⟨now, position, fun types => n.interests.containsAny types⟩

def withForward (n : CcnNode) (r : Except Fault ForwardScheduler.Node) :
    Except Fault (CcnNode × Option InterestAnn) :=
  r.map fun forward => ({ n with forward }, none)

/-- The node after a task, and the interests it has posted. -/
def perform (hasher : List UInt8 → Hash) (now : TimePoint) (position : Vec2d) (n : CcnNode) :
    NodeTask → Except Fault (CcnNode × Option InterestAnn)
  | .beacon rand => .ok ({ n with neighbors := (n.neighbors.beacon now position rand).1 }, none)
  | .refreshNeighbors rand =>
      .ok ({ n with neighbors := (n.neighbors.refreshNeighbors now position rand).1 }, none)
  | .announceInterests fuzz stack =>
      (n.interests.announce now fuzz stack).map fun out => ({ n with interests := out.2 }, out.1.posted)
  | .content op =>
      if isReceive op then .ok (n, none)
      else n.withForward (n.forward.callContent (n.around now position)
        (ContentHelper.perform hasher (n.around now position) op))
  | .schedRequests => n.withForward (n.forward.schedRequests (n.around now position))
  | .schedResponses round => n.withForward (n.forward.schedResponses (n.around now position) round)
  | .behaveInterest =>
      .ok ({ n with interests := BehaviorHelper.behaveInterest now n.interests }, none)
  | .behavePublish rand => n.withForward (n.forward.callContent (n.around now position)
      (BehaviorHelper.behavePublish hasher (n.around now position) rand))
  | .behaveRequest rand => n.withForward (n.forward.callContent (n.around now position)
      (BehaviorHelper.behaveRequest (n.around now position) rand))

/-- The beacons and the messages of the content helper that have been posted since. -/
def outgoing (n n' : CcnNode) : List Message :=
  (n'.neighbors.posted.drop n.neighbors.posted.length).map Message.beacon ++
    posts (newEffects n.forward.content n'.forward.content)

end CcnNode

namespace NodeNetwork
open TransitionRuns ContentHelper
open AnnouncementNetwork (Publication)

/-- The packets stay in the air. -/
structure Network (N : Type) where
  now : TimePoint
  nodes : N → CcnNode
  air : List (List UInt8)

/-- Any packet reaches any node at any time, again or never. -/
inductive Act (N : Type)
  | run (node : N) (position : Vec2d) (task : NodeTask)
  | deliver (k : ℕ) (node : N) (beyond : NodeId) (position : Vec2d)

/-- `post` to all nodes of each message. -/
def enqueue (now : TimePoint) (id : NodeId) : List Message → Except Fault (List (List UInt8))
  | [] => .ok []
  | msg :: msgs =>
      match MessageBuffer.replace bufferSize now ⟨id, []⟩ msg, enqueue now id msgs with
      | .ok packet, .ok packets => .ok (packet :: packets)
      | .error e, _ => .error e
      | _, .error e => .error e

section Steps

variable {N : Type} [DecidableEq N]

/-- The node as it is now, and what it has posted in the air. -/
def change (net : Network N) (node : N) (n' : CcnNode) (msgs : List Message) :
    Except Fault (Network N) :=
  (enqueue net.now (net.nodes node).id msgs).map fun packets =>
    { net with nodes := Function.update net.nodes node n', air := net.air ++ packets }

def perform (hasher : List UInt8 → Hash) (net : Network N) : Act N → Except Fault (Network N)
  | .run node position task =>
      match (net.nodes node).perform hasher net.now position task with
      | .error e => .error e
      | .ok (n', ann) =>
          change net node n' (ann.toList.map .interestAnn ++ (net.nodes node).outgoing n')
  | .deliver k node beyond position =>
      match net.air[k]? with
      | none => .ok net
      | some packet =>
          match (net.nodes node).onPacket ⟨net.now, position, beyond, packet⟩ with
          | .error e => .error e
          | .ok n' => change net node n' ((net.nodes node).outgoing n')

/-- An act `wait` nanoseconds after the last one. -/
def step (hasher : List UInt8 → Hash) (net : Network N) (event : ℕ × Act N) :
    Except Fault (Network N) :=
  perform hasher { net with now := net.now + event.1 } event.2

def start (ids : N → NodeId) (now : TimePoint) : Network N := ⟨now, fun n => .start (ids n) now, []⟩

end Steps

/-- What a task publishes. -/
def publishedBy (hasher : List UInt8 → Hash) (env : Surroundings) (id : NodeId) :
    Op → List (Publication hasher)
  | .createNew types name src => [⟨createdMetadata hasher env id types name src, src, rfl⟩]
  | _ => []

/-- The calls of the content helper by which a task publishes. -/
def publishingOps : NodeTask → List Op
  | .content op => [op]
  | .behavePublish rand => BehaviorHelper.publishOps rand
  | _ => []

/-- The publications so far. -/
def publish {N : Type} {hasher : List UInt8 → Hash} (g : List (Publication hasher))
    (net : Network N) (event : ℕ × Act N) (_ : Network N) : List (Publication hasher) :=
  match event.2 with
  | .run node position task =>
      g ++ (publishingOps task).flatMap (publishedBy hasher
        ((net.nodes node).around (net.now + event.1) position) (net.nodes node).id)
  | .deliver _ _ _ _ => g

end NodeNetwork

end YingSma
