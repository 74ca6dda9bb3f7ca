import YingSma.ByteMemory
import YingSma.MessageLimits

/-! `InterestHelperImpl`: the deque of interests, what is learned from announcements,
and the packing of the next announcement into a buffer on the stack. -/
namespace YingSma
open SerialFormat

namespace Interest

/-- `Interest(type, ttl, hops)` with the remaining time in milliseconds. -/
def new (now : TimePoint) (type : ContentType) (ttlMs : UInt32) (hops : UInt8) : Interest :=
  ⟨type, ttlMs, hops, now + ttlMs.toNat * milli⟩

/-- `local` -/
def isLocal (i : Interest) : Bool := i.hops = 0

def remote (i : Interest) : Bool := i.hops ≠ 0

def closerThan (i j : Interest) : Bool := i.hops < j.hops

def newerThan (i j : Interest) : Bool := i.ttlMs > j.ttlMs

/-- Whether anything was taken over from `j`, and the interest afterwards. The expiry
time stays as it is. -/
def updateWith (i j : Interest) : Bool × Interest :=
  let closer := j.closerThan i
  let newer := j.newerThan i
  (closer || newer,
    { i with hops := if closer then j.hops else i.hops, ttlMs := if newer then j.ttlMs else i.ttlMs })

def elapseTtl (now : TimePoint) (i : Interest) : Interest :=
  if i.isLocal then { i with expiryTime := now + i.ttlMs.toNat * milli }
  else if now ≥ i.expiryTime then { i with ttlMs := 0 }
  else { i with ttlMs := UInt32.ofInt ((i.expiryTime - now) / milli) }

def expired (i : Interest) : Bool := i.ttlMs = 0

end Interest

namespace InterestAnn

/-- `InterestAnn(count, data, size)`, which narrows its counts and copies the bytes. -/
def ofBuffer (count : ℕ) (data : ByteMemory) (size : ℕ) : InterestAnn where
  count := UInt8.ofNat count
  size := UInt16.ofNat size
  data := data.read 0 (UInt16.ofNat size).toNat
  length_data := ByteMemory.length_read _ _ _

/-- The loop of `receive` over the announced interests. -/
def interests (msg : InterestAnn) : Except Fault (List Interest) :=
  (getMany Interest.read msg.count.toNat msg.data).map Prod.fst

end InterestAnn

structure InterestHelper where
  id : NodeId
  interests : List Interest
  nextAnnounceTime : TimePoint
  toAnnounce : UInt64
  autoAnnounce : Bool
  deriving DecidableEq

/-- What a call of `announce` returns and does besides changing the helper: the message
posted, the writes to `data_buf` as offset and length, and whether it has scheduled
the next call. -/
structure Announcement where
  count : ℕ
  posted : Option InterestAnn
  fills : List (ℕ × ℕ)
  rescheduled : Bool

/-- The local variables of `announce`. The buffer lies at address 0, before whatever
else is on the stack; `data` is an offset into it. -/
structure Packing where
  dataBuf : ByteMemory
  data : ℕ
  size : ℕ
  count : ℕ
  fills : List (ℕ × ℕ)

namespace Packing

def start (stack : ByteMemory) : Packing := ⟨stack, 0, 0, 0, []⟩

/-- `out << i` at the current pointer. -/
def fill (p : Packing) (bytes : List UInt8) : Packing :=
  { p with
    dataBuf := p.dataBuf.write p.data bytes
    fills := p.fills ++ [(p.data, bytes.length)] }

/-- The pointer goes on by the new total size. -/
def advance (p : Packing) (wrote : ℕ) : Packing :=
  { p with size := p.size + wrote, data := p.data + (p.size + wrote), count := p.count + 1 }

end Packing

namespace InterestHelper

/-- `max_size` -/
def maxSize : ℕ := 1024

/-- `min_announce_interval` -/
def minAnnounceInterval : ℤ := 500 * milli

/-- `default_initial_ttl` in milliseconds. -/
def defaultInitialTtl : UInt32 := 60000

def new (id : NodeId) (now : TimePoint) : InterestHelper := ⟨id, [], now, 0, true⟩

/-- `emplace_front` and `++to_announce` -/
def pushFront (i : Interest) (h : InterestHelper) : InterestHelper :=
  { h with interests := i :: h.interests, toAnnounce := h.toAnnounce + 1 }

def createLocal (now : TimePoint) (type : ContentType) (h : InterestHelper) : InterestHelper :=
  let created := Interest.new now type defaultInitialTtl 0
  match h.interests.findIdx? fun i => i.type = type with
  | some idx =>
      if (h.interests[idx]?.map Interest.isLocal).getD false then h
      else
        pushFront created { h with
          interests := h.interests.eraseIdx idx
          toAnnounce := if idx < h.toAnnounce.toNat then h.toAnnounce - 1 else h.toAnnounce }
  | none => pushFront created h

def clearLocal (h : InterestHelper) : InterestHelper :=
  { h with interests := h.interests.filter fun i => !i.isLocal }

def knowRemote (type : ContentType) (h : InterestHelper) : Bool :=
  h.interests.any fun i => i.remote && i.type = type

def containsAny (types : List ContentType) (h : InterestHelper) : Bool :=
  h.interests.any fun i => types.contains i.type

/-- An interest that is already known moves to the front if it takes anything over. -/
def learnRemote (now : TimePoint) (interest : Interest) (h : InterestHelper) : InterestHelper :=
  match h.interests.findIdx? fun i => i.type = interest.type with
  | some idx =>
      let out := ((h.interests[idx]?).getD interest).updateWith interest
      if out.1 then
        { h with
          interests := out.2 :: h.interests.eraseIdx idx
          toAnnounce := if idx ≥ h.toAnnounce.toNat then h.toAnnounce + 1 else h.toAnnounce }
      else h
  | none => pushFront (Interest.new now interest.type interest.ttlMs interest.hops) h

/-- `receive(MessageHeader, InterestAnn)` -/
def receive (now : TimePoint) (msg : InterestAnn) (h : InterestHelper) :
    Except Fault InterestHelper :=
  msg.interests.map fun interests =>
    interests.foldl (fun h i => learnRemote now { i with hops := i.hops + 1 } h) h

/-- The loop of `announce`. Each pass takes one interest out of
`interests.size() - count`, so that `fuel` is at most their number. -/
def announceLoop (now : TimePoint) :
    ℕ → InterestHelper → Packing → Except Fault (InterestHelper × Packing)
  | 0, h, p => .ok (h, p)
  | fuel + 1, h, p =>
      if p.count < h.interests.length then
        match h.interests with
        | [] => .ok (h, p)
        | front :: rest =>
            let i := front.elapseTtl now
            if i.expired then
              announceLoop now fuel { h with interests := rest, toAnnounce := h.toAnnounce - 1 } p
            else
              match i.writeFields (Out.empty (2 * maxSize - p.size)) with
              | .error e => .error e
              | .ok out =>
                  let wrote := out.written.length
                  if p.size + wrote > maxSize then
                    .ok ({ h with interests := i :: rest }, p.fill out.written)
                  else
                    let h := { h with interests := rest ++ [i], toAnnounce := h.toAnnounce - 1 }
                    let p := (p.fill out.written).advance wrote
                    if p.size = maxSize then .ok (h, p) else announceLoop now fuel h p
      else .ok (h, p)

/-- `fuzz` is the drawn number of milliseconds, and `stack` what the buffer and the
stack behind it hold before the call. -/
def announce (now : TimePoint) (fuzz : ℕ) (stack : ByteMemory) (h : InterestHelper) :
    Except Fault (Announcement × InterestHelper) :=
  if now < h.nextAnnounceTime then .ok (⟨0, none, [], h.autoAnnounce⟩, h)
  else
    match announceLoop now h.interests.length h (Packing.start stack) with
    | .error e => .error e
    | .ok (rotated, p) =>
        let h' :=
          if rotated.toAnnounce = 0 then
            { rotated with
              toAnnounce := UInt64.ofNat rotated.interests.length
              nextAnnounceTime := now + minAnnounceInterval + fuzz * milli }
          else rotated
        if p.count ≠ 0 then
          let msg := InterestAnn.ofBuffer p.count p.dataBuf p.size
          match MessageBuffer.replace bufferSize now ⟨h.id, []⟩ (.interestAnn msg) with
          | .error e => .error e
          | .ok _ => .ok (⟨p.count, some msg, p.fills, h.autoAnnounce⟩, h')
        else .ok (⟨0, none, p.fills, h.autoAnnounce⟩, h')

end InterestHelper

end YingSma
