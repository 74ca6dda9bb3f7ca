import Mathlib.Logic.Function.Basic
import YingSma.Messages

/-! `ContentCache`: a vector of slots, the free list, the LRU list of occupied
slots and the map from content hashes to slot indices. -/
namespace YingSma

/-- `ContentCache::block_size` -/
def blockSize : ℕ := 1024

/-- `data` is the whole array; the first `size` bytes of it are the stored ones. -/
structure Slot where
  blockIndex : BlockIndex
  data : List UInt8
  size : ℕ
  expectedSize : ℕ
  frozen : Bool
  length_data : data.length = blockSize
  size_le : size ≤ blockSize

namespace Slot

/-- A value-initialised slot, as `slots.resize` creates it. -/
def blank : Slot := ⟨0, List.replicate blockSize 0, 0, 0, false, by simp, by simp⟩

/-- The bytes a reader of the block sees: `data()[0 .. size())`. -/
def bytes (s : Slot) : List UInt8 := s.data.take s.size

/-- `memcpy(slot.data, chunk, …)` together with the two size fields. -/
def write (s : Slot) (chunk : List UInt8) (expectedSize : ℕ) (h : chunk.length ≤ blockSize) :
    Slot where
  blockIndex := s.blockIndex
  data := chunk ++ s.data.drop chunk.length
  size := chunk.length
  expectedSize := expectedSize
  frozen := s.frozen
  length_data := by
    have := s.length_data
    simp only [List.length_append, List.length_drop]
    omega
  size_le := h

/-- What eviction does to a slot: the data stay, the sizes and the index are reset. -/
def reset (s : Slot) : Slot :=
  { s with size := 0, expectedSize := 0, blockIndex := 0, size_le := Nat.zero_le _ }

end Slot

structure ContentCache where
  capacity : ℕ
  slots : List Slot
  occupiedIdxs : List ℕ
  freeIdxs : List ℕ
  content : Hash → Option (List ℕ)

namespace ContentCache

/-- The doubling loop of `next_power_of_two`; 64 doublings exhaust a `size_t`. -/
def nextPowerOfTwoFrom (t : ℕ) : ℕ → ℕ → ℕ
  | 0, pow => pow
  | fuel + 1, pow => if pow < t then nextPowerOfTwoFrom t fuel (pow * 2) else pow

def nextPowerOfTwo (t : ℕ) : ℕ := nextPowerOfTwoFrom t 64 1

/-- The constructor. The slot vectors are sized by the argument and not by the
rounded member of the same name. -/
def new (capacity : ℕ) : ContentCache where
  capacity := if capacity = 0 then 0 else nextPowerOfTwo capacity
  slots := List.replicate (capacity / blockSize) Slot.blank
  occupiedIdxs := []
  freeIdxs := List.range (capacity / blockSize)
  content := fun _ => none

/-- `slots[idx]`; the indices the cache keeps are below `slots.size()`. -/
def slotAt (slots : List Slot) (idx : ℕ) : Slot := slots.getD idx Slot.blank

def slot (c : ContentCache) (idx : ℕ) : Slot := slotAt c.slots idx

def growToFit (c : ContentCache) (count : ℕ) : ContentCache :=
  if count ≤ c.freeIdxs.length then c
  else
    let slotsToAdd := count - c.freeIdxs.length
    { c with
      slots := c.slots ++ List.replicate slotsToAdd Slot.blank
      freeIdxs := c.freeIdxs ++ List.range' c.slots.length slotsToAdd }

/-- The loop of `free_slots` over the LRU list read from its tail. The budget `count`
goes down at frozen slots too, and an evicted index is not put on the free list. -/
def freeSlotsFrom : ℕ → List ℕ → List Slot → List ℕ × List Slot
  | 0, idxs, slots => (idxs, slots)
  | _ + 1, [], slots => ([], slots)
  | count + 1, idx :: idxs, slots =>
      if (slotAt slots idx).frozen then
        let out := freeSlotsFrom count idxs slots
        (idx :: out.1, out.2)
      else freeSlotsFrom count idxs (slots.modify idx Slot.reset)

def freeSlots (c : ContentCache) (count : ℕ) : ContentCache :=
  if count = 0 then c
  else
    let out := freeSlotsFrom count c.occupiedIdxs.reverse c.slots
    { c with occupiedIdxs := out.1.reverse, slots := out.2 }

def ensureCapacity (c : ContentCache) (count : ℕ) : ℕ × ContentCache :=
  let c' :=
    if c.freeIdxs.length < count then
      if c.capacity = 0 then c.growToFit count else c.freeSlots (count - c.freeIdxs.length)
    else c
  (min count c'.freeIdxs.length, c')

def reserveSlot (c : ContentCache) : Except Fault (ℕ × ContentCache) :=
  let ensured := c.ensureCapacity 1
  let c := ensured.2
  if ensured.1 = 1 then
    let idx := c.freeIdxs.getLastD 0
    .ok (idx, { c with freeIdxs := c.freeIdxs.dropLast, occupiedIdxs := idx :: c.occupiedIdxs })
  else .error (.assertFailed "Can't reserve slot; cache is full and no slots can be freed.")

def reserveSlots (c : ContentCache) (count : ℕ) : Except Fault (List ℕ × ContentCache) :=
  let ensured := c.ensureCapacity count
  let c := ensured.2
  if ensured.1 = count then
    let first := c.freeIdxs.length - count
    let idxs := c.freeIdxs.drop first
    .ok (idxs, { c with freeIdxs := c.freeIdxs.take first, occupiedIdxs := idxs ++ c.occupiedIdxs })
  else .error (.assertFailed "Can't reserve slots; cache is full and no slots can be freed.")

/-- The search loop of `promote`, which advances the iterator twice in a pass. The
result is the list without the element found; from the last element of a list of odd
length the second advance starts at `end()`. -/
def promoteFrom (idx : ℕ) : List ℕ → Except Fault (Option (List ℕ))
  | [] => .ok none
  | [i] => if i = idx then .ok (some []) else .error .pastEnd
  | i :: j :: rest =>
      if i = idx then .ok (some (j :: rest))
      else
        match promoteFrom idx rest with
        | .ok found => .ok (found.map fun others => i :: j :: others)
        | .error e => .error e

def promote (c : ContentCache) (idx : ℕ) : Except Fault ContentCache :=
  match promoteFrom idx c.occupiedIdxs with
  | .ok (some others) => .ok { c with occupiedIdxs := idx :: others }
  | .ok none => .ok c
  | .error e => .error e

/-- The number of blocks of `size` bytes of content. The `size - 1` of an empty one
wraps around in `size_t`. -/
def blockCount (size : ℕ) : ℕ := 1 + (if size = 0 then 2 ^ 64 - 1 else size - 1) / blockSize

/-- The segmentation loop of `store`. `rest` is what is left to read; the block index
has 16 bits. The loop ends after at most one pass for each byte. -/
def copyBlocks (takenIdxs : List ℕ) : ℕ → BlockIndex → List UInt8 → List Slot → List Slot
  | 0, _, _, slots => slots
  | fuel + 1, blockIndex, rest, slots =>
      if rest = [] then slots
      else
        let fill := fun s : Slot =>
          { s.write (rest.take blockSize) (rest.take blockSize).length (List.length_take_le _ _) with
            blockIndex := blockIndex }
        copyBlocks takenIdxs fuel (blockIndex + 1) (rest.drop blockSize)
          (slots.modify (takenIdxs.getD blockIndex.toNat 0) fill)

/-- `store(src, size)`, with `Hasher(src, size).digest()` as `hasher src`. -/
def store (hasher : List UInt8 → Hash) (c : ContentCache) (src : List UInt8) :
    Except Fault (Hash × ContentCache) :=
  let hash := hasher src
  match c.content hash with
  | some existing =>
      if existing.length = blockCount src.length then .ok (hash, c)
      else .error (.assertFailed "Data already cached with this hash has different block count.")
  | none =>
      match c.reserveSlots (blockCount src.length) with
      | .error e => .error e
      | .ok (takenIdxs, c) =>
          .ok (hash,
            { c with
              slots := copyBlocks takenIdxs src.length 0 src c.slots
              content := Function.update c.content hash (some takenIdxs) })

/-- `store(ref, expected_size, src, size)`, with `src` the `size` bytes to copy. The
result is the slot of the new block, or `none` for `end()`. The slot's block index is
left as it is. -/
def storeBlock (c : ContentCache) (ref : BlockRef) (expectedSize : ℕ) (src : List UInt8) :
    Except Fault (Option ℕ × ContentCache) :=
  -- `content[ref.hash]` enters an empty vector when the hash is new.
  let idxs := (c.content ref.hash).getD []
  let c := { c with content := Function.update c.content ref.hash (some idxs) }
  if idxs.any fun idx => (c.slot idx).blockIndex = ref.index then .ok (none, c)
  else
    match c.reserveSlot with
    | .error e => .error e
    | .ok (idx, c) =>
        let content := Function.update c.content ref.hash (some (idxs ++ [idx]))
        if h : src.length ≤ blockSize then
          let slots := c.slots.modify idx fun s => s.write src expectedSize h
          .ok (some idx, { c with content := content, slots := slots })
        else .error .outOfBounds

/-- The slot of a block, or `none` for `end()`. -/
def find (c : ContentCache) (ref : BlockRef) : Option ℕ :=
  match c.content ref.hash with
  | some slotIdxs => slotIdxs.find? fun idx => (c.slot idx).blockIndex = ref.index
  | none => none

/-- The bytes of the block `find` returns. -/
def blockAt (c : ContentCache) (ref : BlockRef) : Option (List UInt8) :=
  (c.find ref).map fun idx => (c.slot idx).bytes

/-- `BlockData::complete` of the block in slot `idx`. -/
def complete (c : ContentCache) (idx : ℕ) : Bool := (c.slot idx).size = (c.slot idx).expectedSize

/-- `BlockData::frozen(enable)` of the block in slot `idx`. -/
def setFrozen (c : ContentCache) (idx : ℕ) (enable : Bool) : Except Fault ContentCache :=
  let c := { c with slots := c.slots.modify idx fun s => { s with frozen := enable } }
  if enable then c.promote idx else .ok c

def validateData (c : ContentCache) (m : ContentMetadata) : Except Fault Bool :=
  match c.content m.hash with
  | none => .ok false
  | some slotIdxs =>
      match m.blockCount with
      | .error e => .error e
      | .ok blockCount =>
          if slotIdxs.length ≠ blockCount then .ok false
          else if (slotIdxs.map fun idx => (c.slot idx).size).sum = m.size.toNat then .ok true
          else .error (.assertFailed "Block count valid, but data size is not.")

/-- The loop of `missing_blocks` over the slots of the content, with the bit vector
and the 64-bit counter. -/
def markPresent (c : ContentCache) :
    List ℕ → List Bool → UInt64 → Except Fault (List Bool × UInt64)
  | [], missing, blockCount => .ok (missing, blockCount)
  | idx :: idxs, missing, blockCount =>
      let s := c.slot idx
      if s.size < s.expectedSize then c.markPresent idxs missing blockCount
      else if s.blockIndex.toNat < missing.length then
        c.markPresent idxs (missing.set s.blockIndex.toNat false) (blockCount - 1)
      else .error .outOfBounds

/-- `missing_blocks`. The final counter is asked of `reserve`, which throws beyond the
`max_size()` of a vector of 16-bit indices. -/
def missingBlocks (c : ContentCache) (m : ContentMetadata) : Except Fault (List BlockIndex) :=
  match m.blockCount with
  | .error e => .error e
  | .ok blockCount =>
      let missing := List.replicate blockCount true
      match c.markPresent ((c.content m.hash).getD []) missing (UInt64.ofNat blockCount) with
      | .error e => .error e
      | .ok (missing, blockCount) =>
          if blockCount.toNat < 2 ^ 62 then
            .ok (((List.range missing.length).filter fun i => missing.getD i false).map
              UInt16.ofNat)
          else .error .lengthError

/-- The calls a run of one cache is made of, the private helpers included. -/
inductive Op
  | growToFit (count : ℕ)
  | freeSlots (count : ℕ)
  | ensureCapacity (count : ℕ)
  | reserveSlot
  | reserveSlots (count : ℕ)
  | promote (idx : ℕ)
  | store (src : List UInt8)
  | storeBlock (ref : BlockRef) (expectedSize : ℕ) (src : List UInt8)
  | find (ref : BlockRef)
  | frozen (ref : BlockRef) (enable : Bool)
  | validateData (m : ContentMetadata)
  | missingBlocks (m : ContentMetadata)

/-- `find(ref)` and then `frozen(enable)` of the block found. -/
def freeze (c : ContentCache) (ref : BlockRef) (enable : Bool) : Except Fault ContentCache :=
  match c.find ref with
  | some idx => c.setFrozen idx enable
  | none => .ok c

/-- The cache after one call. -/
def step (hasher : List UInt8 → Hash) (c : ContentCache) : Op → Except Fault ContentCache
  | .growToFit count => .ok (c.growToFit count)
  | .freeSlots count => .ok (c.freeSlots count)
  | .ensureCapacity count => .ok (c.ensureCapacity count).2
  | .reserveSlot => c.reserveSlot.map Prod.snd
  | .reserveSlots count => (c.reserveSlots count).map Prod.snd
  | .promote idx => c.promote idx
  | .store src => (c.store hasher src).map Prod.snd
  | .storeBlock ref expectedSize src => (c.storeBlock ref expectedSize src).map Prod.snd
  | .find _ => .ok c
  | .frozen ref enable => c.freeze ref enable
  | .validateData m => (c.validateData m).map fun _ => c
  | .missingBlocks m => (c.missingBlocks m).map fun _ => c

end ContentCache

end YingSma
