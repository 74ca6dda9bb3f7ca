import YingSma.NeighborTimers
import YingSma.RingWindow

/-! `CircularBuffer`, a vector that is written round and round, so that it keeps the newest
elements, and the record of a neighbour's positions that relies on it. -/
namespace YingSma
open RingWindow

structure CircularBuffer (T : Type*) where
  v : List T
  sz : UInt64
  i : UInt64
  first : UInt64

namespace CircularBuffer

variable {T : Type*} (Capacity : UInt64)

/-- The constructor. A vector has at most `2 ^ 63 - 1` bytes, of which an element takes `width`. -/
def new [Inhabited T] (width : ℕ+) : Except Fault (CircularBuffer T) :=
  if Capacity.toNat * width < 2 ^ 63 then .ok ⟨List.replicate Capacity.toNat default, 0, 0, 0⟩
  else .error .lengthError

def pushBack (value : T) (b : CircularBuffer T) : UInt64 × CircularBuffer T :=
  let next := b.i % Capacity
  (next,
    { v := b.v.set next.toNat value
      first := if b.i ≥ Capacity then (b.i + 1) % Capacity else b.first
      i := b.i + 1
      sz := if b.sz < Capacity then b.sz + 1 else b.sz })

def size (b : CircularBuffer T) : UInt64 := b.sz

/-- `operator[]` -/
def get (b : CircularBuffer T) (index : UInt64) : Except Fault T :=
  if index < b.sz then
    match b.v[((b.first + index) % Capacity).toNat]? with
    | some value => .ok value
    | none => .error .outOfBounds
  else .error (.assertFailed "index < sz")

def last (b : CircularBuffer T) : Except Fault T := b.get Capacity (b.sz - 1)

/-- A new buffer after some pushes. -/
def pushed [Inhabited T] (width : ℕ+) (values : List T) : Except Fault (CircularBuffer T) :=
  (new Capacity width).map fun b =>
    values.foldl (fun b value => (b.pushBack Capacity value).2) b

/-- The values that are kept of those pushed. -/
def newest (values : List T) : List T := values.drop (values.length - Capacity.toNat)

/-- The cells hold the newest values, and the counters are what the pushes made of them. -/
structure Filled (b : CircularBuffer T) (values : List T) : Prop where
  length : b.v.length = Capacity.toNat
  pushes : b.i.toNat = values.length
  start : b.first.toNat =
    if values.length ≤ Capacity.toNat then 0 else values.length % Capacity.toNat
  count : b.sz.toNat = min values.length Capacity.toNat
  holds : Holds b.v b.first.toNat (newest Capacity values)

variable {Capacity : UInt64} {b : CircularBuffer T} {values : List T}

theorem length_newest : (newest Capacity values).length = min values.length Capacity.toNat := by
  rw [newest, List.length_drop]
  omega

theorem newest_of_le (h : values.length ≤ Capacity.toNat) : newest Capacity values = values := by
  rw [newest, Nat.sub_eq_zero_of_le h, List.drop_zero]

/-- A push beyond the capacity drops the oldest of the values. -/
theorem newest_concat (h : Capacity.toNat ≤ values.length) (hpos : 0 < Capacity.toNat) (value : T) :
    newest Capacity (values ++ [value]) = (newest Capacity values).tail ++ [value] := by
  rw [newest, newest, List.tail_drop, List.length_append, List.length_singleton,
    List.drop_append_of_le_length (by omega), Nat.sub_add_comm h]

theorem newest_newest (Capacity : UInt64) (values : List T) (value : T) :
    newest Capacity (newest Capacity values ++ [value]) = newest Capacity (values ++ [value]) := by
  rcases le_or_gt values.length Capacity.toNat with hle | hgt
  · rw [newest_of_le hle]
  · have hlength := @length_newest _ Capacity values
    have happend : newest Capacity values ++ [value] =
        (values ++ [value]).drop (values.length - Capacity.toNat) := by
      rw [newest, List.drop_append_of_le_length (by omega)]
    rw [happend, newest, newest, List.drop_drop]
    congr 1
    simp only [List.length_drop, List.length_append, List.length_singleton]
    omega

theorem getLast?_newest (hpos : 0 < Capacity.toNat) :
    (newest Capacity values).getLast? = values.getLast? := by
  rw [newest, List.getLast?_drop]
  split
  · have hnil : values.length = 0 := by omega
    rw [List.length_eq_zero_iff.mp hnil, List.getLast?_nil]
  · rfl

theorem filled_new [Inhabited T] {width : ℕ+} (h : new Capacity width = .ok b) :
    Capacity.toNat < 2 ^ 63 ∧ Filled Capacity b [] := by
  unfold new at h
  split at h
  case isTrue hfits =>
    obtain rfl := Except.ok.inj h
    have hwidth : Capacity.toNat ≤ Capacity.toNat * width := Nat.le_mul_of_pos_right _ width.pos
    refine ⟨by omega, ?_⟩
    exact
      { length := List.length_replicate
        pushes := rfl
        start := by simp
        count := by simp
        holds := by simp [newest, holds_nil] }
  case isFalse => cases h

theorem Filled.start_lt (h : Filled Capacity b values) (hpos : 0 < Capacity.toNat) :
    b.first.toNat < Capacity.toNat := by
  rw [h.start]
  split
  · exact hpos
  · exact Nat.mod_lt _ hpos

/-- A push while there is room. -/
theorem Filled.pushBack_room (h : Filled Capacity b values) (hroom : values.length < Capacity.toNat)
    (hn : values.length + 1 < 2 ^ 64) (value : T) :
    Filled Capacity (b.pushBack Capacity value).2 (values ++ [value]) := by
  have hi : ¬ b.i ≥ Capacity := by
    rw [ge_iff_le, UInt64.le_iff_toNat_le, h.pushes]
    omega
  have hsz : b.sz < Capacity := by
    rw [UInt64.lt_iff_toNat_lt, h.count]
    omega
  have hfirst : b.first.toNat = 0 := by
    rw [h.start, if_pos hroom.le]
  have hnext : (b.i % Capacity).toNat = values.length := by
    rw [UInt64.toNat_mod, h.pushes, Nat.mod_eq_of_lt hroom]
  have hholds := h.holds
  rw [hfirst, newest_of_le hroom.le] at hholds
  refine ⟨?_, ?_, ?_, ?_, ?_⟩
  · simp [pushBack, h.length]
  · rw [pushBack, UInt64.toNat_add, h.pushes, List.length_append]
    exact Nat.mod_eq_of_lt hn
  · simp [pushBack, hi, hfirst, Nat.succ_le_of_lt hroom]
  · rw [pushBack, if_pos hsz, UInt64.toNat_add, h.count, List.length_append]
    simp
    omega
  · have hpush := hholds.push (by rw [h.length]; exact hroom) value
    rw [Nat.zero_add, h.length, Nat.mod_eq_of_lt hroom] at hpush
    rw [newest_of_le (by simpa using Nat.succ_le_of_lt hroom)]
    simp only [pushBack, hnext, if_neg hi, hfirst]
    exact hpush

/-- A push that takes the cell of the oldest value. -/
theorem Filled.pushBack_full (h : Filled Capacity b values) (hpos : 0 < Capacity.toNat)
    (hfull : Capacity.toNat ≤ values.length) (hn : values.length + 1 < 2 ^ 64) (value : T) :
    Filled Capacity (b.pushBack Capacity value).2 (values ++ [value]) := by
  have hi : b.i ≥ Capacity := by
    rw [ge_iff_le, UInt64.le_iff_toNat_le, h.pushes]
    exact hfull
  have hsz : ¬ b.sz < Capacity := by
    rw [UInt64.lt_iff_toNat_lt, h.count]
    omega
  have hfirst : b.first.toNat = values.length % Capacity.toNat := by
    rw [h.start]
    split
    · rw [show values.length = Capacity.toNat by omega, Nat.mod_self]
    · rfl
  have hsucc : (b.i + 1).toNat = values.length + 1 := by
    rw [UInt64.toNat_add, h.pushes]
    exact Nat.mod_eq_of_lt hn
  have hstart : ((b.i + 1) % Capacity).toNat = (values.length + 1) % Capacity.toNat := by
    rw [UInt64.toNat_mod, hsucc]
  refine ⟨?_, ?_, ?_, ?_, ?_⟩
  · simp [pushBack, h.length]
  · rw [pushBack, hsucc, List.length_append, List.length_singleton]
  · rw [pushBack, if_pos hi, hstart, List.length_append, List.length_singleton,
      if_neg (by omega)]
  · rw [pushBack, if_neg hsz, h.count, List.length_append, List.length_singleton]
    omega
  · have hlength := @length_newest _ Capacity values
    obtain ⟨oldest, rest, hnewest⟩ : ∃ x rest, newest Capacity values = x :: rest :=
      List.exists_cons_of_length_pos (by omega)
    have hholds := h.holds
    rw [hnewest, hfirst, ← h.length, holds_mod] at hholds
    rw [hnewest, List.length_cons] at hlength
    have hover := holds_mod.mpr (hholds.overwrite (by rw [h.length]; omega) value)
    rw [List.length_set] at hover
    rw [newest_concat hfull hpos, hnewest, List.tail_cons]
    simp only [pushBack, if_pos hi]
    rwa [hstart, UInt64.toNat_mod, h.pushes, ← h.length]

theorem Filled.pushBack (h : Filled Capacity b values) (hpos : 0 < Capacity.toNat)
    (hn : values.length + 1 < 2 ^ 64) (value : T) :
    Filled Capacity (b.pushBack Capacity value).2 (values ++ [value]) := by
  rcases lt_or_ge values.length Capacity.toNat with hroom | hfull
  · exact h.pushBack_room hroom hn value
  · exact h.pushBack_full hpos hfull hn value

theorem Filled.pushAll (h : Filled Capacity b values) (hpos : 0 < Capacity.toNat) (more : List T)
    (hn : (values ++ more).length < 2 ^ 64) :
    Filled Capacity (more.foldl (fun b value => (b.pushBack Capacity value).2) b)
      (values ++ more) := by
  induction more generalizing b values with
  | nil => simpa using h
  | cons value more ih =>
    rw [List.append_cons] at hn ⊢
    refine ih (h.pushBack hpos ?_ value) hn
    simp only [List.length_append, List.length_cons, List.length_nil] at hn
    omega

/-- The constructor leaves room for the sum of two indices. -/
theorem pushed_filled [Inhabited T] {width : ℕ+} (hpos : 0 < Capacity)
    (hn : values.length < 2 ^ 64) (h : pushed Capacity width values = .ok b) :
    Capacity.toNat < 2 ^ 63 ∧ Filled Capacity b values := by
  obtain ⟨b₀, hnew, rfl⟩ := TransitionRuns.map_eq_ok h
  obtain ⟨hbound, hfilled⟩ := filled_new hnew
  exact ⟨hbound, hfilled.pushAll (UInt64.lt_iff_toNat_lt.mp hpos) values hn⟩

theorem Filled.get (h : Filled Capacity b values) (hpos : 0 < Capacity.toNat)
    (hbound : Capacity.toNat < 2 ^ 63) {k : UInt64} {x : T}
    (hx : (newest Capacity values)[k.toNat]? = some x) : b.get Capacity k = .ok x := by
  obtain ⟨hk, -⟩ := List.getElem?_eq_some_iff.mp hx
  have hholds := h.holds k.toNat hk
  rw [length_newest] at hk
  have hlt : k < b.sz := by
    rw [UInt64.lt_iff_toNat_lt, h.count]
    exact hk
  have hstart := h.start_lt hpos
  have hsum : (b.first + k).toNat = b.first.toNat + k.toNat := by
    rw [UInt64.toNat_add]
    exact Nat.mod_eq_of_lt (by omega)
  rw [h.length, hx] at hholds
  rw [CircularBuffer.get, if_pos hlt, UInt64.toNat_mod, hsum, hholds]

theorem Filled.last (h : Filled Capacity b values) (hpos : 0 < Capacity.toNat)
    (hbound : Capacity.toNat < 2 ^ 63) {x : T} (hx : values.getLast? = some x) :
    b.last Capacity = .ok x := by
  rw [← getLast?_newest hpos, List.getLast?_eq_getElem?] at hx
  have hlength := (List.getElem?_eq_some_iff.mp hx).1
  have hlast : (b.sz - 1).toNat = (newest Capacity values).length - 1 := by
    rw [UInt64.toNat_sub_of_le, h.count, length_newest]
    · rfl
    · rw [UInt64.le_iff_toNat_le, h.count, ← length_newest]
      exact Nat.lt_of_le_of_lt (Nat.zero_le _) hlength
  refine h.get hpos hbound ?_
  rwa [hlast]

/-- A buffer of any capacity holds the newest of the values pushed, oldest first. -/
theorem pushed_newest [Inhabited T] (width : ℕ+) (hpos : 0 < Capacity)
    (hn : values.length < 2 ^ 64) (h : pushed Capacity width values = .ok b) :
    b.size.toNat = min values.length Capacity.toNat ∧
      (∀ k < b.size, ∃ x, (newest Capacity values)[k.toNat]? = some x ∧ b.get Capacity k = .ok x) ∧
      ∀ x, values.getLast? = some x → b.last Capacity = .ok x := by
  obtain ⟨hbound, hfilled⟩ := pushed_filled hpos hn h
  have hcapacity : 0 < Capacity.toNat := UInt64.lt_iff_toNat_lt.mp hpos
  refine ⟨hfilled.count, fun k hk => ?_, fun x hx => hfilled.last hcapacity hbound hx⟩
  rw [UInt64.lt_iff_toNat_lt, size, hfilled.count, ← length_newest] at hk
  have hx := List.getElem?_eq_getElem hk
  exact ⟨_, hx, hfilled.get hcapacity hbound hx⟩

/-- Five values in a buffer for three. -/
theorem pushed_newest_five : ∃ b, pushed 3 1 [10, 20, 30, 40, 50] = .ok b ∧ b.size.toNat = 3 ∧
    b.get 3 1 = .ok 40 ∧ b.last 3 = .ok 50 := by
  have hpushed : pushed 3 1 [10, 20, 30, 40, 50] = .ok ⟨[40, 50, 30], 3, 5, 2⟩ := rfl
  obtain ⟨hsize, hget, hlast⟩ := pushed_newest 1 (by decide) (by decide) hpushed
  obtain ⟨x, hx, hat⟩ := hget 1 (by decide)
  obtain rfl : 40 = x := Option.some.inj hx
  exact ⟨_, hpushed, hsize, hat, hlast 50 rfl⟩

end CircularBuffer

namespace NeighborTimers.NeighborRecord
open CircularBuffer

/-- A record after more sightings. -/
def heard (sightings : List (TimePoint × Vec2d)) (r : NeighborRecord) : NeighborRecord :=
  sightings.foldl (fun r sighting => r.saw sighting.1 sighting.2) r

theorem positions_heard {seen : List (TimePoint × Vec2d)} {r : NeighborRecord}
    (hr : r.positions = newest 4 seen) (sightings : List (TimePoint × Vec2d)) :
    (r.heard sightings).positions = newest 4 (seen ++ sightings) := by
  induction sightings generalizing r seen with
  | nil => simpa [heard] using hr
  | cons sighting sightings ih =>
    rw [List.append_cons]
    refine @ih (seen ++ [sighting]) (r.saw sighting.1 sighting.2) ?_
    rw [← newest_newest, ← hr]
    rfl

/-- The last element of the buffer of a neighbour's positions is the position of its record. -/
theorem last_position [Inhabited (TimePoint × Vec2d)] {width : ℕ+} (now : TimePoint)
    (position : Vec2d) {sightings : List (TimePoint × Vec2d)}
    {b : CircularBuffer (TimePoint × Vec2d)} (hn : sightings.length + 1 < 2 ^ 64)
    (h : pushed 4 width ((now, position) :: sightings) = .ok b) :
    (b.last 4).map Prod.snd = .ok ((new now position).heard sightings).position := by
  obtain ⟨s, hs⟩ : ∃ s, ((now, position) :: sightings).getLast? = some s :=
    Option.isSome_iff_exists.mp (by simp)
  obtain ⟨hbound, hfilled⟩ := pushed_filled (by decide) (by simpa using hn) h
  have hpositions : ((new now position).heard sightings).positions =
      newest 4 ((now, position) :: sightings) :=
    @positions_heard [(now, position)] (new now position) rfl sightings
  rw [hfilled.last (by decide) hbound hs, NeighborRecord.position, hpositions,
    List.getLastD_eq_getLast?, getLast?_newest (by decide), hs]
  rfl

end NeighborTimers.NeighborRecord

end YingSma
