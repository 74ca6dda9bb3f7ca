import Mathlib.Tactic

/-! Bytes at addresses, with writes and reads of whole stretches. -/
namespace YingSma

abbrev ByteMemory := ℕ → UInt8

namespace ByteMemory

/-- `memcpy` of `bytes` to `offset`. -/
def write (m : ByteMemory) (offset : ℕ) (bytes : List UInt8) : ByteMemory := fun i =>
  if offset ≤ i then bytes[i - offset]?.getD (m i) else m i

/-- The `n` bytes from `offset` on. -/
def read (m : ByteMemory) (offset n : ℕ) : List UInt8 := (List.range n).map fun k => m (offset + k)

@[simp] theorem length_read (m : ByteMemory) (offset n : ℕ) : (m.read offset n).length = n := by
  simp [read]

/-- What was written is read back. -/
theorem read_write (m : ByteMemory) (offset : ℕ) (bytes : List UInt8) :
    (m.write offset bytes).read offset bytes.length = bytes := by
  apply List.ext_getElem (length_read _ _ _)
  intro k _ hk
  simp [read, write, hk]

/-- A write leaves the bytes in front of it alone. -/
theorem read_write_of_le (m : ByteMemory) {offset n offset' : ℕ} (h : offset + n ≤ offset')
    (bytes : List UInt8) : (m.write offset' bytes).read offset n = m.read offset n := by
  apply List.map_congr_left
  intro k hk
  have hlt := List.mem_range.mp hk
  rw [write, if_neg (by omega)]

theorem read_add (m : ByteMemory) (offset n k : ℕ) :
    m.read offset (n + k) = m.read offset n ++ m.read (offset + n) k := by
  simp [read, List.range_add, Function.comp_def, Nat.add_assoc]

end ByteMemory

end YingSma
