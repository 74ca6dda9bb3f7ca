import Mathlib.Data.List.Basic
import Mathlib.Tactic

/-! Iterated hashing: a compression function absorbs a message block by block, a padding
completes the last block. Feeding a message in pieces is the same as feeding it at once, and a
collision of two messages is one of two calls of the compression function. -/
namespace YingSma.MerkleDamgard

variable {σ α : Type*}

/-- The whole blocks of `n` symbols at the front of a list. -/
def blocks (n : ℕ) (xs : List α) : List (List α) :=
  (List.range (xs.length / n)).map fun k => (xs.drop (n * k)).take n

/-- What is left behind the whole blocks. -/
def rest (n : ℕ) (xs : List α) : List α := xs.drop (n * (xs.length / n))

/-- The chaining value after the whole blocks. -/
def absorb (compress : σ → List α → σ) (n : ℕ) (s : σ) (xs : List α) : σ :=
  (blocks n xs).foldl compress s

/-- The arguments of the calls that fold some blocks, in order. -/
def calls (compress : σ → List α → σ) : σ → List (List α) → List (σ × List α)
  | _, [] => []
  | s, b :: bs => (s, b) :: calls compress (compress s b) bs

/-- Two different calls of `compress`, one of each list, have one result. -/
def Collide (compress : σ → List α → σ) (cs cs' : List (σ × List α)) : Prop :=
  ∃ c ∈ cs, ∃ c' ∈ cs', c ≠ c' ∧ compress c.1 c.2 = compress c'.1 c'.2

variable {compress : σ → List α → σ} {n : ℕ} {s s' : σ} {xs ys b : List α}

@[simp] theorem length_blocks (n : ℕ) (xs : List α) : (blocks n xs).length = xs.length / n := by
  simp [blocks]

theorem length_rest (n : ℕ) (xs : List α) : (rest n xs).length = xs.length % n := by
  rw [rest, List.length_drop, Nat.mod_eq_sub]

theorem rest_of_dvd (h : n ∣ xs.length) : rest n xs = [] := by
  rw [← List.length_eq_zero_iff, length_rest]
  exact Nat.mod_eq_zero_of_dvd h

theorem length_of_mem_blocks (h : b ∈ blocks n xs) : b.length = n := by
  simp only [blocks, List.mem_map, List.mem_range] at h
  obtain ⟨k, hk, rfl⟩ := h
  have hle : n * (k + 1) ≤ xs.length := (Nat.mul_le_mul_left n hk).trans (Nat.mul_div_le _ _)
  rw [Nat.mul_add, Nat.mul_one] at hle
  rw [List.length_take, List.length_drop]
  omega

theorem blocks_of_lt (h : xs.length < n) : blocks n xs = [] := by
  simp [blocks, Nat.div_eq_of_lt h]

theorem rest_of_lt (h : xs.length < n) : rest n xs = xs := by
  simp [rest, Nat.div_eq_of_lt h]

theorem length_append_div (hn : 0 < n) (hb : b.length = n) (xs : List α) :
    (b ++ xs).length / n = xs.length / n + 1 := by
  rw [List.length_append, hb, Nat.add_div_left _ hn]

/-- The first block is the first of the blocks. -/
theorem blocks_append (hn : 0 < n) (hb : b.length = n) (xs : List α) :
    blocks n (b ++ xs) = b :: blocks n xs := by
  rw [blocks, length_append_div hn hb, List.range_succ_eq_map, List.map_cons, List.map_map]
  congr 1
  · simp [← hb]
  · apply List.map_congr_left
    intro k _
    have hdrop : (b ++ xs).drop (n * (k + 1)) = xs.drop (n * k) := by
      rw [Nat.mul_add, Nat.mul_one, Nat.add_comm, ← List.drop_drop, ← hb, List.drop_left]
    simp [hdrop]

theorem blocks_block (hn : 0 < n) (hb : b.length = n) : blocks n b = [b] := by
  have happend : blocks n (b ++ []) = b :: blocks n [] := blocks_append hn hb []
  have hnil : ([] : List α).length < n := hn
  rwa [List.append_nil, blocks_of_lt hnil] at happend

theorem rest_append (hn : 0 < n) (hb : b.length = n) (xs : List α) :
    rest n (b ++ xs) = rest n xs := by
  rw [rest, length_append_div hn hb, Nat.mul_add, Nat.mul_one, Nat.add_comm, ← List.drop_drop,
    ← hb, List.drop_left, rest]

/-- Blocks are peeled off the front until less than one is left. -/
theorem block_induction {P : List α → Prop} (hn : 0 < n) (short : ∀ xs, xs.length < n → P xs)
    (block : ∀ b xs, b.length = n → P xs → P (b ++ xs)) (xs : List α) : P xs := by
  induction hlen : xs.length using Nat.strong_induction_on generalizing xs with
  | _ len ih =>
    by_cases hlt : xs.length < n
    · exact short xs hlt
    · have htake : (xs.take n).length = n := by
        rw [List.length_take]
        omega
      have hdrop : (xs.drop n).length = xs.length - n := List.length_drop
      rw [← List.take_append_drop n xs]
      exact block _ _ htake (ih _ (by omega) _ rfl)

/-- Behind whole blocks the cutting starts anew. -/
theorem blocks_append_of_dvd (hn : 0 < n) (h : n ∣ xs.length) (ys : List α) :
    blocks n (xs ++ ys) = blocks n xs ++ blocks n ys := by
  induction xs using block_induction hn with
  | short xs hlt =>
    obtain rfl := List.length_eq_zero_iff.mp (Nat.eq_zero_of_dvd_of_lt h hlt)
    rw [blocks_of_lt hlt, List.nil_append, List.nil_append]
  | block b xs hb ih =>
    rw [List.length_append, hb] at h
    rw [List.append_assoc, blocks_append hn hb, blocks_append hn hb,
      ih ((Nat.dvd_add_right (dvd_refl n)).mp h), List.cons_append]

/-- A list is its whole blocks and the rest. -/
theorem flatten_blocks_append_rest (hn : 0 < n) (xs : List α) :
    (blocks n xs).flatten ++ rest n xs = xs := by
  induction xs using block_induction hn with
  | short xs h => simp [blocks_of_lt h, rest_of_lt h]
  | block b xs hb ih => simp [blocks_append hn hb, rest_append hn hb, ih]

@[simp] theorem absorb_of_lt (h : xs.length < n) : absorb compress n s xs = s := by
  rw [absorb, blocks_of_lt h, List.foldl_nil]

theorem absorb_append (hn : 0 < n) (hb : b.length = n) (xs : List α) :
    absorb compress n s (b ++ xs) = absorb compress n (compress s b) xs := by
  rw [absorb, blocks_append hn hb, List.foldl_cons, absorb]

theorem absorb_block (hn : 0 < n) (hb : b.length = n) :
    absorb compress n s b = compress s b := by
  have happend : absorb compress n s (b ++ []) = absorb compress n (compress s b) [] :=
    absorb_append hn hb []
  have hnil : ([] : List α).length < n := hn
  rwa [List.append_nil, absorb_of_lt hnil] at happend

/-- A list absorbed in two parts: the second part follows what the first left over. -/
theorem absorb_rest (hn : 0 < n) (xs ys : List α) :
    absorb compress n (absorb compress n s xs) (rest n xs ++ ys) =
      absorb compress n s (xs ++ ys) := by
  induction xs using block_induction hn generalizing s with
  | short xs h => rw [absorb_of_lt h, rest_of_lt h]
  | block b xs hb ih =>
    rw [absorb_append hn hb, rest_append hn hb, ih, List.append_assoc, absorb_append hn hb]

theorem absorb_append_of_dvd (hn : 0 < n) (h : n ∣ xs.length) :
    absorb compress n s (xs ++ ys) = absorb compress n (absorb compress n s xs) ys := by
  rw [← absorb_rest hn, rest_of_dvd h, List.nil_append]

section Collisions

theorem Collide.cons {cs cs' : List (σ × List α)} (h : Collide compress cs cs')
    (c c' : σ × List α) : Collide compress (c :: cs) (c' :: cs') := by
  obtain ⟨d, hd, d', hd', hne, heq⟩ := h
  exact ⟨d, List.mem_cons_of_mem _ hd, d', List.mem_cons_of_mem _ hd', hne, heq⟩

/-- Two sequences of equally many blocks with one result are the same sequence from the same
start, or two of their calls collide. -/
theorem foldl_eq_or_collide {bs bs' : List (List α)} (hlength : bs.length = bs'.length)
    (h : bs.foldl compress s = bs'.foldl compress s') :
    (s = s' ∧ bs = bs') ∨ Collide compress (calls compress s bs) (calls compress s' bs') := by
  induction bs generalizing s s' bs' with
  | nil =>
    have hnil : bs' = [] := List.length_eq_zero_iff.mp hlength.symm
    subst hnil
    exact .inl ⟨h, rfl⟩
  | cons b bs ih =>
    cases bs' with
    | nil => simp at hlength
    | cons b' bs' =>
      rcases ih (Nat.succ_injective hlength) h with ⟨hs, hbs⟩ | hcollide
      · by_cases hne : (s, b) = (s', b')
        · simp only [Prod.mk.injEq] at hne
          exact .inl ⟨hne.1, by rw [hne.2, hbs]⟩
        · exact .inr ⟨(s, b), by simp [calls], (s', b'), by simp [calls], hne, hs⟩
      · exact .inr (hcollide.cons _ _)

theorem calls_append (bs bs' : List (List α)) :
    calls compress s (bs ++ bs') =
      calls compress s bs ++ calls compress (bs.foldl compress s) bs' := by
  induction bs generalizing s with
  | nil => rfl
  | cons b bs ih => simp [calls, ih]

/-- Last blocks that differ have different results, or their calls collide. -/
theorem last_eq_or_collide {bs bs' : List (List α)} {b b' : List α}
    (h : (bs ++ [b]).foldl compress s = (bs' ++ [b']).foldl compress s') :
    b = b' ∨ Collide compress (calls compress s (bs ++ [b])) (calls compress s' (bs' ++ [b'])) := by
  by_cases hb : b = b'
  · exact .inl hb
  · right
    refine ⟨(bs.foldl compress s, b), by simp [calls_append, calls],
      (bs'.foldl compress s', b'), by simp [calls_append, calls], by simp [hb], ?_⟩
    simpa using h

end Collisions

/-- A padding: what follows a message of each length, up to the end of a block. -/
structure Padding (α : Type*) (n : ℕ) where
  pad : ℕ → List α
  dvd : ∀ len, n ∣ len + (pad len).length
  /-- What the last block says about the length of the message. -/
  lengthOf : List α → ℕ
  /-- The numbers of symbols that the last block tells apart. -/
  modulus : ℕ
  lengthOf_last : ∀ xs front last : List α, last.length = n →
    front ++ last = xs ++ pad xs.length → lengthOf last = xs.length % modulus
  nonempty : ∀ len, pad len ≠ []

namespace Padding

variable (p : Padding α n)

/-- The blocks of a message with its padding. -/
def padded (xs : List α) : List (List α) := blocks n (xs ++ p.pad xs.length)

/-- The hash of a message, from the chaining value at the start. -/
def hash (compress : σ → List α → σ) (iv : σ) (xs : List α) : σ :=
  (p.padded xs).foldl compress iv

theorem hash_eq_absorb (iv : σ) (xs : List α) :
    p.hash compress iv xs = absorb compress n iv (xs ++ p.pad xs.length) := rfl

theorem flatten_padded (hn : 0 < n) (xs : List α) :
    (p.padded xs).flatten = xs ++ p.pad xs.length := by
  have hdvd : n ∣ (xs ++ p.pad xs.length).length := by
    rw [List.length_append]
    exact p.dvd _
  have h := flatten_blocks_append_rest hn (xs ++ p.pad xs.length)
  rwa [rest_of_dvd hdvd, List.append_nil] at h

theorem padded_ne_nil (hn : 0 < n) (xs : List α) : p.padded xs ≠ [] := by
  intro h
  have hflat := p.flatten_padded hn xs
  rw [h, List.flatten_nil] at hflat
  exact p.nonempty _ (List.append_eq_nil_iff.mp hflat.symm).2

/-- Padded messages of one length have equally many blocks. -/
theorem length_padded {xs ys : List α} (h : xs.length = ys.length) :
    (p.padded xs).length = (p.padded ys).length := by
  simp [padded, h]

/-- Only equal messages of one length have equal blocks. -/
theorem padded_inj (hn : 0 < n) {xs ys : List α} (hlength : xs.length = ys.length)
    (h : p.padded xs = p.padded ys) : xs = ys := by
  have hflat := congrArg List.flatten h
  rw [p.flatten_padded hn, p.flatten_padded hn] at hflat
  exact List.append_inj_left hflat hlength

theorem lengthOf_eq (hn : 0 < n) {xs b : List α} {bs : List (List α)}
    (h : p.padded xs = bs ++ [b]) : p.lengthOf b = xs.length % p.modulus := by
  have hb : b ∈ p.padded xs := by simp [h]
  have hflat := p.flatten_padded hn xs
  rw [h, List.flatten_append, List.flatten_singleton] at hflat
  exact p.lengthOf_last xs bs.flatten b (length_of_mem_blocks hb) hflat

/-- Two messages with one hash: calls of the compression function collide, or the lengths
differ by a multiple of what the last block can tell. -/
theorem collide_of_hash_eq (hn : 0 < n) {iv : σ} {xs ys : List α} (hne : xs ≠ ys)
    (h : p.hash compress iv xs = p.hash compress iv ys) :
    Collide compress (calls compress iv (p.padded xs)) (calls compress iv (p.padded ys)) ∨
      xs.length ≠ ys.length ∧ xs.length ≡ ys.length [MOD p.modulus] := by
  by_cases hlength : xs.length = ys.length
  · left
    rcases foldl_eq_or_collide (p.length_padded hlength) h with ⟨-, heq⟩ | hcollide
    · exact absurd (p.padded_inj hn hlength heq) hne
    · exact hcollide
  · obtain ⟨bs, b, hxs⟩ := (List.eq_nil_or_concat' _).resolve_left (p.padded_ne_nil hn xs)
    obtain ⟨bs', b', hys⟩ := (List.eq_nil_or_concat' _).resolve_left (p.padded_ne_nil hn ys)
    rw [hash, hash, hxs, hys] at h
    rw [hxs, hys]
    rcases last_eq_or_collide h with hb | hcollide
    · right
      refine ⟨hlength, ?_⟩
      rw [Nat.ModEq, ← p.lengthOf_eq hn hxs, ← p.lengthOf_eq hn hys, hb]
    · exact .inl hcollide

end Padding

end YingSma.MerkleDamgard
