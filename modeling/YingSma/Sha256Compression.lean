import Mathlib.Data.List.GetD
import YingSma.Sha256Standard

/-! `processBlock` is the compression function of the standard: its eight-line rounds are the
same round with the variables renamed, and its words are the message schedule, whatever the
byte order of the machine. -/
namespace YingSma.SHA256

open Sha256Standard (ch maj bigSigma0 bigSigma1 smallSigma0 smallSigma1 blockWord schedule
  roundConstant rounds compress initialHash)

variable {block : List UInt8} {words : List Word} {n : ℕ}

theorem rotate_eq {c : ℕ} (h : c < 32) (a : Word) : rotate a c = a.rotateRight c := by
  rw [rotate, BitVec.rotateRight_def, Nat.mod_eq_of_lt h]

theorem f1_eq (e f g : Word) : f1 e f g = bigSigma1 e + ch e f g := by
  simp [f1, bigSigma1, ch, rotate_eq]

/-- Two of three bits are set when one of the first two is and the third, or the first two. -/
theorem maj_eq (a b c : Word) : (a ||| b) &&& c ||| a &&& b = maj a b c := by
  ext i hi
  simp only [maj, BitVec.getElem_or, BitVec.getElem_and, BitVec.getElem_xor]
  cases a[i] <;> cases b[i] <;> simp

theorem f2_eq (a b c : Word) : f2 a b c = bigSigma0 a + maj a b c := by
  simp [f2, bigSigma0, maj_eq, rotate_eq]

/-- A line changes two variables, and the round of the standard shifts the others. -/
theorem round_eq_mix (k w a b c d e f g h : Word) :
    Sha256Standard.round k w ⟨a, b, c, d, e, f, g, h⟩ =
      ⟨(mix a b c d e f g h k w).2, a, b, c, (mix a b c d e f g h k w).1, e, f, g⟩ := by
  simp [Sha256Standard.round, mix, f1_eq, f2_eq, BitVec.add_assoc]

/-- Eight lines are eight rounds, after which every variable has its name back. -/
theorem round_eq (words : List Word) (i : ℕ) (r : Registers) :
    round words i r =
      (List.range' i 8).foldl
        (fun r t => Sha256Standard.round (constants.getD t 0) (words.getD t 0) r) r := by
  obtain ⟨a, b, c, d, e, f, g, h⟩ := r
  simp only [List.range'_succ, List.foldl_cons, round_eq_mix]
  rfl

theorem primes_eq :
    Sha256Standard.primes =
      [2, 3, 5, 7, 11, 13, 17, 19, 23, 29, 31, 37, 41, 43, 47, 53, 59, 61, 67, 71, 73, 79, 83, 89,
      97, 101, 103, 107, 109, 113, 127, 131, 137, 139, 149, 151, 157, 163, 167, 173, 179, 181,
      191, 193, 197, 199, 211, 223, 227, 229, 233, 239, 241, 251, 257, 263, 269, 271, 277, 281,
      283, 293, 307, 311] := by
  decide +kernel

theorem constants_eq : ∀ t < 64, constants.getD t 0 = roundConstant t := by
  simp only [roundConstant, primes_eq]
  decide +kernel

theorem reset_hash (buffer : List UInt8) : (reset buffer).hash = initialHash := by
  simp only [reset, initialHash, primes_eq]
  decide +kernel

theorem getLsbD_append_bytes (x y z w : BitVec 8) (i : ℕ) :
    BitVec.getLsbD (x ++ y ++ z ++ w : Word) i =
      if i < 8 then w.getLsbD i else if i < 16 then z.getLsbD (i - 8)
      else if i < 24 then y.getLsbD (i - 16) else x.getLsbD (i - 24) := by
  simp only [BitVec.getLsbD_append]
  grind

theorem or_bytes (x y z w : BitVec 8) :
    (x.setWidth 32 <<< 24 ||| y.setWidth 32 <<< 16 ||| z.setWidth 32 <<< 8 ||| w.setWidth 32 : Word)
      = x ++ y ++ z ++ w := by
  apply BitVec.eq_of_getLsbD_eq
  intro i hi
  rw [getLsbD_append_bytes]
  simp only [BitVec.getLsbD_or, BitVec.getLsbD_shiftLeft, BitVec.getLsbD_setWidth]
  grind

theorem swap_append (x y z w : BitVec 8) : swap (w ++ z ++ y ++ x : Word) = x ++ y ++ z ++ w := by
  apply BitVec.eq_of_getLsbD_eq
  intro i hi
  simp only [swap, BitVec.getLsbD_or, BitVec.getLsbD_and, BitVec.getLsbD_shiftLeft,
    BitVec.getLsbD_ushiftRight, getLsbD_append_bytes]
  interval_cases i <;> simp

theorem or_reverse (p q r s : Word) : p ||| q ||| r ||| s = s ||| r ||| q ||| p := by
  rw [BitVec.or_comm _ s, BitVec.or_comm _ r, BitVec.or_comm p q, ← BitVec.or_assoc,
    ← BitVec.or_assoc]

/-- Swapping a word read with its first byte lowest gives it with its first byte highest. -/
theorem swap_bytes (x y z w : BitVec 8) :
    swap (x.setWidth 32 ||| y.setWidth 32 <<< 8 ||| z.setWidth 32 <<< 16 ||| w.setWidth 32 <<< 24) =
      x ++ y ++ z ++ w := by
  rw [or_reverse, or_bytes, swap_append]

theorem firstWords_getD (order : ByteOrder) {t : ℕ} (ht : t < 16) :
    (firstWords order block).getD t 0 = blockWord block t := by
  cases order with
  | littleEndian => simp [firstWords, ht, input, blockWord, swap_bytes]
  | bigEndian => simp [firstWords, ht, input, blockWord, or_bytes]

/-- The first `n` words of the message schedule. -/
structure Scheduled (block : List UInt8) (n : ℕ) (words : List Word) : Prop where
  length : words.length = n
  word : ∀ t < n, words.getD t 0 = schedule block t

theorem scheduled_firstWords (order : ByteOrder) :
    Scheduled block 16 (firstWords order block) where
  length := by simp [firstWords]
  word := by
    intro t ht
    rw [firstWords_getD order ht, schedule, if_pos ht]

theorem Scheduled.extend (h : Scheduled block n words) (hn : 16 ≤ n) :
    Scheduled block (n + 1) (extend words) where
  length := by simp [SHA256.extend, h.length]
  word := by
    intro t ht
    by_cases hlt : t < n
    · rw [SHA256.extend, List.getD_append _ _ _ _ (by rw [h.length]; exact hlt), h.word t hlt]
    · have hlast : t = n := by omega
      subst hlast
      rw [SHA256.extend, List.getD_append_right _ _ _ _ h.length.le, h.length, Nat.sub_self,
        schedule, if_neg (by omega)]
      simp only [List.getD_cons_zero, h.word _ (show t - 16 < t by omega),
        h.word _ (show t - 15 < t by omega), h.word _ (show t - 7 < t by omega),
        h.word _ (show t - 2 < t by omega), smallSigma0, smallSigma1]
      rw [rotate_eq (by decide), rotate_eq (by decide), rotate_eq (by decide),
        rotate_eq (by decide)]
      ac_rfl

theorem Scheduled.iterate (h : Scheduled block n words) (hn : 16 ≤ n) (k : ℕ) :
    Scheduled block (n + k) (SHA256.extend^[k] words) := by
  induction k with
  | zero => exact h
  | succ k ih =>
    rw [Function.iterate_succ_apply']
    exact ih.extend (by omega)

theorem Scheduled.extendTo (h : Scheduled block n words) (hn : 16 ≤ n) {m : ℕ} (hm : n ≤ m) :
    Scheduled block m (extendTo m words) := by
  have hiterate := h.iterate hn (m - n)
  rwa [Nat.add_sub_cancel' hm, ← h.length] at hiterate

theorem rounds_eq_foldl (r : Registers) (i n : ℕ) :
    (List.range' i n).foldl
        (fun r t => Sha256Standard.round (roundConstant t) (schedule block t) r)
        (rounds block r i) =
      rounds block r (i + n) := by
  induction n with
  | zero => rfl
  | succ n ih => rw [List.range'_concat, List.foldl_append, ih]; simp [rounds]

/-- With the words so far, the next eight lines are the next eight steps. -/
theorem Scheduled.round (h : Scheduled block n words) {i : ℕ} (hi : i + 8 ≤ n) (hn : n ≤ 64)
    (r : Registers) : round words i (rounds block r i) = rounds block r (i + 8) := by
  rw [round_eq, ← rounds_eq_foldl]
  apply List.foldl_ext
  intro r t ht
  have hlt := List.mem_range'_1.mp ht
  rw [constants_eq t (by omega), h.word t (by omega)]

/-- `processBlock` in either byte order is the compression function of the standard. -/
theorem processBlock_eq_compress (order : ByteOrder) (hash : Registers) (block : List UInt8) :
    processBlock order hash block = compress hash block := by
  have w16 : Scheduled block 16 (firstWords order block) := scheduled_firstWords order
  have w24 := w16.extendTo (by decide) (show 16 ≤ 24 by decide)
  have w32 := w24.extendTo (by decide) (show 24 ≤ 32 by decide)
  have w40 := w32.extendTo (by decide) (show 32 ≤ 40 by decide)
  have w48 := w40.extendTo (by decide) (show 40 ≤ 48 by decide)
  have w56 := w48.extendTo (by decide) (show 48 ≤ 56 by decide)
  have w64 := w56.extendTo (by decide) (show 56 ≤ 64 by decide)
  have r8 := w16.round (i := 0) (by decide) (by decide) hash
  have r16 := w16.round (i := 8) (by decide) (by decide) hash
  have r24 := w24.round (i := 16) (by decide) (by decide) hash
  have r32 := w32.round (i := 24) (by decide) (by decide) hash
  have r40 := w40.round (i := 32) (by decide) (by decide) hash
  have r48 := w48.round (i := 40) (by decide) (by decide) hash
  have r56 := w56.round (i := 48) (by decide) (by decide) hash
  have r64 := w64.round (i := 56) (by decide) (by decide) hash
  rw [rounds] at r8
  simp only [processBlock, r8, r16, r24, r32, r40, r48, r56, r64]
  rfl

end YingSma.SHA256
