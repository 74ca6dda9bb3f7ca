import Mathlib.Data.List.Lex
import Mathlib.Data.Set.Pairwise.Basic
import YingSma.Messages

/-! The orders of `Hash` and `BlockRef`. Hashes are in the lexicographic order of their bytes; one
ref is less than another only if both its hash and its index are. -/
namespace YingSma

/-- The loop of `Hash::compare` from some byte on. -/
def compareBytes : List UInt8 → List UInt8 → ℤ
  | x :: xs, y :: ys => if x > y then 1 else if x < y then -1 else compareBytes xs ys
  | _, _ => 0

namespace Hash

def compare (h r : Hash) : ℤ := compareBytes h.data r.data

/-- `operator==` -/
def eq (h r : Hash) : Bool := compare h r = 0

/-- `operator<` -/
def lt (h r : Hash) : Bool := compare h r < 0

/-- The bytes as numbers. -/
def numbers (h : Hash) : List ℕ := h.data.map UInt8.toNat

end Hash

namespace BlockRef

/-- `operator==` -/
def eq (lhs rhs : BlockRef) : Bool := lhs.hash.eq rhs.hash && lhs.index = rhs.index

/-- `std::less<BlockRef>` -/
def less (lhs rhs : BlockRef) : Bool := lhs.hash.lt rhs.hash && lhs.index < rhs.index

/-- Just one of the three statements holds. -/
def ExactlyOne (p q r : Prop) : Prop := (p ∧ ¬ q ∧ ¬ r) ∨ (¬ p ∧ q ∧ ¬ r) ∨ (¬ p ∧ ¬ q ∧ r)

/-- `std::less` is a strict total order of the refs, with `operator==` for equality. -/
structure StrictlyOrdered (refs : Set BlockRef) : Prop where
  irrefl : ∀ a ∈ refs, ¬ less a a
  trans : ∀ a ∈ refs, ∀ b ∈ refs, ∀ c ∈ refs, less a b → less b c → less a c
  one : ∀ a ∈ refs, ∀ b ∈ refs, ExactlyOne (less a b) (eq a b) (less b a)

/-- Two refs differ in both parts, and in the same direction. -/
def Apart (a b : BlockRef) : Prop :=
  a.hash.numbers ≠ b.hash.numbers ∧ a.index ≠ b.index ∧
    (a.hash.numbers < b.hash.numbers ↔ a.index < b.index)

end BlockRef

section Bytes

variable {xs ys : List UInt8}

/-- The first byte in which two lists differ decides, and there is none only if they are equal. -/
theorem compareBytes_spec (hlength : xs.length = ys.length) :
    (compareBytes xs ys < 0 ↔ xs.map UInt8.toNat < ys.map UInt8.toNat) ∧
      (compareBytes xs ys = 0 ↔ xs = ys) := by
  induction xs generalizing ys with
  | nil =>
    obtain rfl := List.length_eq_zero_iff.mp hlength.symm
    simp [compareBytes]
  | cons x xs ih =>
    cases ys with
    | nil => cases hlength
    | cons y ys =>
      obtain ⟨hneg, hzero⟩ := ih (Nat.succ.inj hlength)
      rw [compareBytes, List.map_cons, List.map_cons, List.cons_lt_cons_iff, List.cons.injEq,
        ← hneg, ← hzero, ← UInt8.toNat_inj]
      rcases lt_trichotomy x.toNat y.toNat with hlt | heq | hgt
      · simp [UInt8.lt_iff_toNat_lt, hlt, hlt.not_gt, hlt.ne]
      · simp [UInt8.lt_iff_toNat_lt, heq]
      · simp [UInt8.lt_iff_toNat_lt, hgt, hgt.not_gt, hgt.ne']

end Bytes

namespace Hash

variable {h r : Hash}

theorem length_eq (h r : Hash) : h.data.length = r.data.length :=
  h.length_data.trans r.length_data.symm

@[simp] theorem lt_iff : h.lt r ↔ h.numbers < r.numbers := by
  rw [lt, decide_eq_true_eq, compare, (compareBytes_spec (length_eq h r)).1]
  rfl

@[simp] theorem eq_iff : h.eq r ↔ h = r := by
  rw [eq, decide_eq_true_eq, compare, (compareBytes_spec (length_eq h r)).2, Hash.mk.injEq]

end Hash

namespace BlockRef

variable {a b c : BlockRef}

@[simp] theorem less_iff :
    less a b ↔ a.hash.numbers < b.hash.numbers ∧ a.index.toNat < b.index.toNat := by
  simp [less, UInt16.lt_iff_toNat_lt]

theorem apart_iff :
    Apart a b ↔ a.hash.numbers ≠ b.hash.numbers ∧ a.index.toNat ≠ b.index.toNat ∧
      (a.hash.numbers < b.hash.numbers ↔ a.index.toNat < b.index.toNat) := by
  rw [Apart, Ne, Ne, Ne, UInt16.lt_iff_toNat_lt, UInt16.toNat_inj]

@[simp] theorem eq_iff : eq a b ↔ a = b := by
  simp [eq, BlockRef.ext_iff]

theorem less_irrefl (a : BlockRef) : ¬ less a a := by
  simp

theorem less_trans (hab : less a b) (hbc : less b c) : less a c := by
  rw [less_iff] at hab hbc ⊢
  exact ⟨hab.1.trans hbc.1, hab.2.trans hbc.2⟩

theorem less_asymm (hab : less a b) : ¬ less b a :=
  fun hba => less_irrefl a (less_trans hab hba)

theorem apart_of_less (hab : less a b) : Apart a b := by
  rw [less_iff] at hab
  exact apart_iff.mpr ⟨hab.1.ne, hab.2.ne, iff_of_true hab.1 hab.2⟩

theorem Apart.symm (h : Apart a b) : Apart b a := by
  obtain ⟨hnumbers, hindex, hsame⟩ := apart_iff.mp h
  have hsame := not_congr hsame
  rw [not_lt_iff_eq_or_lt, not_lt_iff_eq_or_lt, or_iff_right hnumbers, or_iff_right hindex] at hsame
  exact apart_iff.mpr ⟨hnumbers.symm, hindex.symm, hsame⟩

/-- Refs that are apart are in order one way or the other. -/
theorem Apart.less_or_less (h : Apart a b) : less a b ∨ less b a := by
  have hsymm := apart_iff.mp h.symm
  rw [apart_iff] at h
  rw [less_iff, less_iff]
  rcases lt_or_gt_of_ne h.2.1 with hlt | hgt
  · exact Or.inl ⟨h.2.2.mpr hlt, hlt⟩
  · exact Or.inr ⟨hsymm.2.2.mpr hgt, hgt⟩

theorem exactlyOne_iff : ExactlyOne (less a b) (eq a b) (less b a) ↔ (a ≠ b → Apart a b) := by
  rw [ExactlyOne, eq_iff]
  constructor
  · rintro (⟨hless, -⟩ | ⟨-, heq, -⟩ | ⟨-, -, hless⟩) hne
    · exact apart_of_less hless
    · exact absurd heq hne
    · exact (apart_of_less hless).symm
  · intro happart
    by_cases heq : a = b
    · subst heq
      simp
    · rcases (happart heq).less_or_less with hless | hless
      · exact Or.inl ⟨hless, heq, less_asymm hless⟩
      · exact Or.inr (Or.inr ⟨less_asymm hless, heq, hless⟩)

/-- The refs of a set are in strict total order exactly if no two of them share a part or are in
opposite orders in the two parts. -/
theorem strictlyOrdered_iff (refs : Set BlockRef) : StrictlyOrdered refs ↔ refs.Pairwise Apart := by
  constructor
  · intro h a ha b hb
    exact exactlyOne_iff.mp (h.one a ha b hb)
  · intro h
    exact
      { irrefl := fun a _ => less_irrefl a
        trans := fun a _ b _ c _ => less_trans
        one := fun a ha b hb => exactlyOne_iff.mpr (h ha hb) }

/-- Two blocks of one content are neither equal nor in order. -/
theorem not_strictlyOrdered_univ : ¬ StrictlyOrdered Set.univ := by
  intro h
  have hone := h.one ⟨default, 0⟩ (Set.mem_univ _) ⟨default, 1⟩ (Set.mem_univ _)
  revert hone
  simp [ExactlyOne]

end BlockRef

end YingSma
