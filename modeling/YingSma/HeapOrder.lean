import Mathlib.Data.Nat.Basic
import Mathlib.Order.Basic
import Mathlib.Tactic.Common

/-! Binary heaps in an array that starts at zero. While an element is on its way up or down, the
heap has a hole at it, where the order is broken on one side only. -/
namespace YingSma.HeapOrder

variable {α : Type*} {r : α → α → Prop} {v : Array α} {i p c : ℕ}

/-- The place `c` is one of the two below `p`. -/
def Child (p c : ℕ) : Prop := c = 2 * p + 1 ∨ c = 2 * p + 2

theorem Child.lt (h : Child p c) : p < c := by
  unfold Child at h
  omega

theorem Child.unique {p' : ℕ} (h : Child p c) (h' : Child p' c) : p = p' := by
  unfold Child at h h'
  omega

theorem not_child_zero (p : ℕ) : ¬ Child p 0 := by
  unfold Child
  omega

/-- Every place but the first is below another. -/
theorem exists_parent (hc : 0 < c) : ∃ p, Child p c := by
  refine ⟨(c - 1) / 2, ?_⟩
  unfold Child
  omega

variable (r v)

/-- Every element is in order with those below it. -/
def Ordered : Prop :=
  ∀ p c (hp : p < v.size) (hc : c < v.size), Child p c → r v[p] v[c]

/-- What is below the place `i` is in order with what is above it. -/
def Bridged (i : ℕ) : Prop :=
  ∀ p c (hp : p < v.size) (hc : c < v.size), Child p i → Child i c → r v[p] v[c]

/-- Only the element at `i` and the one above it may be out of order. -/
structure UpOrdered (i : ℕ) : Prop where
  rest : ∀ p c (hp : p < v.size) (hc : c < v.size), Child p c → c ≠ i → r v[p] v[c]
  bridged : Bridged r v i

/-- Only the element at `i` and those below it may be out of order. -/
structure DownOrdered (i : ℕ) : Prop where
  rest : ∀ p c (hp : p < v.size) (hc : c < v.size), Child p c → p ≠ i → r v[p] v[c]
  bridged : Bridged r v i

variable {r v}

theorem UpOrdered.finish (h : UpOrdered r v i)
    (hstop : ∀ p (hp : p < v.size) (hi : i < v.size), Child p i → r v[p] v[i]) : Ordered r v := by
  intro p c hp hc hchild
  by_cases hci : c = i
  · subst hci
    exact hstop p hp hc hchild
  · exact h.rest p c hp hc hchild hci

theorem DownOrdered.finish (h : DownOrdered r v i)
    (hstop : ∀ c (hi : i < v.size) (hc : c < v.size), Child i c → r v[i] v[c]) : Ordered r v := by
  intro p c hp hc hchild
  by_cases hpi : p = i
  · subst hpi
    exact hstop c hp hc hchild
  · exact h.rest p c hp hc hchild hpi

/-- The element at the hole changes places with the one above it. -/
theorem UpOrdered.move (htrans : ∀ a b c, r a b → r b c → r a c) (h : UpOrdered r v i)
    (hi : i < v.size) (hp : p < v.size) (hchild : Child p i) (hr : r v[i] v[p]) :
    UpOrdered r (v.swap i p) p := by
  have hpi := hchild.lt
  constructor
  · intro a d ha' hd' had hdp
    have ha : a < v.size := by simpa using ha'
    have hd : d < v.size := by simpa using hd'
    simp only [Array.getElem_swap]
    by_cases hdi : d = i
    · subst hdi
      obtain rfl := had.unique hchild
      simpa [hpi.ne, hpi.ne'] using hr
    · by_cases hai : a = i
      · subst hai
        simpa [hdi, hdp] using h.bridged p d hp hd hchild had
      · by_cases hap : a = p
        · subst hap
          simpa [hdi, hdp, hai] using htrans _ _ _ hr (h.rest a d ha hd had hdi)
        · simpa [hdi, hdp, hai, hap] using h.rest a d ha hd had hdi
  · intro q d hq' hd' hqp hpd
    have hq : q < v.size := by simpa using hq'
    have hd : d < v.size := by simpa using hd'
    have hlt := hqp.lt
    have habove := h.rest q p hq hp hqp hpi.ne
    simp only [Array.getElem_swap]
    by_cases hdi : d = i
    · simpa [hdi, hlt.ne, (hlt.trans hpi).ne] using habove
    · have hbelow := h.rest p d hp hd hpd hdi
      simpa [hdi, hpd.lt.ne', hlt.ne, (hlt.trans hpi).ne] using htrans _ _ _ habove hbelow

/-- The element at the hole changes places with the best one below it. -/
theorem DownOrdered.move (h : DownOrdered r v i) (hi : i < v.size) (hc : c < v.size)
    (hchild : Child i c) (hr : r v[c] v[i])
    (hbest : ∀ d (hd : d < v.size), Child i d → r v[c] v[d]) : DownOrdered r (v.swap c i) c := by
  have hic := hchild.lt
  constructor
  · intro a d ha' hd' had hac
    have ha : a < v.size := by simpa using ha'
    have hd : d < v.size := by simpa using hd'
    simp only [Array.getElem_swap]
    by_cases hai : a = i
    · subst hai
      by_cases hdc : d = c
      · simpa [hdc, hic.ne] using hr
      · simpa [hdc, hic.ne, had.lt.ne'] using hbest d hd had
    · have hdc : d ≠ c := by
        rintro rfl
        exact hai (had.unique hchild)
      by_cases hdi : d = i
      · subst hdi
        simpa [hdc, hai, hac] using h.bridged a c ha hc had hchild
      · simpa [hdc, hdi, hai, hac] using h.rest a d ha hd had hai
  · intro q d hq hd' hqc hcd
    have hd : d < v.size := by simpa using hd'
    obtain rfl := hqc.unique hchild
    have hbelow := h.rest c d hc hd hcd hic.ne'
    simpa [Array.getElem_swap, hic.ne, hcd.lt.ne', (hic.trans hcd.lt).ne'] using hbelow

/-- The first element is in order with all. -/
theorem Ordered.first (hrefl : ∀ a, r a a) (htrans : ∀ a b c, r a b → r b c → r a c)
    (h : Ordered r v) (hi : i < v.size) : r v[0] v[i] := by
  induction i using Nat.strong_induction_on with
  | _ i ih =>
    rcases Nat.eq_zero_or_pos i with rfl | hpos
    · exact hrefl _
    · obtain ⟨p, hp⟩ := exists_parent hpos
      exact htrans _ _ _ (ih p hp.lt (hp.lt.trans hi)) (h p i (hp.lt.trans hi) hi hp)

/-- A new element at the end. -/
theorem Ordered.push (h : Ordered r v) (x : α) : UpOrdered r (v.push x) v.size := by
  constructor
  · intro p c hp' hc' hchild hne
    rw [Array.size_push] at hc'
    have hc : c < v.size := by omega
    have hp : p < v.size := hchild.lt.trans hc
    rw [Array.getElem_push_lt hp, Array.getElem_push_lt hc]
    exact h p c hp hc hchild
  · intro p c _ hc' _ hchild
    rw [Array.size_push] at hc'
    exact absurd hchild.lt (by omega)

/-- The last element in the place of the first. -/
theorem Ordered.pop (h : Ordered r v) (hsize : 0 < v.size) :
    DownOrdered r (v.swap (v.size - 1) 0).pop 0 := by
  constructor
  · intro p c hp' hc' hchild hne
    rw [Array.size_pop, Array.size_swap] at hp' hc'
    have hlt := hchild.lt
    rw [Array.getElem_pop, Array.getElem_pop, Array.getElem_swap_of_ne, Array.getElem_swap_of_ne]
    · exact h p c (by omega) (by omega) hchild
    all_goals omega
  · intro p c _ _ hchild
    exact absurd hchild (not_child_zero p)

end YingSma.HeapOrder
