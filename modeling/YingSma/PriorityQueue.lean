import Mathlib.Order.RelClasses
import YingSma.HeapOrder
import YingSma.Messages
import YingSma.TransitionRuns

/-! `PriorityQueue`: a vector in heap order, the best element first. -/
namespace YingSma
open HeapOrder TransitionRuns

/-- The vector; what `better` is, the operations are told. -/
structure PriorityQueue (T : Type*) where
  v : Array T

namespace PriorityQueue

variable {T : Type*} (better : T → T → Bool)

/-- `p_i`, which is not looked at where it would underflow, at the root. -/
def parent (i : ℕ) : ℕ := (i + 1) / 2 - 1

theorem child_parent {i : ℕ} (hi : 0 < i) : Child (parent i) i := by
  unfold Child parent
  omega

/-- The loop of `push`. -/
def siftUp (v : Array T) (i : ℕ) (hi : i < v.size) : Array T :=
  if h : 0 < i then
    have hp : parent i < i := (child_parent h).lt
    if better v[i] v[parent i] then
      siftUp (v.swap i (parent i)) (parent i) (by rw [Array.size_swap]; exact hp.trans hi)
    else v
  else v
termination_by i

def push (t : T) (q : PriorityQueue T) : PriorityQueue T :=
  ⟨siftUp better (q.v.push t) q.v.size (by simp)⟩

def top (q : PriorityQueue T) : Except Fault T :=
  match q.v[0]? with
  | some t => .ok t
  | none => .error .outOfBounds

/-- The better one of two neighbours, or the left one if it is the last. -/
def pickBest (v : Array T) (left : ℕ) (h : left < v.size) : Fin v.size :=
  if h' : left + 1 < v.size then
    if better v[left + 1] v[left] then ⟨left + 1, h'⟩ else ⟨left, h⟩
  else ⟨left, h⟩

theorem pickBest_eq {v : Array T} {left : ℕ} (h : left < v.size) :
    (pickBest better v left h : ℕ) = left ∨ (pickBest better v left h : ℕ) = left + 1 := by
  unfold pickBest
  split
  · split
    · exact Or.inr rfl
    · exact Or.inl rfl
  · exact Or.inl rfl

theorem child_pickBest {v : Array T} {i : ℕ} (h : (i + 1) * 2 - 1 < v.size) :
    Child i (pickBest better v ((i + 1) * 2 - 1) h) := by
  unfold Child
  have := pickBest_eq better h
  omega

/-- The loop of `pop`. -/
def siftDown (v : Array T) (i : ℕ) : Array T :=
  if h : (i + 1) * 2 - 1 < v.size then
    let best := pickBest better v ((i + 1) * 2 - 1) h
    have hi : i < v.size := by omega
    if better v[best] v[i] then siftDown (v.swap best i) best else v
  else v
termination_by v.size - i
decreasing_by
  have := (child_pickBest better h).lt
  rw [Array.size_swap]
  omega

/-- The best element, and the queue without it. What is left in the place of an element that was
moved out of the vector goes with `pop_back`. -/
def pop (q : PriorityQueue T) : Except Fault (T × PriorityQueue T) :=
  if h : 0 < q.v.size then
    let popped := q.v[0]
    if q.v.size = 1 then .ok (popped, ⟨q.v.pop⟩)
    else .ok (popped, ⟨siftDown better (q.v.swap (q.v.size - 1) 0).pop 0⟩)
  else .error .outOfBounds

inductive Call (T : Type*)
  | push (t : T)
  | pop

def step (q : PriorityQueue T) : Call T → Except Fault (PriorityQueue T)
  | .push t => .ok (q.push better t)
  | .pop => (q.pop better).map Prod.snd

/-- What `n` pops give. -/
def popTimes : ℕ → PriorityQueue T → Except Fault (List T × PriorityQueue T)
  | 0, q => .ok ([], q)
  | n + 1, q =>
      match q.pop better with
      | .error e => .error e
      | .ok (popped, q) => (popTimes n q).map fun (rest, q) => (popped :: rest, q)

/-- No child is better than its parent. -/
def Heap (q : PriorityQueue T) : Prop := Ordered (fun a b => ¬ better b a) q.v

/-- A strict weak order. -/
def StrictWeak : Prop := IsStrictWeakOrder T fun a b => better a b

/-- What the operations do with a queue of this content. -/
structure Correct (q : PriorityQueue T) : Prop where
  heap : Heap better q
  push : ∀ t, (q.push better t).v.toList.Perm (t :: q.v.toList)
  pop : 0 < q.v.size → ∃ x q', q.top = .ok x ∧ q.pop better = .ok (x, q') ∧
    q.v.toList.Perm (x :: q'.v.toList) ∧ ∀ y ∈ q'.v, ¬ better y x
  popAll : ∃ xs q', popTimes better q.v.size q = .ok (xs, q') ∧ q'.v.size = 0 ∧
    xs.Perm q.v.toList ∧ xs.Pairwise fun x y => ¬ better y x

variable {better}

section Order

variable (h : StrictWeak better)
include h

theorem StrictWeak.irrefl (a : T) : ¬ better a a :=
  h.toIsStrictOrder.toIrrefl.irrefl a

theorem StrictWeak.asymm {a b : T} (hab : better a b) : ¬ better b a :=
  fun hba => h.irrefl a (h.toIsStrictOrder.toIsTrans.trans a b a hab hba)

/-- What is not beaten goes through. -/
theorem StrictWeak.trans_not (a b c : T) (hba : ¬ better b a) (hcb : ¬ better c b) :
    ¬ better c a := by
  intro hca
  have htrans := h.toIsStrictOrder.toIsTrans.trans
  have hab : ¬ better a b := fun hab => hcb (htrans c a b hca hab)
  have hbc : ¬ better b c := fun hbc => hba (htrans b c a hbc hca)
  exact (h.incomp_trans a b c ⟨hab, hba⟩ ⟨hbc, hcb⟩).2 hca

end Order

section Sifts

variable {v : Array T} {i : ℕ}

theorem siftUp_ordered (h : StrictWeak better) (hi : i < v.size)
    (hup : UpOrdered (fun a b => ¬ better b a) v i) :
    Ordered (fun a b => ¬ better b a) (siftUp better v i hi) := by
  induction v, i, hi using siftUp.induct better with
  | case1 v i hi hpos hp hbetter ih =>
    rw [siftUp, dif_pos hpos, if_pos hbetter]
    exact ih (hup.move h.trans_not hi (hp.trans hi) (child_parent hpos) (h.asymm hbetter))
  | case2 v i hi hpos hp hbetter =>
    rw [siftUp, dif_pos hpos, if_neg hbetter]
    refine hup.finish fun p _ _ hchild => ?_
    obtain rfl := hchild.unique (child_parent hpos)
    exact hbetter
  | case3 v i hi hzero =>
    rw [siftUp, dif_neg hzero]
    exact hup.finish fun p _ _ hchild => absurd (Nat.zero_lt_of_lt hchild.lt) hzero

theorem siftUp_perm (hi : i < v.size) : (siftUp better v i hi).toList.Perm v.toList := by
  induction v, i, hi using siftUp.induct better with
  | case1 v i hi hpos hp hbetter ih =>
    rw [siftUp, dif_pos hpos, if_pos hbetter]
    exact ih.trans (Array.swap_perm hi (hp.trans hi)).toList
  | case2 v i hi hpos hp hbetter => rw [siftUp, dif_pos hpos, if_neg hbetter]
  | case3 v i hi hzero => rw [siftUp, dif_neg hzero]

/-- The one picked is not beaten by the other. -/
theorem pickBest_best (h : StrictWeak better) (hleft : (i + 1) * 2 - 1 < v.size) {c : ℕ}
    (hc : c < v.size) (hchild : Child i c) :
    ¬ better v[c] v[pickBest better v ((i + 1) * 2 - 1) hleft] := by
  have hc' : c = (i + 1) * 2 - 1 ∨ c = (i + 1) * 2 - 1 + 1 := by
    unfold Child at hchild
    omega
  unfold pickBest
  split
  case isTrue hright =>
    split
    case isTrue hbetter =>
      rcases hc' with rfl | rfl
      · exact h.asymm hbetter
      · exact h.irrefl _
    case isFalse hbetter =>
      rcases hc' with rfl | rfl
      · exact h.irrefl _
      · exact hbetter
  case isFalse hright =>
    rcases hc' with rfl | rfl
    · exact h.irrefl _
    · exact absurd hc hright

theorem siftDown_ordered (h : StrictWeak better)
    (hdown : DownOrdered (fun a b => ¬ better b a) v i) :
    Ordered (fun a b => ¬ better b a) (siftDown better v i) := by
  induction v, i using siftDown.induct better with
  | case1 v i hleft best hi hbetter ih =>
    rw [siftDown, dif_pos hleft]
    show Ordered _ (if better v[best] v[i] then _ else _)
    rw [if_pos hbetter]
    exact ih (hdown.move hi best.isLt (child_pickBest better hleft) (h.asymm hbetter)
      fun d hd hchild => pickBest_best h hleft hd hchild)
  | case2 v i hleft best hi hbetter =>
    rw [siftDown, dif_pos hleft]
    show Ordered _ (if better v[best] v[i] then _ else _)
    rw [if_neg hbetter]
    exact hdown.finish fun c _ hc hchild =>
      h.trans_not _ _ _ hbetter (pickBest_best h hleft hc hchild)
  | case3 v i hleft =>
    rw [siftDown, dif_neg hleft]
    refine hdown.finish fun c _ hc hchild => absurd hc ?_
    unfold Child at hchild
    omega

theorem siftDown_perm : (siftDown better v i).toList.Perm v.toList := by
  induction v, i using siftDown.induct better with
  | case1 v i hleft best hi hbetter ih =>
    rw [siftDown, dif_pos hleft]
    show (if better v[best] v[i] then _ else _ : Array T).toList.Perm _
    rw [if_pos hbetter]
    exact ih.trans (Array.swap_perm best.isLt hi).toList
  | case2 v i hleft best hi hbetter =>
    rw [siftDown, dif_pos hleft]
    show (if better v[best] v[i] then _ else _ : Array T).toList.Perm _
    rw [if_neg hbetter]
  | case3 v i hleft => rw [siftDown, dif_neg hleft]

end Sifts

section Operations

variable {q : PriorityQueue T} {t : T}

theorem push_heap (h : StrictWeak better) (hq : Heap better q) (t : T) :
    Heap better (q.push better t) :=
  siftUp_ordered h _ (hq.push t)

theorem push_perm (t : T) : (q.push better t).v.toList.Perm (t :: q.v.toList) := by
  refine (siftUp_perm _).trans ?_
  rw [Array.toList_push]
  exact List.perm_append_singleton t _

theorem perm_back {v : Array T} (h : 0 < v.size) :
    v.toList.Perm (v[v.size - 1] :: v.pop.toList) := by
  have hne : v.toList ≠ [] := List.ne_nil_of_length_pos (by simpa using h)
  have hback : v.pop.toList ++ [v[v.size - 1]] = v.toList := by
    conv_rhs => rw [← List.dropLast_concat_getLast hne]
    rw [Array.toList_pop, List.getLast_eq_getElem]
    rfl
  conv_lhs => rw [← hback]
  exact List.perm_append_singleton _ _

/-- A pop gives what `top` shows, and leaves the rest in heap order. -/
theorem pop_spec (h : StrictWeak better) (hq : Heap better q) (hsize : 0 < q.v.size) :
    ∃ q', q.top = .ok q.v[0] ∧ q.pop better = .ok (q.v[0], q') ∧ Heap better q' ∧
      q.v.toList.Perm (q.v[0] :: q'.v.toList) := by
  have htop : q.top = .ok q.v[0] := by
    simp only [top, Array.getElem?_eq_getElem hsize]
  by_cases hone : q.v.size = 1
  · refine ⟨⟨q.v.pop⟩, htop, by rw [pop, dif_pos hsize]; exact if_pos hone, ?_, ?_⟩
    · intro p c hp hc _
      rw [Array.size_pop] at hp
      omega
    · have hperm := perm_back hsize
      simp only [hone] at hperm
      exact hperm
  · have hlast : q.v.size - 1 < q.v.size := by omega
    refine ⟨⟨siftDown better (q.v.swap (q.v.size - 1) 0).pop 0⟩, htop,
      by rw [pop, dif_pos hsize]; exact if_neg hone, siftDown_ordered h (hq.pop hsize), ?_⟩
    have hperm : (q.v.swap (q.v.size - 1) 0).toList.Perm
        (q.v[0] :: (q.v.swap (q.v.size - 1) 0).pop.toList) := by
      have hback := @perm_back _ (q.v.swap (q.v.size - 1) 0) (by simpa using hsize)
      simpa using hback
    exact ((Array.swap_perm hlast hsize).toList.symm.trans hperm).trans
      (siftDown_perm.symm.cons _)

theorem heap_first (h : StrictWeak better) (hq : Heap better q) {x : T} (hx : x ∈ q.v)
    (hsize : 0 < q.v.size) : ¬ better x q.v[0] := by
  obtain ⟨i, hi, rfl⟩ := Array.mem_iff_getElem.mp hx
  exact Ordered.first h.irrefl h.trans_not hq hi

/-- As many pops as there are elements give all of them, the best first. -/
theorem popTimes_all (h : StrictWeak better) (hq : Heap better q) :
    ∃ xs q', popTimes better q.v.size q = .ok (xs, q') ∧ q'.v.size = 0 ∧
      xs.Perm q.v.toList ∧ xs.Pairwise fun x y => ¬ better y x := by
  induction hn : q.v.size generalizing q with
  | zero =>
    refine ⟨[], q, rfl, hn, ?_, List.Pairwise.nil⟩
    rw [Array.size_eq_zero_iff.mp hn]
  | succ n ih =>
    have hsize : 0 < q.v.size := by omega
    obtain ⟨q', -, hpop, hheap, hperm⟩ := pop_spec h hq hsize
    have hlength := hperm.length_eq
    simp only [Array.length_toList, List.length_cons] at hlength
    obtain ⟨xs, q'', hrest, hempty, hxs, hsorted⟩ := ih hheap (by omega)
    refine ⟨q.v[0] :: xs, q'', ?_, hempty, (hxs.cons _).trans hperm.symm, ?_⟩
    · simp only [popTimes, hpop, hrest, Except.map]
    · refine List.pairwise_cons.mpr ⟨fun y hy => heap_first h hq ?_ hsize, hsorted⟩
      exact Array.mem_toList_iff.mp (hperm.mem_iff.mpr (List.mem_cons_of_mem _ (hxs.mem_iff.mp hy)))

theorem heap_correct (h : StrictWeak better) (hq : Heap better q) : Correct better q where
  heap := hq
  push := push_perm
  pop := by
    intro hsize
    obtain ⟨q', htop, hpop, -, hperm⟩ := pop_spec h hq hsize
    refine ⟨q.v[0], q', htop, hpop, hperm, fun y hy => heap_first h hq ?_ hsize⟩
    exact Array.mem_toList_iff.mp
      (hperm.mem_iff.mpr (List.mem_cons_of_mem _ (Array.mem_toList_iff.mpr hy)))
  popAll := popTimes_all h hq

theorem heap_empty : Heap better ⟨#[]⟩ := by
  intro p c hp
  cases hp

theorem step_heap (h : StrictWeak better) (q : PriorityQueue T) (call : Call T)
    (q' : PriorityQueue T) (hq : Heap better q) (hs : step better q call = .ok q') :
    Heap better q' := by
  cases call with
  | push t =>
    obtain rfl := Except.ok.inj hs
    exact push_heap h hq t
  | pop =>
    obtain ⟨x, hpop⟩ := map_snd_ok hs
    by_cases hsize : 0 < q.v.size
    · obtain ⟨q'', -, hpop', hheap, -⟩ := pop_spec h hq hsize
      obtain rfl : q'' = q' := congrArg Prod.snd (Except.ok.inj (hpop'.symm.trans hpop))
      exact hheap
    · rw [pop, dif_neg hsize] at hpop
      cases hpop

/-- Every queue that pushes and pops make of an empty one is in heap order, so that its operations
do what they should. -/
theorem run_correct (h : StrictWeak better) (calls : List (Call T)) :
    Always (step better) (Correct better) ⟨#[]⟩ calls :=
  always_of_run fun _ _ hr =>
    heap_correct h (run_invariant (Heap better) (step_heap h) heap_empty hr)

/-- Numbers of which the smaller are the better. -/
theorem run_correct_lt : Always (step fun a b : ℕ => decide (a < b))
    (Correct fun a b => decide (a < b)) ⟨#[]⟩ [.push 3, .push 1, .push 2, .pop] := by
  refine run_correct ?_ [.push 3, .push 1, .push 2, .pop]
  simp only [StrictWeak, decide_eq_true_eq]
  exact isStrictWeakOrder_of_isOrderConnected

end Operations

end PriorityQueue

end YingSma
