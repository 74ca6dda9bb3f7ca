import Mathlib.Data.List.Nodup
import Mathlib.Tactic.Common

/-! Tables kept as lists of entries, at most one for each key, and what a lookup finds
after each operation. -/
namespace YingSma.EntryTable

variable {K V : Type*} {t : List (K × V)} {k : K} {v : V}

/-- No two entries have the same key. -/
def Distinct (t : List (K × V)) : Prop := (t.map Prod.fst).Nodup

theorem Distinct.of_cons {e : K × V} (hd : Distinct (e :: t)) :
    e.1 ∉ t.map Prod.fst ∧ Distinct t :=
  List.nodup_cons.mp hd

theorem Distinct.filter (hd : Distinct t) (p : K × V → Bool) : Distinct (t.filter p) :=
  (List.Sublist.map _ List.filter_sublist).nodup hd

variable [DecidableEq K]

theorem lookup_cons_ne {e : K × V} (t : List (K × V)) (h : k ≠ e.1) :
    (e :: t).lookup k = t.lookup k := by
  rw [List.lookup_cons, beq_false_of_ne h]

theorem mem_of_lookup (h : t.lookup k = some v) : (k, v) ∈ t := by
  obtain ⟨l₁, l₂, rfl, -⟩ := List.lookup_eq_some_iff.mp h
  simp

theorem lookup_eq_none (h : k ∉ t.map Prod.fst) : t.lookup k = none := by
  rw [List.lookup_eq_none_iff]
  intro p hp
  rw [bne_iff_ne]
  rintro rfl
  exact h (List.mem_map_of_mem hp)

theorem lookup_eq_none_iff : t.lookup k = none ↔ k ∉ t.map Prod.fst := by
  refine ⟨fun h hk => ?_, lookup_eq_none⟩
  obtain ⟨e, he, rfl⟩ := List.mem_map.mp hk
  have hne := List.lookup_eq_none_iff.mp h e he
  exact (bne_iff_ne.mp hne) rfl

theorem Distinct.lookup_of_mem (hd : Distinct t) (h : (k, v) ∈ t) : t.lookup k = some v := by
  induction t with
  | nil => cases h
  | cons e t ih =>
    obtain ⟨hnew, hd⟩ := hd.of_cons
    rcases List.mem_cons.mp h with rfl | h
    · exact List.lookup_cons_self
    · have hne : k ≠ e.1 := fun he => hnew (he ▸ List.mem_map_of_mem h)
      rw [lookup_cons_ne t hne]
      exact ih hd h

theorem lookup_erase (k : K) (t : List (K × V)) (k' : K) :
    (t.filter fun e => e.1 ≠ k').lookup k = if k = k' then none else t.lookup k := by
  induction t with
  | nil => simp
  | cons e t ih =>
    by_cases he : e.1 = k'
    · rw [List.filter_cons_of_neg (by simpa using he), ih]
      split_ifs with hk
      · rfl
      · rw [lookup_cons_ne t fun hh => hk (hh.trans he)]
    · rw [List.filter_cons_of_pos (by simpa using he)]
      by_cases hk : k = e.1
      · subst hk
        rw [List.lookup_cons_self, if_neg he, List.lookup_cons_self]
      · rw [lookup_cons_ne _ hk, lookup_cons_ne _ hk, ih]

theorem keys_update (t : List (K × V)) (k : K) (f : V → V) :
    (t.map fun e => if e.1 = k then (e.1, f e.2) else e).map Prod.fst = t.map Prod.fst := by
  rw [List.map_map]
  apply List.map_congr_left
  intro e _
  simp only [Function.comp_apply]
  split_ifs <;> rfl

theorem lookup_update (k : K) (f : V → V) (t : List (K × V)) (k' : K) :
    (t.map fun e => if e.1 = k then (e.1, f e.2) else e).lookup k' =
      if k' = k then (t.lookup k).map f else t.lookup k' := by
  induction t with
  | nil => simp
  | cons e t ih =>
    rw [List.map_cons]
    by_cases he : k' = e.1
    · subst he
      split_ifs with hk
      · rw [List.lookup_cons_self, ← hk, List.lookup_cons_self, Option.map_some]
      · rw [List.lookup_cons_self, List.lookup_cons_self]
    · have hne : k' ≠ (if e.1 = k then (e.1, f e.2) else e).1 := by
        split_ifs <;> exact he
      rw [lookup_cons_ne _ hne, ih, lookup_cons_ne t he]
      split_ifs with hk
      · rw [lookup_cons_ne t (hk ▸ he)]
      · rfl

theorem lookup_insert (h : t.lookup k = none) (v : V) (k' : K) :
    (t ++ [(k, v)]).lookup k' = if k' = k then some v else t.lookup k' := by
  rw [List.lookup_append]
  split_ifs with hk
  · rw [hk, h, Option.none_or, List.lookup_cons_self]
  · rw [lookup_cons_ne [] hk, List.lookup_nil, Option.or_none]

theorem Distinct.update (hd : Distinct t) (k : K) (f : V → V) :
    Distinct (t.map fun e => if e.1 = k then (e.1, f e.2) else e) := by
  rwa [Distinct, keys_update]

theorem Distinct.insert (hd : Distinct t) (h : t.lookup k = none) (v : V) :
    Distinct (t ++ [(k, v)]) := by
  unfold Distinct
  rw [List.map_append, List.map_singleton]
  refine hd.append (List.nodup_singleton k) fun k' hk' hk => ?_
  obtain ⟨e, he, rfl⟩ := List.mem_map.mp hk'
  obtain rfl := List.mem_singleton.mp hk
  have hsome := hd.lookup_of_mem he
  rw [h] at hsome
  cases hsome

/-- A table of what is listed finds what is found first in the list. -/
theorem lookup_map {α : Type*} (key : α → K) (val : α → V) (xs : List α) (k : K) :
    (xs.map fun x => (key x, val x)).lookup k = (xs.find? fun x => key x = k).map val := by
  induction xs with
  | nil => rfl
  | cons x xs ih =>
    rw [List.map_cons]
    by_cases hk : k = key x
    · subst hk
      rw [List.lookup_cons_self, List.find?_cons_of_pos (by simp), Option.map_some]
    · rw [lookup_cons_ne _ hk, ih, List.find?_cons_of_neg (by simpa using Ne.symm hk)]

/-- What alone in a list has its key is found by it. -/
theorem find_of_unique {α : Type*} (key : α → K) {xs : List α} {x : α} (hx : x ∈ xs)
    (hunique : ∀ y ∈ xs, key y = key x → y = x) : (xs.find? fun y => key y = key x) = some x := by
  cases hfind : xs.find? fun y => key y = key x with
  | none =>
    have hnone := List.find?_eq_none.mp hfind x hx
    simp at hnone
  | some y =>
    have hkey : key y = key x := by simpa using List.find?_some hfind
    rw [hunique y (List.mem_of_find?_eq_some hfind) hkey]

/-- A first entry for a key stays. -/
def insertNew (t : List (K × V)) (e : K × V) : List (K × V) :=
  match t.lookup e.1 with
  | some _ => t
  | none => t ++ [e]

theorem insertNew_known {e : K × V} (h : t.lookup e.1 = some v) : insertNew t e = t := by
  rw [insertNew, h]

theorem insertNew_new {e : K × V} (h : t.lookup e.1 = none) : insertNew t e = t ++ [e] := by
  rw [insertNew, h]

theorem lookup_insertNew (t : List (K × V)) (e : K × V) (k : K) :
    (insertNew t e).lookup k = (t.lookup k).or ([e].lookup k) := by
  cases hfind : t.lookup e.1 with
  | none =>
    rw [insertNew_new hfind]
    exact List.lookup_append
  | some v =>
    rw [insertNew_known hfind]
    by_cases hk : k = e.1
    · rw [hk, hfind, Option.some_or]
    · rw [lookup_cons_ne [] hk, List.lookup_nil, Option.or_none]

theorem Distinct.insertNew (hd : Distinct t) (e : K × V) : Distinct (insertNew t e) := by
  cases hfind : t.lookup e.1 with
  | none =>
    rw [insertNew_new hfind]
    exact hd.insert hfind e.2
  | some v => rwa [insertNew_known hfind]

/-- Of many entries for a key the first stays. -/
theorem lookup_foldl_insertNew (t es : List (K × V)) (k : K) :
    (es.foldl insertNew t).lookup k = (t.lookup k).or (es.lookup k) := by
  induction es generalizing t with
  | nil => rw [List.foldl_nil, List.lookup_nil, Option.or_none]
  | cons e es ih =>
    rw [List.foldl_cons, ih, lookup_insertNew, Option.or_assoc, ← List.lookup_append]
    rfl

theorem Distinct.foldl_insertNew (hd : Distinct t) (es : List (K × V)) :
    Distinct (es.foldl EntryTable.insertNew t) := by
  induction es generalizing t with
  | nil => exact hd
  | cons e es ih => exact ih (hd.insertNew e)

end YingSma.EntryTable
