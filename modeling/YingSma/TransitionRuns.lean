import Mathlib.Data.List.Forall2
import Mathlib.Logic.Function.Basic
import Mathlib.Tactic.Common

/-! Finite runs of a transition function that can fail. A call that fails ends
the run, so nothing is required of the calls listed after it. -/
namespace YingSma.TransitionRuns

variable {S A E : Type*}

/-- Execute the calls in order; the first failing call ends the run with its error. -/
def run (step : S → A → Except E S) : S → List A → Except E S
  | s, [] => .ok s
  | s, a :: as =>
      match step s a with
      | .ok s' => run step s' as
      | .error e => .error e

/-- `Q` holds at every call of the run, the last one included when it fails.
It speaks about the state before the call and the call itself. -/
def Each (step : S → A → Except E S) (Q : S → A → Prop) : S → List A → Prop
  | _, [] => True
  | s, a :: as => Q s a ∧ ∀ s', step s a = .ok s' → Each step Q s' as

/-- The same transitions, with the calls made so far beside the state. -/
def recorded (step : S → A → Except E S) : List A × S → A → Except E (List A × S)
  | (past, s), a => (step s a).map fun s' => (past ++ [a], s')

/-- The same transitions, with a note beside the state that is brought up to date at each
of them. -/
def noted {G : Type*} (step : S → A → Except E S) (note : G → S → A → S → G) :
    G × S → A → Except E (G × S)
  | (g, s), a => (step s a).map fun s' => (note g s a s', s')

/-- `P` holds in every state the run goes through. -/
def Always (step : S → A → Except E S) (P : S → Prop) : S → List A → Prop
  | s, [] => P s
  | s, a :: as => P s ∧ ∀ s', step s a = .ok s' → Always step P s' as

theorem map_eq_ok {α β : Type*} {f : α → β} {x : Except E α} {b : β} (h : x.map f = .ok b) :
    ∃ a, x = .ok a ∧ f a = b := by
  cases x with
  | error e => cases h
  | ok a => exact ⟨a, rfl, Except.ok.inj h⟩

theorem map_snd_ok {α β : Type*} {x : Except E (α × β)} {b : β} (h : x.map Prod.snd = .ok b) :
    ∃ a, x = .ok (a, b) := by
  obtain ⟨p, hx, rfl⟩ := map_eq_ok h
  exact ⟨p.1, hx⟩

theorem map_const_ok {α β : Type*} {x : Except E α} {b b' : β}
    (h : (x.map fun _ => b) = .ok b') : b' = b := by
  obtain ⟨a, -, hb⟩ := map_eq_ok h
  exact hb.symm

theorem bind_ok {α β : Type} {x : Except E α} {f : α → Except E β} {b : β}
    (h : x >>= f = .ok b) : ∃ a, x = .ok a ∧ f a = .ok b := by
  cases x with
  | error e => cases h
  | ok a => exact ⟨a, rfl, h⟩

theorem bind_error {α β : Type} {x : Except E α} {f : α → Except E β} {e : E}
    (h : x >>= f = .error e) : x = .error e ∨ ∃ a, x = .ok a ∧ f a = .error e := by
  cases x with
  | error e' => exact .inl (congrArg Except.error (Except.error.inj h))
  | ok a => exact .inr ⟨a, rfl, h⟩

variable {step : S → A → Except E S}

@[simp] theorem run_nil (s : S) : run step s [] = .ok s := rfl

theorem run_cons_ok {s s' : S} {a : A} (as : List A) (h : step s a = .ok s') :
    run step s (a :: as) = run step s' as := by
  simp [run, h]

theorem run_cons_error {s : S} {a : A} {e : E} (as : List A) (h : step s a = .error e) :
    run step s (a :: as) = .error e := by
  simp [run, h]

/-- A successful run starts with a successful call. -/
theorem run_cons_eq_ok {s t : S} {a : A} {as : List A} (h : run step s (a :: as) = .ok t) :
    ∃ s', step s a = .ok s' ∧ run step s' as = .ok t := by
  cases hs : step s a with
  | ok s' => exact ⟨s', rfl, by rwa [run_cons_ok as hs] at h⟩
  | error e => rw [run_cons_error as hs] at h; cases h

theorem run_append {s t : S} {as : List A} (bs : List A) (h : run step s as = .ok t) :
    run step s (as ++ bs) = run step t bs := by
  induction as generalizing s with
  | nil =>
    obtain rfl := Except.ok.inj h
    rfl
  | cons a as ih =>
    obtain ⟨s', hs, hr⟩ := run_cons_eq_ok h
    rw [List.cons_append, run_cons_ok _ hs, ih hr]

theorem recorded_ok {past : List A} {s : S} {a : A} {r : List A × S}
    (h : recorded step (past, s) a = .ok r) : step s a = .ok r.2 ∧ r.1 = past ++ [a] := by
  obtain ⟨s', hs, rfl⟩ := map_eq_ok h
  exact ⟨hs, rfl⟩

/-- The induction behind every safety theorem: what each of its calls keeps, a run keeps. -/
theorem run_keeps (P : S → Prop) {s t : S} {as : List A}
    (hstep : ∀ a ∈ as, ∀ s s', P s → step s a = .ok s' → P s') (hs : P s)
    (hr : run step s as = .ok t) : P t := by
  induction as generalizing s with
  | nil =>
    simp only [run_nil, Except.ok.injEq] at hr
    exact hr ▸ hs
  | cons a as ih =>
    obtain ⟨s', h, hr'⟩ := run_cons_eq_ok hr
    rw [List.forall_mem_cons] at hstep
    exact ih hstep.2 (hstep.1 s s' hs h) hr'

theorem run_invariant (P : S → Prop) (hstep : ∀ s a s', P s → step s a = .ok s' → P s')
    {s t : S} {as : List A} (hs : P s) (hr : run step s as = .ok t) : P t :=
  run_keeps P (fun a _ s s' => hstep s a s') hs hr

/-- Two conditions agree along a run if they agree wherever an invariant holds, and
calls that meet the second one keep the invariant. -/
theorem each_congr (P : S → Prop) {Q R : S → A → Prop} {as : List A}
    (hstep : ∀ s, ∀ a ∈ as, ∀ s', P s → R s a → step s a = .ok s' → P s')
    (hQR : ∀ s, ∀ a ∈ as, P s → (Q s a ↔ R s a)) {s : S} (hs : P s) :
    Each step Q s as ↔ Each step R s as := by
  induction as generalizing s with
  | nil => exact Iff.rfl
  | cons a as ih =>
    simp only [Each]
    rw [hQR s a List.mem_cons_self hs]
    refine and_congr_right fun hr => forall₂_congr fun s' h => ?_
    exact ih (fun s b hb => hstep s b (List.mem_cons_of_mem a hb))
      (fun s b hb => hQR s b (List.mem_cons_of_mem a hb)) (hstep s a List.mem_cons_self s' hs hr h)

theorem each_recorded {Q : S → A → Prop} (past : List A) (s : S) (as : List A) :
    Each (recorded step) (fun r a => Q r.2 a) (past, s) as ↔ Each step Q s as := by
  induction as generalizing past s with
  | nil => exact Iff.rfl
  | cons a as ih =>
    simp only [Each]
    refine and_congr_right fun _ => ⟨fun h s' hs => ?_, fun h r hr => ?_⟩
    · refine (ih (past ++ [a]) s').mp (h (past ++ [a], s') ?_)
      simp only [recorded, hs, Except.map]
    · obtain ⟨hs, -⟩ := recorded_ok hr
      exact (ih r.1 r.2).mpr (h r.2 hs)

theorem noted_ok {G : Type*} {note : G → S → A → S → G} {g : G} {s : S} {a : A} {r : G × S}
    (h : noted step note (g, s) a = .ok r) : step s a = .ok r.2 ∧ r.1 = note g s a r.2 := by
  obtain ⟨s', hs, rfl⟩ := map_eq_ok h
  exact ⟨hs, rfl⟩

theorem noted_of_ok {G : Type*} (note : G → S → A → S → G) (g : G) {s s' : S} {a : A}
    (h : step s a = .ok s') : noted step note (g, s) a = .ok (note g s a s', s') := by
  simp only [noted, h, Except.map]

theorem run_noted {G : Type*} (note : G → S → A → S → G) {s t : S} {as : List A} (g : G)
    (h : run step s as = .ok t) : ∃ g', run (noted step note) (g, s) as = .ok (g', t) := by
  induction as generalizing g s with
  | nil =>
    obtain rfl := Except.ok.inj h
    exact ⟨g, rfl⟩
  | cons a as ih =>
    obtain ⟨s', hs, hr⟩ := run_cons_eq_ok h
    obtain ⟨g', hg⟩ := ih (note g s a s') hr
    exact ⟨g', by rw [run_cons_ok as (noted_of_ok note g hs), hg]⟩

theorem each_noted {G : Type*} (note : G → S → A → S → G) {Q : S → A → Prop} (g : G) (s : S)
    (as : List A) : Each (noted step note) (fun r a => Q r.2 a) (g, s) as ↔ Each step Q s as := by
  induction as generalizing g s with
  | nil => exact Iff.rfl
  | cons a as ih =>
    simp only [Each]
    refine and_congr_right fun _ => ⟨fun h s' hs => ?_, fun h r hr => ?_⟩
    · exact (ih (note g s a s') s').mp (h _ (noted_of_ok note g hs))
    · obtain ⟨hs, -⟩ := noted_ok hr
      exact (ih r.1 r.2).mpr (h r.2 hs)

/-- What is noted of the elements of a list is found at their places. -/
theorem getElem?_beside {α β : Type*} {R : α → β → Prop} {xs : List α} {ys : List β}
    (h : List.Forall₂ R xs ys) {k : ℕ} {x : α} (hx : xs[k]? = some x) :
    ∃ y, ys[k]? = some y ∧ R x y := by
  induction h generalizing k with
  | nil => cases hx
  | @cons x' y xs ys hR _ ih =>
    cases k with
    | zero =>
      obtain rfl := Option.some.inj hx
      exact ⟨y, rfl, hR⟩
    | succ k => exact ih hx

/-- Functions that are related at each place are so after a change of both at one of them. -/
theorem update_beside {N : Type*} [DecidableEq N] {α β : Type*} {R : N → α → β → Prop} {f : N → α}
    {f' : N → β} {n : N} {a : α} {b : β} (hR : ∀ n, R n (f n) (f' n)) (hab : R n a b) (m : N) :
    R m (Function.update f n a m) (Function.update f' n b m) := by
  by_cases hm : m = n
  · subst hm
    rw [Function.update_self, Function.update_self]
    exact hab
  · rw [Function.update_of_ne hm, Function.update_of_ne hm]
    exact hR m

theorem each_append {Q : S → A → Prop} (s : S) (as bs : List A) :
    Each step Q s (as ++ bs) ↔
      Each step Q s as ∧ ∀ t, run step s as = .ok t → Each step Q t bs := by
  induction as generalizing s with
  | nil => simp [Each]
  | cons a as ih =>
    simp only [List.cons_append, Each, ih]
    constructor
    · rintro ⟨hq, h⟩
      refine ⟨⟨hq, fun s' hs => (h s' hs).1⟩, fun t hr => ?_⟩
      obtain ⟨s', hs, hr'⟩ := run_cons_eq_ok hr
      exact (h s' hs).2 t hr'
    · rintro ⟨⟨hq, h⟩, hrest⟩
      exact ⟨hq, fun s' hs => ⟨h s' hs, fun t hr => hrest t (by rwa [run_cons_ok as hs])⟩⟩

/-- A condition that can be decided for each call can be decided for a run. -/
instance decidableEach {Q : S → A → Prop} [∀ s a, Decidable (Q s a)] :
    (s : S) → (as : List A) → Decidable (Each step Q s as)
  | _, [] => isTrue trivial
  | s, a :: as =>
      match hs : step s a with
      | .ok s' =>
          have : Decidable (Each step Q s' as) := decidableEach s' as
          decidable_of_iff (Q s a ∧ Each step Q s' as) (by simp [Each, hs])
      | .error _ => decidable_of_iff (Q s a) (by simp [Each, hs])

/-- A condition on the calls of a run, looked at one call at a time. -/
theorem each_of_prefixes {Q : S → A → Prop} {s : S} {as : List A}
    (h : ∀ past a t, past ++ [a] <+: as → run step s past = .ok t → Q t a) :
    Each step Q s as := by
  induction as generalizing s with
  | nil => trivial
  | cons a as ih =>
    refine ⟨h [] a s ⟨as, rfl⟩ rfl, fun s' hs => ih fun past b t hpast hr => ?_⟩
    refine h (a :: past) b t ?_ ((run_cons_ok past hs).trans hr)
    exact List.cons_prefix_cons.mpr ⟨rfl, hpast⟩

/-- Calls that meet `C` keep the invariant `P`, so that every call does what follows of it
from `P` and `C`. -/
theorem each_of_each (P : S → Prop) {Q C : S → A → Prop}
    (hstep : ∀ s a s', P s → C s a → step s a = .ok s' → P s')
    (hQ : ∀ s a, P s → C s a → Q s a) {s : S} (hs : P s) {as : List A} (hc : Each step C s as) :
    Each step Q s as := by
  induction as generalizing s with
  | nil => trivial
  | cons a as ih => exact ⟨hQ s a hs hc.1, fun s' h => ih (hstep s a s' hs hc.1 h) (hc.2 s' h)⟩

theorem Always.head {P : S → Prop} {s : S} {as : List A} (h : Always step P s as) : P s := by
  cases as with
  | nil => exact h
  | cons a as => exact h.1

theorem Always.last {P : S → Prop} {s t : S} {as : List A} (h : Always step P s as)
    (hr : run step s as = .ok t) : P t := by
  induction as generalizing s with
  | nil =>
    obtain rfl := Except.ok.inj hr
    exact h
  | cons a as ih =>
    obtain ⟨s', hs, hr'⟩ := run_cons_eq_ok hr
    exact ih (h.2 s' hs) hr'

/-- What holds of every state a part of the run leads to holds throughout the run. -/
theorem Always.mono {P Q : S → Prop} (hPQ : ∀ s, P s → Q s) {s : S} {as : List A}
    (h : Always step P s as) : Always step Q s as := by
  induction as generalizing s with
  | nil => exact hPQ s h
  | cons a as ih => exact ⟨hPQ s h.1, fun s' hs => ih (h.2 s' hs)⟩

theorem always_of_run {P : S → Prop} {s : S} {as : List A}
    (h : ∀ t past, run step s past = .ok t → P t) : Always step P s as := by
  induction as generalizing s with
  | nil => exact h s [] rfl
  | cons a as ih =>
    refine ⟨h s [] rfl, fun s' hs => ih fun t past hr => h t (a :: past) ?_⟩
    rw [run_cons_ok past hs]
    exact hr

/-- A property of the states as one of the calls that lead to them. -/
theorem always_iff {P : S → Prop} {s : S} (hs : P s) (as : List A) :
    Always step P s as ↔ Each step (fun s a => ∀ s', step s a = .ok s' → P s') s as := by
  induction as generalizing s with
  | nil => simpa [Always, Each] using hs
  | cons a as ih =>
    simp only [Always, Each]
    constructor
    · rintro ⟨-, h⟩
      exact ⟨fun s' h' => (h s' h').head, fun s' h' => (ih (h s' h').head).mp (h s' h')⟩
    · rintro ⟨hp, h⟩
      exact ⟨hs, fun s' h' => (ih (hp s' h')).mpr (h s' h')⟩

/-- Two properties of the states agree throughout a run if they agree wherever an invariant holds. -/
theorem always_congr (P : S → Prop) {Q R : S → Prop}
    (hstep : ∀ s a s', P s → step s a = .ok s' → P s') (hQR : ∀ s, P s → (Q s ↔ R s)) {s : S}
    (hs : P s) {as : List A} : Always step Q s as ↔ Always step R s as := by
  induction as generalizing s with
  | nil => exact hQR s hs
  | cons a as ih =>
    exact and_congr (hQR s hs) (forall₂_congr fun s' h => ih (hstep s a s' hs h))

theorem each_and {Q R : S → A → Prop} (s : S) (as : List A) :
    Each step Q s as ∧ Each step R s as ↔ Each step (fun s a => Q s a ∧ R s a) s as := by
  induction as generalizing s with
  | nil => simp [Each]
  | cons a as ih =>
    simp only [Each, ← ih]
    exact ⟨fun ⟨⟨hq, hqs⟩, hr, hrs⟩ => ⟨⟨hq, hr⟩, fun s' h => ⟨hqs s' h, hrs s' h⟩⟩,
      fun ⟨⟨hq, hr⟩, h⟩ => ⟨⟨hq, fun s' h' => (h s' h').1⟩, hr, fun s' h' => (h s' h').2⟩⟩

/-- A state property holds throughout a run exactly when every call meets the
condition under which that call keeps it. -/
theorem always_iff_each {P : S → Prop} {C : S → A → Prop}
    (hstep : ∀ s a, P s → (C s a ↔ ∀ s', step s a = .ok s' → P s')) {s : S} (hs : P s)
    (as : List A) : Always step P s as ↔ Each step C s as := by
  refine (always_iff hs as).trans (each_congr P ?_ ?_ hs)
  · exact fun s a _ s' h hc hs' => (hstep s a h).mp hc s' hs'
  · exact fun s a _ h => (hstep s a h).symm

/-- Calls that meet `C` keep the invariant `P`, so that what follows from `P` holds
throughout a run of such calls. -/
theorem always_of_each (P : S → Prop) {Q : S → Prop} {C : S → A → Prop} (hPQ : ∀ s, P s → Q s)
    (hstep : ∀ s a s', P s → C s a → step s a = .ok s' → P s') {s : S} (hs : P s) {as : List A}
    (hc : Each step C s as) : Always step Q s as := by
  induction as generalizing s with
  | nil => exact hPQ s hs
  | cons a as ih => exact ⟨hPQ s hs, fun s' h => ih (hstep s a s' hs hc.1 h) (hc.2 s' h)⟩

section Matching

variable {T B F : Type*} {other : T → B → Except F T} (R : S → T → Prop)
  (hstep : ∀ s a s' t, R s t → step s a = .ok s' → ∃ bs t', run other t bs = .ok t' ∧ R s' t')

include hstep

/-- A run whose steps can be matched by runs of another system can be matched by one. -/
theorem run_matched {s s' : S} {t : T} {as : List A} (hR : R s t) (hr : run step s as = .ok s') :
    ∃ bs t', run other t bs = .ok t' ∧ R s' t' := by
  induction as generalizing s t with
  | nil =>
    obtain rfl := Except.ok.inj hr
    exact ⟨[], t, rfl, hR⟩
  | cons a as ih =>
    obtain ⟨s₁, hs, hr₁⟩ := run_cons_eq_ok hr
    obtain ⟨bs, t₁, hbs, hR₁⟩ := hstep s a s₁ t hR hs
    obtain ⟨cs, t', hcs, hR'⟩ := ih hR₁ hr₁
    exact ⟨bs ++ cs, t', (run_append cs hbs).trans hcs, hR'⟩

end Matching

end YingSma.TransitionRuns
