import Mathlib.Tactic

/-! Actions that read and change a state and may fail, and the relations between the
state before and the state after that every action built from given steps keeps. -/
namespace YingSma.StateActions

abbrev Action (S ε α : Type) := StateT S (Except ε) α

variable {S ε α β : Type}

/-- A computation that can fail and does not touch the state. -/
def attempt (x : Except ε α) : Action S ε α := fun s =>
  match x with
  | .ok a => .ok (a, s)
  | .error e => .error e

/-- Perform `f` for the elements of the list in order. -/
def forEach (f : α → Action S ε Unit) : List α → Action S ε Unit
  | [] => pure ()
  | a :: as => do
      f a
      forEach f as

/-- If `m` succeeds from `s`, the state after it is related to `s` by `R`. -/
def KeepsFrom (R : S → S → Prop) (s : S) (m : Action S ε α) : Prop :=
  ∀ a s', m s = .ok (a, s') → R s s'

/-- Wherever `m` succeeds, the states before and after it are related by `R`. -/
def Keeps (R : S → S → Prop) (m : Action S ε α) : Prop := ∀ s, KeepsFrom R s m

theorem pure_run (a : α) (s : S) : (pure a : Action S ε α) s = .ok (a, s) := rfl

theorem get_run (s : S) : (get : Action S ε S) s = .ok (s, s) := rfl

theorem modify_run (f : S → S) (s : S) : (modify f : Action S ε Unit) s = .ok ((), f s) := rfl

theorem bind_run_ok {m : Action S ε α} {f : α → Action S ε β} {s s' : S} {a : α}
    (h : m s = .ok (a, s')) : (m >>= f) s = f a s' := by
  simp only [Bind.bind, StateT.bind, Except.bind, h]

theorem bind_run_error {m : Action S ε α} {f : α → Action S ε β} {s : S} {e : ε}
    (h : m s = .error e) : (m >>= f) s = .error e := by
  simp only [Bind.bind, StateT.bind, Except.bind, h]

/-- A sequence that succeeds goes through an intermediate state. -/
theorem bind_eq_ok {m : Action S ε α} {f : α → Action S ε β} {s t : S} {b : β}
    (h : (m >>= f) s = .ok (b, t)) : ∃ a s', m s = .ok (a, s') ∧ f a s' = .ok (b, t) := by
  cases hm : m s with
  | error e => rw [bind_run_error hm] at h; cases h
  | ok p => exact ⟨p.1, p.2, rfl, by rwa [bind_run_ok hm] at h⟩

theorem discard_eq_ok {m : Action S ε α} {s t : S} {u : Unit}
    (h : (discard m : Action S ε Unit) s = .ok (u, t)) : ∃ a, m s = .ok (a, t) := by
  have hbind : (m >>= fun _ => pure ()) s = .ok (u, t) := h
  obtain ⟨a, s', hm, hpure⟩ := bind_eq_ok hbind
  obtain rfl := (Prod.mk.inj (Except.ok.inj hpure)).2
  exact ⟨a, hm⟩

theorem discard_run {m : Action S ε α} {s t : S} {a : α} (h : m s = .ok (a, t)) :
    (discard m : Action S ε Unit) s = .ok ((), t) := by
  have hbind : (m >>= fun _ => (pure () : Action S ε Unit)) s = .ok ((), t) := by
    rw [bind_run_ok h, pure_run]
  exact hbind

theorem discard_error {m : Action S ε α} {s : S} {e : ε} (h : m s = .error e) :
    (discard m : Action S ε Unit) s = .error e := by
  have hbind : (m >>= fun _ => (pure () : Action S ε Unit)) s = .error e := bind_run_error h
  exact hbind

theorem attempt_eq_ok {x : Except ε α} {s t : S} {a : α}
    (h : (attempt x : Action S ε α) s = .ok (a, t)) : x = .ok a ∧ t = s := by
  cases x with
  | error e => cases h
  | ok b =>
    simp only [attempt, Except.ok.injEq, Prod.mk.injEq] at h
    exact ⟨congrArg Except.ok h.1, h.2.symm⟩

theorem modify_eq_ok {f : S → S} {s t : S} {a : Unit}
    (h : (modify f : Action S ε Unit) s = .ok (a, t)) : t = f s := by
  simp only [modify_run, Except.ok.injEq, Prod.mk.injEq] at h
  exact h.2.symm

section Keeps

variable {R : S → S → Prop} [IsPreorder S R]

theorem keeps_pure (a : α) : Keeps R (pure a : Action S ε α) := by
  intro s a' s' h
  simp only [pure_run, Except.ok.injEq, Prod.mk.injEq] at h
  exact h.2 ▸ refl_of R s

theorem keeps_get : Keeps R (get : Action S ε S) := by
  intro s a s' h
  simp only [get_run, Except.ok.injEq, Prod.mk.injEq] at h
  exact h.2 ▸ refl_of R s

theorem keeps_attempt (x : Except ε α) : Keeps R (attempt x : Action S ε α) := by
  intro s a s' h
  obtain ⟨-, rfl⟩ := attempt_eq_ok h
  exact refl_of R s'

theorem keeps_bind {m : Action S ε α} {f : α → Action S ε β} (hm : Keeps R m)
    (hf : ∀ a, Keeps R (f a)) : Keeps R (m >>= f) := by
  intro s b t h
  obtain ⟨a, s', h₁, h₂⟩ := bind_eq_ok h
  exact trans_of R (hm s a s' h₁) (hf a s' b t h₂)

theorem keeps_discard {m : Action S ε α} (hm : Keeps R m) : Keeps R (discard m) := by
  have hbind : Keeps R (m >>= fun _ => pure ()) := keeps_bind hm fun _ => keeps_pure ()
  exact hbind

theorem keeps_forEach {f : α → Action S ε Unit} {as : List α} (h : ∀ a ∈ as, Keeps R (f a)) :
    Keeps R (forEach f as) := by
  induction as with
  | nil => exact keeps_pure ()
  | cons a as ih =>
    rw [List.forall_mem_cons] at h
    exact keeps_bind h.1 fun _ => ih h.2

end Keeps

section Branches

variable {R : S → S → Prop}

theorem keeps_modify {f : S → S} (h : ∀ s, R s (f s)) :
    Keeps R (modify f : Action S ε Unit) := by
  intro s a s' hs
  obtain rfl := modify_eq_ok hs
  exact h s

theorem keeps_ite {p : Prop} [Decidable p] {m n : Action S ε α} (hm : Keeps R m)
    (hn : Keeps R n) : Keeps R (if p then m else n) := by
  split_ifs
  · exact hm
  · exact hn

/-- An action that reads the state first may be looked at for each state on its own. -/
theorem keeps_get_bind {f : S → Action S ε α} (h : ∀ s, KeepsFrom R s (f s)) :
    Keeps R (get >>= f) := by
  intro s a s' hs
  rw [bind_run_ok (get_run s)] at hs
  exact h s a s' hs

theorem keepsFrom_ite {p : Prop} [Decidable p] {s : S} {m n : Action S ε α}
    (hm : KeepsFrom R s m) (hn : KeepsFrom R s n) : KeepsFrom R s (if p then m else n) := by
  split_ifs
  · exact hm
  · exact hn

theorem keepsFrom_attempt_bind {s : S} {x : Except ε α} {f : α → Action S ε β}
    (h : ∀ a, x = .ok a → KeepsFrom R s (f a)) : KeepsFrom R s (attempt x >>= f) := by
  intro b t hrun
  obtain ⟨a, s', hx, hrest⟩ := bind_eq_ok hrun
  obtain ⟨hok, rfl⟩ := attempt_eq_ok hx
  exact h a hok b t hrest

theorem keepsFrom_modify_bind [IsTrans S R] {s : S} {g : S → S} {f : Unit → Action S ε α}
    (hg : R s (g s)) (hf : Keeps R (f ())) : KeepsFrom R s (modify g >>= f) := by
  intro b t hrun
  rw [bind_run_ok (modify_run g s)] at hrun
  exact trans_of R hg (hf (g s) b t hrun)

end Branches

section Ends

/-- What `m` does from `s`: where it succeeds, the state after it is related to `s` by `R`, and
where it fails, its error is one of `E`. -/
structure EndsFrom (R : S → S → Prop) (E : ε → Prop) (s : S) (m : Action S ε α) : Prop where
  keeps : KeepsFrom R s m
  fails : ∀ e, m s = .error e → E e

def Ends (R : S → S → Prop) (E : ε → Prop) (m : Action S ε α) : Prop := ∀ s, EndsFrom R E s m

variable {R : S → S → Prop} {E : ε → Prop}

theorem Ends.keeps {m : Action S ε α} (hm : Ends R E m) : Keeps R m := fun s => (hm s).keeps

/-- An action that succeeds is looked at in its result only. -/
theorem endsFrom_run {m : Action S ε α} {s s' : S} {a : α} (hrun : m s = .ok (a, s')) (h : R s s') :
    EndsFrom R E s m where
  keeps b t hok := by
    obtain ⟨-, rfl⟩ := Prod.mk.inj (Except.ok.inj (hrun.symm.trans hok))
    exact h
  fails e herror := by cases hrun.symm.trans herror

theorem ends_modify {f : S → S} (h : ∀ s, R s (f s)) : Ends R E (modify f : Action S ε Unit) :=
  fun s => endsFrom_run (modify_run f s) (h s)

theorem ends_ite {p : Prop} [Decidable p] {m n : Action S ε α} (hm : Ends R E m) (hn : Ends R E n) :
    Ends R E (if p then m else n) := by
  split_ifs
  · exact hm
  · exact hn

theorem ends_attempt [Std.Refl R] {x : Except ε α} (h : ∀ e, x = .error e → E e) :
    Ends R E (attempt x : Action S ε α) := by
  intro s
  cases x with
  | ok a => exact endsFrom_run rfl (refl_of R s)
  | error e => exact ⟨fun a t hok => by (cases hok), fun e' herror => by (cases herror; exact h e rfl)⟩

variable [IsPreorder S R]

theorem ends_pure (a : α) : Ends R E (pure a : Action S ε α) :=
  fun s => endsFrom_run (pure_run a s) (refl_of R s)

theorem endsFrom_bind {m : Action S ε α} {f : α → Action S ε β} {s : S} (hm : EndsFrom R E s m)
    (hf : ∀ a s', m s = .ok (a, s') → EndsFrom R E s' (f a)) : EndsFrom R E s (m >>= f) where
  keeps b t hok := by
    obtain ⟨a, s', hfirst, hrest⟩ := bind_eq_ok hok
    exact trans_of R (hm.keeps a s' hfirst) ((hf a s' hfirst).keeps b t hrest)
  fails e herror := by
    cases hfirst : m s with
    | error e' =>
      rw [bind_run_error hfirst] at herror
      exact Except.error.inj herror ▸ hm.fails e' hfirst
    | ok out =>
      rw [bind_run_ok hfirst] at herror
      exact (hf out.1 out.2 hfirst).fails e herror

theorem ends_bind {m : Action S ε α} {f : α → Action S ε β} (hm : Ends R E m)
    (hf : ∀ a, Ends R E (f a)) : Ends R E (m >>= f) :=
  fun s => endsFrom_bind (hm s) fun a s' _ => hf a s'

theorem endsFrom_get_bind {f : S → Action S ε α} {s : S} (h : EndsFrom R E s (f s)) :
    EndsFrom R E s (get >>= f) := by
  refine endsFrom_bind (endsFrom_run (get_run s) (refl_of R s)) fun a s' hrun => ?_
  obtain ⟨rfl, rfl⟩ := Prod.mk.inj (Except.ok.inj hrun)
  exact h

theorem ends_get_bind {f : S → Action S ε α} (h : ∀ s, EndsFrom R E s (f s)) :
    Ends R E (get >>= f) := fun s => endsFrom_get_bind (h s)

/-- What is attempted is looked at in its result. -/
theorem endsFrom_attempt_bind {s : S} {x : Except ε α} {f : α → Action S ε β}
    (herror : ∀ e, x = .error e → E e) (hok : ∀ a, x = .ok a → EndsFrom R E s (f a)) :
    EndsFrom R E s (attempt x >>= f) := by
  refine endsFrom_bind (ends_attempt herror s) fun a s' hrun => ?_
  obtain ⟨hx, rfl⟩ := attempt_eq_ok hrun
  exact hok a hx

theorem endsFrom_modify_bind {s : S} {g : S → S} {f : Unit → Action S ε α} (hg : R s (g s))
    (hf : Ends R E (f ())) : EndsFrom R E s (modify g >>= f) :=
  endsFrom_bind (endsFrom_run (modify_run g s) hg) fun _ s' _ => hf s'

theorem endsFrom_discard {m : Action S ε α} {s : S} (hm : EndsFrom R E s m) :
    EndsFrom R E s (discard m) := by
  have hbind : EndsFrom R E s (m >>= fun _ => pure ()) := endsFrom_bind hm fun _ s' _ => ends_pure () s'
  exact hbind

theorem ends_forEach {f : α → Action S ε Unit} {as : List α} (h : ∀ a, Ends R E (f a)) :
    Ends R E (forEach f as) := by
  induction as with
  | nil => exact ends_pure ()
  | cons a as ih => exact ends_bind (h a) fun _ => ih

end Ends

end YingSma.StateActions
