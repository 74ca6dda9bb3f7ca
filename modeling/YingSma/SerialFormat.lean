import Mathlib.Tactic

/-! Binary formats written and read front to back. A writer appends to a buffer of
fixed capacity, a reader takes from a list of bytes, and either may fail. -/
namespace YingSma.SerialFormat

/-- A buffer of `capacity` bytes, of which `written` is filled. -/
structure Out where
  capacity : ℕ
  written : List UInt8
  deriving DecidableEq

def Out.empty (capacity : ℕ) : Out := ⟨capacity, []⟩

abbrev Put (ε : Type) := Out → Except ε Out

abbrev Get (ε : Type) := StateT (List UInt8) (Except ε)

variable {ε α β : Type}

/-- Append `bytes`, or fail with `e` when fewer bytes are left. -/
def append (e : ε) (bytes : List UInt8) : Put ε := fun out =>
  if bytes.length ≤ out.capacity - out.written.length then
    .ok { out with written := out.written ++ bytes }
  else .error e

/-- Write one field after the other. -/
def putAll : List (Put ε) → Put ε
  | [], out => .ok out
  | p :: ps, out =>
      match p out with
      | .ok out' => putAll ps out'
      | .error e => .error e

/-- Take `n` bytes, or fail with `e` when fewer are left. -/
def take (e : ε) (n : ℕ) : Get ε {bytes : List UInt8 // bytes.length = n} := fun input =>
  if h : n ≤ input.length then .ok (⟨input.take n, List.length_take_of_le h⟩, input.drop n)
  else .error e

/-- Read `n` values one after the other. -/
def getMany (g : Get ε α) : ℕ → Get ε (List α)
  | 0 => pure []
  | n + 1 => do
      let a ← g
      let rest ← getMany g n
      pure (a :: rest)

/-- Wherever `bytes` fit, `p` appends them and does nothing else. -/
def Emits (p : Put ε) (bytes : List UInt8) : Prop :=
  ∀ out, out.written.length + bytes.length ≤ out.capacity →
    p out = .ok { out with written := out.written ++ bytes }

/-- `p` appends `bytes` whenever it succeeds. -/
def Appends (p : Put ε) (bytes : List UInt8) : Prop :=
  ∀ out out', p out = .ok out' → out'.written = out.written ++ bytes

/-- In front of any input `g` reads `bytes` as `a` and leaves the rest. -/
def Parses (g : Get ε α) (bytes : List UInt8) (a : α) : Prop :=
  ∀ rest, g (bytes ++ rest) = .ok (a, rest)

section Writers

theorem append_emits (e : ε) (bytes : List UInt8) : Emits (append e bytes) bytes := by
  intro out h
  rw [append, if_pos (by omega)]

theorem putAll_emits {ps : List (Put ε)} {bss : List (List UInt8)}
    (h : List.Forall₂ Emits ps bss) : Emits (putAll ps) bss.flatten := by
  induction h with
  | nil =>
    intro out _
    simp [putAll]
  | @cons p bs ps bss hp _ ih =>
    intro out hle
    simp only [List.flatten_cons, List.length_append] at hle
    have hnext := ih { out with written := out.written ++ bs } (by simp only [List.length_append]; omega)
    simp [putAll, hp out (by omega), hnext]

theorem append_appends (e : ε) (bytes : List UInt8) : Appends (append e bytes) bytes := by
  intro out out' h
  unfold append at h
  split_ifs at h
  obtain rfl := Except.ok.inj h
  rfl

theorem putAll_appends {ps : List (Put ε)} {bss : List (List UInt8)}
    (h : List.Forall₂ Appends ps bss) : Appends (putAll ps) bss.flatten := by
  induction h with
  | nil =>
    intro out out' hrun
    obtain rfl := Except.ok.inj hrun
    simp
  | @cons p bs ps bss hp _ ih =>
    intro out out' hrun
    rw [putAll] at hrun
    cases hfirst : p out with
    | ok mid =>
      rw [hfirst] at hrun
      rw [ih mid out' hrun, hp out mid hfirst, List.append_assoc, List.flatten_cons]
    | error e =>
      rw [hfirst] at hrun
      cases hrun

end Writers

section Readers

theorem take_parses (e : ε) {n : ℕ} (bytes : {bytes : List UInt8 // bytes.length = n}) :
    Parses (take e n) bytes.1 bytes := by
  intro rest
  obtain ⟨bytes, rfl⟩ := bytes
  simp [take]

theorem pure_parses (a : α) : Parses (pure a : Get ε α) [] a := fun _ => rfl

/-- Sequencing readers puts what they read side by side. -/
theorem Parses.bind {g : Get ε α} {f : α → Get ε β} {bs bs' : List UInt8} {a : α} {b : β}
    (hg : Parses g bs a) (hf : Parses (f a) bs' b) : Parses (g >>= f) (bs ++ bs') b := by
  intro rest
  have h := hf rest
  simp only [Bind.bind, StateT.bind, Except.bind, List.append_assoc, hg (bs' ++ rest), h]

theorem Parses.map {g : Get ε α} {bs : List UInt8} {a : α} (f : α → β) (hg : Parses g bs a) :
    Parses (f <$> g) bs (f a) := by
  intro rest
  simp only [Functor.map, StateT.map, Bind.bind, Except.bind, hg rest, Pure.pure, Except.pure]

/-- What is read for a value may differ from the value that was written. -/
theorem getMany_parses {g : Get ε β} {wire : α → List UInt8} {f : α → β} {as : List α}
    (h : ∀ a ∈ as, Parses g (wire a) (f a)) :
    Parses (getMany g as.length) (as.flatMap wire) (as.map f) := by
  induction as with
  | nil => exact pure_parses []
  | cons a as ih =>
    rw [List.forall_mem_cons] at h
    have htail : Parses (getMany g as.length >>= fun rest => pure (f a :: rest))
        (as.flatMap wire ++ []) (f a :: as.map f) := (ih h.2).bind (pure_parses _)
    rw [List.append_nil] at htail
    exact h.1.bind htail

end Readers

section RoundTrips

/-- Whatever `p` writes when it succeeds, `g` reads as `b`. -/
def Returns (p : Put ε) (g : Get ε β) (b : β) : Prop :=
  ∀ out out', p out = .ok out' →
    ∃ bytes, out'.written = out.written ++ bytes ∧ Parses g bytes b

variable {p : Put ε} {ps : List (Put ε)} {g : Get ε α} {a : α}

theorem Appends.returns {bytes : List UInt8} (hp : Appends p bytes) (hg : Parses g bytes a) :
    Returns p g a := by
  intro out out' hrun
  exact ⟨bytes, hp out out' hrun, hg⟩

theorem returns_nil (a : α) : Returns (putAll []) (pure a : Get ε α) a := by
  intro out out' hrun
  obtain rfl := Except.ok.inj hrun
  exact ⟨[], (List.append_nil _).symm, pure_parses a⟩

/-- Fields that are written one after the other are read one after the other. -/
theorem Returns.cons {f : α → Get ε β} {b : β} (hp : Returns p g a)
    (hps : Returns (putAll ps) (f a) b) : Returns (putAll (p :: ps)) (g >>= f) b := by
  intro out out' hrun
  rw [putAll] at hrun
  cases hfirst : p out with
  | error e =>
    rw [hfirst] at hrun
    cases hrun
  | ok mid =>
    rw [hfirst] at hrun
    obtain ⟨bytes, hmid, hg⟩ := hp out mid hfirst
    obtain ⟨bytes', hlast, hf⟩ := hps mid out' hrun
    refine ⟨bytes ++ bytes', ?_, hg.bind hf⟩
    rw [hlast, hmid, List.append_assoc]

theorem Returns.map (f : α → β) (hp : Returns p g a) : Returns p (f <$> g) (f a) := by
  intro out out' hrun
  obtain ⟨bytes, hwritten, hg⟩ := hp out out' hrun
  exact ⟨bytes, hwritten, hg.map f⟩

theorem getMany_returns {put : α → Put ε} {get : Get ε β} {f : α → β} {as : List α}
    (h : ∀ a ∈ as, Returns (put a) get (f a)) :
    Returns (putAll (as.map put)) (getMany get as.length) (as.map f) := by
  induction as with
  | nil => exact returns_nil []
  | cons a as ih =>
    rw [List.forall_mem_cons] at h
    apply h.1.cons
    have htail := (ih h.2).map fun rest => f a :: rest
    rwa [map_eq_pure_bind] at htail

end RoundTrips

section Checks

/-- `p` appends `bytes` if `Q` holds and they fit, and fails with one of the errors `E` if not. -/
structure Checks (E : ε → Prop) (p : Put ε) (bytes : List UInt8) (Q : Prop) : Prop where
  emits : Q → Emits p bytes
  refuses : ∀ out, out.written.length ≤ out.capacity →
    ¬ (Q ∧ out.written.length + bytes.length ≤ out.capacity) → ∃ e, E e ∧ p out = .error e

variable {E : ε → Prop} {p : Put ε} {ps : List (Put ε)} {bs bs' : List UInt8} {Q Q' : Prop}

theorem append_checks {e : ε} (he : E e) (bytes : List UInt8) : Checks E (append e bytes) bytes True where
  emits _ := append_emits e bytes
  refuses out _ hnot := by
    rw [true_and] at hnot
    exact ⟨e, he, if_neg (by omega)⟩

theorem checks_nil : Checks E (putAll []) [] True where
  emits _ := putAll_emits .nil
  refuses out hroom hnot := absurd ⟨trivial, by simpa using hroom⟩ hnot

/-- Fields that are written one after the other need room for all of them. -/
theorem Checks.cons (hp : Checks E p bs Q) (hps : Checks E (putAll ps) bs' Q') :
    Checks E (putAll (p :: ps)) (bs ++ bs') (Q ∧ Q') where
  emits hq out hle := by
    rw [List.length_append] at hle
    have hfirst := hp.emits hq.1 out (by omega)
    have hrest := hps.emits hq.2 { out with written := out.written ++ bs }
      (by simp only [List.length_append]; omega)
    simp only [putAll, hfirst, hrest, List.append_assoc]
  refuses out hroom hnot := by
    rw [List.length_append] at hnot
    by_cases hfirst : Q ∧ out.written.length + bs.length ≤ out.capacity
    · have hok := hp.emits hfirst.1 out hfirst.2
      obtain ⟨e, he, herror⟩ := hps.refuses { out with written := out.written ++ bs }
        (by simpa using hfirst.2) (by
          rintro ⟨hq', hle⟩
          simp only [List.length_append] at hle
          exact hnot ⟨⟨hfirst.1, hq'⟩, by omega⟩)
      exact ⟨e, he, by simp only [putAll, hok, herror]⟩
    · obtain ⟨e, he, herror⟩ := hp.refuses out hroom hfirst
      exact ⟨e, he, by simp only [putAll, herror]⟩

theorem Checks.congr (hp : Checks E p bs Q) (hQ : Q ↔ Q') : Checks E p bs Q' where
  emits hq := hp.emits (hQ.mpr hq)
  refuses out hroom hnot := hp.refuses out hroom (by rwa [hQ])

/-- A condition that is looked at before anything is written. -/
theorem Checks.guard [Decidable Q] {e : ε} (he : E e) (hp : Q → Checks E p bs Q') :
    Checks E (if Q then p else fun _ => .error e) bs (Q ∧ Q') where
  emits hq := by
    rw [if_pos hq.1]
    exact (hp hq.1).emits hq.2
  refuses out hroom hnot := by
    by_cases hq : Q
    · rw [if_pos hq]
      exact (hp hq).refuses out hroom fun h => hnot ⟨⟨hq, h.1⟩, h.2⟩
    · exact ⟨e, he, by rw [if_neg hq]⟩

theorem checks_map {α : Type} {put : α → Put ε} {wire : α → List UInt8} {C : α → Prop} {as : List α}
    (h : ∀ a ∈ as, Checks E (put a) (wire a) (C a)) :
    Checks E (putAll (as.map put)) (as.flatMap wire) (∀ a ∈ as, C a) := by
  induction as with
  | nil => exact checks_nil.congr (by simp)
  | cons a as ih =>
    rw [List.forall_mem_cons] at h
    rw [List.map_cons, List.flatMap_cons]
    exact (h.1.cons (ih h.2)).congr List.forall_mem_cons.symm

end Checks

section BigEndian

/-- The low `n` bytes of `x`, the most significant one first. -/
def bigEndian : ℕ → ℕ → List UInt8
  | 0, _ => []
  | n + 1, x => UInt8.ofNat (x >>> (8 * n)) :: bigEndian n x

/-- The number the bytes are read as: each byte is shifted to its place. -/
def ofBigEndian : List UInt8 → ℕ
  | [] => 0
  | b :: bs => b.toNat <<< (8 * bs.length) ||| ofBigEndian bs

@[simp] theorem length_bigEndian (n x : ℕ) : (bigEndian n x).length = n := by
  induction n with
  | zero => rfl
  | succ n ih => simp [bigEndian, ih]

theorem ofBigEndian_bigEndian (n x : ℕ) : ofBigEndian (bigEndian n x) = x % 2 ^ (8 * n) := by
  induction n with
  | zero => simp [bigEndian, ofBigEndian, Nat.mod_one]
  | succ n ih =>
    have hlow : x % 2 ^ (8 * n) < 2 ^ (8 * n) := Nat.mod_lt _ (by positivity)
    simp only [bigEndian, ofBigEndian, length_bigEndian, ih, UInt8.toNat_ofNat']
    rw [← Nat.shiftLeft_add_eq_or_of_lt hlow, Nat.shiftRight_eq_div_pow, Nat.shiftLeft_eq,
      Nat.mul_succ, pow_add, Nat.mod_mul]
    ring

end BigEndian

end YingSma.SerialFormat
