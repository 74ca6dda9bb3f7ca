import Mathlib.Computability.Language
import YingSma.SerialFormat

/-! The words a reader of a binary format accepts, as a language over the bytes. -/
namespace YingSma.SerialFormat

variable {ε α β : Type}

/-- What `g` takes from the front of its input is a word of `L`, and it takes each of them. -/
structure Accepts (g : Get ε α) (L : Language UInt8) : Prop where
  sound : ∀ input a rest, g input = .ok (a, rest) → ∃ w ∈ L, input = w ++ rest
  complete : ∀ w ∈ L, ∀ rest, ∃ a, g (w ++ rest) = .ok (a, rest)

/-- Each word of `L` is read as the value `f` gives it. -/
structure AcceptsAs (g : Get ε α) (L : Language UInt8) (f : List UInt8 → α) : Prop where
  sound : ∀ input a rest, g input = .ok (a, rest) → ∃ w ∈ L, input = w ++ rest ∧ a = f w
  complete : ∀ w ∈ L, Parses g w (f w)

/-- The words of `n` bytes. -/
def bytes (n : ℕ) : Language UInt8 := {w | w.length = n}

/-- A word of `L` and behind it a word of the language it chooses. -/
def choose (L : Language UInt8) (M : List UInt8 → Language UInt8) : Language UInt8 :=
  {w | ∃ u ∈ L, ∃ v ∈ M u, w = u ++ v}

@[simp] theorem mem_bytes {n : ℕ} {w : List UInt8} : w ∈ bytes n ↔ w.length = n := Iff.rfl

theorem bytes_mul (m n : ℕ) : bytes m * bytes n = bytes (m + n) := by
  ext w
  rw [Language.mem_mul, mem_bytes]
  constructor
  · rintro ⟨u, hu, v, hv, rfl⟩
    rw [List.length_append, mem_bytes.mp hu, mem_bytes.mp hv]
  · intro hw
    refine ⟨w.take m, ?_, w.drop m, ?_, List.take_append_drop m w⟩
    · rw [mem_bytes, List.length_take]
      omega
    · rw [mem_bytes, List.length_drop]
      omega

section Readers

variable {g : Get ε α} {L M : Language UInt8}

theorem bind_eq_ok {f : α → Get ε β} {input rest : List UInt8} {b : β}
    (h : (g >>= f) input = .ok (b, rest)) :
    ∃ a mid, g input = .ok (a, mid) ∧ f a mid = .ok (b, rest) := by
  simp only [Bind.bind, StateT.bind, Except.bind] at h
  cases hg : g input with
  | error e =>
    rw [hg] at h
    cases h
  | ok out =>
    rw [hg] at h
    exact ⟨out.1, out.2, rfl, h⟩

theorem bind_ok_of {f : α → Get ε β} {input mid rest : List UInt8} {a : α} {b : β}
    (hg : g input = .ok (a, mid)) (hf : f a mid = .ok (b, rest)) :
    (g >>= f) input = .ok (b, rest) := by
  simp only [Bind.bind, StateT.bind, Except.bind, hg, hf]

theorem AcceptsAs.accepts {f : List UInt8 → α} (h : AcceptsAs g L f) : Accepts g L where
  sound input a rest hg := by
    obtain ⟨w, hw, hinput, -⟩ := h.sound input a rest hg
    exact ⟨w, hw, hinput⟩
  complete w hw rest := ⟨f w, h.complete w hw rest⟩

/-- A reader succeeds on the inputs that begin with one of its words. -/
theorem Accepts.ok_iff (h : Accepts g L) (input : List UInt8) :
    (∃ out, g input = .ok out) ↔ ∃ w ∈ L, w <+: input := by
  constructor
  · rintro ⟨⟨a, rest⟩, hg⟩
    obtain ⟨w, hw, rfl⟩ := h.sound input a rest hg
    exact ⟨w, hw, List.prefix_append w rest⟩
  · rintro ⟨w, hw, rest, rfl⟩
    obtain ⟨a, hg⟩ := h.complete w hw rest
    exact ⟨_, hg⟩

theorem pure_accepts (a : α) : Accepts (pure a : Get ε α) 1 where
  sound input b rest h := by
    obtain ⟨-, rfl⟩ := Prod.mk.inj (Except.ok.inj h)
    exact ⟨[], rfl, rfl⟩
  complete w hw rest := by
    rw [Language.mem_one] at hw
    subst hw
    exact ⟨a, rfl⟩

theorem Accepts.bind {f : α → Get ε β} (hg : Accepts g L) (hf : ∀ a, Accepts (f a) M) :
    Accepts (g >>= f) (L * M) where
  sound input b rest h := by
    obtain ⟨a, mid, hfirst, hsecond⟩ := bind_eq_ok h
    obtain ⟨u, hu, rfl⟩ := hg.sound input a mid hfirst
    obtain ⟨v, hv, rfl⟩ := (hf a).sound mid b rest hsecond
    exact ⟨u ++ v, Language.append_mem_mul hu hv, (List.append_assoc u v rest).symm⟩
  complete w hw rest := by
    obtain ⟨u, hu, v, hv, rfl⟩ := Language.mem_mul.mp hw
    obtain ⟨a, hfirst⟩ := hg.complete u hu (v ++ rest)
    obtain ⟨b, hsecond⟩ := (hf a).complete v hv rest
    exact ⟨b, by rw [List.append_assoc]; exact bind_ok_of hfirst hsecond⟩

/-- What is read next depends on the value read first. -/
theorem AcceptsAs.bind {f : α → Get ε β} {value : List UInt8 → α} {M : List UInt8 → Language UInt8}
    (hg : AcceptsAs g L value) (hf : ∀ w ∈ L, Accepts (f (value w)) (M w)) :
    Accepts (g >>= f) (choose L M) where
  sound input b rest h := by
    obtain ⟨a, mid, hfirst, hsecond⟩ := bind_eq_ok h
    obtain ⟨u, hu, rfl, rfl⟩ := hg.sound input a mid hfirst
    obtain ⟨v, hv, rfl⟩ := (hf u hu).sound mid b rest hsecond
    exact ⟨u ++ v, ⟨u, hu, v, hv, rfl⟩, (List.append_assoc u v rest).symm⟩
  complete w hw rest := by
    obtain ⟨u, hu, v, hv, rfl⟩ := hw
    obtain ⟨b, hsecond⟩ := (hf u hu).complete v hv rest
    exact ⟨b, by rw [List.append_assoc]; exact bind_ok_of (hg.complete u hu (v ++ rest)) hsecond⟩

/-- What is computed from the last value takes no bytes. -/
theorem Accepts.last {f : α → β} (hg : Accepts g L) : Accepts (g >>= fun a => pure (f a)) L := by
  have hbind := hg.bind fun a => (pure_accepts (f a) : Accepts (pure (f a) : Get ε β) 1)
  rwa [mul_one] at hbind

theorem Accepts.map (f : α → β) (hg : Accepts g L) : Accepts (f <$> g) L := by
  rw [map_eq_pure_bind]
  exact hg.last

theorem map_eq_ok {f : α → β} {input rest : List UInt8} {b : β} (h : (f <$> g) input = .ok (b, rest)) :
    ∃ a, g input = .ok (a, rest) ∧ f a = b := by
  rw [map_eq_pure_bind] at h
  obtain ⟨a, mid, hg, hpure⟩ := bind_eq_ok h
  obtain ⟨rfl, rfl⟩ := Prod.mk.inj (Except.ok.inj hpure)
  exact ⟨a, hg, rfl⟩

theorem map_ok_of (f : α → β) {input rest : List UInt8} {a : α} (h : g input = .ok (a, rest)) :
    (f <$> g) input = .ok (f a, rest) := by
  rw [map_eq_pure_bind]
  exact bind_ok_of h rfl

theorem take_eq_ok {e : ε} {n : ℕ} {input rest : List UInt8} {buf : {w : List UInt8 // w.length = n}}
    (h : take e n input = .ok (buf, rest)) : input = buf.1 ++ rest := by
  unfold take at h
  split_ifs at h
  obtain ⟨rfl, rfl⟩ := Prod.mk.inj (Except.ok.inj h)
  exact (List.take_append_drop n input).symm

theorem take_accepts (e : ε) (n : ℕ) : Accepts (take e n) (bytes n) where
  sound _ buf _ h := ⟨buf.1, buf.2, take_eq_ok h⟩
  complete w hw rest := ⟨⟨w, hw⟩, take_parses e ⟨w, hw⟩ rest⟩

/-- A value computed from `n` bytes. -/
theorem take_acceptsAs (e : ε) (n : ℕ) (f : List UInt8 → α) :
    AcceptsAs (take e n >>= fun buf => pure (f buf.1)) (bytes n) f where
  sound input a rest h := by
    obtain ⟨buf, mid, htake, hpure⟩ := bind_eq_ok h
    obtain ⟨rfl, rfl⟩ := Prod.mk.inj (Except.ok.inj hpure)
    exact ⟨buf.1, buf.2, take_eq_ok htake, rfl⟩
  complete w hw rest := bind_ok_of (take_parses e ⟨w, hw⟩ rest) rfl

theorem getMany_accepts (hg : Accepts g L) (n : ℕ) : Accepts (getMany g n) (L ^ n) := by
  induction n with
  | zero => exact pure_accepts []
  | succ n ih =>
    rw [pow_succ']
    exact hg.bind fun a => ih.last

end Readers

section Canonical

/-- A value is read from the bytes it is written as, and from no others. -/
def Canonical (g : Get ε α) (wire : α → List UInt8) : Prop :=
  ∀ input a rest, g input = .ok (a, rest) → input = wire a ++ rest

theorem getMany_canonical {g : Get ε α} {wire : α → List UInt8} (hg : Canonical g wire) {n : ℕ}
    {input rest : List UInt8} {as : List α} (h : getMany g n input = .ok (as, rest)) :
    as.length = n ∧ input = as.flatMap wire ++ rest := by
  induction n generalizing input as with
  | zero =>
    obtain ⟨rfl, rfl⟩ := Prod.mk.inj (Except.ok.inj h)
    exact ⟨rfl, rfl⟩
  | succ n ih =>
    obtain ⟨a, mid, hfirst, hrest⟩ := bind_eq_ok h
    obtain ⟨as', mid', hmany, hpure⟩ := bind_eq_ok hrest
    obtain ⟨rfl, rfl⟩ := Prod.mk.inj (Except.ok.inj hpure)
    obtain ⟨hlen, rfl⟩ := ih hmany
    obtain rfl := hg input a _ hfirst
    refine ⟨congrArg (· + 1) hlen, ?_⟩
    rw [List.flatMap_cons, List.append_assoc]

theorem bigEndian_mod (n x : ℕ) : bigEndian n (x % 2 ^ (8 * n)) = bigEndian n x := by
  induction n generalizing x with
  | zero => rfl
  | succ n ih =>
    have hlow : x % 2 ^ (8 * (n + 1)) % 2 ^ (8 * n) = x % 2 ^ (8 * n) :=
      Nat.mod_mod_of_dvd x (pow_dvd_pow 2 (by omega))
    have hhigh : UInt8.ofNat ((x % 2 ^ (8 * (n + 1))) >>> (8 * n)) = UInt8.ofNat (x >>> (8 * n)) := by
      apply UInt8.toNat_inj.mp
      rw [UInt8.toNat_ofNat', UInt8.toNat_ofNat', Nat.shiftRight_eq_div_pow, Nat.shiftRight_eq_div_pow,
        Nat.mul_succ, pow_add, Nat.mod_mul_right_div_self, Nat.mod_mod]
    rw [bigEndian, bigEndian, hhigh, ← ih, hlow, ih]

theorem ofBigEndian_lt (w : List UInt8) : ofBigEndian w < 2 ^ (8 * w.length) := by
  induction w with
  | nil => decide
  | cons b w ih =>
    have hb := b.toNat_lt
    rw [ofBigEndian, ← Nat.shiftLeft_add_eq_or_of_lt ih, Nat.shiftLeft_eq, List.length_cons,
      Nat.mul_succ, pow_add]
    nlinarith [Nat.one_le_two_pow (n := 8 * w.length)]

/-- Writing a number that was read gives its bytes back. -/
theorem bigEndian_ofBigEndian (w : List UInt8) : bigEndian w.length (ofBigEndian w) = w := by
  induction w with
  | nil => rfl
  | cons b w ih =>
    have hlt := ofBigEndian_lt w
    have hsum : ofBigEndian (b :: w) = b.toNat * 2 ^ (8 * w.length) + ofBigEndian w := by
      rw [ofBigEndian, ← Nat.shiftLeft_add_eq_or_of_lt hlt, Nat.shiftLeft_eq]
    have hhigh : ofBigEndian (b :: w) >>> (8 * w.length) = b.toNat := by
      rw [hsum, Nat.shiftRight_eq_div_pow, mul_comm, Nat.mul_add_div (by positivity),
        Nat.div_eq_of_lt hlt, add_zero]
    have hlow : ofBigEndian (b :: w) % 2 ^ (8 * w.length) = ofBigEndian w := by
      rw [hsum, mul_comm, Nat.mul_add_mod, Nat.mod_eq_of_lt hlt]
    rw [List.length_cons, bigEndian, hhigh, UInt8.ofNat_toNat, ← bigEndian_mod, hlow, ih]

end Canonical

end YingSma.SerialFormat
