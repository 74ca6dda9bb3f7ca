import YingSma.InterestEntries
import YingSma.TransitionRuns

/-! A network of nodes with interests, in which announcements take their time and reach any
nodes in any order. An interest of another node expires with the last announcement by a node
that had it as its own. -/
namespace YingSma.InterestNetwork
open InterestHelper TransitionRuns

/-- An announcement in the air, as the interests that are read of it. -/
structure Packet where
  sentAt : TimePoint
  interests : List Interest

/-- All nodes read one clock, and what was sent can be delivered at any time. -/
structure Network (N : Type) where
  now : TimePoint
  helpers : N → InterestHelper
  air : List Packet

inductive Act (N : Type)
  | createLocal (node : N) (type : ContentType)
  | clearLocal (node : N)
  | announce (node : N) (fuzz : ℕ) (stack : ByteMemory)
  | deliver (k : ℕ) (node : N)

variable {N : Type}

/-- What is posted by a call of `announce`: nothing if nothing was sent. -/
def posted (now : TimePoint) (a : Announcement) (h' : InterestHelper) : List Packet :=
  if a.count ≠ 0 then [⟨now, (moved a h').map fun i => { i with expiryTime := 0 }⟩] else []

def perform [DecidableEq N] (net : Network N) : Act N → Except Fault (Network N)
  | .createLocal node type => .ok { net with
      helpers := Function.update net.helpers node (createLocal net.now type (net.helpers node)) }
  | .clearLocal node => .ok { net with
      helpers := Function.update net.helpers node (clearLocal (net.helpers node)) }
  | .announce node fuzz stack =>
      match announce net.now fuzz stack (net.helpers node) with
      | .error e => .error e
      | .ok (a, h') => .ok { net with
          helpers := Function.update net.helpers node h'
          air := net.air ++ posted net.now a h' }
  | .deliver k node =>
      match net.air[k]? with
      | none => .ok net
      | some p => .ok { net with
          helpers := Function.update net.helpers node
            (learnAll net.now p.interests (net.helpers node)) }

/-- An act `event.1` nanoseconds after the one before. -/
def step [DecidableEq N] (net : Network N) (event : ℕ × Act N) : Except Fault (Network N) :=
  perform { net with now := net.now + event.1 } event.2

/-- The nodes start without any interests. -/
def start (ids : N → NodeId) (now : TimePoint) : Network N := ⟨now, fun n => new (ids n) now, []⟩

/-- The way of an interest from the node that had it as its own: when that node announced
it, and the times at which each message on the way was sent and delivered. -/
structure Trail where
  origin : TimePoint
  links : List (TimePoint × TimePoint)

/-- The time spent in the air. -/
def Trail.flight (t : Trail) : ℤ := (t.links.map fun link => link.2 - link.1).sum

/-- `default_initial_ttl` -/
def initialTtl : ℤ := defaultInitialTtl.toNat * milli

/-- When an interest that came this way is to be gone. -/
def Trail.ending (t : Trail) : TimePoint := t.origin + initialTtl + t.flight

/-- The announcements of interests by nodes that had them as their own, the way on which
each node has learned of each type, and the ways of what is in the air. -/
structure Notes (N : Type) where
  origins : List (ContentType × TimePoint)
  trail : N → ContentType → Trail
  carried : List (ContentType → Trail)

/-- The way of an interest in a message starts there if the sender has it as its own. -/
def carriedBy (p : Packet) (trail : ContentType → Trail) (type : ContentType) : Trail :=
  if p.interests.any fun i => i.isLocal && i.type = type then ⟨p.sentAt, []⟩ else trail type

/-- A type that is new to the node has come over one more link. -/
def learned (sentAt now : TimePoint) (before after : InterestHelper)
    (trail carried : ContentType → Trail) (type : ContentType) : Trail :=
  if type ∈ types before ∨ type ∉ types after then trail type
  else ⟨(carried type).origin, (carried type).links ++ [(sentAt, now)]⟩

def note [DecidableEq N] (g : Notes N) (net : Network N) (event : ℕ × Act N) (net' : Network N) : Notes N :=
  match event.2 with
  | .createLocal _ _ => g
  | .clearLocal _ => g
  | .announce node _ _ =>
      let sent := net'.air.drop net.air.length
      { g with
        origins := g.origins ++ sent.flatMap fun p =>
          (p.interests.filter Interest.isLocal).map fun i => (i.type, p.sentAt)
        carried := g.carried ++ sent.map fun p => carriedBy p (g.trail node) }
  | .deliver k node =>
      match net.air[k]?, g.carried[k]? with
      | some p, some carried => { g with
          trail := Function.update g.trail node
            (learned p.sentAt net'.now (net.helpers node) (net'.helpers node) (g.trail node) carried) }
      | _, _ => g

/-- Nothing has been announced or learned. -/
def Notes.empty : Notes N := ⟨[], fun _ _ => ⟨0, []⟩, []⟩

/-- Each interest of another node was announced by a node that had it as its own, and
expires at most the initial time to live and the time in the air after that. -/
def Bounded (r : Notes N × Network N) : Prop :=
  ∀ node, ∀ e ∈ (r.2.helpers node).interests, e.remote →
    (e.type, (r.1.trail node e.type).origin) ∈ r.1.origins ∧
      e.expiryTime ≤ (r.1.trail node e.type).ending

/-- A node that does not have an interest as its own announces it before that time only. -/
def Silent (r : Notes N × Network N) (event : ℕ × Act N) : Prop :=
  ∀ node fuzz stack a h', event.2 = .announce node fuzz stack →
    announce (r.2.now + event.1) fuzz stack (r.2.helpers node) = .ok (a, h') →
    ∀ i ∈ moved a h', i.isLocal ∨
      ((i.type, (r.1.trail node i.type).origin) ∈ r.1.origins ∧
        r.2.now + event.1 < (r.1.trail node i.type).ending)

/-- An entry of a node, whatever it has learned the interest by. -/
structure Tracked (origins : List (ContentType × TimePoint)) (now : TimePoint)
    (trail : ContentType → Trail) (e : Interest) : Prop where
  ttl_le : e.ttlMs.toNat * milli ≤ initialTtl
  expiry_le : e.expiryTime ≤ now + initialTtl
  came : e.hops ≠ 0 →
    (e.type, (trail e.type).origin) ∈ origins ∧ e.expiryTime ≤ (trail e.type).ending

/-- What a message has on its way, as far as its interests can live. -/
def Carries (origins : List (ContentType × TimePoint)) (p : Packet)
    (carried : ContentType → Trail) : Prop :=
  ∀ i ∈ p.interests, i.ttlMs.toNat * milli ≤ initialTtl ∧
    (i.type, (carried i.type).origin) ∈ origins ∧
    p.sentAt + i.ttlMs.toNat * milli ≤ (carried i.type).ending

/-- Everything in the network came from a node that had it as its own. -/
structure Sound (r : Notes N × Network N) : Prop where
  nodes : ∀ node, ∀ e ∈ (r.2.helpers node).interests,
    Tracked r.1.origins r.2.now (r.1.trail node) e
  air : List.Forall₂ (Carries r.1.origins) r.2.air r.1.carried

section Entries

variable {origins origins' : List (ContentType × TimePoint)} {now later : TimePoint}
variable {trail : ContentType → Trail} {e : Interest}

theorem Tracked.mono (ht : Tracked origins now trail e) (hsub : origins ⊆ origins')
    (hle : now ≤ later) : Tracked origins' later trail e where
  ttl_le := ht.ttl_le
  expiry_le := ht.expiry_le.trans (add_le_add_left hle _)
  came hremote := (ht.came hremote).imp_left fun hmem => hsub hmem

theorem Carries.mono {p : Packet} (hc : Carries origins p trail) (hsub : origins ⊆ origins') :
    Carries origins' p trail := by
  intro i hi
  obtain ⟨httl, hmem, hle⟩ := hc i hi
  exact ⟨httl, hsub hmem, hle⟩

/-- The whole milliseconds left, back in nanoseconds. -/
theorem ofInt_le {left : ℤ} (hpos : 0 ≤ left) :
    (UInt32.ofInt (left / milli)).toNat * milli ≤ left := by
  have hnonneg : 0 ≤ left / milli := Int.ediv_nonneg hpos (by decide)
  have hnarrow : (UInt32.ofInt (left / milli)).toNat * milli ≤ left / milli * milli :=
    mul_le_mul_of_nonneg_right (toNat_ofInt_le hnonneg) (by decide)
  exact hnarrow.trans (Int.ediv_mul_le left (by decide))

/-- An interest of another node that can be announced has not expired, and what it has left
is what is announced. -/
theorem elapse_remote (hremote : e.hops ≠ 0) (hlive : ¬ (e.elapseTtl now).expired) :
    now < e.expiryTime ∧ now + (e.elapseTtl now).ttlMs.toNat * milli ≤ e.expiryTime := by
  have hnotlocal : ¬ e.isLocal := by simpa [Interest.isLocal] using hremote
  unfold Interest.elapseTtl at hlive ⊢
  rw [if_neg hnotlocal] at hlive ⊢
  split_ifs at hlive ⊢ with hpast
  · simp [Interest.expired] at hlive
  · have hfuture := not_le.mp hpast
    refine ⟨hfuture, ?_⟩
    rw [add_comm]
    exact le_sub_iff_add_le.mp (ofInt_le (sub_nonneg.mpr hfuture.le))

theorem elapse_tracked (ht : Tracked origins now trail e) (hlive : ¬ (e.elapseTtl now).expired) :
    Tracked origins now trail (e.elapseTtl now) := by
  by_cases hlocal : e.hops = 0
  · rw [Interest.elapseTtl_local hlocal]
    exact ⟨ht.ttl_le, add_le_add_right ht.ttl_le now, fun hremote => (hremote hlocal).elim⟩
  · have hexpiry := Interest.elapseTtl_expiryTime hlocal now
    refine ⟨?_, hexpiry ▸ ht.expiry_le, ?_⟩
    · have hle := (elapse_remote hlocal hlive).2.trans ht.expiry_le
      exact (add_le_add_iff_left now).mp hle
    · intro _
      rw [Interest.elapseTtl_type, hexpiry]
      exact ht.came hlocal

theorem new_tracked (type : ContentType) :
    Tracked origins now trail (Interest.new now type defaultInitialTtl 0) :=
  ⟨le_rfl, le_rfl, fun hremote => (hremote rfl).elim⟩

end Entries

section Messages

variable {origins : List (ContentType × TimePoint)} {now : TimePoint}
variable {trail : ContentType → Trail} {h h' : InterestHelper}

/-- The own interests in what was sent, as they are noted. -/
def ownIn (sent : List Packet) : List (ContentType × TimePoint) :=
  sent.flatMap fun p => (p.interests.filter Interest.isLocal).map fun i => (i.type, p.sentAt)

theorem posted_carries {fuzz : ℕ} {stack : ByteMemory} {a : Announcement}
    (hentries : ∀ e ∈ h.interests, Tracked origins now trail e)
    (hrun : announce now fuzz stack h = .ok (a, h')) :
    List.Forall₂ (Carries (origins ++ ownIn (posted now a h'))) (posted now a h')
      ((posted now a h').map fun p => carriedBy p trail) := by
  rw [List.forall₂_map_right_iff, List.forall₂_same]
  intro p hp i hi
  have hmoved : p.sentAt = now ∧ ∃ j ∈ moved a h', i = { j with expiryTime := 0 } := by
    unfold posted at hp
    split_ifs at hp
    · obtain rfl := List.mem_singleton.mp hp
      obtain ⟨j, hj, rfl⟩ := List.mem_map.mp hi
      exact ⟨rfl, j, hj, rfl⟩
    · cases hp
  obtain ⟨hsent, j, hj, rfl⟩ := hmoved
  obtain ⟨e, he, rfl, hlive⟩ := mem_moved hrun hj
  have ht := elapse_tracked (hentries e he) hlive
  refine ⟨ht.ttl_le, ?_⟩
  dsimp only
  unfold carriedBy
  split_ifs with hown
  · -- the sender has the interest as its own, and the way starts here
    obtain ⟨l, hl, hsame⟩ := List.any_eq_true.mp hown
    rw [Bool.and_eq_true, decide_eq_true_eq] at hsame
    have hnoted : (l.type, p.sentAt) ∈ ownIn (posted now a h') :=
      List.mem_flatMap.mpr ⟨p, hp, List.mem_map.mpr ⟨l, List.mem_filter.mpr ⟨hl, hsame.1⟩, rfl⟩⟩
    refine ⟨List.mem_append_right _ (hsame.2 ▸ hnoted), ?_⟩
    simp only [Trail.ending, Trail.flight, List.map_nil, List.sum_nil, add_zero]
    exact add_le_add_right ht.ttl_le _
  · have hremote : e.hops ≠ 0 := by
      intro hlocal
      apply hown
      refine List.any_eq_true.mpr ⟨_, hi, ?_⟩
      simp [Interest.isLocal, hlocal]
    obtain ⟨hmem, hle⟩ := (hentries e he).came hremote
    rw [Interest.elapseTtl_type, hsent]
    exact ⟨List.mem_append_left _ hmem,
      (elapse_remote hremote hlive).2.trans hle⟩

/-- A delivery leaves known interests the time they had and gives new ones what is left. -/
theorem learned_tracked {p : Packet} {carried : ContentType → Trail}
    (hentries : ∀ e ∈ h.interests, Tracked origins now trail e) (hp : Carries origins p carried) :
    ∀ e ∈ (learnAll now p.interests h).interests, Tracked origins now
      (learned p.sentAt now h (learnAll now p.interests h) trail carried) e := by
  -- the ways of the types the node had, and of those it may get
  let ways := fun type => if type ∈ types h then trail type
    else ⟨(carried type).origin, (carried type).links ++ [(p.sentAt, now)]⟩
  have hall : ∀ e ∈ (learnAll now p.interests h).interests, Tracked origins now ways e := by
    apply @learnAll_entries now h (types h) (Tracked origins now ways) p.interests _ _
      (List.Subset.refl _)
    · intro e he
      obtain ⟨httl, hexpiry, hcame⟩ := hentries e he
      refine ⟨httl, hexpiry, ?_⟩
      simpa only [ways, if_pos (mem_types he)] using hcame
    · intro j hj e _ he
      refine ⟨?_, he.expiry_le, ?_⟩
      · rw [Interest.updateWith_ttlMs]
        split_ifs
        · exact (hp j hj).1
        · exact he.ttl_le
      · intro hremote
        apply he.came
        intro hlocal
        apply hremote
        have hnot : ¬ j.hops + 1 < 0 := UInt8.not_lt.mpr UInt8.zero_le
        rw [Interest.updateWith_hops, hlocal]
        exact if_neg hnot
    · intro j hj hnew
      obtain ⟨httl, hmem, hle⟩ := hp j hj
      refine ⟨httl, add_le_add_right httl now, ?_⟩
      intro _
      simp only [ways, Interest.new, if_neg hnew]
      refine ⟨hmem, ?_⟩
      simp only [Trail.ending, Trail.flight, List.map_append, List.sum_append, List.map_cons,
        List.map_nil, List.sum_cons, List.sum_nil] at hle ⊢
      linarith
  intro e he
  have hway : learned p.sentAt now h (learnAll now p.interests h) trail carried e.type =
      ways e.type := by
    simp [learned, ways, mem_types he]
  obtain ⟨httl, hexpiry, hcame⟩ := hall e he
  rw [← hway] at hcame
  exact ⟨httl, hexpiry, hcame⟩

end Messages

section Runs

variable {g : Notes N} {net net' : Network N}

theorem sound_advance (wait : ℕ) (hsound : Sound (g, net)) :
    Sound (g, { net with now := net.now + wait }) where
  nodes node e he := (hsound.nodes node e he).mono (List.Subset.refl _)
    (le_add_of_nonneg_right (Int.natCast_nonneg wait))
  air := hsound.air

theorem sound_start (ids : N → NodeId) (now : TimePoint) :
    Sound (Notes.empty, start ids now) where
  nodes node e he := by cases he
  air := .nil

theorem Sound.bounded {r : Notes N × Network N} (hsound : Sound r) : Bounded r := by
  intro node e he hremote
  exact (hsound.nodes node e he).came (by simpa [Interest.remote] using hremote)

theorem Sound.silent {r : Notes N × Network N} (hsound : Sound r) (event : ℕ × Act N) :
    Silent r event := by
  intro node fuzz stack a h' _ hrun i hi
  obtain ⟨e, he, rfl, hlive⟩ := mem_moved hrun hi
  have ht := (sound_advance event.1 hsound).nodes node e he
  by_cases hlocal : e.hops = 0
  · apply Or.inl
    simpa [Interest.isLocal] using hlocal
  · obtain ⟨hmem, hle⟩ := ht.came hlocal
    apply Or.inr
    rw [Interest.elapseTtl_type]
    exact ⟨hmem, (elapse_remote hlocal hlive).1.trans_le hle⟩

variable [DecidableEq N]

/-- A node may change its own entries, as long as they came from where it is noted. -/
theorem sound_update {node : N} {h' : InterestHelper} (hsound : Sound (g, net))
    (hentries : ∀ e ∈ h'.interests, Tracked g.origins net.now (g.trail node) e) :
    Sound (g, { net with helpers := Function.update net.helpers node h' }) where
  nodes := (Function.forall_update_iff net.helpers fun n h =>
    ∀ e ∈ h.interests, Tracked g.origins net.now (g.trail n) e).mpr
      ⟨hentries, fun n _ => hsound.nodes n⟩
  air := hsound.air

theorem announce_sound {node : N} {fuzz : ℕ} {stack : ByteMemory} {wait : ℕ}
    (hsound : Sound (g, net)) (hs : perform net (.announce node fuzz stack) = .ok net') :
    Sound (note g net (wait, .announce node fuzz stack) net', net') := by
  simp only [perform] at hs
  cases hrun : announce net.now fuzz stack (net.helpers node) with
  | error e =>
    rw [hrun] at hs
    cases hs
  | ok r =>
    obtain ⟨a, h'⟩ := r
    rw [hrun] at hs
    obtain rfl := Except.ok.inj hs
    have hentries : ∀ e ∈ h'.interests, Tracked g.origins net.now (g.trail node) e := by
      intro e he
      obtain ⟨e₀, he₀, rfl | ⟨rfl, hlive⟩⟩ := mem_announce hrun he
      · exact hsound.nodes node _ he₀
      · exact elapse_tracked (hsound.nodes node e₀ he₀) hlive
    have hupdated := sound_update hsound hentries
    simp only [note, List.drop_left]
    constructor
    · intro n e he
      exact (hupdated.nodes n e he).mono (List.subset_append_left _ _) le_rfl
    · apply List.rel_append
      · exact hsound.air.imp fun p carried hc => hc.mono (List.subset_append_left _ _)
      · exact posted_carries (hsound.nodes node) hrun

theorem deliver_sound {node : N} {k wait : ℕ} (hsound : Sound (g, net))
    (hs : perform net (.deliver k node) = .ok net') :
    Sound (note g net (wait, .deliver k node) net', net') := by
  simp only [perform] at hs
  cases hair : net.air[k]? with
  | none =>
    rw [hair] at hs
    obtain rfl := Except.ok.inj hs
    simpa only [note, hair] using hsound
  | some p =>
    rw [hair] at hs
    obtain rfl := Except.ok.inj hs
    obtain ⟨carried, hcarried, hp⟩ := getElem?_beside hsound.air hair
    have hlearned := learned_tracked (hsound.nodes node) hp
    simp only [note, hair, hcarried, Function.update_self]
    refine ⟨?_, hsound.air⟩
    exact @update_beside N _ (ContentType → Trail) InterestHelper
      (fun _ trail h => ∀ e ∈ h.interests, Tracked g.origins net.now trail e) _ _ _ _ _
      hsound.nodes hlearned

theorem step_sound {event : ℕ × Act N} (hsound : Sound (g, net)) (hs : step net event = .ok net') :
    Sound (note g net event net', net') := by
  obtain ⟨wait, act⟩ := event
  have hnow := sound_advance wait hsound
  cases act with
  | createLocal node type =>
    obtain rfl := Except.ok.inj hs
    apply sound_update hnow
    intro e he
    rcases mem_createLocal he with he | rfl
    · exact hnow.nodes node e he
    · exact new_tracked type
  | clearLocal node =>
    obtain rfl := Except.ok.inj hs
    apply sound_update hnow
    intro e he
    exact hnow.nodes node e (List.mem_of_mem_filter he)
  | announce node fuzz stack =>
    have hnext := @announce_sound _ g _ net' _ node fuzz stack wait hnow hs
    exact hnext
  | deliver k node =>
    have hnext := @deliver_sound _ g _ net' _ node k wait hnow hs
    exact hnext

/-- In every state of every run the interests of other nodes are bounded by the last
announcements of the nodes that had them, and nobody announces them later. -/
theorem interests_die_out (ids : N → NodeId) (now : TimePoint) (events : List (ℕ × Act N)) :
    Always (noted step note) Bounded (Notes.empty, start ids now) events ∧
      Each (noted step note) Silent (Notes.empty, start ids now) events := by
  have hrun : ∀ past r, run (noted step note) (Notes.empty, start ids now) past = .ok r →
      Sound r := by
    intro past r hr
    refine run_invariant Sound ?_ (sound_start ids now) hr
    intro r event r' hsound hs
    obtain ⟨hstep, hnoted⟩ := noted_ok hs
    have hnext := step_sound hsound hstep
    rwa [← hnoted] at hnext
  constructor
  · apply always_of_run
    intro r past hr
    exact (hrun past r hr).bounded
  · apply each_of_prefixes
    intro past event r _ hr
    exact (hrun past r hr).silent event

end Runs

end YingSma.InterestNetwork
