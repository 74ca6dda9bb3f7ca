import YingSma.InterestHelper
import YingSma.SerialGrammar

/-! The byte strings that the constructors of the messages accept. -/
namespace YingSma
open SerialFormat BinaryInput

namespace Words

/-- The prefix of a string: one byte below 128, or two bytes. -/
def stringPrefix : Language UInt8 :=
  {w | (∃ b, w = [b] ∧ b.toNat < 128) ∨ ∃ b low, w = [b, low] ∧ 128 ≤ b.toNat}

/-- The size a prefix stands for. -/
def stringLength : List UInt8 → ℕ
  | [b] => b.toNat
  | b :: low :: _ => (b.toNat - 128) * 256 + low.toNat
  | [] => 0

def string : Language UInt8 := choose stringPrefix fun p => bytes (stringLength p)

/-- As many words as the first byte says. -/
def vector (L : Language UInt8) : Language UInt8 := choose (bytes 1) fun n => L ^ (n.headD 0).toNat

def interest : Language UInt8 := string * bytes 5

def metadata : Language UInt8 := bytes 40 * (vector string * (string * bytes 31))

def beacon : Language UInt8 := bytes 17

/-- The data, behind the number of interests they begin with and their size. -/
def interestAnn : Language UInt8 :=
  choose (bytes 1) fun count => choose (bytes 2) fun size =>
    {data | data.length = ofBigEndian size ∧ ∃ u ∈ interest ^ (count.headD 0).toNat, u <+: data}

def contentAnn : Language UInt8 := vector metadata

def blockRequest : Language UInt8 := vector (bytes 61)

/-- The block, and the data behind their size. -/
def blockResponse : Language UInt8 := bytes 34 * choose (bytes 4) fun n => bytes (ofBigEndian n)

/-- The messages that are known by this typecode. -/
def message (typecode : UInt8) : Option (Language UInt8) :=
  if typecode = 0 then some beacon
  else if typecode = 16 then some interestAnn
  else if typecode = 17 then some contentAnn
  else if typecode = 18 then some blockRequest
  else if typecode = 19 then some blockResponse
  else none

end Words

section Primitives

theorem read_accepts (n : ℕ) : Accepts (read n) (bytes n) := take_accepts _ n

theorem getUInt8_acceptsAs : AcceptsAs getUInt8 (bytes 1) fun w => w.headD 0 :=
  take_acceptsAs _ 1 fun w => w.headD 0

theorem getUInt16_acceptsAs :
    AcceptsAs getUInt16 (bytes 2) fun w => UInt16.ofNat (ofBigEndian w) :=
  take_acceptsAs _ 2 fun w => UInt16.ofNat (ofBigEndian w)

theorem getUInt32_acceptsAs :
    AcceptsAs getUInt32 (bytes 4) fun w => UInt32.ofNat (ofBigEndian w) :=
  take_acceptsAs _ 4 fun w => UInt32.ofNat (ofBigEndian w)

theorem toNat_uint16 {w : List UInt8} (hw : w ∈ bytes 2) :
    (UInt16.ofNat (ofBigEndian w)).toNat = ofBigEndian w := by
  have hlt := ofBigEndian_lt w
  rw [mem_bytes.mp hw] at hlt
  rw [UInt16.toNat_ofNat', Nat.mod_eq_of_lt hlt]

theorem toNat_uint32 {w : List UInt8} (hw : w ∈ bytes 4) :
    (UInt32.ofNat (ofBigEndian w)).toNat = ofBigEndian w := by
  have hlt := ofBigEndian_lt w
  rw [mem_bytes.mp hw] at hlt
  rw [UInt32.toNat_ofNat', Nat.mod_eq_of_lt hlt]

theorem getUInt8_accepts : Accepts getUInt8 (bytes 1) := getUInt8_acceptsAs.accepts

theorem getUInt16_accepts : Accepts getUInt16 (bytes 2) := getUInt16_acceptsAs.accepts

theorem getUInt32_accepts : Accepts getUInt32 (bytes 4) := getUInt32_acceptsAs.accepts

theorem getUInt64_accepts : Accepts getUInt64 (bytes 8) :=
  (take_acceptsAs _ 8 fun w => UInt64.ofNat (ofBigEndian w)).accepts

theorem getBool_accepts : Accepts getBool (bytes 1) :=
  (take_acceptsAs _ 1 fun w => w.headD 0 != 1).accepts

/-- The high bit of a byte, and what is left of it without that bit. -/
theorem prefix_bits :
    ∀ n < 256, ((UInt8.ofNat n).toUInt16 &&& 0x80 = 0 ↔ n < 128) ∧
      (128 ≤ n → ((UInt8.ofNat n).toUInt16 &&& ~~~0x80).toNat = n - 128) := by
  decide +kernel

theorem byte_bits (b : UInt8) : (b.toUInt16 &&& 0x80 = 0 ↔ b.toNat < 128) ∧
    (128 ≤ b.toNat → (b.toUInt16 &&& ~~~0x80).toNat = b.toNat - 128) := by
  have hbits := prefix_bits b.toNat b.toNat_lt
  rwa [UInt8.ofNat_toNat] at hbits

/-- The size in a long prefix. -/
theorem long_size (b low : UInt8) (hb : 128 ≤ b.toNat) :
    ((b.toUInt16 &&& ~~~0x80) <<< 8 ||| low.toUInt16).toNat = (b.toNat - 128) * 256 + low.toNat := by
  have hhigh := (byte_bits b).2 hb
  have hlt := b.toNat_lt
  have hshift : ((b.toUInt16 &&& ~~~0x80) <<< 8).toNat = (b.toNat - 128) <<< 8 := by
    rw [UInt16.toNat_shiftLeft, hhigh, show UInt16.toNat 8 % 16 = 8 from rfl, Nat.shiftLeft_eq]
    omega
  rw [UInt16.toNat_or, hshift, UInt8.toNat_toUInt16, ← Nat.shiftLeft_add_eq_or_of_lt low.toNat_lt,
    Nat.shiftLeft_eq]

theorem getUInt8_eq_ok {input rest : List UInt8} {b : UInt8} (h : getUInt8 input = .ok (b, rest)) :
    input = b :: rest := by
  obtain ⟨w, hw, rfl, rfl⟩ := getUInt8_acceptsAs.sound input b rest h
  obtain ⟨b, rfl⟩ := List.length_eq_one_iff.mp hw
  rfl

/-- The rest of `getStringSize` after the first byte. -/
theorem getStringSize_eq : getStringSize = getUInt8 >>= fun first =>
    if first.toUInt16 &&& 0x80 ≠ 0 then
      getUInt8 >>= fun low => pure ((first.toUInt16 &&& ~~~0x80) <<< 8 ||| low.toUInt16)
    else pure first.toUInt16 := rfl

theorem getStringSize_acceptsAs :
    AcceptsAs getStringSize Words.stringPrefix fun w => UInt16.ofNat (Words.stringLength w) := by
  have hshort : ∀ b : UInt8, b.toUInt16 = UInt16.ofNat b.toNat := fun b => by
    apply UInt16.toNat_inj.mp
    rw [UInt8.toNat_toUInt16, UInt16.toNat_ofNat', Nat.mod_eq_of_lt (by have := b.toNat_lt; omega)]
  have hlong : ∀ b low : UInt8, 128 ≤ b.toNat →
      (b.toUInt16 &&& ~~~0x80) <<< 8 ||| low.toUInt16 =
        UInt16.ofNat ((b.toNat - 128) * 256 + low.toNat) := fun b low hb => by
    have hlt := b.toNat_lt
    have hlow := low.toNat_lt
    apply UInt16.toNat_inj.mp
    rw [long_size b low hb, UInt16.toNat_ofNat', Nat.mod_eq_of_lt (by omega)]
  rw [getStringSize_eq]
  constructor
  · intro input a rest h
    obtain ⟨b, mid, hfirst, hrest⟩ := bind_eq_ok h
    obtain rfl := getUInt8_eq_ok hfirst
    by_cases hb : b.toNat < 128
    · rw [if_neg (not_not.mpr ((byte_bits b).1.mpr hb))] at hrest
      obtain ⟨rfl, rfl⟩ := Prod.mk.inj (Except.ok.inj hrest)
      exact ⟨[b], .inl ⟨b, rfl, hb⟩, rfl, hshort b⟩
    · rw [if_pos (mt (byte_bits b).1.mp hb)] at hrest
      obtain ⟨low, mid', hsecond, hpure⟩ := bind_eq_ok hrest
      obtain rfl := getUInt8_eq_ok hsecond
      obtain ⟨rfl, rfl⟩ := Prod.mk.inj (Except.ok.inj hpure)
      exact ⟨[b, low], .inr ⟨b, low, rfl, not_lt.mp hb⟩, rfl, hlong b low (not_lt.mp hb)⟩
  · rintro w (⟨b, rfl, hb⟩ | ⟨b, low, rfl, hb⟩) rest
    · refine bind_ok_of (getUInt8_parses b rest) ?_
      rw [if_neg (not_not.mpr ((byte_bits b).1.mpr hb)), hshort b]
      rfl
    · refine bind_ok_of (getUInt8_parses b (low :: rest)) ?_
      rw [if_pos (mt (byte_bits b).1.mp (not_lt.mpr hb))]
      refine (bind_ok_of (getUInt8_parses low rest) rfl).trans ?_
      rw [hlong b low hb]
      rfl

theorem getString_accepts : Accepts getString Words.string := by
  have hlength : ∀ w ∈ Words.stringPrefix, (UInt16.ofNat (Words.stringLength w)).toNat =
      Words.stringLength w := by
    rintro w (⟨b, rfl, hb⟩ | ⟨b, low, rfl, hb⟩)
    · rw [UInt16.toNat_ofNat', Nat.mod_eq_of_lt]
      simp only [Words.stringLength]
      omega
    · have hlt := b.toNat_lt
      have hlow := low.toNat_lt
      rw [UInt16.toNat_ofNat', Nat.mod_eq_of_lt]
      simp only [Words.stringLength]
      omega
  apply getStringSize_acceptsAs.bind
  intro w hw
  rw [hlength w hw]
  exact (read_accepts (Words.stringLength w)).last

theorem getVector_accepts {α : Type} {get : Get α} {L : Language UInt8} (h : Accepts get L) :
    Accepts (getVector get) (Words.vector L) :=
  getUInt8_acceptsAs.bind fun w _ => getMany_accepts h (w.headD 0).toNat

end Primitives

section Parts

theorem Vec2d.accepts : Accepts Vec2d.read (bytes 16) := by
  rw [← bytes_mul 8 8]
  exact getUInt64_accepts.bind fun _ => getUInt64_accepts.last

theorem NodeId.accepts : Accepts NodeId.read (bytes 2) := getUInt16_accepts.last

theorem Hash.accepts : Accepts Hash.read (bytes 32) := (read_accepts hashLength).last

theorem BlockRef.accepts : Accepts BlockRef.read (bytes 34) := by
  rw [← bytes_mul 32 2]
  exact Hash.accepts.bind fun _ => getUInt16_accepts.last

theorem ContentType.accepts : Accepts ContentType.read Words.string := getString_accepts.last

theorem ContentName.accepts : Accepts ContentName.read Words.string := getString_accepts.last

theorem Interest.accepts : Accepts Interest.read Words.interest := by
  unfold Words.interest
  rw [← bytes_mul 4 1]
  exact ContentType.accepts.bind fun _ => getUInt32_accepts.bind fun _ => getUInt8_accepts.last

theorem ContentMetadata.accepts (now : TimePoint) :
    Accepts (ContentMetadata.read now) Words.metadata := by
  have h : Accepts (ContentMetadata.read now) (bytes 32 * (bytes 4 * (bytes 4 *
      (Words.vector Words.string * (Words.string * (bytes 16 * (bytes 2 * (bytes 8 * (bytes 1 *
      bytes 4))))))))) :=
    Hash.accepts.bind fun _ => getUInt32_accepts.bind fun _ => getUInt32_accepts.bind fun _ =>
      (getVector_accepts ContentType.accepts).bind fun _ => ContentName.accepts.bind fun _ =>
      Vec2d.accepts.bind fun _ => NodeId.accepts.bind fun _ => getUInt64_accepts.bind fun _ =>
      getUInt8_accepts.bind fun _ => getUInt32_accepts.last
  simp only [← mul_assoc, bytes_mul] at h
  simpa only [Words.metadata, ← mul_assoc, bytes_mul] using h

theorem BlockRequestArgs.accepts : Accepts BlockRequestArgs.read (bytes 61) := by
  have h : Accepts BlockRequestArgs.read
      (bytes 34 * (bytes 4 * (bytes 4 * (bytes 2 * (bytes 16 * bytes 1))))) :=
    BlockRef.accepts.bind fun _ => getUInt32_accepts.bind fun _ => getUInt32_accepts.bind fun _ =>
      NodeId.accepts.bind fun _ => Vec2d.accepts.bind fun _ => getUInt8_accepts.last
  simpa only [bytes_mul] using h

/-- A header is read from the bytes it is written as. -/
theorem MessageHeader.canonical {input body : List UInt8} {header : MessageHeader}
    (h : MessageHeader.read input = .ok (header, body)) :
    header.recipients.length ≤ 255 ∧ input = header.wire ++ body := by
  have hid : Canonical NodeId.read NodeId.wire := by
    intro input id rest hread
    obtain ⟨value, mid, hvalue, hpure⟩ := bind_eq_ok hread
    obtain ⟨rfl, rfl⟩ := Prod.mk.inj (Except.ok.inj hpure)
    obtain ⟨w, hw, rfl, rfl⟩ := getUInt16_acceptsAs.sound _ _ _ hvalue
    have hwire := bigEndian_ofBigEndian w
    rw [mem_bytes.mp hw] at hwire
    rw [NodeId.wire, toNat_uint16 hw, hwire, List.flatten_singleton]
  obtain ⟨sender, mid, hsender, hrest⟩ := bind_eq_ok h
  obtain ⟨recipients, body', hrecipients, hpure⟩ := bind_eq_ok hrest
  obtain ⟨rfl, rfl⟩ := Prod.mk.inj (Except.ok.inj hpure)
  obtain ⟨n, mid', hcount, hmany⟩ := bind_eq_ok hrecipients
  obtain ⟨hlen, rfl⟩ := getMany_canonical hid hmany
  obtain rfl := getUInt8_eq_ok hcount
  obtain rfl := hid _ _ _ hsender
  have hlt := n.toNat_lt
  dsimp only at hlen ⊢
  refine ⟨by omega, ?_⟩
  simp [MessageHeader.wire, wireVector, hlen]

end Parts

section Messages

/-- An announcement whose interests can be read too. -/
theorem InterestAnn.interests_iff (input : List UInt8) :
    (∃ a rest, InterestAnn.read input = .ok (a, rest) ∧ ∃ is, a.interests = .ok is) ↔
      ∃ w ∈ Words.interestAnn, w <+: input := by
  have hinner : ∀ a : InterestAnn, (∃ is, a.interests = .ok is) ↔
      ∃ u ∈ Words.interest ^ a.count.toNat, u <+: a.data := by
    intro a
    rw [← (getMany_accepts Interest.accepts a.count.toNat).ok_iff]
    unfold InterestAnn.interests
    cases getMany Interest.read a.count.toNat a.data with
    | ok out => simp [Except.map]
    | error e => simp [Except.map]
  constructor
  · rintro ⟨a, rest, hread, his⟩
    rw [hinner] at his
    obtain ⟨count, mid, hcount, hrest⟩ := bind_eq_ok hread
    obtain ⟨size, mid', hsize, hrest'⟩ := bind_eq_ok hrest
    obtain ⟨data, mid'', hdata, hpure⟩ := bind_eq_ok hrest'
    obtain ⟨rfl, rfl⟩ := Prod.mk.inj (Except.ok.inj hpure)
    obtain ⟨c, hc, rfl, rfl⟩ := getUInt8_acceptsAs.sound _ _ _ hcount
    obtain ⟨s, hs, rfl, rfl⟩ := getUInt16_acceptsAs.sound _ _ _ hsize
    obtain rfl := take_eq_ok hdata
    refine ⟨c ++ (s ++ data.1), ⟨c, hc, s ++ data.1, ⟨s, hs, data.1, ⟨?_, his⟩, rfl⟩, rfl⟩, mid'', ?_⟩
    · rw [data.2, toNat_uint16 hs]
    · rw [List.append_assoc, List.append_assoc]
  · rintro ⟨w, ⟨count, hcount, v, ⟨size, hsize, data, ⟨hlen, his⟩, rfl⟩, rfl⟩, rest, rfl⟩
    have hdata : data.length = (UInt16.ofNat (ofBigEndian size)).toNat := by
      rw [hlen, toNat_uint16 hsize]
    refine ⟨⟨count.headD 0, UInt16.ofNat (ofBigEndian size), data, hdata⟩, rest, ?_, ?_⟩
    · rw [List.append_assoc, List.append_assoc]
      refine bind_ok_of (getUInt8_acceptsAs.complete count hcount _) ?_
      refine bind_ok_of (getUInt16_acceptsAs.complete size hsize _) ?_
      exact bind_ok_of (read_parses ⟨data, hdata⟩ rest) rfl
    · rw [hinner]
      exact his

/-- The announcement, if it is one, can be taken apart. -/
def Message.InterestsRead (msg : Message) : Prop :=
  ∀ a, msg = .interestAnn a → ∃ is, a.interests = .ok is

theorem Beacon.accepts : Accepts Beacon.read Words.beacon := by
  unfold Words.beacon
  rw [← bytes_mul 16 1]
  exact Vec2d.accepts.bind fun _ => getBool_accepts.last

theorem BlockResponse.accepts : Accepts BlockResponse.read Words.blockResponse := by
  apply BlockRef.accepts.bind
  intro _
  apply getUInt32_acceptsAs.bind
  intro w hw
  have hsize : bytes (ofBigEndian w) = bytes (UInt32.ofNat (ofBigEndian w)).toNat := by
    rw [toNat_uint32 hw]
  rw [hsize]
  exact (read_accepts _).last

/-- A message that does not carry interests can be read wherever one of its words begins. -/
theorem Message.plain_iff {α : Type} {get : Get α} {L : Language UInt8} (f : α → Message)
    (h : Accepts get L) (hf : ∀ a, (f a).InterestsRead) (input : List UInt8) :
    (∃ msg rest, (f <$> get) input = .ok (msg, rest) ∧ msg.InterestsRead) ↔ ∃ w ∈ L, w <+: input := by
  rw [← (h.map f).ok_iff]
  constructor
  · rintro ⟨msg, rest, hread, -⟩
    exact ⟨_, hread⟩
  · rintro ⟨⟨msg, rest⟩, hread⟩
    obtain ⟨a, -, rfl⟩ := map_eq_ok hread
    exact ⟨_, _, hread, hf a⟩

theorem Message.apply_none_iff (now : TimePoint) (typecode : UInt8) :
    apply now typecode = none ↔ Words.message typecode = none := by
  unfold apply Words.message
  split_ifs <;> simp_all

theorem Message.interestAnn_iff (input : List UInt8) :
    (∃ msg rest, (Message.interestAnn <$> InterestAnn.read) input = .ok (msg, rest) ∧
      msg.InterestsRead) ↔ ∃ w ∈ Words.interestAnn, w <+: input := by
  rw [← InterestAnn.interests_iff]
  constructor
  · rintro ⟨msg, rest, hread, his⟩
    obtain ⟨a, ha, rfl⟩ := map_eq_ok hread
    exact ⟨a, rest, ha, his a rfl⟩
  · rintro ⟨a, rest, ha, his⟩
    refine ⟨_, rest, map_ok_of _ ha, fun a' heq => ?_⟩
    obtain rfl := Message.interestAnn.inj heq
    exact his

/-- What follows a known typecode can be read exactly if a word of that message begins there. -/
theorem Message.apply_iff {now : TimePoint} {typecode : UInt8} {get : Get Message}
    (happly : apply now typecode = some get) (input : List UInt8) :
    (∃ msg rest, get input = .ok (msg, rest) ∧ msg.InterestsRead) ↔
      ∃ L, Words.message typecode = some L ∧ ∃ w ∈ L, w <+: input := by
  have hknown : ∀ L : Language UInt8, Words.message typecode = some L →
      ((∃ L, Words.message typecode = some L ∧ ∃ w ∈ L, w <+: input) ↔ ∃ w ∈ L, w <+: input) := by
    intro L hL
    simp [hL]
  unfold apply at happly
  split_ifs at happly with h19 h18 h17 h16 h0
  · obtain rfl := Option.some.inj happly
    rw [hknown Words.blockResponse (by rw [h19]; rfl)]
    exact plain_iff _ BlockResponse.accepts (fun _ _ heq => by cases heq) input
  · obtain rfl := Option.some.inj happly
    rw [hknown Words.blockRequest (by rw [h18]; rfl)]
    exact plain_iff _ (getVector_accepts BlockRequestArgs.accepts).last (fun _ _ heq => by cases heq) input
  · obtain rfl := Option.some.inj happly
    rw [hknown Words.contentAnn (by rw [h17]; rfl)]
    exact plain_iff _ (getVector_accepts (ContentMetadata.accepts now)).last
      (fun _ _ heq => by cases heq) input
  · obtain rfl := Option.some.inj happly
    rw [hknown Words.interestAnn (by rw [h16]; rfl)]
    exact interestAnn_iff input
  · obtain rfl := Option.some.inj happly
    rw [hknown Words.beacon (by rw [h0]; rfl)]
    exact plain_iff _ Beacon.accepts (fun _ _ heq => by cases heq) input

theorem Message.unmarshal_unknown (now : TimePoint) {typecode : UInt8}
    (hunknown : Words.message typecode = none) (rest : List UInt8) :
    unmarshal now (typecode :: rest) = .ok (none, rest) := by
  refine bind_ok_of (getUInt8_parses typecode rest) ?_
  simp only [(apply_none_iff now typecode).mpr hunknown]
  rfl

/-- What stands behind a header is an unknown typecode, or a known one with its message. -/
theorem Message.unmarshal_iff (now : TimePoint) (body : List UInt8) :
    (∃ msg rest, unmarshal now body = .ok (msg, rest) ∧ ∀ m, msg = some m → m.InterestsRead) ↔
      ∃ typecode rest, body = typecode :: rest ∧
        ∀ L, Words.message typecode = some L → ∃ w ∈ L, w <+: rest := by
  unfold unmarshal
  constructor
  · rintro ⟨msg, rest, hread, his⟩
    obtain ⟨typecode, mid, hfirst, hrest⟩ := bind_eq_ok hread
    refine ⟨typecode, mid, getUInt8_eq_ok hfirst, fun L hL => ?_⟩
    cases happly : apply now typecode with
    | none =>
      rw [(apply_none_iff now typecode).mp happly] at hL
      cases hL
    | some get =>
      simp only [happly] at hrest
      obtain ⟨m, hm, rfl⟩ := map_eq_ok hrest
      obtain ⟨L', hL', hw⟩ := (apply_iff happly mid).mp ⟨m, rest, hm, his m rfl⟩
      obtain rfl := Option.some.inj (hL.symm.trans hL')
      exact hw
  · rintro ⟨typecode, rest, rfl, hwords⟩
    cases happly : apply now typecode with
    | none =>
      have hunknown := (apply_none_iff now typecode).mp happly
      exact ⟨none, rest, unmarshal_unknown now hunknown rest, fun m hm => by cases hm⟩
    | some get =>
      cases hL : Words.message typecode with
      | none =>
        rw [(apply_none_iff now typecode).mpr hL] at happly
        cases happly
      | some L =>
        obtain ⟨m, rest', hm, his⟩ := (apply_iff happly rest).mpr ⟨L, hL, hwords L hL⟩
        refine ⟨some m, rest', bind_ok_of (getUInt8_parses typecode rest) ?_, fun m' hm' => ?_⟩
        · simp only [happly]
          exact map_ok_of some hm
        · obtain rfl := Option.some.inj hm'
          exact his

end Messages

end YingSma
