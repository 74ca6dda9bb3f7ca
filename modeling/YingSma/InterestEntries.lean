import YingSma.InterestLoop

/-! Where the entries of the deque come from: what each call of the helper does to the
interest in a type, and that there is never more than one. -/
namespace YingSma

namespace Interest

@[simp] theorem updateWith_type (i j : Interest) : (i.updateWith j).2.type = i.type := rfl

theorem updateWith_hops (i j : Interest) :
    (i.updateWith j).2.hops = if j.hops < i.hops then j.hops else i.hops := by
  simp [updateWith, closerThan]

theorem updateWith_ttlMs (i j : Interest) :
    (i.updateWith j).2.ttlMs = if j.ttlMs > i.ttlMs then j.ttlMs else i.ttlMs := by
  simp [updateWith, newerThan]

/-- Nothing is taken over but what is reported. -/
theorem updateWith_same {i j : Interest} (h : (i.updateWith j).1 = false) :
    (i.updateWith j).2 = i := by
  simp only [updateWith, Bool.or_eq_false_iff] at h
  simp [updateWith, h.1, h.2]

@[simp] theorem elapseTtl_hops (now : TimePoint) (i : Interest) :
    (i.elapseTtl now).hops = i.hops := by
  unfold elapseTtl
  split_ifs <;> rfl

/-- An interest of another node keeps the time it expires at. -/
theorem elapseTtl_expiryTime {i : Interest} (hremote : i.hops ≠ 0) (now : TimePoint) :
    (i.elapseTtl now).expiryTime = i.expiryTime := by
  unfold elapseTtl
  rw [if_neg (by simpa [isLocal] using hremote)]
  split_ifs <;> rfl

/-- An interest of the node itself is given its whole time again. -/
theorem elapseTtl_local {i : Interest} (hlocal : i.hops = 0) (now : TimePoint) :
    i.elapseTtl now = { i with expiryTime := now + i.ttlMs.toNat * milli } := by
  unfold elapseTtl
  rw [if_pos (by simpa [isLocal] using hlocal)]

end Interest

namespace InterestHelper

def types (h : InterestHelper) : List ContentType := h.interests.map Interest.type

theorem mem_types {h : InterestHelper} {i : Interest} (hi : i ∈ h.interests) : i.type ∈ types h :=
  List.mem_map_of_mem hi

/-- The first element found by `p`, and what is before and behind it. -/
theorem exists_split {α : Type} {p : α → Bool} {xs : List α} {idx : ℕ}
    (hidx : xs.findIdx? p = some idx) :
    ∃ l x r, xs = l ++ x :: r ∧ p x ∧ xs.eraseIdx idx = l ++ r ∧ xs[idx]? = some x := by
  obtain ⟨hlt, hp, -⟩ := List.findIdx?_eq_some_iff_getElem.mp hidx
  refine ⟨xs.take idx, xs[idx], xs.drop (idx + 1), ?_, hp, List.eraseIdx_eq_take_drop_succ _ _,
    List.getElem?_eq_getElem hlt⟩
  rw [List.getElem_cons_drop, List.take_append_drop]

/-- A search that ends without an entry of the type. -/
theorem not_mem_types {type : ContentType} {h : InterestHelper}
    (hidx : (h.interests.findIdx? fun j => j.type = type) = none) : type ∉ types h := by
  intro hmem
  obtain ⟨e, he, htype⟩ := List.mem_map.mp hmem
  have hnone := List.findIdx?_eq_none_iff.mp hidx e he
  simp [htype] at hnone

section Learning

variable {now : TimePoint} {i : Interest} {h : InterestHelper}

/-- What is learned of an interest: it brings nothing new, updates the entry of its type,
which moves to the front, or gets an entry. -/
inductive Learns (now : TimePoint) (i : Interest) (h : InterestHelper) : InterestHelper → Prop
  | known {e} (he : e ∈ h.interests) (htype : e.type = i.type)
      (hsame : (e.updateWith i).1 = false) : Learns now i h h
  | updated {l e r h'} (hsplit : h.interests = l ++ e :: r) (htype : e.type = i.type)
      (hinterests : h'.interests = (e.updateWith i).2 :: (l ++ r))
      (htime : h'.nextAnnounceTime = h.nextAnnounceTime) (hid : h'.id = h.id) : Learns now i h h'
  | created (hnew : i.type ∉ types h) :
      Learns now i h (pushFront (Interest.new now i.type i.ttlMs i.hops) h)

theorem learnRemote_learns (now : TimePoint) (i : Interest) (h : InterestHelper) :
    Learns now i h (learnRemote now i h) := by
  unfold learnRemote
  cases hidx : h.interests.findIdx? fun j => j.type = i.type with
  | none =>
    exact Learns.created (not_mem_types hidx)
  | some idx =>
    obtain ⟨l, e, r, hsplit, htype, herase, hget⟩ := exists_split hidx
    rw [decide_eq_true_eq] at htype
    dsimp only
    rw [hget, Option.getD_some, herase]
    cases hnews : (e.updateWith i).1 with
    | false => exact .known (by simp [hsplit]) htype hnews
    | true => exact .updated hsplit htype rfl rfl rfl

variable {h' : InterestHelper} {e : Interest}

/-- Where an entry found afterwards comes from. -/
theorem Learns.mem (hl : Learns now i h h') (he : e ∈ h'.interests) :
    e ∈ h.interests ∨ (∃ e₀ ∈ h.interests, e₀.type = i.type ∧ e = (e₀.updateWith i).2) ∨
      (i.type ∉ types h ∧ e = Interest.new now i.type i.ttlMs i.hops) := by
  cases hl with
  | known => exact .inl he
  | @updated l e₀ r _ hsplit htype hinterests =>
    rw [hinterests] at he
    rcases List.mem_cons.mp he with rfl | he
    · exact .inr (.inl ⟨e₀, by simp [hsplit], htype, rfl⟩)
    · apply Or.inl
      rw [hsplit]
      simp only [List.mem_append, List.mem_cons] at he ⊢
      exact he.imp_right .inr
  | created hnew =>
    rcases List.mem_cons.mp he with rfl | he
    · exact .inr (.inr ⟨hnew, rfl⟩)
    · exact .inl he

theorem Learns.nextAnnounceTime_eq (hl : Learns now i h h') :
    h'.nextAnnounceTime = h.nextAnnounceTime := by
  cases hl with
  | known => rfl
  | updated _ _ _ htime => exact htime
  | created => rfl

theorem Learns.types_perm (hl : Learns now i h h') :
    (types h').Perm (types h) ∨ (i.type ∉ types h ∧ types h' = i.type :: types h) := by
  cases hl with
  | known => exact .inl (List.Perm.refl _)
  | updated hsplit htype hinterests =>
    apply Or.inl
    simp only [types, hsplit, hinterests, List.map_cons, List.map_append, Interest.updateWith_type]
    exact List.perm_middle.symm
  | created hnew => exact .inr ⟨hnew, rfl⟩

theorem Learns.nodup (hl : Learns now i h h') (hd : (types h).Nodup) : (types h').Nodup := by
  rcases hl.types_perm with hperm | ⟨hnew, htypes⟩
  · exact hperm.nodup_iff.mpr hd
  · rw [htypes]
    exact List.nodup_cons.mpr ⟨hnew, hd⟩

/-- An entry of another type stays as it is. -/
theorem Learns.other (hl : Learns now i h h') (he : e ∈ h.interests) (htype : e.type ≠ i.type) :
    e ∈ h'.interests := by
  cases hl with
  | known => exact he
  | updated hsplit hsame hinterests =>
    rw [hsplit] at he
    rw [hinterests]
    simp only [List.mem_append, List.mem_cons] at he ⊢
    rcases he with he | rfl | he
    · exact .inr (.inl he)
    · exact (htype hsame).elim
    · exact .inr (.inr he)
  | created => exact List.mem_cons_of_mem _ he

/-- Types are different, so that an entry is known by its type. -/
theorem eq_of_type (hd : (types h).Nodup) {e₁ e₂ : Interest} (h₁ : e₁ ∈ h.interests)
    (h₂ : e₂ ∈ h.interests) (htype : e₁.type = e₂.type) : e₁ = e₂ :=
  List.inj_on_of_nodup_map hd h₁ h₂ htype

theorem Learns.own (hl : Learns now i h h') (hd : (types h).Nodup) (he : e ∈ h.interests)
    (htype : e.type = i.type) : (e.updateWith i).2 ∈ h'.interests := by
  cases hl with
  | known he₀ htype₀ hsame =>
    obtain rfl := eq_of_type hd he he₀ (htype.trans htype₀.symm)
    rwa [Interest.updateWith_same hsame]
  | @updated l e₀ r _ hsplit htype₀ hinterests =>
    have he₀ : e₀ ∈ h.interests := by simp [hsplit]
    obtain rfl := eq_of_type hd he he₀ (htype.trans htype₀.symm)
    rw [hinterests]
    exact List.mem_cons_self
  | created hnew => exact (hnew (htype ▸ mem_types he)).elim

/-- A type that is new gets an entry with what the announcement has. -/
theorem Learns.fresh (hl : Learns now i h h') (hnew : i.type ∉ types h) :
    Interest.new now i.type i.ttlMs i.hops ∈ h'.interests := by
  cases hl with
  | known he htype => exact (hnew (htype ▸ mem_types he)).elim
  | @updated l e r _ hsplit htype =>
    have he : e ∈ h.interests := by simp [hsplit]
    exact (hnew (htype ▸ mem_types he)).elim
  | created => exact List.mem_cons_self

/-- The entry of the type afterwards is updated or new. -/
theorem Learns.entry (hl : Learns now i h h') (hd : (types h).Nodup) (he : e ∈ h'.interests)
    (htype : e.type = i.type) :
    (∃ e₀ ∈ h.interests, e₀.type = i.type ∧ e = (e₀.updateWith i).2) ∨
      (i.type ∉ types h ∧ e = Interest.new now i.type i.ttlMs i.hops) := by
  rcases hl.mem he with he₀ | hrest
  · exact .inl ⟨e, he₀, htype, eq_of_type (hl.nodup hd) he (hl.own hd he₀ htype) rfl⟩
  · exact hrest

theorem Learns.types_subset (hl : Learns now i h h') : types h ⊆ types h' := by
  rcases hl.types_perm with hperm | ⟨-, htypes⟩
  · exact hperm.symm.subset
  · rw [htypes]
    exact List.subset_cons_self _ _

theorem learnAll_nodup (received : List Interest) (hd : (types h).Nodup) :
    (types (learnAll now received h)).Nodup := by
  induction received generalizing h with
  | nil => exact hd
  | cons j received ih => exact ih ((learnRemote_learns now _ h).nodup hd)

theorem learnAll_nextAnnounceTime (received : List Interest) :
    (learnAll now received h).nextAnnounceTime = h.nextAnnounceTime := by
  induction received generalizing h with
  | nil => rfl
  | cons j received ih => exact ih.trans (learnRemote_learns now _ h).nextAnnounceTime_eq

/-- What holds of the entries there were, and of each one that is updated or created, holds
of all entries a message leaves. -/
theorem learnAll_entries {known : List ContentType} {P : Interest → Prop}
    (received : List Interest)
    (hupdated : ∀ j ∈ received, ∀ e, e.type = j.type → P e →
      P (e.updateWith { j with hops := j.hops + 1 }).2)
    (hcreated : ∀ j ∈ received, j.type ∉ known → P (Interest.new now j.type j.ttlMs (j.hops + 1)))
    (hknown : known ⊆ types h) (hentries : ∀ e ∈ h.interests, P e) :
    ∀ e ∈ (learnAll now received h).interests, P e := by
  induction received generalizing h with
  | nil => exact hentries
  | cons j received ih =>
    rw [List.forall_mem_cons] at hupdated hcreated
    have hl := learnRemote_learns now { j with hops := j.hops + 1 } h
    apply ih hupdated.2 hcreated.2 (List.Subset.trans hknown hl.types_subset)
    intro e he
    rcases hl.mem he with he | ⟨e₀, he₀, htype, rfl⟩ | ⟨hnew, rfl⟩
    · exact hentries e he
    · exact hupdated.1 e₀ htype (hentries e₀ he₀)
    · exact hcreated.1 fun hmem => hnew (hknown hmem)

end Learning

section Creating

variable {now : TimePoint} {type : ContentType} {h : InterestHelper} {e : Interest}

/-- `create_local` keeps an interest of the node itself and replaces any other. -/
theorem createLocal_cases (now : TimePoint) (type : ContentType) (h : InterestHelper) :
    (createLocal now type h = h ∧ ∃ e ∈ h.interests, e.type = type ∧ e.isLocal) ∨
      (∃ l e r, h.interests = l ++ e :: r ∧ e.type = type ∧
        (createLocal now type h).interests =
          Interest.new now type defaultInitialTtl 0 :: (l ++ r)) ∨
      (type ∉ types h ∧
        createLocal now type h = pushFront (Interest.new now type defaultInitialTtl 0) h) := by
  unfold createLocal
  cases hidx : h.interests.findIdx? fun j => j.type = type with
  | none =>
    exact .inr (.inr ⟨not_mem_types hidx, rfl⟩)
  | some idx =>
    obtain ⟨l, e, r, hsplit, htype, herase, hget⟩ := exists_split hidx
    rw [decide_eq_true_eq] at htype
    dsimp only
    rw [hget, Option.map_some, Option.getD_some, herase]
    cases hlocal : e.isLocal with
    | true => exact .inl ⟨rfl, e, by simp [hsplit], htype, hlocal⟩
    | false => exact .inr (.inl ⟨l, e, r, hsplit, htype, rfl⟩)

theorem mem_createLocal (he : e ∈ (createLocal now type h).interests) :
    e ∈ h.interests ∨ e = Interest.new now type defaultInitialTtl 0 := by
  rcases createLocal_cases now type h with ⟨heq, -⟩ | ⟨l, e₀, r, hsplit, -, heq⟩ | ⟨-, heq⟩
  · exact .inl (heq ▸ he)
  · rw [heq] at he
    rcases List.mem_cons.mp he with rfl | he
    · exact .inr rfl
    · apply Or.inl
      rw [hsplit]
      simp only [List.mem_append, List.mem_cons] at he ⊢
      exact he.imp_right .inr
  · rw [heq] at he
    exact (List.mem_cons.mp he).symm

theorem createLocal_nodup (hd : (types h).Nodup) : (types (createLocal now type h)).Nodup := by
  rcases createLocal_cases now type h with ⟨heq, -⟩ | ⟨l, e, r, hsplit, htype, heq⟩ | ⟨hnew, heq⟩
  · rwa [heq]
  · have hperm : (types (createLocal now type h)).Perm (types h) := by
      simp only [types, heq, hsplit, List.map_cons, List.map_append, htype]
      exact List.perm_middle.symm
    exact hperm.nodup_iff.mpr hd
  · rw [heq]
    exact List.nodup_cons.mpr ⟨hnew, hd⟩

theorem clearLocal_nodup (hd : (types h).Nodup) : (types (clearLocal h)).Nodup :=
  (List.Sublist.map _ List.filter_sublist).nodup hd

end Creating

section Announcing

variable {now : TimePoint} {fuzz : ℕ} {stack : ByteMemory} {h h' : InterestHelper}
variable {a : Announcement} {e : Interest}

theorem mem_live {interests : List Interest} (he : e ∈ live now interests) :
    ∃ e₀ ∈ interests, e = e₀.elapseTtl now ∧ ¬ e.expired := by
  obtain ⟨hmem, hlive⟩ := List.mem_filter.mp he
  obtain ⟨e₀, he₀, rfl⟩ := List.mem_map.mp hmem
  exact ⟨e₀, he₀, rfl, by simpa using hlive⟩

theorem mem_live_of {interests : List Interest} (he : e ∈ interests)
    (hlive : ¬ (e.elapseTtl now).expired) : e.elapseTtl now ∈ live now interests :=
  List.mem_filter.mpr ⟨List.mem_map_of_mem he, by simpa using hlive⟩

theorem Leaves.mem {untaken left : List Interest} (hleft : Leaves now untaken left)
    (he : e ∈ left) : ∃ e₀ ∈ untaken, e = e₀ ∨ (e = e₀.elapseTtl now ∧ ¬ e.expired) := by
  cases hleft with
  | unseen => exact ⟨e, he, .inl rfl⟩
  | @rejected i rest huntaken hlive =>
    rw [huntaken]
    rcases List.mem_cons.mp he with rfl | he
    · exact ⟨i, List.mem_cons_self, .inr ⟨rfl, hlive⟩⟩
    · exact ⟨e, List.mem_cons_of_mem _ he, .inl rfl⟩

theorem Leaves.mem_of {untaken left : List Interest} (hleft : Leaves now untaken left)
    (he : e ∈ untaken) : e ∈ left ∨ e.elapseTtl now ∈ left := by
  cases hleft with
  | unseen => exact .inl he
  | rejected huntaken hlive =>
    rw [huntaken] at he
    rcases List.mem_cons.mp he with rfl | he
    · exact .inr List.mem_cons_self
    · exact .inl (List.mem_cons_of_mem _ he)

theorem Leaves.types_eq {untaken left : List Interest} (hleft : Leaves now untaken left) :
    left.map Interest.type = untaken.map Interest.type := by
  cases hleft with
  | unseen => rfl
  | rejected huntaken hlive => simp [huntaken]

/-- The deque after a call that was due. -/
theorem announce_interests (hrun : announce now fuzz stack h = .ok (a, h')) :
    (now < h.nextAnnounceTime ∧ a.count = 0 ∧ h' = h) ∨
      (h.nextAnnounceTime ≤ now ∧ ∃ left n, Leaves now (h.interests.drop n) left ∧
        h'.interests = left ++ live now (h.interests.take n) ∧
        a.count = (live now (h.interests.take n)).length) := by
  rcases announce_ok hrun with hearly | ⟨hdue, rotated, p, hloop, hcount, rfl⟩
  · exact .inl hearly
  · obtain ⟨left, hleft, rfl, hp⟩ := announceLoop_start hloop
    exact .inr ⟨hdue, left, taken now 0 h.interests, hleft, pace_interests _ _ _, hcount.trans hp⟩

/-- Announcing brings the time of some entries up to date and drops those expired. -/
theorem mem_announce (hrun : announce now fuzz stack h = .ok (a, h')) (he : e ∈ h'.interests) :
    ∃ e₀ ∈ h.interests, e = e₀ ∨ (e = e₀.elapseTtl now ∧ ¬ e.expired) := by
  rcases announce_interests hrun with ⟨-, -, rfl⟩ | ⟨-, left, n, hleft, hinterests, -⟩
  · exact ⟨e, he, .inl rfl⟩
  · rw [hinterests] at he
    rcases List.mem_append.mp he with he | he
    · obtain ⟨e₀, he₀, heq⟩ := hleft.mem he
      exact ⟨e₀, List.mem_of_mem_drop he₀, heq⟩
    · obtain ⟨e₀, he₀, heq, hlive⟩ := mem_live he
      exact ⟨e₀, List.mem_of_mem_take he₀, .inr ⟨heq, hlive⟩⟩

theorem mem_moved (hrun : announce now fuzz stack h = .ok (a, h')) (he : e ∈ moved a h') :
    ∃ e₀ ∈ h.interests, e = e₀.elapseTtl now ∧ ¬ e.expired := by
  rcases announce_interests hrun with ⟨-, hcount, -⟩ | ⟨-, left, n, hleft, hinterests, hcount⟩
  · rw [moved, hcount, Nat.sub_zero, List.drop_length] at he
    cases he
  · rw [moved, hcount, hinterests, List.length_append, Nat.add_sub_cancel, List.drop_left] at he
    obtain ⟨e₀, he₀, heq⟩ := mem_live he
    exact ⟨e₀, List.mem_of_mem_take he₀, heq⟩

/-- An entry is dropped only when it has expired. -/
theorem announce_keeps (hrun : announce now fuzz stack h = .ok (a, h')) (he : e ∈ h.interests)
    (hlive : ¬ (e.elapseTtl now).expired) : e ∈ h'.interests ∨ e.elapseTtl now ∈ h'.interests := by
  rcases announce_interests hrun with ⟨-, -, rfl⟩ | ⟨-, left, n, hleft, hinterests, -⟩
  · exact .inl he
  · rw [hinterests]
    simp only [List.mem_append]
    rw [← List.take_append_drop n h.interests] at he
    rcases List.mem_append.mp he with he | he
    · exact .inr (.inr (mem_live_of he hlive))
    · exact (hleft.mem_of he).imp .inl .inl

theorem announce_nodup (hrun : announce now fuzz stack h = .ok (a, h')) (hd : (types h).Nodup) :
    (types h').Nodup := by
  rcases announce_interests hrun with ⟨-, -, rfl⟩ | ⟨-, left, n, hleft, hinterests, -⟩
  · exact hd
  · have hsub : ((live now (h.interests.take n)).map Interest.type).Sublist
        ((h.interests.take n).map Interest.type) := by
      have hmap := (List.filter_sublist (l := (h.interests.take n).map (Interest.elapseTtl now))
        (p := fun i => !i.expired)).map Interest.type
      rwa [List.map_map, show Interest.type ∘ Interest.elapseTtl now = Interest.type from
        funext (Interest.elapseTtl_type now)] at hmap
    unfold types at hd ⊢
    rw [hinterests, List.map_append, hleft.types_eq]
    rw [← List.take_append_drop n h.interests, List.map_append] at hd
    exact (List.perm_append_comm.nodup_iff.mp hd).sublist (List.Sublist.append_left hsub _)

end Announcing

section Calls

variable {h h' : InterestHelper} {c : TimePoint × Call}

theorem step_nodup (hd : (types h).Nodup) (hs : step h c = .ok h') : (types h').Nodup := by
  obtain ⟨now, call⟩ := c
  cases call with
  | createLocal type =>
    obtain rfl := Except.ok.inj hs
    exact createLocal_nodup hd
  | clearLocal =>
    obtain rfl := Except.ok.inj hs
    exact clearLocal_nodup hd
  | receive msg =>
    obtain ⟨received, -, rfl⟩ := step_receive hs
    exact learnAll_nodup received hd
  | announce fuzz stack =>
    obtain ⟨a, hrun⟩ := step_announce hs
    exact announce_nodup hrun hd

end Calls

end InterestHelper

end YingSma
