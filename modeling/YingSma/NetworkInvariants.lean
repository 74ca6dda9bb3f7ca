import YingSma.AnnouncementNetwork

/-! What holds of the content helpers of all nodes and of all messages in the air, in every
state of a run. It is enough to look at single calls of one helper. -/
namespace YingSma.AnnouncementNetwork
open TransitionRuns ContentHelper

variable {N G : Type} [DecidableEq N]

/-- The call of the content helper by which a node receives a message. -/
def delivery (now : TimePoint) (p : Packet) : Option Op :=
  match p.msg with
  | .contentAnn msg => some (.receiveContentAnn (msg.received p.sentAt now))
  | .blockRequest msg => some (.receiveBlockRequest ⟨p.sender, []⟩ msg)
  | .blockResponse msg => some (.receiveBlockResponse msg)
  | _ => none

/-- `I` holds of every content helper and `J` of every message. -/
structure Tracked (I : G → ContentHelper → Prop) (J : G → Message → Prop) (r : G × Network N) :
    Prop where
  nodes : ∀ node, I r.1 (r.2.nodes node).contents
  air : ∀ p ∈ r.2.air, J r.1 p.msg

/-- A call keeps `I` of its helper, and what it posts has `J`. -/
def KeepsTrack (I : G → ContentHelper → Prop) (J : G → Message → Prop) (g : G)
    (h h' : ContentHelper) : Prop :=
  I g h' ∧ ∀ msg ∈ posts (newEffects h h'), J g msg

/-- What is to be shown of single calls, for notes that are taken by `note`. -/
structure Trackable (hasher : List UInt8 → Hash) (note : G → Network N → ℕ × Act N → G)
    (I : G → ContentHelper → Prop) (J : G → Message → Prop) : Prop where
  later : ∀ {g net event h}, I g h → I (note g net event) h
  later_msg : ∀ {g net event msg}, J g msg → J (note g net event) msg
  interest : ∀ g msg, J g (.interestAnn msg)
  call : ∀ {g net wait node position op h'}, isReceive op = false →
    I g (net.nodes node).contents →
    ContentHelper.step hasher (net.nodes node).contents
      (surroundings (advance net wait) node position, op) = .ok h' →
    KeepsTrack I J (note g net (wait, .call node position op)) (net.nodes node).contents h'
  deliver : ∀ {g env p op h h'}, J g p.msg → delivery env.now p = some op → I g h →
    ContentHelper.step hasher h (env, op) = .ok h' → KeepsTrack I J g h h'

section Steps

variable {hasher : List UInt8 → Hash} {note : G → Network N → ℕ × Act N → G}
  {I : G → ContentHelper → Prop} {J : G → Message → Prop} {g : G} {net net' : Network N}
  {node : N} {position : Vec2d} {op : Op}

theorem withInterests_tracked (ht : Tracked I J (g, net)) (h : InterestHelper) :
    Tracked I J (g, withInterests net node h) where
  nodes := by
    intro other
    by_cases hother : other = node
    · subst hother
      simpa [withInterests] using ht.nodes other
    · simpa [withInterests, Function.update_of_ne hother] using ht.nodes other
  air := ht.air

theorem withContents_tracked (ht : Tracked I J (g, net))
    (hs : withContents hasher net node position op = .ok net')
    (hkeeps : ∀ h', ContentHelper.step hasher (net.nodes node).contents
      (surroundings net node position, op) = .ok h' →
        KeepsTrack I J g (net.nodes node).contents h') : Tracked I J (g, net') := by
  obtain ⟨h', hstep, rfl⟩ := withContents_ok hs
  obtain ⟨hnode, hposts⟩ := hkeeps h' hstep
  constructor
  · intro other
    by_cases hother : other = node
    · subst hother
      simpa using hnode
    · simpa [Function.update_of_ne hother] using ht.nodes other
  · intro p hp
    rcases List.mem_append.mp hp with hp | hp
    · exact ht.air p hp
    · obtain ⟨msg, hmsg, rfl⟩ := List.mem_map.mp hp
      exact hposts msg hmsg

theorem receive_tracked (htrack : Trackable hasher note I J) (ht : Tracked I J (g, net))
    {p : Packet} (hp : J g p.msg) (hs : receive hasher net node position p = .ok net') :
    Tracked I J (g, net') := by
  have hdeliver : ∀ op, delivery net.now p = some op →
      withContents hasher net node position op = .ok net' → Tracked I J (g, net') := by
    intro op hop hcontents
    refine withContents_tracked ht hcontents fun h' hstep => ?_
    exact htrack.deliver hp hop (ht.nodes node) hstep
  unfold receive at hs
  unfold delivery at hdeliver
  cases hmsg : p.msg with
  | beacon msg =>
    rw [hmsg] at hs
    obtain rfl := Except.ok.inj hs
    exact ht
  | interestAnn msg =>
    rw [hmsg] at hs
    obtain ⟨h', -, rfl⟩ := map_eq_ok hs
    exact withInterests_tracked ht h'
  | contentAnn msg =>
    rw [hmsg] at hs hdeliver
    exact hdeliver _ rfl hs
  | blockRequest msg =>
    rw [hmsg] at hs hdeliver
    exact hdeliver _ rfl hs
  | blockResponse msg =>
    rw [hmsg] at hs hdeliver
    exact hdeliver _ rfl hs

/-- What one act of the network keeps. -/
theorem step_tracked (htrack : Trackable hasher note I J) {event : ℕ × Act N}
    (ht : Tracked I J (g, net)) (hs : step hasher net event = .ok net') :
    Tracked I J (note g net event, net') := by
  obtain ⟨wait, act⟩ := event
  have hnow : Tracked I J (g, advance net wait) := ⟨ht.nodes, ht.air⟩
  have hlater : ∀ {event}, Tracked I J (g, net') → Tracked I J (note g net event, net') :=
    fun hnext => ⟨fun other => htrack.later (hnext.nodes other),
      fun p hp => htrack.later_msg (hnext.air p hp)⟩
  unfold step at hs
  cases act with
  | createLocal node type =>
    obtain rfl := Except.ok.inj hs
    exact hlater (withInterests_tracked hnow _)
  | clearLocal node =>
    obtain rfl := Except.ok.inj hs
    exact hlater (withInterests_tracked hnow _)
  | announce node fuzz stack =>
    simp only [perform] at hs
    split at hs
    · cases hs
    · next a h' hrun =>
      obtain rfl := Except.ok.inj hs
      have hnext : Tracked I J (g, withInterests (advance net wait) node h') :=
        withInterests_tracked hnow h'
      refine hlater ⟨hnext.nodes, fun p hp => ?_⟩
      rcases List.mem_append.mp hp with hp | hp
      · exact ht.air p hp
      · obtain ⟨msg, -, rfl⟩ := List.mem_map.mp hp
        exact htrack.interest g msg
  | call node position op =>
    simp only [perform] at hs
    split_ifs at hs with hreceive
    · obtain rfl := Except.ok.inj hs
      exact hlater hnow
    · have hbefore : Tracked I J (note g net (wait, .call node position op), advance net wait) :=
        ⟨fun other => htrack.later (ht.nodes other), fun p hp => htrack.later_msg (ht.air p hp)⟩
      refine withContents_tracked hbefore hs fun h' hstep => ?_
      exact htrack.call (Bool.eq_false_iff.mpr hreceive) (ht.nodes node) hstep
  | deliver k node position =>
    simp only [perform] at hs
    split at hs
    · obtain rfl := Except.ok.inj hs
      exact hlater hnow
    · next p hair =>
      exact hlater (receive_tracked htrack hnow (ht.air p (List.mem_of_getElem? hair)) hs)

/-- What holds at the start of every helper holds in every state of a run. -/
theorem always_tracked (htrack : Trackable hasher note I J) (ids : N → NodeId) (now : TimePoint)
    (hnew : ∀ id, I g (.new id)) (events : List (ℕ × Act N)) :
    Always (noted (step hasher) fun g net event _ => note g net event) (Tracked I J)
      (g, start ids now) events := by
  have hstart : Tracked I J (g, start ids now) :=
    ⟨fun node => hnew (ids node), fun p hp => by cases hp⟩
  apply always_of_run
  intro r past hrun
  refine run_invariant (Tracked I J) (fun r event r' ht hs => ?_) hstart hrun
  obtain ⟨hstep, hnote⟩ := noted_ok hs
  have hnext := step_tracked htrack ht hstep
  rwa [← hnote] at hnext

end Steps

end YingSma.AnnouncementNetwork
