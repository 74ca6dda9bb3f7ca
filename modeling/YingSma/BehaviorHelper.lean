import YingSma.BlockProvenance
import YingSma.ContentHelperEncoding
import YingSma.InterestHelper

/-! `BehaviorHelperImpl`: what a node does by itself in a simulation. It takes up an interest,
publishes content and asks for content it knows of. What `rand()` returns is an argument. -/
namespace YingSma.BehaviorHelper
open StateActions TransitionRuns ContentHelper

/-- The bytes of a string literal. -/
def ascii (s : String) : List UInt8 := s.toList.map fun c => UInt8.ofNat c.toNat

def constAlphanum : List UInt8 :=
  ascii "0123456789ABCDEFGHIJKLMNOPQRSTUVWXYZabcdefghipqrstuvwxyz"

/-- `sizeof (BehaviorHelperImpl::alphanum) - 1`, for the size of the pointer `alphanum`. -/
def szDictionary : ℕ := 8 - 1

def getRandStrN (rand : ℕ → ℕ) (length : ℕ) : List UInt8 :=
  (List.range length).map fun i => constAlphanum.getD (rand i % szDictionary) 0

/-- `sizeof data` -/
def dataSize : ℕ := 4 * 1024

def behaveInterest (now : TimePoint) (h : InterestHelper) : InterestHelper :=
  InterestHelper.createLocal now ⟨ascii "alsotwo"⟩ h.clearLocal

/-- The name is drawn after the data. -/
def behavePublish (hasher : List UInt8 → Hash) (env : Surroundings) (rand : ℕ → ℕ) :
    Action Unit := do
  let data := getRandStrN rand dataSize
  let name := getRandStrN (fun i => rand (dataSize + i)) 16
  let _ ← createNew hasher env [⟨ascii "onlyone"⟩] ⟨name⟩ data
  discard (announceMetadata env)

/-- The metadata `behave_request` picks one of. -/
def metaVec (id : NodeId) (ms : List ContentMetadata) : List ContentMetadata :=
  ms.filter fun m => m.publisher ≠ id

def behaveRequest (env : Surroundings) (rand : ℕ) : Action Unit := do
  let h ← get
  let ms ← metadata env
  match (metaVec h.id ms)[rand % (metaVec h.id ms).length]? with
  | none => pure ()
  | some m => do
      let requests ← attempt (behaviorRequests env h.id m)
      request env requests

section Calls

variable {hasher : List UInt8 → Hash} {env : Surroundings} {h h' : ContentHelper} {u : Unit}

/-- Only the first of the characters are ever drawn, for want of the array's size. -/
theorem mem_getRandStrN {rand : ℕ → ℕ} {length : ℕ} {c : UInt8} (hc : c ∈ getRandStrN rand length) :
    c ∈ constAlphanum.take szDictionary := by
  obtain ⟨i, -, rfl⟩ := List.mem_map.mp hc
  have hlt : rand i % szDictionary < szDictionary := Nat.mod_lt _ (by decide)
  have hall : ∀ k < szDictionary,
      constAlphanum.getD k 0 ∈ constAlphanum.take szDictionary := by decide
  exact hall _ hlt

/-- The calls of the content helper that `behave_publish` makes. -/
def publishOps (rand : ℕ → ℕ) : List Op :=
  [.createNew [⟨ascii "onlyone"⟩] ⟨getRandStrN (fun i => rand (dataSize + i)) 16⟩
    (getRandStrN rand dataSize), .announceMetadata]

theorem perform_step {op : Op} (hrun : perform hasher env op h = .ok (u, h')) :
    step hasher h (env, op) = .ok h' := by
  simp only [step, hrun, Except.map]

theorem behavePublish_ok {rand : ℕ → ℕ} (hrun : behavePublish hasher env rand h = .ok (u, h')) :
    run (step hasher) h ((publishOps rand).map fun op => (env, op)) = .ok h' := by
  obtain ⟨m, h₁, hcreate, hannounce⟩ := bind_eq_ok hrun
  have hfirst : step hasher h (env, (publishOps rand).head (by simp [publishOps])) = .ok h₁ :=
    perform_step (discard_run hcreate)
  have hsecond : step hasher h₁ (env, .announceMetadata) = .ok h' := perform_step hannounce
  exact (run_cons_ok _ hfirst).trans (run_cons_ok _ hsecond)

/-- The metadata listed are asked for their blocks, if there are any of another node. -/
theorem behaveRequest_ok {rand : ℕ} (hrun : behaveRequest env rand h = .ok (u, h')) :
    ∃ h₁, step hasher h (env, .metadata) = .ok h₁ ∧
      (h' = h₁ ∨ ∃ reqs, step hasher h₁ (env, .request reqs) = .ok h') := by
  unfold behaveRequest at hrun
  rw [bind_run_ok (get_run h)] at hrun
  obtain ⟨ms, h₁, hmetadata, hrest⟩ := bind_eq_ok hrun
  refine ⟨h₁, perform_step (discard_run hmetadata), ?_⟩
  cases hpick : (metaVec h.id ms)[rand % (metaVec h.id ms).length]? with
  | none =>
    rw [hpick] at hrest
    exact .inl (Prod.mk.inj (Except.ok.inj hrest)).2.symm
  | some m =>
    rw [hpick] at hrest
    obtain ⟨reqs, h₂, hattempt, hrequest⟩ := bind_eq_ok hrest
    obtain ⟨-, rfl⟩ := attempt_eq_ok hattempt
    exact .inr ⟨reqs, perform_step hrequest⟩

end Calls

end YingSma.BehaviorHelper
