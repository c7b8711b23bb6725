import Xzero.Http.Client.Cluster
import Xzero.TokenShaper.Tokens

/-!
# What the callbacks of a cluster do

One lemma for each function of the cluster says what it can come to, with the conditions under
which it does. The proofs about runs use these and do not unfold the functions.
-/

namespace Xzero.Http.Client

open TokenShaper (Address)

/-- Does a member take one more request? -/
def Member.Admits (x : Member) : Prop :=
  x.enabled ∧ x.state = .online ∧ (x.capacity = 0 ∨ x.load < x.capacity)

instance (x : Member) : Decidable x.Admits := inferInstanceAs (Decidable (_ ∧ _))

namespace Cluster

variable {c : Settings} {s s' : Cluster} {r m : ℕ} {status : SchedulerStatus}

theorem getElem?_setRequest (f : Request → Request) (q : ℕ) :
    (s.setRequest r f).requests[q]? = if r = q then (s.requests[q]?).map f else s.requests[q]? := by
  have hmodify : (s.setRequest r f).requests[q]? = (s.requests.modify r f)[q]? := rfl
  rw [hmodify, List.getElem?_modify]
  split
  · rfl
  · exact congrFun Option.map_id_fun' _

theorem getElem?_setRequest_self {x : Request} (hx : s.requests[r]? = some x)
    (f : Request → Request) : (s.setRequest r f).requests[r]? = some (f x) := by
  rw [getElem?_setRequest, if_pos rfl, hx, Option.map_some]

def handOver (x : Member) (r : ℕ) (s : Cluster) : Cluster :=
  let s := s.setMember x.id fun x ↦ { x with load := x.load + 1 }
  let s := s.setBackend r (some x.id)
  { s with processing := s.processing ++ [(r, x.id)] }.observe (.handed r x.id)

theorem tryProcess_of_admits {x : Member} (h : x.Admits) :
    tryProcess x r s = (.success, s.handOver x r) := by
  obtain ⟨henabled, honline, hload⟩ := h
  have hfree : ¬ (x.capacity ≠ 0 ∧ x.capacity ≤ x.load) := by omega
  rw [tryProcess, if_neg (not_not_intro henabled), if_neg (not_not_intro honline), if_neg hfree]
  rfl

theorem tryProcess_of_not_admits {x : Member} (h : ¬ x.Admits) :
    ∃ status, status ≠ .success ∧ tryProcess x r s = (status, s) := by
  rw [tryProcess]
  split
  · exact ⟨_, by decide, rfl⟩
  · split
    · exact ⟨_, by decide, rfl⟩
    · split
      · exact ⟨_, by decide, rfl⟩
      · refine absurd ⟨?_, ?_, ?_⟩ h
        · exact not_not.mp ‹_›
        · exact not_not.mp ‹_›
        · omega

/-! ### Scheduling -/

/-- What comes of a search for a member that takes a request: one of them takes it, or nothing
changes but whose turn it is. -/
inductive Scheduled (r : ℕ) (s : Cluster) : SchedulerStatus → Cluster → Prop
  | taken {x : Member} {n : ℕ} (hx : x ∈ s.members) (hadmits : x.Admits) :
      Scheduled r s .success ({ s with next := n }.handOver x r)
  | refused {status : SchedulerStatus} {n : ℕ} (hstatus : status ≠ .success) :
      Scheduled r s status { s with next := n }

theorem roundRobin_scheduled {limit count unavailable n : ℕ}
    (h : roundRobin r limit count unavailable { s with next := n } = some (status, s')) :
    Scheduled r s status s' := by
  induction count generalizing unavailable n with
  | zero =>
    cases h
    refine .refused ?_
    split <;> decide
  | succ count ih =>
    rw [roundRobin] at h
    split at h
    · cases h
    · next x hx =>
      by_cases hadmits : x.Admits
      · rw [tryProcess_of_admits hadmits] at h
        cases h
        exact .taken (List.mem_of_getElem? hx) hadmits
      · obtain ⟨e, he, htry⟩ := tryProcess_of_not_admits
          (s := { s with next := if limit ≤ n then 0 else n }) hadmits
        rw [htry] at h
        cases e with
        | success => exact absurd rfl he
        | unavailable => exact ih h
        | overloaded => exact ih h

theorem chance_scheduled {limit unavailable : ℕ} {xs : List Member} (hxs : xs ⊆ s.members) :
    Scheduled r s (chance r limit xs unavailable s).1 (chance r limit xs unavailable s).2 := by
  induction xs generalizing unavailable with
  | nil =>
    rw [chance]
    refine .refused ?_
    dsimp only
    split <;> decide
  | cons x xs ih =>
    obtain ⟨hx, hxs⟩ := List.cons_subset.mp hxs
    rw [chance]
    by_cases hadmits : x.Admits
    · rw [tryProcess_of_admits hadmits]
      exact .taken hx hadmits
    · obtain ⟨e, he, htry⟩ := tryProcess_of_not_admits hadmits
      rw [htry]
      cases e with
      | success => exact absurd rfl he
      | unavailable => exact ih hxs
      | overloaded => exact ih hxs

theorem scheduled (h : scheduleMember c r s = some (status, s')) : Scheduled r s status s' := by
  rw [scheduleMember] at h
  split at h
  · exact roundRobin_scheduled h
  · have hchance : Scheduled r s (chance r s.members.length s.members 0 s).1
        (chance r s.members.length s.members 0 s).2 := chance_scheduled (List.Subset.refl s.members)
    rw [Option.some.inj h] at hchance
    exact hchance

/-! ### Health -/

/-- What comes of a change of the number of tokens. -/
inductive Resized (s : Cluster) : Cluster → Prop
  | intro {t : TokenShaper.Tree ℕ}
      (ht : ∀ {β : Type} (f : TokenShaper.Node ℕ → β),
        (∀ x (rate ceil : ℕ), f { x with rate, ceil } = f x) → t.map f = s.shaper.map f) :
      Resized s { s with shaper := t }

theorem resized {n : ℕ} (h : s.resize n = some s') : Resized s s' := by
  rw [resize] at h
  split at h
  · cases h
    exact .intro fun _ _ ↦ rfl
  · split at h
    · cases h
      exact .intro fun f hf ↦ TokenShaper.map_refresh hf (hf _ _ _)
    · cases h

/-- What comes of a change of the health of a member: the member changes, and so does the number
of tokens; a member that is up is given a request that waits. -/
inductive HealthChanged (m : ℕ) (s : Cluster) : Cluster → Prop
  | resized {f : Member → Member} {s₁ : Cluster} (hf : ∀ x, (f x).id = x.id)
      (h : Resized (s.setMember m f) s₁) : HealthChanged m s s₁
  | disabled {f g : Member → Member} {s₁ : Cluster} (hf : ∀ x, (f x).id = x.id)
      (hg : ∀ x, (g x).id = x.id) (h : Resized (s.setMember m f) s₁) :
      HealthChanged m s (s₁.setMember m g)
  | dequeued {f : Member → Member} {s₁ s₂ : Cluster} (hf : ∀ x, (f x).id = x.id)
      (h : Resized (s.setMember m f) s₁) (hdequeue : s₁.dequeueTo m = some s₂) :
      HealthChanged m s s₂

theorem Resized.refl (s : Cluster) : Resized s s := .intro fun _ _ ↦ rfl

theorem HealthChanged.refl (m : ℕ) (s : Cluster) : HealthChanged m s s := by
  have hid : s.setMember m id = s := by
    have hmap : s.members.map (fun x ↦ if x.id = m then id x else x) = s.members := by simp
    rw [setMember, hmap]
  exact .resized (f := id) (fun _ ↦ rfl) (by rw [hid]; exact .refl s)

theorem healthChanged {value : HealthState} (h : s.setState c m value = some s') :
    HealthChanged m s s' := by
  rw [setState] at h
  split at h
  · cases h
  · split at h
    · cases h
      exact .refl m s
    · rw [onHealthChanged] at h
      split at h
      · cases h
      · split at h
        · cases h
          exact .resized (f := fun x ↦ { x with state := value }) (fun _ ↦ rfl) (.refl _)
        · split at h
          · split at h
            · cases h
            · next hresize =>
              split at h
              · exact .dequeued (f := fun x ↦ { x with state := value }) (fun _ ↦ rfl)
                  (resized hresize) h
              · cases h
                exact .disabled (f := fun x ↦ { x with state := value })
                  (g := fun x ↦ { x with enabled := false }) (fun _ ↦ rfl) (fun _ ↦ rfl)
                  (resized hresize)
          · split at h
            · exact .resized (f := fun x ↦ { x with state := value }) (fun _ ↦ rfl) (resized h)
            · cases h
              exact .resized (f := fun x ↦ { x with state := value }) (fun _ ↦ rfl) (.refl _)

theorem logSuccess_eq (h : s.logSuccess c m = some s') :
    ∃ n, HealthChanged m (s.setMember m fun x ↦ { x with consecutiveSuccessCount := n }) s' := by
  rw [logSuccess] at h
  split at h
  · cases h
  · dsimp only at h
    split at h
    · exact ⟨_, healthChanged h⟩
    · cases h
      exact ⟨_, .refl _ _⟩

theorem setCapacity_eq {n : ℕ} (h : s.setCapacity m n = some s') : ∃ x, s.member? m = some x ∧
    Resized (s.setMember m fun _ ↦ { x with capacity := n % 2 ^ 64 }) s' := by
  rw [setCapacity] at h
  split at h
  · cases h
  · next x hx =>
    rw [onCapacityChanged] at h
    split at h
    · exact ⟨x, hx, resized h⟩
    · cases h
      exact ⟨x, hx, .refl _⟩

end Cluster

end Xzero.Http.Client
