import Mathlib.Data.List.Basic

/-!
# Machines and what is seen of them

A deterministic machine goes from state to state until it ends, and on the way something may be
observed. Two machines are the same to an observer if the same can be observed of both and they end
in the same way (`Machine.Same`), however many steps each of them takes. The rule for proving this
is **`same_of_matches`**: related states make the same step, or the first machine makes one on its
own that cannot be seen, of which there is only a limited number in a row.
-/

/-- A machine: a state ends with a result, or it has a next one, with what is observed on the way.
-/
structure Machine (σ ε ρ : Type*) where
  step : σ → Except ρ (List ε × σ)

namespace Machine

variable {σ σ' σ'' ε ρ : Type*}

/-- Steps, and all that is observed. -/
inductive Steps (m : Machine σ ε ρ) : σ → List ε → σ → Prop
  | refl (s : σ) : Steps m s [] s
  | head {s s₁ s₂ : σ} {es es' : List ε} : m.step s = .ok (es, s₁) → Steps m s₁ es' s₂ →
    Steps m s (es ++ es') s₂

def Emits (m : Machine σ ε ρ) (s : σ) (es : List ε) : Prop := ∃ s', m.Steps s es s'

/-- What is observed until the end, and the result. -/
def Ends (m : Machine σ ε ρ) (s : σ) (es : List ε) (r : ρ) : Prop :=
  ∃ s', m.Steps s es s' ∧ m.step s' = .error r

/-- Two states are the same to an observer. -/
structure Same (m : Machine σ ε ρ) (m' : Machine σ' ε ρ) (s : σ) (s' : σ') : Prop where
  emits : ∀ es, m.Emits s es ↔ m'.Emits s' es
  ends : ∀ es r, m.Ends s es r ↔ m'.Ends s' es r

variable {m : Machine σ ε ρ} {m' : Machine σ' ε ρ} {m'' : Machine σ'' ε ρ} {s s₁ s₂ : σ} {s' : σ'}
  {s'' : σ''} {es es' : List ε} {r : ρ}

theorem Same.refl (m : Machine σ ε ρ) (s : σ) : Same m m s s :=
  ⟨fun _ ↦ Iff.rfl, fun _ _ ↦ Iff.rfl⟩

theorem Same.symm (h : Same m m' s s') : Same m' m s' s :=
  ⟨fun es ↦ (h.emits es).symm, fun es r ↦ (h.ends es r).symm⟩

theorem Same.trans (h : Same m m' s s') (h' : Same m' m'' s' s'') : Same m m'' s s'' :=
  ⟨fun es ↦ (h.emits es).trans (h'.emits es), fun es r ↦ (h.ends es r).trans (h'.ends es r)⟩

theorem Steps.trans (h : m.Steps s es s₁) (h' : m.Steps s₁ es' s₂) : m.Steps s (es ++ es') s₂ := by
  induction h with
  | refl s => exact h'
  | head hstep _ ih =>
    rw [List.append_assoc]
    exact .head hstep (ih h')

theorem Steps.single (h : m.step s = .ok (es, s₁)) : m.Steps s es s₁ := by
  have := Steps.head h (Steps.refl s₁)
  rwa [List.append_nil] at this

theorem same_of_silent (h : m.step s = .ok ([], s₁)) : Same m m s₁ s := by
  have hcases : ∀ {es s₂}, m.Steps s es s₂ → (es = [] ∧ s₂ = s) ∨ m.Steps s₁ es s₂ := by
    intro es s₂ hs
    cases hs with
    | refl => exact .inl ⟨rfl, rfl⟩
    | head hstep hrest =>
      cases hstep.symm.trans h
      exact .inr hrest
  refine ⟨fun es ↦ ⟨fun ⟨s₂, h₂⟩ ↦ ⟨s₂, .head h h₂⟩, fun ⟨s₂, h₂⟩ ↦ ?_⟩,
    fun es r ↦ ⟨fun ⟨s₂, h₂, hr⟩ ↦ ⟨s₂, .head h h₂, hr⟩, fun ⟨s₂, h₂, hr⟩ ↦ ?_⟩⟩
  · rcases hcases h₂ with ⟨rfl, -⟩ | h₂
    · exact ⟨s₁, .refl s₁⟩
    · exact ⟨s₂, h₂⟩
  · rcases hcases h₂ with ⟨-, rfl⟩ | h₂
    · cases h.symm.trans hr
    · exact ⟨s₂, h₂, hr⟩

theorem ends_iff_of_error {r' : ρ} (h : m.step s = .error r) : m.Ends s es r' ↔ es = [] ∧ r' = r := by
  constructor
  · rintro ⟨s₂, hsteps, hr'⟩
    cases hsteps with
    | refl =>
      cases h.symm.trans hr'
      exact ⟨rfl, rfl⟩
    | head hstep _ => cases h.symm.trans hstep
  · rintro ⟨rfl, rfl⟩
    exact ⟨s, .refl s, h⟩

theorem ends_iff_of_ok {es₁ : List ε} (h : m.step s = .ok (es₁, s₁)) :
    m.Ends s es r ↔ ∃ es₂, es = es₁ ++ es₂ ∧ m.Ends s₁ es₂ r := by
  constructor
  · rintro ⟨s₂, hsteps, hr⟩
    cases hsteps with
    | refl => cases h.symm.trans hr
    | head hstep hrest =>
      cases h.symm.trans hstep
      exact ⟨_, rfl, s₂, hrest, hr⟩
  · rintro ⟨es₂, rfl, s₂, hrest, hr⟩
    exact ⟨s₂, .head h hrest, hr⟩

theorem Steps.ends (h : m.Steps s es s₁) (h' : m.Ends s₁ es' r) : m.Ends s (es ++ es') r := by
  obtain ⟨s₂, hsteps, hr⟩ := h'
  exact ⟨s₂, h.trans hsteps, hr⟩

theorem Ends.unique {r' : ρ} (h : m.Ends s es r) (h' : m.Ends s es' r') : es = es' ∧ r = r' := by
  obtain ⟨s₁, hsteps, hr⟩ := h
  induction hsteps generalizing es' with
  | refl s =>
    obtain ⟨rfl, rfl⟩ := (ends_iff_of_error hr).1 h'
    exact ⟨rfl, rfl⟩
  | head hstep _ ih =>
    obtain ⟨es₂, rfl, hends⟩ := (ends_iff_of_ok hstep).1 h'
    obtain ⟨rfl, rfl⟩ := ih hends hr
    exact ⟨rfl, rfl⟩

theorem Steps.invariant {P : σ → Prop} (hP : ∀ {s es s'}, P s → m.step s = .ok (es, s') → P s')
    (h : m.Steps s es s₁) (hs : P s) : P s₁ := by
  induction h with
  | refl => exact hs
  | head hstep _ ih => exact ih (hP hs hstep)

/-! ### Simulation -/

/-- How two related states go on. -/
inductive Matches (m : Machine σ ε ρ) (m' : Machine σ' ε ρ) (R : σ → σ' → Prop) (rank : σ → ℕ)
    (s : σ) (s' : σ') : Prop
  | ends (r : ρ) : m.step s = .error r → m'.step s' = .error r → Matches m m' R rank s s'
  | steps (es : List ε) (s₁ : σ) (s₁' : σ') : m.step s = .ok (es, s₁) → m'.step s' = .ok (es, s₁') →
    R s₁ s₁' → Matches m m' R rank s s'
  /-- The first one makes a step on its own. -/
  | stutters (s₁ : σ) : m.step s = .ok ([], s₁) → R s₁ s' → rank s₁ < rank s →
    Matches m m' R rank s s'

section

variable {R : σ → σ' → Prop} {rank : σ → ℕ} (h : ∀ s s', R s s' → Matches m m' R rank s s')

include h

theorem steps_right (hs : R s s') (hsteps : m.Steps s es s₂) :
    ∃ s₂', m'.Steps s' es s₂' ∧ R s₂ s₂' := by
  induction hsteps generalizing s' with
  | refl s => exact ⟨s', .refl s', hs⟩
  | head hstep _ ih =>
    rcases h _ _ hs with ⟨r, hr, -⟩ | ⟨es₁, t, t', ht, ht', hR⟩ | ⟨t, ht, hR, -⟩
    · cases hr.symm.trans hstep
    · cases ht.symm.trans hstep
      obtain ⟨s₂', hsteps', hR'⟩ := ih hR
      exact ⟨s₂', .head ht' hsteps', hR'⟩
    · cases ht.symm.trans hstep
      exact ih hR

theorem catch_up (hs : R s s') : ∃ s₁, m.Steps s [] s₁ ∧
    ((∃ r, m.step s₁ = .error r ∧ m'.step s' = .error r) ∨
      ∃ es t t', m.step s₁ = .ok (es, t) ∧ m'.step s' = .ok (es, t') ∧ R t t') := by
  induction hrank : rank s using Nat.strongRecOn generalizing s with
  | _ n ih =>
    rcases h _ _ hs with ⟨r, hr, hr'⟩ | ⟨es, t, t', ht, ht', hR⟩ | ⟨t, ht, hR, hlt⟩
    · exact ⟨s, .refl s, .inl ⟨r, hr, hr'⟩⟩
    · exact ⟨s, .refl s, .inr ⟨es, t, t', ht, ht', hR⟩⟩
    · obtain ⟨s₁, hsteps, hmatch⟩ := ih (rank t) (hrank ▸ hlt) hR rfl
      exact ⟨s₁, .head ht hsteps, hmatch⟩

theorem steps_left {s₂' : σ'} (hs : R s s') (hsteps : m'.Steps s' es s₂') :
    ∃ s₂, m.Steps s es s₂ ∧ R s₂ s₂' := by
  induction hsteps generalizing s with
  | refl s' => exact ⟨s, .refl s, hs⟩
  | head hstep _ ih =>
    obtain ⟨s₁, hsilent, ⟨r, -, hr'⟩ | ⟨es₁, t, t', ht, ht', hR⟩⟩ := catch_up h hs
    · cases hr'.symm.trans hstep
    · cases ht'.symm.trans hstep
      obtain ⟨s₂, hrest, hR'⟩ := ih hR
      exact ⟨s₂, hsilent.trans (.head ht hrest), hR'⟩

/-- **The simulation rule**: states that match and lead to states that match are the same to an
observer. -/
theorem same_of_matches (hs : R s s') : Same m m' s s' := by
  refine ⟨fun es ↦ ⟨?_, ?_⟩, fun es r ↦ ⟨?_, ?_⟩⟩
  · rintro ⟨s₂, hsteps⟩
    obtain ⟨s₂', hsteps', -⟩ := steps_right h hs hsteps
    exact ⟨s₂', hsteps'⟩
  · rintro ⟨s₂', hsteps'⟩
    obtain ⟨s₂, hsteps, -⟩ := steps_left h hs hsteps'
    exact ⟨s₂, hsteps⟩
  · rintro ⟨s₂, hsteps, hr⟩
    obtain ⟨s₂', hsteps', hR⟩ := steps_right h hs hsteps
    rcases h _ _ hR with ⟨r', hr₁, hr'⟩ | ⟨es₁, t, t', ht, -⟩ | ⟨t, ht, -⟩
    · cases hr₁.symm.trans hr
      exact ⟨s₂', hsteps', hr'⟩
    · cases ht.symm.trans hr
    · cases ht.symm.trans hr
  · rintro ⟨s₂', hsteps', hr'⟩
    obtain ⟨s₂, hsteps, hR⟩ := steps_left h hs hsteps'
    obtain ⟨s₁, hsilent, ⟨r', hr, hr₁'⟩ | ⟨es₁, t, t', -, ht', -⟩⟩ := catch_up h hR
    · cases hr₁'.symm.trans hr'
      have := hsteps.trans hsilent
      rw [List.append_nil] at this
      exact ⟨s₁, this, hr⟩
    · cases ht'.symm.trans hr'

end

end Machine
