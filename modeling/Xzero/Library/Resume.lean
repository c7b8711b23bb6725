import Xzero.Library.Simulation

/-!
# Processes on a buffer that grows

A process looks at all the data there is and goes on from the state it is in, until it needs more.
It is run again each time when there is more data (`Trace.feed`). If it does not matter to a run
whether it was interrupted in between, up to an equivalence of what is emitted, **it does not matter
how the data comes in** (`Trace.feed_equiv`). A machine with steps that may be made in two parts is
such a process (`Trace.ends_of_interrupts`).
-/

/-- What a process emits, and the state it is in then; none if it failed. -/
abbrev Trace (ε σ : Type*) := List ε × Option σ

namespace Trace

open List

variable {β ε σ τ υ : Type*}

def pure (s : σ) : Trace ε σ := ([], some s)

def bind (t : Trace ε σ) (f : σ → Trace ε τ) : Trace ε τ :=
  match t.2 with
  | none => (t.1, none)
  | some s => (t.1 ++ (f s).1, (f s).2)

variable {es : List ε} {s : σ} {f : σ → Trace ε τ} {g : τ → Trace ε υ}

@[simp] theorem bind_some : bind (es, some s) f = (es ++ (f s).1, (f s).2) := rfl

theorem bind_eq_some {t : Trace ε σ} {v : τ} (h : bind t f = (es, some v)) :
    ∃ es₁ s es₂, t = (es₁, some s) ∧ f s = (es₂, some v) ∧ es = es₁ ++ es₂ := by
  obtain ⟨es₁, - | s⟩ := t
  · cases h
  · obtain ⟨rfl, hf⟩ := Prod.ext_iff.1 h
    exact ⟨es₁, s, (f s).1, rfl, Prod.ext rfl hf, rfl⟩

@[simp] theorem bind_pure (t : Trace ε σ) : bind t pure = t := by
  obtain ⟨es, - | s⟩ := t
  · rfl
  · exact Prod.ext (append_nil es) rfl

theorem bind_assoc (t : Trace ε σ) : bind (bind t f) g = bind t fun s ↦ bind (f s) g := by
  obtain ⟨es, - | s⟩ := t
  · rfl
  · rw [bind_some, bind_some]
    obtain ⟨es', - | s'⟩ := f s
    · rfl
    · exact Prod.ext (append_assoc ..) rfl

theorem bind_append (es : List ε) (t : Trace ε σ) :
    bind (es ++ t.1, t.2) f = (es ++ (bind t f).1, (bind t f).2) := by
  obtain ⟨es', - | s⟩ := t
  · rfl
  · exact Prod.ext (append_assoc ..) rfl

/-! ### Equivalence -/

/-- A notion of what can be told apart by what is emitted. -/
structure Congruence (ε : Type*) where
  r : List ε → List ε → Prop
  equivalence : Equivalence r
  append : ∀ {a a' b b'}, r a a' → r b b' → r (a ++ b) (a' ++ b')

variable {C : Congruence ε} {t t' t'' : Trace ε σ} {f' : σ → Trace ε τ}

/-- The same is emitted, and the state is the same. -/
def Equiv (C : Congruence ε) (t t' : Trace ε σ) : Prop := C.r t.1 t'.1 ∧ t.2 = t'.2

theorem Equiv.refl (t : Trace ε σ) : Equiv C t t := ⟨C.equivalence.refl _, rfl⟩

theorem Equiv.symm (h : Equiv C t t') : Equiv C t' t := ⟨C.equivalence.symm h.1, h.2.symm⟩

theorem Equiv.trans (h : Equiv C t t') (h' : Equiv C t' t'') : Equiv C t t'' :=
  ⟨C.equivalence.trans h.1 h'.1, h.2.trans h'.2⟩

theorem Equiv.bind (h : Equiv C t t') (hf : ∀ s, t.2 = some s → Equiv C (f s) (f' s)) :
    Equiv C (t.bind f) (t'.bind f') := by
  obtain ⟨es, - | s⟩ := t <;> obtain ⟨es', s'⟩ := t' <;> obtain ⟨hes, rfl⟩ := h
  · exact ⟨hes, rfl⟩
  · exact ⟨C.append hes (hf s rfl).1, (hf s rfl).2⟩

/-! ### Growing data -/

/-- The process is run each time when there is more data. -/
def feed (run : List β → σ → Trace ε σ) (data : List β) (s : σ) : List (List β) → Trace ε σ
  | [] => pure s
  | fragment :: fragments =>
    bind (run (data ++ fragment) s) fun s' ↦ feed run (data ++ fragment) s' fragments

/-- **It does not matter how the data comes in**, if a run on all data `w` may be interrupted. -/
theorem feed_equiv {run : List β → σ → Trace ε σ} {w : List β} {P : σ → Prop}
    (hP : ∀ {d s es s'}, d <+: w → P s → run d s = (es, some s') → P s')
    (hresume : ∀ {d s}, d <+: w → P s → Equiv C (run w s) ((run d s).bind (run w)))
    {fragments : List (List β)} (hne : fragments ≠ []) {d : List β} {s : σ} (hs : P s)
    (hd : d ++ fragments.flatten = w) : Equiv C (feed run d s fragments) (run w s) := by
  induction fragments generalizing d s with
  | nil => exact absurd rfl hne
  | cons fragment fragments ih =>
    rw [flatten_cons, ← append_assoc] at hd
    have hpre : d ++ fragment <+: w := ⟨_, hd⟩
    rcases fragments with - | ⟨fragment', fragments⟩
    · rw [flatten_nil, append_nil] at hd
      rw [feed, hd]
      show Equiv C (bind (run w s) pure) _
      rw [bind_pure]
      exact .refl _
    · refine Equiv.trans (Equiv.bind (.refl _) fun s' hs' ↦ ?_) (hresume hpre hs).symm
      exact ih (cons_ne_nil _ _) (hP hpre hs (Prod.ext rfl hs')) hd

/-! ### Interrupted machines -/

section

variable {ρ : Type*} {m m' : Machine σ ε ρ} {s s' : σ} {es es' : List ε} {r : ρ}

/-- The first machine makes the steps of the second one, but may make one of them in two parts. -/
def Interrupts (C : Congruence ε) (m m' : Machine σ ε ρ) (s : σ) : Prop :=
  ∀ {es s₁}, m.step s = .ok (es, s₁) → m'.step s = .ok (es, s₁) ∨
    ∃ es' es'' s₂, m'.step s = .ok (es', s₂) ∧ m'.step s₁ = .ok (es'', s₂) ∧ C.r es' (es ++ es'')

/-- **An interruption is not seen.** -/
theorem ends_of_interrupts {P : σ → Prop} (hP : ∀ {s es s'}, P s → m.step s = .ok (es, s') → P s')
    (hm : ∀ s, P s → Interrupts C m m' s) (hs : P s) (hsteps : m.Steps s es s')
    (hends : m'.Ends s' es' r) : ∃ es₁, m'.Ends s es₁ r ∧ C.r es₁ (es ++ es') := by
  induction hsteps with
  | refl s => exact ⟨es', hends, C.equivalence.refl _⟩
  | @head s s₁ s₂ es₁ es₂ hstep _ ih =>
    obtain ⟨es₃, hends₃, hr₃⟩ := ih (hP hs hstep) hends
    have happend : C.r (es₁ ++ es₃) (es₁ ++ es₂ ++ es') := by
      rw [append_assoc]
      exact C.append (C.equivalence.refl _) hr₃
    rcases hm s hs hstep with hstep' | ⟨es₄, es₅, t, hstep₄, hstep₅, hr⟩
    · exact ⟨es₁ ++ es₃, (Machine.ends_iff_of_ok hstep').2 ⟨es₃, rfl, hends₃⟩, happend⟩
    · obtain ⟨es₆, rfl, hends₆⟩ := (Machine.ends_iff_of_ok hstep₅).1 hends₃
      refine ⟨es₄ ++ es₆, (Machine.ends_iff_of_ok hstep₄).2 ⟨es₆, rfl, hends₆⟩, ?_⟩
      refine C.equivalence.trans ?_ happend
      rw [← append_assoc]
      exact C.append hr (C.equivalence.refl _)

end

end Trace
