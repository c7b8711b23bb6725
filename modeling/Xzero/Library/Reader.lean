
/-!
# Readers that take their input off the front

A *reader* consumes a prefix of a list and returns a value and what is left, or fails. Two notions
about readers are closed under sequencing and are all a codec needs:

* `Reader.Reads p bs a`: in front of any continuation, `p` takes exactly `bs` and returns `a`. **The
  round trip of a composite encoding is a chain of `Reads.bind`** along the fields.
* `Reader.Shrinks p`: what `p` leaves is an end of what it was given, whatever the input, which is
  what a loop over a reader needs to end and to keep its place.
-/

/-- A reader over symbols `β` that may fail with an `ε`. -/
abbrev Reader (β ε α : Type) := StateT (List β) (Except ε) α

namespace Reader

open StateT

variable {β ε α α' : Type}

/-! ### Reading exactly one encoding -/

/-- The reader takes `bs` and returns `a`, whatever follows. -/
def Reads (p : Reader β ε α) (bs : List β) (a : α) : Prop :=
  ∀ rest, p.run (bs ++ rest) = .ok (a, rest)

namespace Reads

variable {p : Reader β ε α} {f : α → Reader β ε α'} {bs bs' : List β} {a : α} {b : α'}

theorem pure (a : α) : Reads (Pure.pure a : Reader β ε α) [] a := fun _ ↦ rfl

theorem bind (hp : Reads p bs a) (hf : Reads (f a) bs' b) : Reads (p >>= f) (bs ++ bs') b := by
  intro rest
  rw [run_bind, List.append_assoc, hp]
  exact hf rest

theorem map (hp : Reads p bs a) (g : α → α') : Reads (g <$> p) bs (g a) := by
  intro rest
  rw [run_map, hp]
  rfl

end Reads

/-! ### Taking from the front only -/

/-- The reader only takes from the front. -/
def Shrinks (p : Reader β ε α) : Prop :=
  ∀ ⦃bs a rest⦄, p.run bs = .ok (a, rest) → rest <:+ bs

namespace Shrinks

variable {p : Reader β ε α} {f : α → Reader β ε α'}

theorem pure (a : α) : Shrinks (Pure.pure a : Reader β ε α) := by
  rintro bs a rest ⟨⟩
  exact List.suffix_refl _

theorem throw (e : ε) : Shrinks (MonadExcept.throw e : Reader β ε α) := by
  rintro bs a rest ⟨⟩

theorem bind (hp : Shrinks p) (hf : ∀ a, Shrinks (f a)) : Shrinks (p >>= f) := by
  intro bs b rest h
  rw [run_bind] at h
  rcases hrun : p.run bs with e | ⟨a, mid⟩
  · rw [hrun] at h
    cases h
  · rw [hrun] at h
    exact (hf a h).trans (hp hrun)

theorem map (hp : Shrinks p) (g : α → α') : Shrinks (g <$> p) := by
  intro bs b rest h
  rw [run_map] at h
  rcases hrun : p.run bs with e | ⟨a, mid⟩
  · rw [hrun] at h
    cases h
  · rw [hrun] at h
    cases h
    exact hp hrun

end Shrinks

end Reader
