import Mathlib.Data.List.Basic

/-!
# Incremental decoding of a framed stream

A receiver that gets a stream in fragments keeps what it could not use yet, appends every new
fragment to it, and takes off as many whole frames as there are. `FrameDecoder` is the step that
takes one frame off the front, with the two facts every such loop rests on: an empty buffer has no
frame, and a frame takes something off.

**The result does not depend on the fragmentation** (`feed_frames`): if every frame is recognised in
front of any continuation and not before it is complete, then feeding the concatenation of the
frames, cut anywhere, yields the frames' messages in order and leaves nothing behind.
-/

/-- One step of a frame decoder: the first frame's message and what follows it, `none` as long as
the frame is incomplete, or an error. -/
structure FrameDecoder (β μ ε : Type*) where
  next : List β → Except ε (Option (μ × List β))
  next_nil : next [] = .ok none
  /-- A frame takes at least one symbol off. -/
  length_lt : ∀ {bs m rest}, next bs = .ok (some (m, rest)) → rest.length < bs.length

namespace FrameDecoder

open List

variable {β μ ε : Type*} (D : FrameDecoder β μ ε)

/-! ### The loops -/

/-- Take off frames while there are any. The messages found, and either what is left or the error
that ended the loop. -/
def drain (bs : List β) : List μ × Except ε (List β) :=
  match h : D.next bs with
  | .error e => ([], .error e)
  | .ok none => ([], .ok bs)
  | .ok (some (m, rest)) =>
    have := D.length_lt h
    (drain rest).map (m :: ·) fun r ↦ r
termination_by bs.length

/-- Feed fragments one after another, each appended to what the ones before it left. -/
def feed (pending : List β) : List (List β) → List μ × Except ε (List β)
  | [] => ([], .ok pending)
  | fragment :: fragments =>
    match D.drain (pending ++ fragment) with
    | (ms, .error e) => (ms, .error e)
    | (ms, .ok rest) => (feed rest fragments).map (ms ++ ·) fun r ↦ r

variable {D} {bs rest : List β} {m : μ}

theorem drain_of_none (h : D.next bs = .ok none) : D.drain bs = ([], .ok bs) := by
  rw [drain]
  split <;> simp_all

theorem drain_of_some (h : D.next bs = .ok (some (m, rest))) :
    D.drain bs = (D.drain rest).map (m :: ·) fun r ↦ r := by
  rw [drain]
  split <;> simp_all

theorem drain_of_error {e : ε} (h : D.next bs = .error e) : D.drain bs = ([], .error e) := by
  rw [drain]
  split <;> simp_all

/-! ### Frames of a stream -/

variable (D) in
/-- `bs` is a frame for `m`: recognised in front of any continuation, and not before its end. -/
structure Frames (bs : List β) (m : μ) : Prop where
  /-- The whole frame is taken off, and nothing more. -/
  next_append : ∀ rest, D.next (bs ++ rest) = .ok (some (m, rest))
  next_part : ∀ {p q}, bs = p ++ q → q ≠ [] → D.next p = .ok none

theorem Frames.ne_nil (h : D.Frames bs m) : bs ≠ [] := by
  rintro rfl
  have := D.length_lt (h.next_append [])
  simp at this

variable {enc : μ → List β} {ms : List μ}

/-- A part of a framed stream drains into a part of its messages, and what is left over is the
beginning of the frames of the others. -/
theorem drain_frames (hms : ∀ m ∈ ms, D.Frames (enc m) m) {r : List β}
    (h : bs ++ r = ms.flatMap enc) :
    ∃ ms₁ ms₂ p, ms = ms₁ ++ ms₂ ∧ D.drain bs = (ms₁, .ok p) ∧ p ++ r = ms₂.flatMap enc ∧
      (r = [] → ms₂ = []) := by
  induction ms generalizing bs with
  | nil =>
    obtain ⟨rfl, rfl⟩ := append_eq_nil_iff.1 (h.trans flatMap_nil)
    exact ⟨[], [], [], rfl, drain_of_none D.next_nil, rfl, fun _ ↦ rfl⟩
  | cons m ms ih =>
    have hm := hms m mem_cons_self
    rw [flatMap_cons] at h
    -- Either the first frame is complete in `bs`, or `bs` ends inside it.
    rcases append_eq_append_iff.1 h with ⟨q, hq, rfl⟩ | ⟨t, rfl, ht⟩
    · rcases eq_or_ne q [] with rfl | hne
      · obtain ⟨ms₁, ms₂, p, rfl, hdrain, hp, hr⟩ :=
          ih (fun m' h' ↦ hms m' (mem_cons_of_mem _ h')) (nil_append _)
        refine ⟨m :: ms₁, ms₂, p, rfl, ?_, hp, hr⟩
        rw [append_nil] at hq
        have hnext := hm.next_append []
        rw [append_nil, hq] at hnext
        rw [drain_of_some hnext, hdrain, Prod.map_apply]
      · refine ⟨[], m :: ms, bs, rfl, drain_of_none (hm.next_part hq hne), ?_, ?_⟩
        · rw [flatMap_cons, hq, append_assoc]
        · intro hnil
          exact absurd (append_eq_nil_iff.1 hnil).1 hne
    · obtain ⟨ms₁, ms₂, p, rfl, hdrain, hp, hr⟩ :=
        ih (fun m' h' ↦ hms m' (mem_cons_of_mem _ h')) ht.symm
      refine ⟨m :: ms₁, ms₂, p, rfl, ?_, hp, hr⟩
      rw [drain_of_some (hm.next_append t), hdrain, Prod.map_apply]

theorem feed_of_pending (hms : ∀ m ∈ ms, D.Frames (enc m) m) {pending : List β}
    {fragments : List (List β)} (h : pending ++ fragments.flatten = ms.flatMap enc)
    (hnil : fragments = [] → ms = []) : D.feed pending fragments = (ms, .ok []) := by
  induction fragments generalizing pending ms with
  | nil =>
    obtain rfl := hnil rfl
    rw [flatten_nil, append_nil, flatMap_nil] at h
    rw [feed, h]
  | cons fragment fragments ih =>
    rw [flatten_cons, ← append_assoc] at h
    obtain ⟨ms₁, ms₂, p, rfl, hdrain, hp, hr⟩ := drain_frames hms h
    have hms₂ : ∀ m ∈ ms₂, D.Frames (enc m) m := fun m hm ↦ hms m (mem_append_right _ hm)
    have hrest : fragments = [] → ms₂ = [] := by
      rintro rfl
      exact hr flatten_nil
    rw [feed, hdrain]
    show (D.feed p fragments).map (ms₁ ++ ·) (fun r ↦ r) = _
    rw [ih hms₂ hp hrest, Prod.map_apply]

/-- **Fragmentation does not matter.** -/
theorem feed_frames (hms : ∀ m ∈ ms, D.Frames (enc m) m) {fragments : List (List β)}
    (h : fragments.flatten = ms.flatMap enc) : D.feed [] fragments = (ms, .ok []) := by
  refine feed_of_pending hms (by rw [nil_append, h]) ?_
  rintro rfl
  rcases ms with - | ⟨m, ms⟩
  · rfl
  · have hm := (hms m mem_cons_self).ne_nil
    exact absurd (append_eq_nil_iff.1 h.symm).1 hm

end FrameDecoder
