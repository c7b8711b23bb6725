import Xzero.Http.Http1.Grammar

/-!
# Progress of the parser

`loop` is a total function, by the rank of the states that take no byte. **A call takes all of its
fragment unless an error was reported or a message has just ended** (`Parser.progresses`).
-/

namespace Xzero.Http.Http1.Parser

open List Util

variable {p p' : Parser} {data : Bytes} {pos n : ℕ} {c : UInt8} {es : List Event}

/-- The parser is in one of the states of the source, and will be after white space. -/
def Settled (p : Parser) : Prop :=
  p.state ≠ .unset ∧ (p.state = .lwsBegin ∨ p.state = .lwsLf ∨ p.state = .lwsSpHtBegin ∨
    p.state = .lwsSpHt → p.lwsNext.1 ≠ .unset ∧ p.lwsNull.1 ≠ .unset)

/-- The parser is in the error state, or a message has just ended. -/
def Stops (p : Parser) (es : List Event) : Prop :=
  p.state = .protocolError ∨ es.getLast? = some .messageEnd

/-- What a call should come to, with so many bytes at hand. -/
def Progresses (size : ℕ) : List Event × Outcome → Prop
  | (es, .returned p n) => p.Settled ∧ n ≤ size ∧ (n < size → p.Stops es)
  | (_, .raised _) => True

def Advances : Iteration → Prop
  | .next p _ _ => p.Settled
  | .done p _ es => p.Settled ∧ p.Stops es
  | .raise _ => True

theorem iterate_advances (h : p.Settled) : Advances (p.iterate data pos c) := by
  obtain ⟨hset, hlws⟩ := h
  rcases hs : p.state
  all_goals
    rw [hs] at hset hlws
    simp only [iterate, hs, expect, readMajor, readMinor, readStatusCode, readChunkSize, readDigit,
      nextChar, badRequest]
  all_goals repeat' split
  all_goals first | trivial | skip
  all_goals simp_all [Advances, Settled, Stops]

/-- How the loop should end. -/
def Ends (size : ℕ) : List Event × Exit → Prop
  | (_, .reached p pos) => p.Settled ∧ pos = size
  | (es, .done p pos) => p.Settled ∧ p.Stops es ∧ pos ≤ size
  | (_, .raised _) => True

theorem loop_ends (h : p.Settled) (hpos : pos ≤ data.length) : Ends data.length (p.loop data pos) := by
  fun_induction loop p data pos with
  | case1 p pos hlt p' n es hit r ih =>
    have hstep := hit ▸ iterate_advances h
    have hrest : Ends data.length r := ih hstep (add_le_of_next hlt hit)
    obtain ⟨es', x | ⟨p'', pos'⟩ | x⟩ := r
    · exact hrest
    · refine ⟨hrest.1, hrest.2.1.imp_right fun hlast ↦ ?_, hrest.2.2⟩
      rw [getLast?_append, hlast, Option.some_or]
    · exact hrest
  | case2 p pos hlt p' n es hit =>
    have hstep := hit ▸ iterate_advances h
    exact ⟨hstep.1, hstep.2, add_le_of_done hlt hit⟩
  | case3 => trivial
  | case4 p pos hle => exact ⟨h, by omega⟩

theorem parseFragment_progresses (h : p.Settled) (data : Bytes) (inputOffset : ℕ) :
    Progresses (data.length - inputOffset) (p.parseFragment data inputOffset) := by
  have hends : Ends (max inputOffset data.length) (p.loop data inputOffset) := by
    rcases le_or_gt inputOffset data.length with hle | hlt
    · rw [max_eq_right hle]
      exact loop_ends h hle
    · rw [loop_of_le hlt.le, max_eq_left hlt.le]
      exact ⟨h, rfl⟩
  rw [parseFragment]
  generalize p.loop data inputOffset = r at hends
  obtain ⟨es, ⟨p', pos⟩ | ⟨p', pos⟩ | p'⟩ := r
  · obtain ⟨hready, rfl⟩ := hends
    dsimp only
    split
    · exact ⟨by simp [Settled], by omega, by omega⟩
    · exact ⟨hready, by omega, by omega⟩
  · obtain ⟨hready, hstops, hle⟩ := hends
    exact ⟨hready, by omega, fun _ ↦ hstops⟩
  · trivial

theorem settled_of_calls {cs : List (Bytes × ℕ)} (h : p.Settled) (hcs : p.calls cs = (es, some p')) :
    p'.Settled := by
  induction cs generalizing p es with
  | nil =>
    cases hcs
    exact h
  | cons c cs ih =>
    have hfirst := parseFragment_progresses h c.1 c.2
    rw [calls, call] at hcs
    generalize p.parseFragment c.1 c.2 = r at hfirst hcs
    obtain ⟨es₁, ⟨p₁, n⟩ | p₁⟩ := r
    · have hrest : (p₁.calls cs).2 = some p' := congrArg (fun t ↦ t.2) hcs
      exact ih hfirst.1 (Prod.ext rfl hrest)
    · cases hcs

end Xzero.Http.Http1.Parser
