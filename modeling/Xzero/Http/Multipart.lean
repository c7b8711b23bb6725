import Xzero.Http.FileHandler

/-!
# The length of a response with several parts

`handleRangeRequest` computes the length of a body with several parts in one loop and writes the
body in another. The two loops agree on the header of a part, because `numdigits` counts the digits
that are written (`numdigits_eq`), and on its length. They disagree on a range that ends before it
begins: the first loop counts it, and the second one stops there.

`announced` is what the first loop counts. **The length is right if and only if** every
range is written and the sum is a `size_t`, or what is not written is announced with a multiple of
`2 ^ 64` bytes by chance (`contentLength_eq_written_iff`).
-/

namespace Xzero.Http.FileHandler

open List RangeDef Util Option Response

variable {file : TransferFile} {boundary : Bytes} {response : Response} {p : ℕ × ℕ}
  {ps : List (ℕ × ℕ)}

/-! ### The two loops -/

theorem numdigitsFrom_eq (result number : ℕ) :
    numdigitsFrom result number = result + (decimal number).length := by
  induction number using Nat.strong_induction_on generalizing result with
  | _ number ih =>
    rw [numdigitsFrom, decimal]
    split
    · next h =>
      rw [Numeral.digits_of_lt (by omega), length_singleton]
    · next h =>
      rw [ih _ (by omega), Numeral.digits_of_le (by omega) (by omega), length_append,
        length_singleton, decimal]
      omega

theorem numdigits_eq (number : ℕ) : numdigits number = (decimal number).length := by
  rw [numdigits, numdigitsFrom_eq, zero_add]

theorem headerLen_eq (offsets : ℕ × ℕ) :
    headerLen file boundary offsets = (partHeader file boundary offsets).length := by
  simp only [headerLen, partHeader, length_append, numdigits_eq]
  rfl

theorem trailerLen_eq : trailerLen boundary = (trailer boundary).length := by
  simp only [trailerLen, trailer, length_append]
  rfl

/-- What is announced for a range: its header, and its length. -/
def announcedPart (file : TransferFile) (boundary : Bytes) (p : ℕ × ℕ) : ℕ :=
  (partHeader file boundary (makeOffsets p file.size)).length + partLength (makeOffsets p file.size)

def announced (file : TransferFile) (boundary : Bytes) (ps : List (ℕ × ℕ)) : ℕ :=
  (ps.map (announcedPart file boundary)).sum

theorem announced_cons :
    announced file boundary (p :: ps) = announcedPart file boundary p + announced file boundary ps :=
  sum_cons

theorem announced_append {before after : List (ℕ × ℕ)} : announced file boundary (before ++ after) =
      announced file boundary before + announced file boundary after := by
  rw [announced, map_append, sum_append]
  rfl

theorem precompute_mod (contentLength : ℕ) : precompute file boundary contentLength ps % 2 ^ 64 =
      (contentLength + announced file boundary ps) % 2 ^ 64 := by
  induction ps generalizing contentLength with
  | nil => rfl
  | cons p ps ih =>
    rw [precompute, ih, announced_cons, headerLen_eq, announcedPart, Nat.mod_add_mod,
      add_assoc contentLength]

theorem contentLength_populate {isHeadReq : Bool} :
    (populate file boundary isHeadReq response ps).contentLength = response.contentLength := by
  induction ps generalizing response with
  | nil => rfl
  | cons p ps ih =>
    rw [populate]
    split
    · rfl
    · split
      · exact ih
      · exact ih

theorem Response.written_write (response : Response) (content : Content) :
    (response.write content).written = response.written + content.size := by
  simp [written, write]

theorem populate_cons (response : Response) (hp : ¬Reversed file.size p) :
    ∃ response' : Response, response'.written = response.written + announcedPart file boundary p ∧
      populate file boundary false response (p :: ps) =
        populate file boundary false response' ps := by
  refine ⟨_, ?_, by rw [populate, if_neg hp, if_neg Bool.false_ne_true]⟩
  rw [Response.written_write, Response.written_write, announcedPart, add_assoc, Content.size,
    Content.size]

theorem written_populate (h : ∀ p ∈ ps, ¬Reversed file.size p) :
    (populate file boundary false response ps).written =
      response.written + (announced file boundary ps + (trailer boundary).length) := by
  induction ps generalizing response with
  | nil =>
    have hwritten := Response.written_write response (.text (trailer boundary))
    rw [Content.size, ← zero_add (length _)] at hwritten
    exact hwritten
  | cons p ps ih =>
    obtain ⟨hp, hps⟩ := forall_mem_cons.1 h
    obtain ⟨response', hwritten, heq⟩ := populate_cons response hp
    rw [heq, ih hps, hwritten, announced_cons]
    omega

/-- The second loop, where a range ends before it begins: what comes before it is written. -/
theorem written_populate_of_lt {before after : List (ℕ × ℕ)}
    (h : ∀ p ∈ before, ¬Reversed file.size p)
    (hp : Reversed file.size p) :
    (populate file boundary false response (before ++ p :: after)).written =
      response.written + announced file boundary before := by
  induction before generalizing response with
  | nil =>
    rw [nil_append, populate, if_pos hp]
    rfl
  | cons q before ih =>
    obtain ⟨hq, hbefore⟩ := forall_mem_cons.1 h
    obtain ⟨response', hwritten, heq⟩ := populate_cons response hq
    rw [cons_append, heq, ih hbefore, hwritten, announced_cons, add_assoc]

theorem contentLength_multipart : (multipart file boundary false response ps).contentLength =
      some ((announced file boundary ps + (trailer boundary).length) % 2 ^ 64) := by
  rw [multipart, contentLength_populate, ← trailerLen_eq, ← Nat.mod_add_mod, ← Nat.mod_add_mod (announced _ _ _),
    precompute_mod, Nat.zero_add]
  rfl

/-! ### The length of the response -/

section Length

variable {before after : List (ℕ × ℕ)}

theorem contentLength_eq_iff (hbody : response.written = 0) (h : ∀ p ∈ ps, ¬Reversed file.size p) :
    (multipart file boundary false response ps).contentLength =
        some (multipart file boundary false response ps).written ↔
      announced file boundary ps + (trailer boundary).length < 2 ^ 64 := by
  have hwritten : (multipart file boundary false response ps).written =
      announced file boundary ps + (trailer boundary).length := by
    rw [multipart, written_populate h]
    exact (congrArg (· + _) hbody).trans (zero_add _)
  rw [contentLength_multipart, hwritten, some_inj]
  omega

/-- The length is right, where a range ends before it begins, if what is not written is a multiple
of `2 ^ 64`. -/
theorem contentLength_eq_iff_of_lt (hbody : response.written = 0)
    (h : ∀ p ∈ before, ¬Reversed file.size p)
    (hp : Reversed file.size p) :
    (multipart file boundary false response (before ++ p :: after)).contentLength =
        some (multipart file boundary false response (before ++ p :: after)).written ↔
      announced file boundary before < 2 ^ 64 ∧
        2 ^ 64 ∣ announced file boundary (p :: after) + (trailer boundary).length := by
  have hwritten : (multipart file boundary false response (before ++ p :: after)).written =
      announced file boundary before := by
    rw [multipart, written_populate_of_lt h hp]
    exact (congrArg (· + _) hbody).trans (zero_add _)
  rw [contentLength_multipart, hwritten, some_inj, announced_append]
  omega

theorem exists_first (h : ∃ p ∈ ps, Refused file.size p) :
    ∃ before p after, ps = before ++ p :: after ∧ (∀ q ∈ before, ¬Refused file.size q) ∧
      Refused file.size p := by
  have hsome : (ps.find? (Refused file.size ·)).isSome := by simpa using h
  obtain ⟨p, hp⟩ := isSome_iff_exists.1 hsome
  obtain ⟨hrefused, before, after, rfl, hbefore⟩ := find?_eq_some_iff_append.1 hp
  exact ⟨before, p, after, rfl, by simpa using hbefore, of_decide_eq_true hrefused⟩

variable {request : RangeRequest} {status : HttpStatus} {headers : List (Bytes × Bytes)}

theorem eq_multipart (hparse : parse request.range = some ps) (hps : 2 ≤ ps.length)
    (hout : handleRangeRequest file boundary request (.start status headers) =
      some (true, response)) :
    response = multipart file boundary request.isHeadReq
      (setStatus (.start status headers) .partialContent) ps := by
  have hdecl : ¬Declines file request := by
    intro hdecl
    rw [handleRangeRequest_of_declines hdecl] at hout
    exact absurd (some.inj hout) (by simp)
  rw [handleRangeRequest_of_parse hdecl hparse, if_pos (Nat.lt_of_succ_le hps)] at hout
  exact (Prod.mk.inj (some.inj hout)).2.symm

theorem handleRangeRequest_oneByte {range : Bytes} (hparse : parse range = some ps)
    (hrange : range ≠ []) (hps : 2 ≤ ps.length) :
    handleRangeRequest ⟨1, by decide, [], [], []⟩ [] ⟨range, [], false⟩ (.start .undefined []) =
      some (true, multipart ⟨1, by decide, [], [], []⟩ [] false
        (setStatus (.start .undefined []) .partialContent) ps) := by
  refine (handleRangeRequest_of_parse ?_ hparse).trans (if_pos (Nat.lt_of_succ_le hps))
  rintro (hnil | hnone | ⟨hifRange, -⟩)
  · exact hrange hnil
  · exact absurd (hparse.symm.trans hnone) (by simp)
  · exact hifRange rfl

end Length

end Xzero.Http.FileHandler
